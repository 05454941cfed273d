import Manchester.Assembler.Edges
import Manchester.Assembler.Owners

namespace Manchester.Assembler

open Fanout

/-- The operand positions that a destination leads to, behind so many DUP nodes of the
assembler. -/
inductive Spreads (heap : List Node) : Option Destination → List Destination → Nat → Prop where
  | none : Spreads heap none [] 0
  | leaf (d : Destination) (node : Node) (hnode : heap[d.node]?=some node)
      (hstop : node.forwards=false) : Spreads heap (some d) [d] 0
  | relay (d : Destination) (node : Node) (us vs : List Destination) (m n : Nat)
      (hnode : heap[d.node]?=some node) (hforwards : node.forwards=true)
      (hfirst : Spreads heap node.destination1 us m)
      (hsecond : Spreads heap node.destination2 vs n) : Spreads heap (some d) (us++vs) (m+n+1)

/-- What both destinations of a node lead to. -/
def NodeSpreads (heap : List Node) (node : Node) (us : List Destination) : Prop :=
  ∃ us1 us2 m n,Spreads heap node.destination1 us1 m ∧ Spreads heap node.destination2 us2 n ∧
    us1++us2=us

theorem nodeSpreads_open {heap : List Node} {node : Node}
    (h : ∀ slot,node.slot slot=none) : NodeSpreads heap node [] := by
  have h1 := h .destination1
  have h2 := h .destination2
  simp only [Node.slot] at h1 h2
  refine ⟨[],[],0,0,?_,?_,rfl⟩
  · rw [h1]
    exact .none
  · rw [h2]
    exact .none

/-- Each definition delivers to the first of the uses. -/
theorem Hooked.delivers_some {n0 : Nat} {s : IrState} {owner : Nat → Nat}
    {defs producers : List Nat} {us : List Destination}
    (h : Hooked n0 s owner defs producers us) {p : Nat} (hp : p∈defs) :
    ∃ vs tail,vs.Sublist us ∧ Delivers n0 s owner p vs tail := by
  by_cases hlen : us.length ≤ 2
  · exact ⟨us,p,.refl _,(h.short hlen).2 p hp⟩
  · obtain rfl | ⟨init,last,rfl⟩ := List.eq_nil_or_concat' defs
    · cases hp
    · obtain ⟨⟨tail,-,hlast⟩,hinit⟩ := h.long (by omega) init last rfl
      rw [List.mem_append,List.mem_singleton] at hp
      obtain hp | rfl := hp
      · obtain ⟨t,ht⟩ := hinit p hp
        exact ⟨us.take 3,t,List.take_sublist _ _,ht⟩
      · exact ⟨us,tail,.refl _,hlast⟩

/-- All definitions deliver to all uses where none was left out. -/
theorem Hooked.delivers_all {n0 : Nat} {s : IrState} {owner : Nat → Nat}
    {defs producers : List Nat} {us : List Destination}
    (h : Hooked n0 s owner defs producers us) (hfew : defs.length ≤ 1 ∨ us.length ≤ 3) {p : Nat}
    (hp : p∈defs) : ∃ tail,Delivers n0 s owner p us tail := by
  by_cases hlen : us.length ≤ 2
  · exact ⟨p,(h.short hlen).2 p hp⟩
  · obtain rfl | ⟨init,last,rfl⟩ := List.eq_nil_or_concat' defs
    · cases hp
    · obtain ⟨⟨tail,-,hlast⟩,hinit⟩ := h.long (by omega) init last rfl
      rw [List.mem_append,List.mem_singleton] at hp
      obtain hp | rfl := hp
      · obtain ⟨t,ht⟩ := hinit p hp
        have hpos := List.length_pos_of_mem hp
        have hthree : us.length ≤ 3 := by
          obtain hone | hthree := hfew
          · rw [List.length_append,List.length_singleton] at hone
            omega
          · exact hthree
        rw [List.take_of_length_le hthree] at ht
        exact ⟨t,ht⟩
      · exact ⟨tail,hlast⟩

theorem target_leaf {n0 : Nat} {o : Option Destination} {r : Destination}
    (h : o.map (target n0)=some (.leaf r)) : o=some r := by
  obtain ⟨d,rfl,hd⟩ := Option.map_eq_some_iff.mp h
  unfold target at hd
  split_ifs at hd
  · rw [Slot.leaf.inj hd]

theorem target_node {n0 : Nat} {o : Option Destination} {q : Nat}
    (h : o.map (target n0)=some (.node q)) : ∃ d,o=some d ∧ d.node=q ∧ n0 ≤ q := by
  obtain ⟨d,rfl,hd⟩ := Option.map_eq_some_iff.mp h
  unfold target at hd
  split_ifs at hd with hlt
  · obtain rfl := Slot.node.inj hd
    exact ⟨d,rfl,rfl,Nat.le_of_not_lt hlt⟩

/-- A chain of cells, as the destinations of its nodes in a heap with the same slots. -/
theorem chain_spreads {n0 : Nat} {s : IrState} {heap : List Node} {own : Nat → Prop}
    (hown : ∀ q,own q → q < s.heap.length)
    (hsame : ∀ (q : Nat) (node : Node),s.heap[q]?=some node → n0 ≤ q →
      heap[q]?=some node ∧ node.forwards=true)
    {q : Nat} {us : List Destination} {tail : Nat}
    (hchain : Chain (cells n0 s.heap) own q us tail) (node : Node) (hnode : s.heap[q]?=some node)
    (hstop : ∀d∈us,∃ node,heap[d.node]?=some node ∧ node.forwards=false) :
    NodeSpreads heap node us := by
  have hslot : ∀ {r : Destination} {o : Option Destination},r∈us →
      o.map (target n0)=some (.leaf r) → Spreads heap o [r] 0 := by
    intro r o hr ho
    obtain ⟨other,hother,hflag⟩ := hstop r hr
    rw [target_leaf ho]
    exact .leaf r other hother hflag
  have hopen : ∀ {o : Option Destination},o.map (target n0)=none → Spreads heap o [] 0 := by
    intro o ho
    rw [Option.map_eq_none_iff.mp ho]
    exact .none
  induction hchain generalizing node with
  | empty _ h =>
    rw [cells_some hnode,Prod.mk.injEq] at h
    exact ⟨[],[],0,0,hopen h.1,hopen h.2,rfl⟩
  | @one q r _ h =>
    rw [cells_some hnode,Prod.mk.injEq] at h
    exact ⟨[r],[],0,0,hslot (by simp) h.1,hopen h.2,rfl⟩
  | @two q r r' _ h =>
    rw [cells_some hnode,Prod.mk.injEq] at h
    exact ⟨[r],[r'],0,0,hslot (by simp) h.1,hslot (by simp) h.2,rfl⟩
  | @more q next tail r rs _ h _ hrest ih =>
    rw [cells_some hnode,Prod.mk.injEq] at h
    obtain ⟨d,hd,hnext,hge⟩ := target_node h.2
    have hlt : next < s.heap.length := by
      cases hrest with
      | empty hq _ => exact hown _ hq
      | one hq _ => exact hown _ hq
      | two hq _ => exact hown _ hq
      | more hq _ _ _ => exact hown _ hq
    have hother := List.getElem?_eq_getElem hlt
    obtain ⟨hkept,hforwards⟩ := hsame next _ hother hge
    obtain ⟨us1,us2,m,n,h1,h2,rfl⟩ := ih _ hother (fun d hd => hstop d (by simp [hd]))
      (fun hr ho => hslot (by simp [hr]) ho)
    subst hnext
    refine ⟨[r],us1++us2,0,m+n+1,hslot (by simp) h.1,?_,rfl⟩
    rw [hd]
    exact .relay d _ us1 us2 m n hkept hforwards h1 h2

/-- The definitions of the underscore and of labels have no receivers. -/
theorem fixUp_unused {parsed : IrState} (hread : WellRead parsed) {v : Name}
    (hv : ¬IsVariable parsed.labels v) {p : Nat} (hp : p∈parsed.variableMap v) {node : Node}
    (hnode : (fixUp parsed).heap[p]?=some node) : ∀ slot,node.slot slot=none := by
  have hlt := hread.lt _ p hp
  have hP : StepsKeep (fun s => ∀ node,s.heap[p]?=some node → ∀ slot,node.slot slot=none)
      parsed := by
    have hmodify : ∀ (s : IrState) (n : Nat) (f : Node → Node),
        (∀ node slot,(f node).slot slot=node.slot slot) →
        (∀ node,s.heap[p]?=some node → ∀ slot,node.slot slot=none) →
          ∀ node,(s.heap.modify n f)[p]?=some node → ∀ slot,node.slot slot=none := by
      intro s n f hf h node hnode slot
      rw [List.getElem?_modify] at hnode
      obtain ⟨old,hold,rfl⟩ := Option.map_eq_some_iff.mp hnode
      split_ifs
      · rw [hf]
        exact h old hold slot
      · exact h old hold slot
    refine ⟨?_,?_,?_⟩
    · intro s n input h
      refine hmodify s n _ (fun other slot => ?_) h
      cases input <;> cases slot <;> rfl
    · intro s n h
      refine hmodify s n _ (fun other slot => ?_) h
      unfold moveLiteral
      split_ifs <;> cases slot <;> rfl
    · intro s name receiver q hsources huse hq h other hother slot
      -- the producer of a use is another node
      have hne : q ≠ p := by
        rintro rfl
        obtain hq | hq := hq
        · obtain rfl := hread.single _ _ _ hq hp
          exact hv huse.isVariable
        · omega
      have hps : p < s.heap.length := Nat.lt_of_lt_of_le hlt hsources.size
      refine h other ?_ slot
      rw [← hother]
      unfold connect
      split
      · rfl
      · split_ifs
        · exact (List.getElem?_set_ne hne).symm
        · exact (List.getElem?_set_ne hne).symm
        · rw [List.getElem?_append_left (by simpa using hps),List.getElem?_set_ne hne]
  refine fixUp_induction hP ?_ node hnode
  intro old hold slot
  obtain ⟨other,hother,h1,h2⟩ := hread.defined _ p hp
  obtain rfl : old=other := Option.some.inj (hold.symm.trans hother)
  cases slot with
  | destination1 => exact h1
  | destination2 => exact h2

section Pass

variable {input : List Name} {parsed : IrState} {g : Graph}

/-- What the destinations of a definition lead to: all uses of its variable. -/
def reached (parsed : IrState) (v : Name) : List Destination :=
  if v=['_'] then [] else uses parsed.heap v

theorem Parsed.use_stops (h : Parsed input parsed g) {v : Name} {d : Destination}
    (hd : d∈uses parsed.heap v) :
    ∃ node,g.optimized.heap[d.node]?=some node ∧ node.forwards=false := by
  obtain ⟨n,-,hn⟩ := List.mem_flatMap.mp hd
  obtain ⟨i,hi,rfl⟩ := List.mem_map.mp hn
  have hinput : (parsed.heap[n]?.bind fun node => node.input i)=some (.str v) := by
    simpa using (List.mem_filter.mp hi).2
  obtain ⟨old,hold,hold'⟩ := Option.bind_eq_some_iff.mp hinput
  have hflag : old.optimizable=false := by
    by_contra hopt
    rw [h.branches.outputs n old hold (by simpa using hopt)] at hold'
    cases i <;> cases hold'
  obtain ⟨node,hnode,hop,hopt,-⟩ := h.linked.kept n old hold
  have hget : g.heap[n]?=some node := by
    rw [h.graph]
    exact hnode
  refine ⟨_,optimized_node hget,?_⟩
  change node.forwards=false
  rw [Node.forwards,hopt,hflag,Bool.and_false]

theorem Parsed.inserted_stays (h : Parsed input parsed g) (q : Nat) (node : Node)
    (hnode : (fixUp parsed).heap[q]?=some node) (hq : parsed.heap.length ≤ q) :
    g.optimized.heap[q]?=some node ∧ node.forwards=true := by
  obtain ⟨hop,hopt⟩ := h.shape.inserted q node hq hnode
  have hforwards : node.forwards=true := by simp [Node.forwards,hop,hopt]
  have hget : g.heap[q]?=some node := by
    rw [h.graph]
    exact hnode
  refine ⟨?_,hforwards⟩
  have hkeep : ∀ slot,g.skip g.nodes.reverse (node.slot slot)=node.slot slot :=
    skip_forwards h.linear _ hget hforwards
  have h1 := hkeep .destination1
  have h2 := hkeep .destination2
  simp only [Node.slot] at h1 h2
  rw [optimized_node hget,Graph.skipNode,h1,h2]

/-- A definition that chooses no output. -/
theorem Parsed.definition_spreads (h : Parsed input parsed g) {v : Name}
    (hread : readLines .empty input=.ok parsed) (hlabel : parsed.labels v=none)
    (hfew : definitionCount input v ≤ 1 ∨ useCount input v ≤ 3) {p : Nat}
    (hp : p∈parsed.variableMap v) {node : Node} (hnode : (fixUp parsed).heap[p]?=some node) :
    NodeSpreads g.optimized.heap node (reached parsed v) := by
  by_cases hv : v=['_']
  · subst hv
    rw [reached,if_pos rfl]
    exact nodeSpreads_open (fixUp_unused h.read (fun hv => hv.1 rfl) hp hnode)
  · rw [reached,if_neg hv]
    obtain ⟨owner,hfixed⟩ := fixUp_fixedTo h.read
    obtain ⟨hdefs,huses⟩ := readLines_counts _ _ input hread v
    have hempty : (IrState.empty.variableMap v).length=0 ∧ (uses IrState.empty.heap v).length=0 :=
      ⟨rfl,rfl⟩
    rw [hempty.1,Nat.zero_add] at hdefs
    rw [hempty.2,Nat.zero_add] at huses
    rw [← hdefs,← huses] at hfew
    obtain ⟨tail,hdelivers⟩ := (hfixed.hooked v ⟨hv,hlabel⟩).delivers_all hfew hp
    exact chain_spreads (fun q hq => hq.1) h.inserted_stays hdelivers node hnode
      fun d hd => h.use_stops hd

/-- The destination that a branch line has for one of its outputs in the end: the node of the
output, or what is behind it. -/
theorem Parsed.output_spreads (h : Parsed input parsed g) {p : Nat} {us : List Destination}
    (hout : IsOutput parsed.heap p)
    (hspreads : ∀ node,(fixUp parsed).heap[p]?=some node → NodeSpreads g.optimized.heap node us) :
    ∃ m,Spreads g.optimized.heap (g.skip g.nodes.reverse (some ⟨p,.INPUT_ONE⟩)) us m := by
  obtain ⟨node,hnode,hop,hopt,-⟩ := h.linked.kept p outputNode hout
  have hget : g.heap[p]?=some node := by
    rw [h.graph]
    exact hnode
  have hforwards : node.forwards=true := by simp [Node.forwards,hop,hopt,outputNode,dupNode]
  obtain ⟨us1,us2,m,n,h1,h2,rfl⟩ := hspreads node hnode
  by_cases hrem : g.removable p=true
  · obtain ⟨other,hother,-,hnone⟩ := (removable_iff g p).mp hrem
    obtain rfl : node=other := Option.some.inj (hget.symm.trans hother)
    rw [hnone] at h2
    cases h2
    rw [h.linear.skip_removable ⟨p,.INPUT_ONE⟩ node hrem hget,List.append_nil]
    exact ⟨m,h1⟩
  · have hkeep : ∀ slot,g.skip g.nodes.reverse (node.slot slot)=node.slot slot :=
      skip_forwards h.linear _ hget hforwards
    have hsame : g.skipNode g.nodes.reverse node=node := by
      have hkeep1 := hkeep .destination1
      have hkeep2 := hkeep .destination2
      simp only [Node.slot] at hkeep1 hkeep2
      rw [Graph.skipNode,hkeep1,hkeep2]
    have hfinal := optimized_node hget
    rw [hsame] at hfinal
    rw [skip_some,if_neg fun hboth => hrem hboth.2]
    exact ⟨m+n+1,.relay _ node us1 us2 m n hfinal hforwards h1 h2⟩

/-- What a line leads to in the graph that the image is made of. -/
def Statement.Leads (parsed : IrState) (heap : List Node) (node : Node) : Statement → Prop
  | .assign target _ _ _ => NodeSpreads heap node (reached parsed target)
  | .branch trueOutput falseOutput _ _ _ => ∃ m n,
      Spreads heap node.destination1 (reached parsed trueOutput) m ∧
      Spreads heap node.destination2 (reached parsed falseOutput) n
  | _ => True

theorem Parsed.leads (h : Parsed input parsed g) (hread : readLines .empty input=.ok parsed)
    (hlabels : ∀ v,parsed.labels v=none)
    (hfew : ∀ v,v ≠ ['_'] → definitionCount input v ≤ 1 ∨ useCount input v ≤ 3) {id : Nat}
    {s : Statement} (hs : s.Defines parsed id)
    (hplain : ∀ x o a b,s=.assign x o a b → o.choosesOutput=false)
    {node : Node} (hnode : g.optimized.heap[id]?=some node)
    (hop : s.opcode=some node.opcode) : s.Leads parsed g.optimized.heap node := by
  have hdefinition : ∀ {v : Name} {p : Nat} {node : Node},p∈parsed.variableMap v →
      (fixUp parsed).heap[p]?=some node → NodeSpreads g.optimized.heap node (reached parsed v) := by
    intro v p node hp hnode
    by_cases hv : v=['_']
    · subst hv
      rw [reached,if_pos rfl]
      exact nodeSpreads_open (fixUp_unused h.read (fun hv => hv.1 rfl) hp hnode)
    · exact h.definition_spreads hread (hlabels v) (hfew v hv) hp hnode
  cases s with
  | assign target opcode input1 input2 =>
    have hchoose := hplain _ _ _ _ rfl
    obtain rfl : opcode=node.opcode := Option.some.inj hop
    obtain ⟨hget,-⟩ := h.value_node hnode hchoose
    rw [h.graph] at hget
    exact hdefinition hs hget
  | branch t f opcode input1 test =>
    obtain ⟨b,old,hid,ht,hf,hold,h1,h2⟩ := hs
    have hedges := h.branches.edges id old
    obtain ⟨-,-,hout1,-,-⟩ := hedges .destination1 _ hold h1
    obtain ⟨-,-,hout2,-,-⟩ := hedges .destination2 _ hold h2
    obtain ⟨kept,hkept,-,-,hslots⟩ := h.linked.kept id old hold
    have hslots := hslots (by simp [h1])
    have hget : g.heap[id]?=some kept := by
      rw [h.graph]
      exact hkept
    rw [optimized_node hget] at hnode
    obtain rfl := Option.some.inj hnode
    obtain ⟨m,hm⟩ := h.output_spreads hout1 fun node hnode => hdefinition ht hnode
    obtain ⟨n,hn⟩ := h.output_spreads hout2 fun node hnode => hdefinition hf hnode
    have hfirst : kept.destination1=some ⟨b,.INPUT_ONE⟩ := (hslots .destination1).trans h1
    have hsecond : kept.destination2=some ⟨b+1,.INPUT_ONE⟩ := (hslots .destination2).trans h2
    refine ⟨m,n,?_,?_⟩
    · rw [Graph.skipNode,hfirst]
      exact hm
    · rw [Graph.skipNode,hsecond]
      exact hn
  | output _ _ | blank | unprocessed | externSymbol _ | label _ | exportSymbol _ => trivial

end Pass

end Manchester.Assembler
