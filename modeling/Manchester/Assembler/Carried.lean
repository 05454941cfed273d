import Manchester.Assembler.Leaves

namespace Manchester.Assembler

open Fanout

def DestSlot.second : DestSlot → Bool
  | .destination1 => false
  | .destination2 => true

theorem slot_cells {n0 : Nat} {heap : List Node} {q : Nat} {node : Node}
    (hnode : heap[q]?=some node) (s : DestSlot) :
    slot (cells n0 heap) q s.second=(node.slot s).map (target n0) := by
  rw [slot,cells_some hnode]
  cases s <;> rfl

theorem cells_modify {n0 : Nat} {heap : List Node} (n : Nat) (f : Node → Node)
    (hf : ∀ node slot,(f node).slot slot=node.slot slot) :
    cells n0 (heap.modify n f)=cells n0 heap := by
  funext q
  simp only [cells,List.getElem?_modify]
  cases heap[q]? with
  | none => rfl
  | some node =>
    have h1 := hf node .destination1
    have h2 := hf node .destination2
    simp only [Node.slot] at h1 h2
    by_cases h : n=q
    · simp [h,h1,h2]
    · simp [h]

/-- The node is a definition, or it has its place behind one. -/
def Sourced (parsed s : IrState) (q : Nat) : Prop :=
  ∃ v,∃p∈parsed.variableMap v,∃ bs,Trail (cells parsed.heap.length s.heap) p bs q

theorem Sourced.detour {parsed s s' : IrState} {q : Nat} (h : Sourced parsed s q)
    (hc : ∀ q b next,slot (cells parsed.heap.length s.heap) q b=some (.node next) →
      ∃ cs,Trail (cells parsed.heap.length s'.heap) q cs next) : Sourced parsed s' q := by
  obtain ⟨v,p,hp,bs,htrail⟩ := h
  exact ⟨v,p,hp,htrail.detour hc⟩

/-- Every node with destinations that the lines did not give it is sourced. -/
def AllSourced (parsed s : IrState) : Prop :=
  ∀ (q : Nat) (node : Node),¬IsBranch parsed.heap q → s.heap[q]?=some node →
    parsed.heap.length ≤ q ∨ node.destination1 ≠ none → Sourced parsed s q

theorem AllSourced.modify {parsed s : IrState} (h : AllSourced parsed s) (n : Nat)
    (f : Node → Node) (hf : ∀ node slot,(f node).slot slot=node.slot slot) :
    AllSourced parsed {s with heap := s.heap.modify n f} := by
  intro q node hq hnode hany
  rw [List.getElem?_modify] at hnode
  obtain ⟨old,hold,rfl⟩ := Option.map_eq_some_iff.mp hnode
  have hany : parsed.heap.length ≤ q ∨ old.destination1 ≠ none := by
    have h1 := hf old .destination1
    simp only [Node.slot] at h1
    split_ifs at hany
    · rwa [h1] at hany
    · exact hany
  refine (h q old hq hold hany).detour fun q b next hs => ?_
  rw [cells_modify n f hf]
  exact ⟨[b],.step .here hs⟩

/-- A producer gets a receiver in a slot that was open. -/
theorem AllSourced.set {parsed s : IrState} (h : AllSourced parsed s) {p : Nat} {old : Node}
    (new : Node) (hold : s.heap[p]?=some old) (hp : (∃ v,p∈parsed.variableMap v) ∨
      parsed.heap.length ≤ p)
    (hslots : ∀ slot d,old.slot slot=some d → new.slot slot=some d) :
    AllSourced parsed {s with heap := s.heap.set p new} := by
  have hlt := (List.getElem?_eq_some_iff.mp hold).1
  have hc : ∀ q b next,slot (cells parsed.heap.length s.heap) q b=some (.node next) →
      ∃ cs,Trail (cells parsed.heap.length (s.heap.set p new)) q cs next := by
    intro q b next hs
    refine ⟨[b],.step .here ?_⟩
    by_cases hq : q=p
    · subst hq
      obtain ⟨sl,rfl⟩ : ∃ sl : DestSlot,sl.second=b := by
        cases b
        · exact ⟨.destination1,rfl⟩
        · exact ⟨.destination2,rfl⟩
      rw [slot_cells hold] at hs
      obtain ⟨d,hd,hnext⟩ := Option.map_eq_some_iff.mp hs
      rw [slot_cells (List.getElem?_set_self hlt),hslots sl d hd,Option.map_some,hnext]
    · rw [slot] at hs ⊢
      rwa [cells_set_ne new hq]
  intro q node hq hnode hany
  by_cases hqp : q=p
  · subst hqp
    obtain ⟨v,hv⟩ | hge := hp
    · exact ⟨v,q,hv,[],.here⟩
    · exact (h q old hq hold (Or.inl hge)).detour hc
  · have hnode : (s.heap.set p new)[q]?=some node := hnode
    rw [List.getElem?_set_ne (Ne.symm hqp)] at hnode
    exact (h q node hq hnode hany).detour hc

/-- A producer gets a DUP in its second slot, which takes over what it had there: every step of the
old heap is a way in the new one. -/
theorem grown_trails {n0 : Nat} {heap : List Node} {p : Nat} {old : Node}
    (hsize : n0 ≤ heap.length) (hold : heap[p]?=some old) (receiver : Destination) :
    let grown := heap.set p {old with destination2 := some ⟨heap.length,.INPUT_ONE⟩}++
      [dupNode old.destination2 (some receiver)]
    slot (cells n0 grown) p true=some (.node heap.length) ∧
      ∀ q b next,slot (cells n0 heap) q b=some (.node next) →
        ∃ cs,Trail (cells n0 grown) q cs next := by
  intro grown
  have hlt := (List.getElem?_eq_some_iff.mp hold).1
  let parent : Node := {old with destination2 := some ⟨heap.length,.INPUT_ONE⟩}
  have hparent : grown[p]?=some parent := by
    rw [List.getElem?_append_left (by simpa using hlt),List.getElem?_set_self hlt]
  have hnew : grown[heap.length]?=some (dupNode old.destination2 (some receiver)) := by
    rw [List.getElem?_append_right (by simp)]
    simp
  have hdown : slot (cells n0 grown) p true=some (.node heap.length) := by
    have hs := @slot_cells n0 _ _ _ hparent .destination2
    simpa [DestSlot.second,Node.slot,parent,target,Nat.not_lt.mpr hsize] using hs
  refine ⟨hdown,fun q b next hs => ?_⟩
  by_cases hq : q=p
  · subst hq
    cases b with
    | false =>
      refine ⟨[false],.step .here ?_⟩
      rw [← hs]
      exact (slot_cells hparent .destination1).trans (slot_cells hold .destination1).symm
    | true =>
      -- through the new node
      have hmoved : slot (cells n0 grown) heap.length false=some (.node next) := by
        rw [← hs]
        exact (slot_cells hnew .destination1).trans (slot_cells hold .destination2).symm
      exact ⟨[true]++[false],.step (.step .here hdown) hmoved⟩
  · have hqlt : q < heap.length := by
      by_contra hge
      simp [slot,cells,List.getElem?_eq_none (Nat.le_of_not_lt hge)] at hs
    refine ⟨[b],.step .here ?_⟩
    rw [slot] at hs ⊢
    rw [cells_append _ (by simpa using hqlt),cells_set_ne _ hq]
    exact hs

/-- A producer without an open slot gets a DUP, which takes over its second receiver. -/
theorem AllSourced.grow {parsed s : IrState} (h : AllSourced parsed s) {p : Nat} {old : Node}
    (hsize : parsed.heap.length ≤ s.heap.length) (hold : s.heap[p]?=some old)
    (hbranch : ¬IsBranch parsed.heap p) (hp : (∃ v,p∈parsed.variableMap v) ∨
      parsed.heap.length ≤ p) (receiver : Destination) (variableMap : Name → List Nat) :
    AllSourced parsed {s with
      heap := s.heap.set p {old with destination2 := some ⟨s.heap.length,.INPUT_ONE⟩}++
        [dupNode old.destination2 (some receiver)]
      variableMap := variableMap} := by
  obtain ⟨hdown,hc⟩ := grown_trails hsize hold receiver
  have hroot : Sourced parsed {s with
      heap := s.heap.set p {old with destination2 := some ⟨s.heap.length,.INPUT_ONE⟩}++
        [dupNode old.destination2 (some receiver)]
      variableMap := variableMap} p := by
    obtain ⟨v,hv⟩ | hge := hp
    · exact ⟨v,p,hv,[],.here⟩
    · exact (h p old hbranch hold (Or.inl hge)).detour hc
  intro q node hq hnode hany
  by_cases hqp : q=p
  · rw [hqp]
    exact hroot
  · by_cases hqnew : q=s.heap.length
    · obtain ⟨v,root,hv,bs,htrail⟩ := hroot
      rw [hqnew]
      exact ⟨v,root,hv,_,.step htrail hdown⟩
    · change (s.heap.set p _++[_])[q]?=some node at hnode
      have hqlt : q < s.heap.length := by
        have hlen := (List.getElem?_eq_some_iff.mp hnode).1
        simp only [List.length_append,List.length_set,List.length_singleton] at hlen
        omega
      rw [List.getElem?_append_left (by simpa using hqlt),
        List.getElem?_set_ne (Ne.symm hqp)] at hnode
      exact (h q node hq hnode hany).detour hc

theorem fixUp_sourced {parsed : IrState} (hread : WellRead parsed) :
    AllSourced parsed (fixUp parsed) := by
  refine fixUp_induction ⟨?_,?_,?_⟩ ?_
  · intro s n input h
    exact h.modify n _ fun node slot => by cases input <;> cases slot <;> rfl
  · intro s n h
    refine h.modify n _ fun node slot => ?_
    unfold moveLiteral
    split_ifs <;> cases slot <;> rfl
  · intro s name receiver p hsources huse hp h
    have hp : (∃ v,p∈parsed.variableMap v) ∨ parsed.heap.length ≤ p :=
      hp.imp (fun hp => ⟨name,hp⟩) id
    have hbranch : ¬IsBranch parsed.heap p := by
      intro hbranch
      obtain ⟨v,hv⟩ | hge := hp
      · obtain ⟨node,hnode,hopen,-⟩ := hread.defined v p hv
        obtain ⟨other,hother,hne⟩ := hbranch
        obtain rfl : node=other := Option.some.inj (hnode.symm.trans hother)
        exact hne hopen
      · exact absurd hbranch.lt (by omega)
    unfold connect
    split
    · exact h
    · rename_i old hold
      split_ifs with h1 h2
      · refine h.set _ hold hp fun slot d hd => ?_
        cases slot with
        | destination1 => simp [Node.slot,h1] at hd
        | destination2 => exact hd
      · refine h.set _ hold hp fun slot d hd => ?_
        cases slot with
        | destination1 => exact hd
        | destination2 => simp [Node.slot,h2] at hd
      · exact h.grow hsources.size hold hbranch hp receiver _
  · intro q node hq hnode hany
    have hlt := (List.getElem?_eq_some_iff.mp hnode).1
    obtain hge | hne := hany
    · omega
    · exact absurd ⟨node,hnode,hne⟩ hq

/-- A definition delivers to uses of its variable only, and to none of them twice. -/
theorem definition_delivers {parsed : IrState} (hread : WellRead parsed) {v : Name} {p : Nat}
    (hp : p∈parsed.variableMap v) {bs : List Bool} {d : Destination}
    (hpath : Path (cells parsed.heap.length (fixUp parsed).heap) p bs d) :
    d∈uses parsed.heap v ∧
      ∀ bs',Path (cells parsed.heap.length (fixUp parsed).heap) p bs' d → bs'=bs := by
  by_cases hv : IsVariable parsed.labels v
  · obtain ⟨owner,hfixed⟩ := fixUp_fixedTo hread
    obtain ⟨us,tail,hsub,hdelivers⟩ := (hfixed.hooked v hv).delivers_some hp
    have hmem := hdelivers.path_mem bs d hpath
    have hnodup := hsub.nodup (nodup_uses parsed.heap v)
    refine ⟨hsub.subset hmem,fun bs' hpath' => ?_⟩
    exact (hdelivers.path_unique hnodup d hmem).unique hpath' hpath
  · -- no destination at all
    have hlt := Nat.lt_of_lt_of_le (hread.lt v p hp) (fixUp_shape hread).size
    have hnone := fixUp_unused hread hv hp (List.getElem?_eq_getElem hlt)
    have hopen : ∀ b,slot (cells parsed.heap.length (fixUp parsed).heap) p b=none := by
      intro b
      have hget := List.getElem?_eq_getElem hlt
      have h1 := @slot_cells parsed.heap.length _ _ _ hget .destination1
      have h2 := @slot_cells parsed.heap.length _ _ _ hget .destination2
      rw [hnone] at h1 h2
      cases b
      · exact h1
      · exact h2
    cases hpath with
    | leaf h => rw [hopen] at h; cases h
    | node h _ => rw [hopen] at h; cases h

/-- A DUP that the assembler has put between a definition and its uses. -/
def Graph.IsCopy (g : Graph) (id : Nat) : Prop :=
  ∃ node,g.heap[id]?=some node ∧ node.forwards=true

/-- The slot of a node hands on what definition p gives: its own value, an output of its branch
line, or what a DUP gets. -/
inductive Graph.Carries (read : IrState) (g : Graph) : Nat → DestSlot → Nat → Prop where
  | definition {p : Nat} {v : Name} (slot : DestSlot) (h : p∈read.variableMap v) :
      Carries read g p slot p
  | branch {id : Nat} {node : Node} {slot : DestSlot} {d : Destination}
      (hnode : read.heap[id]?=some node) (hd : node.slot slot=some d) :
      Carries read g id slot d.node
  | copy {id p : Nat} {node : Node} {slot : DestSlot} {d : Destination} (slot' : DestSlot)
      (h : Carries read g id slot p) (hnode : g.heap[id]?=some node)
      (hd : node.slot slot=some d) (hcopy : g.IsCopy d.node) : Carries read g d.node slot' p

section Final

variable {input : List Name} {parsed : IrState} {g : Graph}

theorem Parsed.copy_iff (h : Parsed input parsed g) {id : Nat} (hid : id < g.heap.length) :
    g.optimized.IsCopy id ↔ IsOutput parsed.heap id ∨ parsed.heap.length ≤ id := by
  have hget := List.getElem?_eq_getElem hid
  have hget' : (fixUp parsed).heap[id]?=some g.heap[id] := by
    rw [← hget,h.graph]
  have hcopy : g.optimized.IsCopy id ↔ g.heap[id].forwards=true := by
    rw [Graph.IsCopy,optimized_node hget]
    exact ⟨fun ⟨node,hnode,hf⟩ => by rw [← Option.some.inj hnode] at hf; exact hf,
      fun hf => ⟨_,rfl,hf⟩⟩
  rw [hcopy]
  by_cases hlt : id < parsed.heap.length
  · constructor
    · intro hf
      simp only [Node.forwards,Bool.and_eq_true] at hf
      exact Or.inl (h.linked.output h.branches id _ hget' hf.2 hlt)
    · rintro (hout | hge)
      · obtain ⟨node,hnode,hop,hopt,-⟩ := h.linked.kept id outputNode hout
        obtain rfl := Option.some.inj (hget'.symm.trans hnode)
        simp [Node.forwards,hop,hopt,outputNode,dupNode]
      · omega
  · refine iff_of_true ?_ (Or.inr (Nat.le_of_not_lt hlt))
    obtain ⟨hop,hopt⟩ := h.shape.inserted id _ (Nat.le_of_not_lt hlt) hget'
    simp [Node.forwards,hop,hopt]

/-- Where the edge of a slot was before the pass, if it goes to no output of a branch line. -/
def Graph.EdgeAt (g : Graph) (parsed : IrState) (id : Nat) (slot : DestSlot) (q : Nat)
    (s : DestSlot) : Prop :=
  (¬IsBranch parsed.heap id ∧ q=id ∧ s=slot) ∨
    (g.removable q=true ∧ s=.destination1 ∧
      ∃ node,parsed.heap[id]?=some node ∧ node.slot slot=some ⟨q,.INPUT_ONE⟩)

/-- The slot is one of a node behind definition p, or it leads to the output p. -/
def Holds (parsed : IrState) (id : Nat) (slot : DestSlot) (p : Nat) : Prop :=
  (¬IsBranch parsed.heap id ∧
      ∃ bs,Trail (cells parsed.heap.length (fixUp parsed).heap) p bs id) ∨
    ∃ node,parsed.heap[id]?=some node ∧ node.slot slot=some ⟨p,.INPUT_ONE⟩

/-- An edge of the graph that the image is made of, as it was before the pass. -/
theorem Parsed.edge_before (h : Parsed input parsed g) {id p : Nat} {node : Node}
    {slot : DestSlot} {d : Destination} (hholds : Holds parsed id slot p)
    (hnode : g.optimized.heap[id]?=some node) (hd : node.slot slot=some d) :
    (IsOutput parsed.heap p ∧ d=⟨p,.INPUT_ONE⟩) ∨
      ∃ q s bs old,g.EdgeAt parsed id slot q s ∧
        Trail (cells parsed.heap.length (fixUp parsed).heap) p bs q ∧
        (fixUp parsed).heap[q]?=some old ∧ old.slot s=some d ∧
          (IsUsed parsed d ∨ IsLink parsed d) := by
  rw [optimized_heap] at hnode
  obtain ⟨old,hold,rfl⟩ := Option.map_eq_some_iff.mp hnode
  rw [slot_skipNode] at hd
  have hold' : (fixUp parsed).heap[id]?=some old := by rw [← hold,h.graph]
  obtain ⟨hbranch,bs,htrail⟩ | ⟨first,hfirst,hslot⟩ := hholds
  · obtain ⟨hkept,-⟩ | ⟨mid,other,hmid,hrem,-,-,-⟩ := skip_cases g _ _ d hd
    · exact Or.inr ⟨id,slot,bs,old,Or.inl ⟨hbranch,rfl,rfl⟩,htrail,hold',hkept,
        h.linked.edges id old slot d hbranch hold' hkept⟩
    · -- only a branch line has an edge to an output
      have hout := h.removable_output mid.node hrem
      obtain hused | hlink := h.linked.edges id old slot mid hbranch hold' hmid
      · exact absurd hout hused.not_output
      · have hlt := (List.getElem?_eq_some_iff.mp hout).1
        exact absurd hlink.2 (by omega)
  · obtain ⟨-,-,hout,-,-⟩ := h.branches.edges id first slot _ hfirst hslot
    have hne : first.destination1 ≠ none := by
      intro hnone
      have h2 := h.read.first first (List.mem_of_getElem? hfirst) hnone
      cases slot with
      | destination1 => simp [Node.slot,hnone] at hslot
      | destination2 => simp [Node.slot,h2] at hslot
    obtain ⟨kept,hkept,-,-,hslots⟩ := h.linked.kept id first hfirst
    obtain rfl : old=kept := Option.some.inj (hold'.symm.trans hkept)
    rw [hslots hne,hslot] at hd
    obtain ⟨hsame,-⟩ | ⟨mid,other,hmid,hrem,-,hother,hd1⟩ := skip_cases g _ _ d hd
    · exact Or.inl ⟨hout,(Option.some.inj hsame).symm⟩
    · obtain rfl := Option.some.inj hmid
      have hother' : (fixUp parsed).heap[p]?=some other := by rw [← hother,h.graph]
      exact Or.inr ⟨p,.destination1,[],other,Or.inr ⟨hrem,rfl,first,hfirst,hslot⟩,.here,hother',
        hd1,h.linked.edges p other .destination1 d hout.not_branch hother' hd1⟩

theorem IsUsed.not_copy {d : Destination} (hused : IsUsed parsed d) (h : Parsed input parsed g) :
    ¬g.optimized.IsCopy d.node := by
  intro hcopy
  obtain ⟨name,huse⟩ := hused
  have hlt : d.node < g.heap.length := by
    rw [h.graph]
    exact Nat.lt_of_lt_of_le huse.lt h.shape.size
  obtain hout | hge := (h.copy_iff hlt).mp hcopy
  · exact IsUsed.not_output ⟨name,huse⟩ hout
  · exact absurd huse.lt (by omega)

theorem IsLink.copy {d : Destination} (hlink : IsLink parsed d) (h : Parsed input parsed g)
    (hlt : d.node < g.heap.length) : g.optimized.IsCopy d.node :=
  (h.copy_iff hlt).mpr (Or.inr hlink.2)

theorem target_link {d : Destination} (hlink : IsLink parsed d) :
    target parsed.heap.length d=.node d.node := if_neg (Nat.not_lt.mpr hlink.2)

/-- What a slot carries is the token of a definition that it is behind. -/
theorem Parsed.carries_holds (h : Parsed input parsed g)
    (houtputs : OutputsDefined parsed) {id p : Nat} {slot : DestSlot}
    (hcarries : g.optimized.Carries parsed id slot p) :
    (∃ v,p∈parsed.variableMap v) ∧ Holds parsed id slot p := by
  induction hcarries with
  | @definition p v slot hp =>
    refine ⟨⟨v,hp⟩,Or.inl ⟨?_,[],.here⟩⟩
    intro hbranch
    obtain ⟨node,hnode,hopen,-⟩ := h.read.defined v p hp
    obtain ⟨other,hother,hne⟩ := hbranch
    obtain rfl : node=other := Option.some.inj (hnode.symm.trans hother)
    exact hne hopen
  | @branch id node slot d hnode hd =>
    refine ⟨houtputs id node slot d hnode hd,Or.inr ⟨node,hnode,?_⟩⟩
    obtain ⟨-,hinput,-⟩ := h.branches.edges id node slot d hnode hd
    rw [hd,← hinput]
  | @copy id p node slot d slot' _ hnode hd hcopy ih =>
    obtain ⟨hdefined,hholds⟩ := ih
    refine ⟨hdefined,Or.inl ?_⟩
    obtain ⟨hout,rfl⟩ | ⟨q,s,bs,old,-,htrail,hold,hedge,hused | hlink⟩ :=
      h.edge_before hholds hnode hd
    · exact ⟨hout.not_branch,[],.here⟩
    · exact absurd hcopy (hused.not_copy h)
    · refine ⟨fun hbranch => absurd hbranch.lt (Nat.not_lt.mpr hlink.2),bs++[s.second],
        .step htrail ?_⟩
      rw [slot_cells hold,hedge,Option.map_some,target_link hlink]

/-- An edge to the node of a line, as a path from the definition that it carries. -/
theorem Parsed.carried_path (h : Parsed input parsed g) (houtputs : OutputsDefined parsed)
    {id p : Nat} {slot : DestSlot} (hcarries : g.optimized.Carries parsed id slot p) {node : Node}
    {d : Destination} (hnode : g.optimized.heap[id]?=some node) (hd : node.slot slot=some d)
    (hcopy : ¬g.optimized.IsCopy d.node) :
    ∃ q s bs,g.EdgeAt parsed id slot q s ∧
      Trail (cells parsed.heap.length (fixUp parsed).heap) p bs q ∧
      Path (cells parsed.heap.length (fixUp parsed).heap) p (bs++[s.second]) d := by
  obtain ⟨-,hholds⟩ := h.carries_holds houtputs hcarries
  obtain ⟨hout,rfl⟩ | ⟨q,s,bs,old,hat,htrail,hold,hedge,hused | hlink⟩ :=
    h.edge_before hholds hnode hd
  · have hlt : p < g.heap.length := by
      rw [h.graph]
      exact Nat.lt_of_lt_of_le (List.getElem?_eq_some_iff.mp hout).1 h.shape.size
    exact absurd ((h.copy_iff hlt).mpr (Or.inl hout)) hcopy
  · obtain ⟨name,huse⟩ := hused
    refine ⟨q,s,bs,hat,htrail,htrail.append_path (.leaf ?_)⟩
    rw [slot_cells hold,hedge,Option.map_some,target_of_lt huse.lt]
  · have hlt : d.node < g.heap.length := by
      rw [h.graph]
      refine h.shape.targets old (List.mem_of_getElem? hold) d ?_
      cases s with
      | destination1 => exact Or.inl hedge
      | destination2 => exact Or.inr hedge
    exact absurd (hlink.copy h hlt) hcopy

/-- A line gets what it carries in the place of an operand that names the variable. -/
theorem Parsed.carried_use (h : Parsed input parsed g) (houtputs : OutputsDefined parsed)
    {id p : Nat} {slot : DestSlot} (hcarries : g.optimized.Carries parsed id slot p) {node : Node}
    {d : Destination} (hnode : g.optimized.heap[id]?=some node) (hd : node.slot slot=some d)
    (hcopy : ¬g.optimized.IsCopy d.node) :
    ∃ v,p∈parsed.variableMap v ∧ d∈uses parsed.heap v := by
  obtain ⟨⟨v,hv⟩,-⟩ := h.carries_holds houtputs hcarries
  obtain ⟨q,s,bs,-,-,hpath⟩ := h.carried_path houtputs hcarries hnode hd hcopy
  exact ⟨v,hv,(definition_delivers h.read hv hpath).1⟩

theorem Graph.EdgeAt.unique (h : Parsed input parsed g) {id id' q : Nat} {slot slot' s : DestSlot}
    (hat : g.EdgeAt parsed id slot q s) (hat' : g.EdgeAt parsed id' slot' q s)
    (hid : id∈g.optimized.nodes) (hid' : id'∈g.optimized.nodes) : id=id' ∧ slot=slot' := by
  have hgone : g.removable q=true → q∉g.optimized.nodes := by
    intro hrem hmem
    have hstays := ((h.linear.mem_optimized q).mp hmem).2
    rw [hrem] at hstays
    cases hstays
  obtain ⟨-,rfl,rfl⟩ | ⟨hrem,rfl,node,hnode,hd⟩ := hat
  · obtain ⟨-,rfl,rfl⟩ | ⟨hrem,-⟩ := hat'
    · exact ⟨rfl,rfl⟩
    · exact absurd hid (hgone hrem)
  · obtain ⟨-,rfl,-⟩ | ⟨-,-,other,hother,hd'⟩ := hat'
    · exact absurd hid' (hgone hrem)
    · exact h.branches.parent_unique hnode hd hother hd' rfl

/-- No operand gets what a definition gives twice. -/
theorem Parsed.carried_once (h : Parsed input parsed g) (houtputs : OutputsDefined parsed)
    {id id' p : Nat} {slot slot' : DestSlot} (hcarries : g.optimized.Carries parsed id slot p)
    (hcarries' : g.optimized.Carries parsed id' slot' p) {node node' : Node} {d : Destination}
    (hid : id∈g.optimized.nodes) (hid' : id'∈g.optimized.nodes)
    (hnode : g.optimized.heap[id]?=some node) (hd : node.slot slot=some d)
    (hnode' : g.optimized.heap[id']?=some node') (hd' : node'.slot slot'=some d)
    (hcopy : ¬g.optimized.IsCopy d.node) : id=id' ∧ slot=slot' := by
  obtain ⟨⟨v,hv⟩,-⟩ := h.carries_holds houtputs hcarries
  obtain ⟨q,s,bs,hat,htrail,hpath⟩ := h.carried_path houtputs hcarries hnode hd hcopy
  obtain ⟨q',s',bs',hat',htrail',hpath'⟩ := h.carried_path houtputs hcarries' hnode' hd' hcopy
  have hsame := (definition_delivers h.read hv hpath).2 _ hpath'
  obtain ⟨rfl,hlast⟩ := List.append_inj' hsame rfl
  have hslot : s'.second=s.second := (List.cons.inj hlast).1
  obtain rfl : s'=s := by
    cases s <;> cases s' <;> first | rfl | cases hslot
  obtain rfl := htrail.unique htrail'
  exact hat.unique h hat' hid hid'

theorem Parsed.trail_carries (h : Parsed input parsed g) {p q : Nat} {v : Name}
    (hp : p∈parsed.variableMap v) {bs : List Bool}
    (htrail : Trail (cells parsed.heap.length (fixUp parsed).heap) p bs q) (slot : DestSlot) :
    g.optimized.Carries parsed q slot p := by
  induction htrail generalizing slot with
  | here => exact .definition slot hp
  | @step q next b bs _ hs ih =>
    obtain ⟨s,rfl⟩ : ∃ s : DestSlot,s.second=b := by
      cases b
      · exact ⟨.destination1,rfl⟩
      · exact ⟨.destination2,rfl⟩
    obtain ⟨old,hold⟩ : ∃ old,(fixUp parsed).heap[q]?=some old := by
      cases hq : (fixUp parsed).heap[q]? with
      | some old => exact ⟨old,rfl⟩
      | none => cases s <;> simp [Fanout.slot,cells,hq,DestSlot.second] at hs
    rw [slot_cells hold] at hs
    obtain ⟨d,hd,hnext,hge⟩ := target_node hs
    subst hnext
    have hget : g.heap[q]?=some old := by rw [h.graph]; exact hold
    have hlt : d.node < g.heap.length := by
      rw [h.graph]
      refine h.shape.targets old (List.mem_of_getElem? hold) d ?_
      cases s with
      | destination1 => exact Or.inl hd
      | destination2 => exact Or.inr hd
    -- a node that the loop has added stays
    have hstays : g.removable d.node=false := by
      by_contra hrem
      have hout := h.removable_output d.node (by simpa using hrem)
      have houtlt := (List.getElem?_eq_some_iff.mp hout).1
      omega
    have hnode := optimized_node hget
    refine .copy slot (ih s) hnode ?_ ((h.copy_iff hlt).mpr (Or.inr hge))
    rw [slot_skipNode,hd,skip_stays d hstays]

/-- Every edge carries what some definition gives. -/
theorem Parsed.carries (h : Parsed input parsed g) {id : Nat} {node : Node} {slot : DestSlot}
    {d : Destination} (hnode : g.optimized.heap[id]?=some node) (hd : node.slot slot=some d) :
    ∃ p,g.optimized.Carries parsed id slot p := by
  rw [optimized_heap] at hnode
  obtain ⟨old,hold,rfl⟩ := Option.map_eq_some_iff.mp hnode
  have hold' : (fixUp parsed).heap[id]?=some old := by rw [← hold,h.graph]
  rw [slot_skipNode] at hd
  obtain ⟨d0,hd0⟩ : ∃ d0,old.slot slot=some d0 := by
    cases hslot : old.slot slot with
    | some d0 => exact ⟨d0,rfl⟩
    | none => rw [hslot] at hd; cases hd
  by_cases hbranch : IsBranch parsed.heap id
  · obtain ⟨first,hfirst,hne⟩ := hbranch
    obtain ⟨kept,hkept,-,-,hslots⟩ := h.linked.kept id first hfirst
    obtain rfl : old=kept := Option.some.inj (hold'.symm.trans hkept)
    rw [hslots hne] at hd0
    exact ⟨d0.node,.branch hfirst hd0⟩
  · have hne : old.destination1 ≠ none := by
      intro hnone
      have h2 := h.shape.first old (List.mem_of_getElem? hold') hnone
      cases slot with
      | destination1 => simp [Node.slot,hnone] at hd0
      | destination2 => simp [Node.slot,h2] at hd0
    obtain ⟨v,p,hp,bs,htrail⟩ := fixUp_sourced h.read id old hbranch hold' (Or.inr hne)
    exact ⟨p,h.trail_carries hp htrail slot⟩

/-- A DUP of the assembler has one input. -/
theorem Parsed.copy_input (h : Parsed input parsed g) (houtputs : OutputsDefined parsed) {id : Nat}
    {node : Node} {slot : DestSlot} {d : Destination} (hnode : g.optimized.heap[id]?=some node)
    (hd : node.slot slot=some d) (hcopy : g.optimized.IsCopy d.node) : d.input=.INPUT_ONE := by
  obtain ⟨p,hcarries⟩ := h.carries hnode hd
  obtain ⟨-,hholds⟩ := h.carries_holds houtputs hcarries
  obtain ⟨-,rfl⟩ | ⟨-,-,-,-,-,-,-,-,hused | hlink⟩ := h.edge_before hholds hnode hd
  · rfl
  · exact absurd hcopy (hused.not_copy h)
  · exact hlink.1

end Final

end Manchester.Assembler
