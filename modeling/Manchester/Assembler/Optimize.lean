import Manchester.Assembler.Links

namespace Manchester.Assembler

/-- A DUP node that stands between a producer and its receivers. -/
def Node.forwards (node : Node) : Bool := node.opcode==.op .DUP && node.optimizable

def Graph.removable (g : Graph) (id : Nat) : Bool :=
  match g.heap[id]? with
  | none => false
  | some node => node.forwards && node.destination2==none

/-- The destination of a removed node in place of the node. -/
def Graph.skip (g : Graph) (done : List Nat) : Option Destination → Option Destination
  | none => none
  | some d =>
    if d.node∈done ∧ g.removable d.node then g.heap[d.node]?.bind Node.destination1 else some d

def Graph.skipNode (g : Graph) (done : List Nat) (node : Node) : Node :=
  {node with
    destination1 := g.skip done node.destination1
    destination2 := g.skip done node.destination2}

/-- The graph without the removable nodes among `done`. -/
def Graph.without (g : Graph) (done : List Nat) : Graph :=
  {g with
    heap := g.heap.map (g.skipNode done)
    nodes := g.nodes.filter fun id => !(decide (id∈done) && g.removable id)}

/-- A removable node has one incoming edge, and the edges of DUP nodes go to nodes that stay. -/
structure Linear (g : Graph) : Prop where
  nodup : g.nodes.Nodup
  nodes : ∀ id,id∈g.nodes ↔ id < g.heap.length
  parent : ∀ id,g.removable id=true →
    ∃ (p : Nat) (parent : Node) (slot : DestSlot) (d : Destination),
      g.heap[p]?=some parent ∧ parent.slot slot=some d ∧ d.node=id ∧
      ∀ (q : Nat) (node : Node) (slot' : DestSlot) (d' : Destination),g.heap[q]?=some node →
        node.slot slot'=some d' → d'.node=id → q=p ∧ slot'=slot
  next : ∀ (id : Nat) (node : Node) (slot : DestSlot) (d : Destination),
    g.heap[id]?=some node → node.forwards=true → node.slot slot=some d →
      g.removable d.node=false

theorem skip_some (g : Graph) (done : List Nat) (d : Destination) :
    g.skip done (some d)=if d.node∈done ∧ g.removable d.node=true then
      g.heap[d.node]?.bind Node.destination1 else some d := rfl

theorem slot_skipNode (g : Graph) (done : List Nat) (node : Node) (slot : DestSlot) :
    (g.skipNode done node).slot slot=g.skip done (node.slot slot) := by
  cases slot <;> rfl

theorem without_heap (g : Graph) (done : List Nat) (id : Nat) :
    (g.without done).heap[id]?=g.heap[id]?.map (g.skipNode done) := List.getElem?_map

theorem removable_iff (g : Graph) (id : Nat) : g.removable id=true ↔
    ∃ node,g.heap[id]?=some node ∧ node.forwards=true ∧ node.destination2=none := by
  unfold Graph.removable
  cases g.heap[id]? <;> simp

theorem skip_keeps (g : Graph) (done : List Nat) (o : Option Destination)
    (h : ∀ d,o=some d → d.node∉done ∨ g.removable d.node=false) : g.skip done o=o := by
  cases o with
  | none => rfl
  | some d =>
    have hd := h d rfl
    rw [skip_some,if_neg]
    intro hboth
    obtain hd | hd := hd
    · exact hd hboth.1
    · rw [hd] at hboth
      exact absurd hboth.2 (by simp)

theorem skip_cons (g : Graph) (done : List Nat) (id : Nat) (o : Option Destination)
    (h : ∀ d,o=some d → d.node ≠ id ∨ g.removable id=false) :
    g.skip (id::done) o=g.skip done o := by
  cases o with
  | none => rfl
  | some d =>
    have hd := h d rfl
    rw [skip_some,skip_some]
    apply if_congr _ rfl rfl
    rw [List.mem_cons]
    constructor
    · intro ⟨hmem,hrem⟩
      obtain heq | hmem := hmem
      · obtain hd | hd := hd
        · exact absurd heq hd
        · rw [heq,hd] at hrem
          cases hrem
      · exact ⟨hmem,hrem⟩
    · exact fun hboth => ⟨Or.inr hboth.1,hboth.2⟩

/-- A destination after some rounds is an old one, or that of a removed node. -/
theorem skip_cases (g : Graph) (done : List Nat) (o : Option Destination) (d : Destination)
    (h : g.skip done o=some d) : (o=some d ∧ ¬(d.node∈done ∧ g.removable d.node=true)) ∨
      ∃ (mid : Destination) (node : Node),o=some mid ∧ g.removable mid.node=true ∧ mid.node∈done ∧
        g.heap[mid.node]?=some node ∧ node.destination1=some d := by
  cases o with
  | none => cases h
  | some mid =>
    rw [skip_some] at h
    split_ifs at h with hrem
    · obtain ⟨node,hnode,hd⟩ := Option.bind_eq_some_iff.mp h
      exact Or.inr ⟨mid,node,rfl,hrem.2,hrem.1,hnode,hd⟩
    · obtain rfl := Option.some.inj h
      exact Or.inl ⟨rfl,hrem⟩

theorem flatMap_single {α : Type} (l : List α) (f : α → List α) (p : α) (hl : l.Nodup)
    (hp : p∈l) (hf : ∀q∈l,q ≠ p → f q=[]) : l.flatMap f=f p := by
  induction l with
  | nil => cases hp
  | cons a l ih =>
    obtain ⟨ha,hl⟩ := List.nodup_cons.mp hl
    rw [List.flatMap_cons]
    obtain rfl | hp := List.mem_cons.mp hp
    · have hrest : l.flatMap f=[] := by
        rw [List.flatMap_eq_nil_iff]
        intro q hq
        exact hf q (by simp [hq]) fun heq => ha (heq ▸ hq)
      rw [hrest,List.append_nil]
    · have hne : a ≠ p := fun heq => ha (heq ▸ hp)
      rw [hf a (by simp) hne,List.nil_append]
      exact ih hl hp fun q hq => hf q (by simp [hq])

/-- The edge from a slot of the node `p` to the node `id`, and no other edge goes there. -/
structure SoleEdge (g : Graph) (id p : Nat) (parent : Node) (slot : DestSlot) (d : Destination) :
    Prop where
  producer : g.heap[p]?=some parent
  edge : parent.slot slot=some d
  target : d.node=id
  unique : ∀ (q : Nat) (node : Node) (slot' : DestSlot) (d' : Destination),g.heap[q]?=some node →
    node.slot slot'=some d' → d'.node=id → q=p ∧ slot'=slot

theorem Linear.soleEdge {g : Graph} (h : Linear g) {id : Nat} (hrem : g.removable id=true) :
    ∃ (p : Nat) (parent : Node) (slot : DestSlot) (d : Destination),
      SoleEdge g id p parent slot d := by
  obtain ⟨p,parent,slot,d,hp,hd,hid,hunique⟩ := h.parent id hrem
  exact ⟨p,parent,slot,d,hp,hd,hid,hunique⟩

namespace SoleEdge

variable {g : Graph} {done : List Nat} {id p : Nat} {node parent : Node} {slot : DestSlot}
  {d : Destination}

theorem others (h : SoleEdge g id p parent slot d) {q : Nat} {slot' : DestSlot} {d' : Destination}
    (hq : g.heap[q]?=some node) (hne : q ≠ p ∨ slot' ≠ slot) (hd' : node.slot slot'=some d') :
    d'.node ≠ id := by
  intro hid
  obtain ⟨hp,hslot⟩ := h.unique q node slot' d' hq hd' hid
  exact hne.elim (fun hq => hq hp) fun hs => hs hslot

theorem parents (h : SoleEdge g id p parent slot d) (hlinear : Linear g) :
    g.parents id=[p] := by
  have hmem : p∈g.nodes := (hlinear.nodes p).mpr (List.getElem?_eq_some_iff.mp h.producer).1
  have hslot : ∀ (q : Nat) (node : Node) (slot' : DestSlot),g.heap[q]?=some node →
      (q ≠ p ∨ slot' ≠ slot) → (node.slot slot').map Destination.node ≠ some id := by
    intro q node slot' hnode hne heq
    obtain ⟨d',hd',hid'⟩ := Option.map_eq_some_iff.mp heq
    exact h.others hnode hne hd' hid'
  unfold Graph.parents
  rw [flatMap_single g.nodes _ p hlinear.nodup hmem]
  · simp only [h.producer]
    have hself : (parent.slot slot).map Destination.node=some id := by
      rw [h.edge,← h.target]
      rfl
    cases slot with
    | destination1 =>
      have hother := hslot p parent .destination2 h.producer (Or.inr (by simp))
      simp only [Node.slot] at hself hother
      rw [if_pos hself,if_neg hother,List.append_nil]
    | destination2 =>
      have hother := hslot p parent .destination1 h.producer (Or.inr (by simp))
      simp only [Node.slot] at hself hother
      rw [if_pos hself,if_neg hother,List.nil_append]
  · intro q _ hq
    cases hnode : g.heap[q]? with
    | none => rfl
    | some node =>
      have h1 := hslot q node .destination1 hnode (Or.inl hq)
      have h2 := hslot q node .destination2 hnode (Or.inl hq)
      simp only [Node.slot] at h1 h2
      simp only [if_neg h1,if_neg h2,List.append_nil]

theorem skip_before (h : SoleEdge g id p parent slot d) (hnew : id∉done) :
    g.skip done (parent.slot slot)=some d := by
  rw [h.edge,skip_some,if_neg]
  exact fun hboth => hnew (h.target ▸ hboth.1)

theorem skip_after (h : SoleEdge g id p parent slot d) (hnode : g.heap[id]?=some node)
    (hrem : g.removable id=true) :
    g.skip (id::done) (parent.slot slot)=node.destination1 := by
  have htarget := h.target
  rw [h.edge,skip_some,if_pos ⟨by simp [htarget],htarget ▸ hrem⟩,htarget,hnode]
  rfl

theorem skip_others (h : SoleEdge g id p parent slot d) (done : List Nat) (slot' : DestSlot)
    {q : Nat} (hq : g.heap[q]?=some node) (hne : q ≠ p ∨ slot' ≠ slot) :
    g.skip (id::done) (node.slot slot')=g.skip done (node.slot slot') := by
  apply skip_cons
  intro d' hd'
  exact Or.inl (h.others hq hne hd')

theorem skipNode_others (h : SoleEdge g id p parent slot d) {q : Nat}
    (hq : g.heap[q]?=some node) (hne : q ≠ p) :
    g.skipNode (id::done) node=g.skipNode done node := by
  have h1 := h.skip_others done .destination1 hq (Or.inl hne)
  have h2 := h.skip_others done .destination2 hq (Or.inl hne)
  simp only [Node.slot] at h1 h2
  simp only [Graph.skipNode,h1,h2]

/-- Only the node that the edge leaves changes. -/
theorem heap_set (h : SoleEdge g id p parent slot d) :
    (g.without done).heap.set p (g.skipNode (id::done) parent)=(g.without (id::done)).heap := by
  have hlt : p < (g.without done).heap.length := by
    simpa [Graph.without] using (List.getElem?_eq_some_iff.mp h.producer).1
  apply List.ext_getElem?
  intro q
  by_cases hq : p=q
  · subst hq
    rw [List.getElem?_set_self hlt,without_heap,h.producer]
    rfl
  · rw [List.getElem?_set_ne hq,without_heap,without_heap]
    cases hn : g.heap[q]? with
    | none => rfl
    | some n => rw [Option.map_some,Option.map_some,h.skipNode_others hn (Ne.symm hq)]

theorem points (h : SoleEdge g id p parent slot d) (hnew : id∉done) :
    ((g.skipNode done parent).slot slot).map Destination.node=some id := by
  rw [slot_skipNode,h.skip_before hnew,← h.target]
  rfl

/-- The first slot of a node whose second one points at `id` does not: no round gave it a
destination that goes. -/
theorem first_elsewhere (h : SoleEdge g id p parent .destination2 d) (hlinear : Linear g)
    (hrem : g.removable id=true) :
    (g.skipNode done parent).destination1.map Destination.node ≠ some id := by
  intro heq
  obtain ⟨d',hd',hid'⟩ := Option.map_eq_some_iff.mp heq
  obtain ⟨hold,-⟩ | ⟨mid,n,-,hmid,-,hn,hd1⟩ := skip_cases g done _ d' hd'
  · cases (h.unique p parent .destination1 d' h.producer hold hid').2
  · obtain ⟨n',hn',hforwards',-⟩ := (removable_iff g mid.node).mp hmid
    obtain rfl : n=n' := Option.some.inj (hn.symm.trans hn')
    have hstays := hlinear.next mid.node n .destination1 d' hn hforwards' hd1
    rw [hid',hrem] at hstays
    cases hstays

/-- The parent with the destination of the node that goes. -/
theorem skipNode_first (h : SoleEdge g id p parent .destination1 d) (done : List Nat)
    (hnode : g.heap[id]?=some node) (hrem : g.removable id=true) :
    g.skipNode (id::done) parent=
      {g.skipNode done parent with destination1 := node.destination1} := by
  have hafter : g.skip (id::done) parent.destination1=node.destination1 := h.skip_after hnode hrem
  have hother : g.skip (id::done) parent.destination2=g.skip done parent.destination2 :=
    h.skip_others done .destination2 h.producer (Or.inr (by simp))
  simp only [Graph.skipNode,hother,hafter]

theorem skipNode_second (h : SoleEdge g id p parent .destination2 d) (done : List Nat)
    (hnode : g.heap[id]?=some node) (hrem : g.removable id=true) :
    g.skipNode (id::done) parent=
      {g.skipNode done parent with destination2 := node.destination1} := by
  have hafter : g.skip (id::done) parent.destination2=node.destination1 := h.skip_after hnode hrem
  have hother : g.skip (id::done) parent.destination1=g.skip done parent.destination1 :=
    h.skip_others done .destination1 h.producer (Or.inr (by simp))
  simp only [Graph.skipNode,hother,hafter]

end SoleEdge

section Round

variable {g : Graph} {done : List Nat} {id : Nat} {node : Node}

theorem without_erase (h : Linear g) (hrem : g.removable id=true) :
    (g.without done).nodes.erase id=(g.without (id::done)).nodes := by
  change (g.nodes.filter _).erase id=g.nodes.filter _
  rw [(h.nodup.filter _).erase_eq_filter,List.filter_filter]
  apply List.filter_congr
  intro x hx
  by_cases hxid : x=id
  · subst hxid
    simp [hrem]
  · simp [hxid]

theorem without_cons_of_stays (hrem : ¬g.removable id=true) :
    g.without (id::done)=g.without done := by
  have hskip : ∀ o,g.skip (id::done) o=g.skip done o :=
    fun o => skip_cons g done id o fun _ _ => Or.inr (by simpa using hrem)
  have hfilter : (fun x => !(decide (x∈id::done) && g.removable x))=
      fun x => !(decide (x∈done) && g.removable x) := by
    funext x
    by_cases hx : x=id
    · simp [hx,hrem]
    · simp [hx]
  have hnode : g.skipNode (id::done)=g.skipNode done := by
    funext n
    simp only [Graph.skipNode,hskip]
  unfold Graph.without
  rw [hfilter,hnode]

/-- The edges of a DUP node stay in every round. -/
theorem skip_forwards (h : Linear g) (done : List Nat) (hnode : g.heap[id]?=some node)
    (hforwards : node.forwards=true) (slot : DestSlot) :
    g.skip done (node.slot slot)=node.slot slot :=
  skip_keeps g done _ fun d hd => Or.inr (h.next id node slot d hnode hforwards hd)

/-- A node that is not removable is no DUP node with one destination in any round. -/
theorem stays_unmerged (h : Linear g) (hnode : g.heap[id]?=some node)
    (hrem : ¬g.removable id=true) :
    ¬((g.skipNode done node).opcode=.op .DUP ∧ (g.skipNode done node).destination2=none ∧
      (g.skipNode done node).optimizable=true) := by
  rintro ⟨hop,h2,hopt⟩
  have hforwards : node.forwards=true := by
    simp only [Node.forwards,Bool.and_eq_true,beq_iff_eq]
    exact ⟨hop,hopt⟩
  have hkeep := skip_forwards h done hnode hforwards .destination2
  exact hrem ((removable_iff g id).mpr ⟨node,hnode,hforwards,hkeep.symm.trans h2⟩)

theorem optimizeNode_stays (h : Linear g) (hnode : g.heap[id]?=some node)
    (hrem : ¬g.removable id=true) :
    optimizeNode g.parents (g.without done) id=.ok (g.without done) := by
  unfold optimizeNode
  rw [without_heap,hnode]
  simp only [Option.map_some]
  split
  · rename_i n p hn hp
    obtain rfl := Option.some.inj hn
    rw [if_neg (stays_unmerged h hnode hrem)]
  · rfl

/-- The parent takes over the destination of the node that goes. -/
theorem optimizeNode_removes (h : Linear g) (hnew : id∉done) (hrem : g.removable id=true) :
    optimizeNode g.parents (g.without done) id=.ok (g.without (id::done)) := by
  obtain ⟨p,parent,slot,d,hedge⟩ := h.soleEdge hrem
  obtain ⟨node,hnode,hforwards,h2⟩ := (removable_iff g id).mp hrem
  have hnext : (g.skipNode done node).destination1=node.destination1 :=
    skip_forwards h done hnode hforwards .destination1
  have hcond : (g.skipNode done node).opcode=.op .DUP ∧
      (g.skipNode done node).destination2=none ∧ (g.skipNode done node).optimizable=true := by
    have hsecond : g.skip done node.destination2=node.destination2 :=
      skip_forwards h done hnode hforwards .destination2
    simp only [Node.forwards,Bool.and_eq_true,beq_iff_eq] at hforwards
    exact ⟨hforwards.1,hsecond.trans h2,hforwards.2⟩
  have hresult : ∀ new : Node,g.skipNode (id::done) parent=new →
      (⟨(g.without done).heap.set p new,(g.without done).nodes.erase id,g.labels,
        g.externalReferences,g.exports⟩ : Graph)=g.without (id::done) := by
    rintro new rfl
    rw [hedge.heap_set,without_erase h hrem]
    rfl
  unfold optimizeNode
  rw [without_heap,hnode,hedge.parents h]
  simp only [Option.map_some]
  rw [if_pos hcond,without_heap,hedge.producer,hnext]
  simp only [Option.map_some]
  cases slot with
  | destination1 =>
    have hpoints : (g.skipNode done parent).destination1.map Destination.node=some id :=
      hedge.points hnew
    rw [if_pos hpoints]
    exact congrArg _ (hresult _ (hedge.skipNode_first done hnode hrem))
  | destination2 =>
    have hpoints : (g.skipNode done parent).destination2.map Destination.node=some id :=
      hedge.points hnew
    rw [if_neg (hedge.first_elsewhere h hrem),if_pos hpoints]
    exact congrArg _ (hresult _ (hedge.skipNode_second done hnode hrem))

theorem optimizeNode_without (h : Linear g) (done : List Nat) (id : Nat) (hnew : id∉done)
    (hid : id∈g.nodes) :
    optimizeNode g.parents (g.without done) id=.ok (g.without (id::done)) := by
  by_cases hrem : g.removable id=true
  · exact optimizeNode_removes h hnew hrem
  · rw [without_cons_of_stays hrem]
    exact optimizeNode_stays h (List.getElem?_eq_getElem ((h.nodes id).mp hid)) hrem

end Round

theorem optimizeNodes_without {g : Graph} (h : Linear g) (ids done : List Nat)
    (hnodup : ids.Nodup) (hids : ids⊆g.nodes) (hnew : ∀id∈ids,id∉done) :
    optimizeNodes g.parents (g.without done) ids=.ok (g.without (ids.reverse++done)) := by
  induction ids generalizing done with
  | nil => rfl
  | cons id ids ih =>
    obtain ⟨hid,hnodup⟩ := List.nodup_cons.mp hnodup
    rw [optimizeNodes,optimizeNode_without h done id (hnew id (by simp)) (hids (by simp))]
    simp only
    rw [ih (id::done) hnodup (fun x hx => hids (by simp [hx])) ?_]
    · simp
    · intro x hx hmem
      obtain rfl | hmem := List.mem_cons.mp hmem
      · exact hid hx
      · exact hnew x (by simp [hx]) hmem

theorem without_nil (g : Graph) : g.without []=g := by
  have hskip : ∀ o,g.skip [] o=o := fun o => skip_keeps g [] o fun _ _ => Or.inl (by simp)
  have hnode : g.skipNode []=id := by
    funext node
    simp only [Graph.skipNode,hskip]
    rfl
  unfold Graph.without
  rw [hnode]
  simp

/-- The pass never fails, and takes out all removable nodes at once. -/
theorem optimizeGraph_without {g : Graph} (h : Linear g) :
    optimizeGraph g=.ok (g.without g.nodes.reverse) := by
  have hall := optimizeNodes_without h g.nodes [] h.nodup (fun _ hx => hx) (by simp)
  rw [without_nil,List.append_nil] at hall
  exact hall

/-- The graph that is handed over, the state that it is made of, and the state that was read. -/
structure Parsed (input : List Name) (parsed : IrState) (g : Graph) : Prop where
  read : WellRead parsed
  branches : BranchRead parsed (statements input)
  linked : Linked parsed (fixUp parsed)
  shape : Shape parsed (fixUp parsed)
  free : externFree (fixUp parsed)=true
  graph : g=⟨(fixUp parsed).heap,List.range (fixUp parsed).heap.length,(fixUp parsed).labels,
    (fixUp parsed).externalReferences.map
      fun symbol => (symbol,(fixUp parsed).variableMap symbol),(fixUp parsed).exports⟩

theorem parse_read (input : List Name) (g : Graph) (h : parseCreateIrGraph input=.ok g) :
    ∃ parsed,readLines .empty input=.ok parsed ∧ Parsed input parsed g := by
  obtain ⟨parsed,hread,hfree,hg⟩ := parse_cases input g h
  have hwell := readLines_wellRead _ _ input WellRead.empty hread
  have hbranch : BranchRead parsed (statements input) :=
    readLines_branchRead _ _ input [] WellRead.empty BranchRead.empty hread
  exact ⟨parsed,hread,hwell,hbranch,fixUp_linked hwell,fixUp_shape hwell,hfree,hg⟩

theorem parse_parsed (input : List Name) (g : Graph) (h : parseCreateIrGraph input=.ok g) :
    ∃ parsed,Parsed input parsed g := by
  obtain ⟨parsed,-,hparsed⟩ := parse_read input g h
  exact ⟨parsed,hparsed⟩

section Pass

variable {input : List Name} {parsed : IrState} {g : Graph}

theorem Parsed.removable_output (h : Parsed input parsed g) (id : Nat)
    (hrem : g.removable id=true) : IsOutput parsed.heap id := by
  obtain ⟨node,hnode,hforwards,h2⟩ := (removable_iff g id).mp hrem
  rw [h.graph] at hnode
  simp only [Node.forwards,Bool.and_eq_true] at hforwards
  refine h.linked.output h.branches id node hnode hforwards.2 ?_
  by_contra hge
  exact h.linked.inserted id node (by omega) hnode .destination2 h2

theorem Parsed.linear (h : Parsed input parsed g) : Linear g := by
  constructor
  · rw [h.graph]
    exact List.nodup_range
  · intro id
    rw [h.graph]
    exact List.mem_range
  · intro id hrem
    obtain ⟨p,node,slot,-,hnode,-,hd,hunique⟩ :=
      h.linked.parent h.branches h.read id (h.removable_output id hrem)
    rw [h.graph]
    exact ⟨p,node,slot,_,hnode,hd,rfl,hunique⟩
  · intro id node slot d hnode hforwards hd
    rw [h.graph] at hnode
    simp only [Node.forwards,Bool.and_eq_true] at hforwards
    have hnot : ¬IsBranch parsed.heap id := by
      by_cases hid : id < parsed.heap.length
      · exact (h.linked.output h.branches id node hnode hforwards.2 hid).not_branch
      · exact fun hb => hid hb.lt
    by_contra hrem
    have hout := h.removable_output d.node (by simpa using hrem)
    obtain hused | hlink := h.linked.edges id node slot d hnot hnode hd
    · exact hused.not_output hout
    · have hlt := (List.getElem?_eq_some_iff.mp hout).1
      have hge := hlink.2
      omega

end Pass

end Manchester.Assembler
