import Manchester.Assembler.Inputs

namespace Manchester.Assembler

/-- The graph after the loop, compared with the graph that was read. -/
structure Shape (parsed s : IrState) : Prop where
  size : parsed.heap.length ≤ s.heap.length
  labels : s.labels=parsed.labels
  externalReferences : s.externalReferences=parsed.externalReferences
  exports : s.exports=parsed.exports
  targets : ∀ node∈s.heap,∀ d,node.destination1=some d ∨ node.destination2=some d →
    d.node < s.heap.length
  first : ∀ node∈s.heap,node.destination1=none → node.destination2=none
  inserted : ∀ id node,parsed.heap.length ≤ id → s.heap[id]?=some node →
    node.opcode=.op .DUP ∧ node.optimizable=true
  producers : ∀ v,∀p∈s.variableMap v,
    p∈parsed.variableMap v ∨ ∃ node,s.heap[p]?=some node ∧ node.destination1 ≠ none

theorem Shape.refl {s : IrState} (h : WellRead s) : Shape s s where
  size := Nat.le_refl _
  labels := rfl
  externalReferences := rfl
  exports := rfl
  targets := h.targets
  first := h.first
  inserted := fun id node hid hnode => by
    have hlt := (List.getElem?_eq_some_iff.mp hnode).1
    omega
  producers := fun _ _ hp => Or.inl hp

/-- A rewrite of one node that keeps its opcode, flag and destinations. -/
theorem Shape.modify {parsed s : IrState} (h : Shape parsed s) (n : Nat) (f : Node → Node)
    (hopcode : ∀ node,(f node).opcode=node.opcode)
    (hflag : ∀ node,(f node).optimizable=node.optimizable)
    (h1 : ∀ node,(f node).destination1=node.destination1)
    (h2 : ∀ node,(f node).destination2=node.destination2) :
    Shape parsed {s with heap := s.heap.modify n f} := by
  have hlen : (s.heap.modify n f).length=s.heap.length := List.length_modify _ _ _
  -- each node of the new heap has the edges of the node that was there
  have hold : ∀ (id : Nat) (node : Node),(s.heap.modify n f)[id]?=some node →
      ∃ old : Node,s.heap[id]?=some old ∧
      node.opcode=old.opcode ∧ node.optimizable=old.optimizable ∧
      node.destination1=old.destination1 ∧ node.destination2=old.destination2 := by
    intro id node hnode
    rw [List.getElem?_modify] at hnode
    obtain ⟨old,hget,rfl⟩ := Option.map_eq_some_iff.mp hnode
    refine ⟨old,hget,?_⟩
    split_ifs
    · exact ⟨hopcode old,hflag old,h1 old,h2 old⟩
    · exact ⟨rfl,rfl,rfl,rfl⟩
  refine ⟨by rw [hlen]; exact h.size,h.labels,h.externalReferences,h.exports,?_,?_,?_,?_⟩
  · intro node hmem d hd
    obtain ⟨id,hid⟩ := List.mem_iff_getElem?.mp hmem
    obtain ⟨old,hget,-,-,ho1,ho2⟩ := hold id node hid
    rw [hlen]
    exact h.targets old (List.mem_of_getElem? hget) d (ho1 ▸ ho2 ▸ hd)
  · intro node hmem hn
    obtain ⟨id,hid⟩ := List.mem_iff_getElem?.mp hmem
    obtain ⟨old,hget,-,-,ho1,ho2⟩ := hold id node hid
    rw [ho2]
    exact h.first old (List.mem_of_getElem? hget) (ho1 ▸ hn)
  · intro id node hid hnode
    obtain ⟨old,hget,hop,hopt,-,-⟩ := hold id node hnode
    rw [hop,hopt]
    exact h.inserted id old hid hget
  · intro v p hp
    obtain hp | ⟨node,hnode,hd⟩ := h.producers v p hp
    · exact Or.inl hp
    · refine Or.inr ⟨if n=p then f node else node,?_,?_⟩
      · change (s.heap.modify n f)[p]?=_
        rw [List.getElem?_modify,hnode]
        rfl
      · split_ifs
        · rwa [h1]
        · exact hd

/-- A node gets one more destination. -/
theorem Shape.set {parsed s : IrState} (h : Shape parsed s) (p : Nat) (old new : Node)
    (hold : s.heap[p]?=some old) (hopcode : new.opcode=old.opcode)
    (hflag : new.optimizable=old.optimizable) (h1 : new.destination1 ≠ none)
    (htargets : ∀ d,new.destination1=some d ∨ new.destination2=some d → d.node < s.heap.length) :
    Shape parsed {s with heap := s.heap.set p new} := by
  have hlt := (List.getElem?_eq_some_iff.mp hold).1
  have hmem : ∀ node,node∈s.heap.set p new → node∈s.heap ∨ node=new :=
    fun node hnode => List.mem_or_eq_of_mem_set hnode
  refine ⟨by simpa using h.size,h.labels,h.externalReferences,h.exports,?_,?_,?_,?_⟩
  · intro node hnode d hd
    rw [List.length_set]
    obtain hnode | rfl := hmem node hnode
    · exact h.targets node hnode d hd
    · exact htargets d hd
  · intro node hnode hn
    obtain hnode | rfl := hmem node hnode
    · exact h.first node hnode hn
    · exact absurd hn h1
  · intro id node hid hnode
    by_cases hp : p=id
    · subst hp
      rw [List.getElem?_set_self hlt] at hnode
      cases hnode
      rw [hopcode,hflag]
      exact h.inserted p old hid hold
    · rw [List.getElem?_set_ne hp] at hnode
      exact h.inserted id node hid hnode
  · intro v q hq
    obtain hq | ⟨node,hnode,hd⟩ := h.producers v q hq
    · exact Or.inl hq
    · by_cases hp : p=q
      · subst hp
        exact Or.inr ⟨new,List.getElem?_set_self hlt,h1⟩
      · exact Or.inr ⟨node,by rw [← hnode]; exact List.getElem?_set_ne hp,hd⟩

/-- A node whose both destinations are taken is put behind the others, as the only producer of a
variable. -/
theorem Shape.append {parsed s : IrState} (h : Shape parsed s) (name : Name) (d1 d2 : Destination)
    (h1 : d1.node < s.heap.length) (h2 : d2.node < s.heap.length) :
    Shape parsed {s with
      heap := s.heap++[dupNode (some d1) (some d2)]
      variableMap := Function.update s.variableMap name [s.heap.length]} := by
  have hlen : (s.heap++[dupNode (some d1) (some d2)]).length=s.heap.length+1 := by simp
  refine ⟨by rw [hlen]; exact Nat.le_succ_of_le h.size,h.labels,h.externalReferences,h.exports,
    ?_,?_,?_,?_⟩
  · intro node hnode d hd
    rw [hlen]
    obtain hnode | hnode := List.mem_append.mp hnode
    · exact Nat.lt_succ_of_lt (h.targets node hnode d hd)
    · obtain rfl := List.mem_singleton.mp hnode
      obtain hd | hd := hd
      · exact Nat.lt_succ_of_lt (Option.some.inj hd ▸ h1)
      · exact Nat.lt_succ_of_lt (Option.some.inj hd ▸ h2)
  · intro node hnode hn
    obtain hnode | hnode := List.mem_append.mp hnode
    · exact h.first node hnode hn
    · obtain rfl := List.mem_singleton.mp hnode
      cases hn
  · intro id node hid hnode
    by_cases hlt : id < s.heap.length
    · rw [List.getElem?_append_left hlt] at hnode
      exact h.inserted id node hid hnode
    · rw [List.getElem?_append_right (by omega)] at hnode
      obtain rfl := List.mem_singleton.mp (List.mem_of_getElem? hnode)
      exact ⟨rfl,rfl⟩
  · intro v p hp
    by_cases hv : v=name
    · subst hv
      simp only [Function.update_self,List.mem_singleton] at hp
      subst hp
      refine Or.inr ⟨dupNode (some d1) (some d2),?_,by simp [dupNode]⟩
      simp
    · simp only [Function.update_of_ne hv] at hp
      obtain hp | ⟨node,hnode,hd⟩ := h.producers v p hp
      · exact Or.inl hp
      · have hlt := (List.getElem?_eq_some_iff.mp hnode).1
        exact Or.inr ⟨node,by rw [List.getElem?_append_left hlt,hnode],hd⟩

theorem Shape.connect {parsed s : IrState} (h : Shape parsed s) (name : Name)
    (receiver : Destination) (p : Nat) (hr : receiver.node < parsed.heap.length) :
    Shape parsed (connect name receiver s p) := by
  have hreceiver := Nat.lt_of_lt_of_le hr h.size
  unfold Assembler.connect
  split
  · exact h
  · rename_i parent hp
    have hmem := List.mem_of_getElem? hp
    split_ifs with h1 h2
    · refine h.set p parent _ hp rfl rfl (by simp) ?_
      intro d hd
      simp only [Option.some.injEq] at hd
      obtain rfl | hd := hd
      · exact hreceiver
      · exact h.targets parent hmem d (Or.inr hd)
    · refine h.set p parent _ hp rfl rfl h1 ?_
      intro d hd
      simp only [Option.some.injEq] at hd
      obtain hd | rfl := hd
      · exact h.targets parent hmem d (Or.inl hd)
      · exact hreceiver
    · obtain ⟨d2,hd2⟩ := Option.ne_none_iff_exists'.mp h2
      -- the new node first, so that the parent's new destination is in range
      have hlt := (List.getElem?_eq_some_iff.mp hp).1
      have happend := h.append name d2 receiver (h.targets parent hmem d2 (Or.inr hd2)) hreceiver
      dsimp only
      rw [hd2,← List.set_append_left p _ hlt]
      refine happend.set p parent _ (by rw [List.getElem?_append_left hlt,hp]) rfl rfl h1 ?_
      intro d hd
      simp only [Option.some.injEq,List.length_append,List.length_singleton] at hd ⊢
      obtain hd | rfl := hd
      · exact Nat.lt_succ_of_lt (h.targets parent hmem d (Or.inl hd))
      · exact Nat.lt_succ_self _

theorem fixUp_shape {parsed : IrState} (h : WellRead parsed) : Shape parsed (fixUp parsed) := by
  refine fixUp_induction ⟨?_,?_,?_⟩ (Shape.refl h)
  · intro s node input hs
    exact hs.modify node _ (fun n => by cases input <;> rfl) (fun n => by cases input <;> rfl)
      (fun n => by cases input <;> rfl) (fun n => by cases input <;> rfl)
  · intro s node hs
    exact hs.modify node moveLiteral (fun n => by unfold moveLiteral; split_ifs <;> rfl)
      (fun n => by unfold moveLiteral; split_ifs <;> rfl)
      (fun n => by unfold moveLiteral; split_ifs <;> rfl)
      (fun n => by unfold moveLiteral; split_ifs <;> rfl)
  · intro s name receiver p _ hr _ hs
    exact hs.connect name receiver p hr.lt

theorem parse_cases (input : List Name) (g : Graph) (h : parseCreateIrGraph input=.ok g) :
    ∃ parsed,readLines .empty input=.ok parsed ∧ externFree (fixUp parsed)=true ∧
      g=⟨(fixUp parsed).heap,List.range (fixUp parsed).heap.length,(fixUp parsed).labels,
        (fixUp parsed).externalReferences.map
          fun symbol => (symbol,(fixUp parsed).variableMap symbol),(fixUp parsed).exports⟩ := by
  unfold parseCreateIrGraph at h
  split at h
  · cases h
  · rename_i parsed hparsed
    simp only at h
    split_ifs at h with hfree
    cases h
    exact ⟨parsed,hparsed,hfree,rfl⟩

/-- A node bound to an external symbol has no destinations, and no other symbol. -/
structure WellFormed (g : Graph) : Prop where
  nodup : g.nodes.Nodup
  nodes : ∀id∈g.nodes,id < g.heap.length
  targets : ∀ node∈g.heap,∀ d,node.destination1=some d ∨ node.destination2=some d →
    d.node < g.heap.length
  bound : ∀ e ids,(e,ids)∈g.externalReferences → ∀id∈ids,∀ node,g.heap[id]?=some node →
    node.destination1=none ∧ node.destination2=none
  single : ∀ e e' ids ids' id,(e,ids)∈g.externalReferences → (e',ids')∈g.externalReferences →
    id∈ids → id∈ids' → e=e'

theorem parse_wellFormed (input : List Name) (g : Graph) (h : parseCreateIrGraph input=.ok g) :
    WellFormed g := by
  obtain ⟨parsed,hread,hfree,rfl⟩ := parse_cases input g h
  have hwell := readLines_wellRead _ _ input WellRead.empty hread
  have hshape := fixUp_shape hwell
  have hbound : ∀ e ids,(e,ids)∈(fixUp parsed).externalReferences.map
      (fun symbol => (symbol,(fixUp parsed).variableMap symbol)) →
        e∈(fixUp parsed).externalReferences ∧ ids=(fixUp parsed).variableMap e := by
    intro e ids hmem
    obtain ⟨symbol,hsymbol,heq⟩ := List.mem_map.mp hmem
    cases heq
    exact ⟨hsymbol,rfl⟩
  have hfree' : ∀e∈(fixUp parsed).externalReferences,∀id∈(fixUp parsed).variableMap e,
      ∀ node,(fixUp parsed).heap[id]?=some node → node.destination1=none := by
    intro e he id hid node hnode
    have hall := List.all_eq_true.mp (List.all_eq_true.mp hfree e he) id hid
    rw [hnode] at hall
    exact eq_of_beq hall
  have hparsed : ∀e∈(fixUp parsed).externalReferences,∀id∈(fixUp parsed).variableMap e,
      id∈parsed.variableMap e := by
    intro e he id hid
    obtain hp | ⟨node,hnode,hd⟩ := hshape.producers e id hid
    · exact hp
    · exact absurd (hfree' e he id hid node hnode) hd
  constructor
  · exact List.nodup_range
  · exact fun id hid => List.mem_range.mp hid
  · exact hshape.targets
  · intro e ids hmem id hid node hnode
    obtain ⟨he,rfl⟩ := hbound e ids hmem
    have h1 := hfree' e he id hid node hnode
    exact ⟨h1,hshape.first node (List.mem_of_getElem? hnode) h1⟩
  · intro e e' ids ids' id hmem hmem' hid hid'
    obtain ⟨he,rfl⟩ := hbound e ids hmem
    obtain ⟨he',rfl⟩ := hbound e' ids' hmem'
    exact hwell.single e e' id (hparsed e he id hid) (hparsed e' he' id hid')

theorem WellFormed.set {g : Graph} (h : WellFormed g) (p : Nat) (new : Node) (nodes : List Nat)
    (hnodes : nodes⊆g.nodes) (hnodup : nodes.Nodup)
    (htargets : ∀ d,new.destination1=some d ∨ new.destination2=some d → d.node < g.heap.length)
    (hbound : ∀ e ids,(e,ids)∈g.externalReferences → p∉ids) :
    WellFormed {g with heap := g.heap.set p new,nodes := nodes} := by
  refine ⟨hnodup,?_,?_,?_,h.single⟩
  · intro id hid
    rw [List.length_set]
    exact h.nodes id (hnodes hid)
  · intro node hnode d hd
    rw [List.length_set]
    obtain hnode | rfl := List.mem_or_eq_of_mem_set hnode
    · exact h.targets node hnode d hd
    · exact htargets d hd
  · intro e ids hmem id hid node hnode
    have hne : p ≠ id := fun heq => hbound e ids hmem (heq ▸ hid)
    rw [List.getElem?_set_ne hne] at hnode
    exact h.bound e ids hmem id hid node hnode

theorem optimizeNode_wellFormed (parents : Nat → List Nat) (g g' : Graph) (id : Nat)
    (h : WellFormed g)
    (hparents : ∀ p,parents id=[p] → ∀ e ids,(e,ids)∈g.externalReferences → p∉ids)
    (hg : optimizeNode parents g id=.ok g') :
    WellFormed g' ∧ g'.externalReferences=g.externalReferences := by
  unfold optimizeNode at hg
  split at hg
  · rename_i node p hnode hp
    split_ifs at hg with hdup
    · split at hg
      · cases hg
      · rename_i parent hparent
        have hmem := List.mem_of_getElem? hparent
        have hnext : ∀ d,node.destination1=some d → d.node < g.heap.length :=
          fun d hd => h.targets node (List.mem_of_getElem? hnode) d (Or.inl hd)
        have herase : g.nodes.erase id⊆g.nodes := fun _ hm => List.mem_of_mem_erase hm
        split_ifs at hg with h1 h2
        · cases hg
          refine ⟨h.set p _ _ herase (h.nodup.erase id) ?_ (hparents p hp),rfl⟩
          rintro d (hd | hd)
          · exact hnext d hd
          · exact h.targets parent hmem d (Or.inr hd)
        · cases hg
          refine ⟨h.set p _ _ herase (h.nodup.erase id) ?_ (hparents p hp),rfl⟩
          rintro d (hd | hd)
          · exact h.targets parent hmem d (Or.inl hd)
          · exact hnext d hd
    · cases hg
      exact ⟨h,rfl⟩
  · cases hg
    exact ⟨h,rfl⟩

theorem optimizeNodes_wellFormed (parents : Nat → List Nat) (ids : List Nat) (g g' : Graph)
    (h : WellFormed g)
    (hparents : ∀ id p,parents id=[p] → ∀ e ids,(e,ids)∈g.externalReferences → p∉ids)
    (hg : optimizeNodes parents g ids=.ok g') : WellFormed g' := by
  induction ids generalizing g with
  | nil =>
    cases hg
    exact h
  | cons id ids ih =>
    simp only [optimizeNodes] at hg
    split at hg
    · cases hg
    · rename_i mid hmid
      obtain ⟨hwell,hext⟩ := optimizeNode_wellFormed parents g mid id h (hparents id) hmid
      exact ih mid hwell (hext ▸ hparents) hg

/-- A node without destinations is no node's parent, so the pass leaves the bound ones alone. -/
theorem optimizeGraph_wellFormed (g g' : Graph) (h : WellFormed g)
    (hg : optimizeGraph g=.ok g') : WellFormed g' := by
  refine optimizeNodes_wellFormed _ _ g g' h ?_ hg
  intro id p hp e ids hmem hpids
  have hparent : p∈g.parents id := by rw [hp]; simp
  obtain ⟨n,-,hn⟩ := List.mem_flatMap.mp hparent
  split at hn
  · simp at hn
  · rename_i node hnode
    have hnp : n=p := by
      obtain hn | hn := List.mem_append.mp hn <;> split_ifs at hn <;> simp_all
    subst hnp
    obtain ⟨h1,h2⟩ := h.bound e ids hmem n hpids node hnode
    simp [h1,h2] at hn

theorem parse_inserted (input : List Name) (parsed : IrState) (g : Graph)
    (hread : readLines .empty input=.ok parsed) (hg : parseCreateIrGraph input=.ok g) (id : Nat)
    (node : Node) (hid : parsed.heap.length ≤ id) (hnode : g.heap[id]?=some node) :
    node.opcode=.op .DUP ∧ node.optimizable=true := by
  obtain ⟨parsed',hread',-,rfl⟩ := parse_cases input g hg
  obtain rfl : parsed'=parsed := Except.ok.inj (hread'.symm.trans hread)
  exact (fixUp_shape (readLines_wellRead _ _ input WellRead.empty hread)).inserted id node hid hnode

end Manchester.Assembler
