import Manchester.Assembler.Branches

namespace Manchester.Assembler

def IsBranch (heap : List Node) (id : Nat) : Prop :=
  ∃ node,heap[id]?=some node ∧ node.destination1 ≠ none

/-- An operand position of the read graph that names some variable. -/
def IsUsed (parsed : IrState) (d : Destination) : Prop := ∃ name,IsUse parsed name d

/-- The input of a node that the loop added. -/
def IsLink (parsed : IrState) (d : Destination) : Prop :=
  d.input=.INPUT_ONE ∧ parsed.heap.length ≤ d.node

theorem IsUsed.not_output {parsed : IrState} {d : Destination} (h : IsUsed parsed d) :
    ¬IsOutput parsed.heap d.node := by
  intro hout
  obtain ⟨name,huse⟩ := h
  obtain ⟨node,hnode,hoperand⟩ := Option.bind_eq_some_iff.mp huse.operand
  rw [hout] at hnode
  obtain rfl := Option.some.inj hnode
  cases hi : d.input <;> simp [hi,outputNode,dupNode,Node.input] at hoperand

/-- The loop leaves the edges of the branch nodes alone. All other edges go to operand positions
or to nodes that the loop added, and an added node has two of them. -/
structure Linked (parsed s : IrState) : Prop where
  kept : ∀ (q : Nat) (old : Node),parsed.heap[q]?=some old → ∃ node : Node,
    s.heap[q]?=some node ∧ node.opcode=old.opcode ∧ node.optimizable=old.optimizable ∧
      (old.destination1 ≠ none → ∀ slot,node.slot slot=old.slot slot)
  inserted : ∀ (q : Nat) (node : Node),parsed.heap.length ≤ q → s.heap[q]?=some node →
    ∀ slot,node.slot slot ≠ none
  edges : ∀ (q : Nat) (node : Node) (slot : DestSlot) (d : Destination),¬IsBranch parsed.heap q →
    s.heap[q]?=some node → node.slot slot=some d →
      IsUsed parsed d ∨ IsLink parsed d
  opened : ∀ (q : Nat) (node : Node) (d : Destination),¬IsBranch parsed.heap q →
    s.heap[q]?=some node → node.destination2=none → node.destination1=some d →
      IsUsed parsed d
  maps : ∀ v,s.variableMap v=parsed.variableMap v ∨
    ∃p∈s.variableMap v,∃ node : Node,s.heap[p]?=some node ∧ node.destination1 ≠ none

theorem IsOutput.not_branch {heap : List Node} {id : Nat} (hid : IsOutput heap id) :
    ¬IsBranch heap id := by
  intro ⟨node,hnode,hne⟩
  rw [hid] at hnode
  obtain rfl := Option.some.inj hnode
  exact hne rfl

theorem IsBranch.lt {heap : List Node} {q : Nat} (h : IsBranch heap q) : q < heap.length := by
  obtain ⟨node,hnode,-⟩ := h
  exact (List.getElem?_eq_some_iff.mp hnode).1

theorem WellRead.slot_none {s : IrState} (h : WellRead s) (q : Nat) (node : Node)
    (hq : ¬IsBranch s.heap q) (hnode : s.heap[q]?=some node) (slot : DestSlot) :
    node.slot slot=none := by
  have h1 : node.destination1=none := by
    by_contra hne
    exact hq ⟨node,hnode,hne⟩
  cases slot with
  | destination1 => exact h1
  | destination2 => exact h.first node (List.mem_of_getElem? hnode) h1

theorem Linked.refl {s : IrState} (h : WellRead s) : Linked s s where
  kept := fun _ old hold => ⟨old,hold,rfl,rfl,fun _ _ => rfl⟩
  inserted := fun q node hq hnode => by
    have hlt := (List.getElem?_eq_some_iff.mp hnode).1
    omega
  edges := fun q node slot d hq hnode hd => by
    rw [h.slot_none q node hq hnode slot] at hd
    cases hd
  opened := fun q node d hq hnode _ hd => by
    have hnone : node.destination1=none := h.slot_none q node hq hnode .destination1
    rw [hnone] at hd
    cases hd
  maps := fun _ => Or.inl rfl

/-- A rewrite of one node that keeps its opcode, flag and destinations. -/
theorem Linked.modify {parsed s : IrState} (h : Linked parsed s) (n : Nat) (f : Node → Node)
    (hopcode : ∀ node,(f node).opcode=node.opcode)
    (hflag : ∀ node,(f node).optimizable=node.optimizable)
    (hslot : ∀ node slot,(f node).slot slot=node.slot slot) :
    Linked parsed {s with heap := s.heap.modify n f} := by
  have hold : ∀ (q : Nat) (node : Node),(s.heap.modify n f)[q]?=some node →
      ∃ old : Node,s.heap[q]?=some old ∧ ∀ slot,node.slot slot=old.slot slot := by
    intro q node hnode
    rw [List.getElem?_modify] at hnode
    obtain ⟨old,hget,rfl⟩ := Option.map_eq_some_iff.mp hnode
    refine ⟨old,hget,fun slot => ?_⟩
    split_ifs
    · exact hslot old slot
    · rfl
  have hnew : ∀ (q : Nat) (node : Node),s.heap[q]?=some node → ∃ new : Node,
      (s.heap.modify n f)[q]?=some new ∧ new.opcode=node.opcode ∧
        new.optimizable=node.optimizable ∧ ∀ slot,new.slot slot=node.slot slot := by
    intro q node hnode
    refine ⟨if n=q then f node else node,by rw [List.getElem?_modify,hnode]; rfl,?_⟩
    split_ifs
    · exact ⟨hopcode node,hflag node,hslot node⟩
    · exact ⟨rfl,rfl,fun _ => rfl⟩
  constructor
  · intro q old hq
    obtain ⟨node,hnode,hop,hopt,hbranch⟩ := h.kept q old hq
    obtain ⟨new,hget,hop',hopt',hslot'⟩ := hnew q node hnode
    refine ⟨new,hget,by rw [hop',hop],by rw [hopt',hopt],fun hne slot => ?_⟩
    rw [hslot' slot,hbranch hne slot]
  · intro q node hq hnode slot
    obtain ⟨old,hget,hslot'⟩ := hold q node hnode
    rw [hslot' slot]
    exact h.inserted q old hq hget slot
  · intro q node slot d hq hnode hd
    obtain ⟨old,hget,hslot'⟩ := hold q node hnode
    exact h.edges q old slot d hq hget (hslot' slot ▸ hd)
  · intro q node d hq hnode h2 hd
    obtain ⟨old,hget,hslot'⟩ := hold q node hnode
    exact h.opened q old d hq hget ((hslot' .destination2).symm.trans h2)
      ((hslot' .destination1).symm.trans hd)
  · intro v
    obtain hv | ⟨p,hp,node,hnode,hd⟩ := h.maps v
    · exact Or.inl hv
    · obtain ⟨new,hget,-,-,hslot'⟩ := hnew p node hnode
      exact Or.inr ⟨p,hp,new,hget,fun hnone => hd ((hslot' .destination1).symm.trans hnone)⟩

/-- A producer gets one more destination. -/
theorem Linked.set {parsed s : IrState} (h : Linked parsed s) (p : Nat) (old new : Node)
    (hp : ¬IsBranch parsed.heap p) (hold : s.heap[p]?=some old) (hopcode : new.opcode=old.opcode)
    (hflag : new.optimizable=old.optimizable) (h1 : new.destination1 ≠ none)
    (h2 : new.destination2=none → old.destination2=none)
    (hedges : ∀ slot d,new.slot slot=some d →
      IsUsed parsed d ∨ IsLink parsed d)
    (hopened : ∀ d,new.destination2=none → new.destination1=some d →
      IsUsed parsed d) :
    Linked parsed {s with heap := s.heap.set p new} := by
  have hlt := (List.getElem?_eq_some_iff.mp hold).1
  have hcases : ∀ (q : Nat) (node : Node),(s.heap.set p new)[q]?=some node →
      (q=p ∧ node=new) ∨ s.heap[q]?=some node := by
    intro q node hnode
    by_cases hq : p=q
    · subst hq
      rw [List.getElem?_set_self hlt] at hnode
      exact Or.inl ⟨rfl,(Option.some.inj hnode).symm⟩
    · rw [List.getElem?_set_ne hq] at hnode
      exact Or.inr hnode
  constructor
  · intro q old' hq
    obtain ⟨node,hnode,hop,hopt,hbranch⟩ := h.kept q old' hq
    by_cases hpq : p=q
    · subst hpq
      obtain rfl : old=node := Option.some.inj (hold.symm.trans hnode)
      exact ⟨new,List.getElem?_set_self hlt,by rw [hopcode,hop],by rw [hflag,hopt],
        fun hne => absurd ⟨old',hq,hne⟩ hp⟩
    · exact ⟨node,by rw [← hnode]; exact List.getElem?_set_ne hpq,hop,hopt,hbranch⟩
  · intro q node hq hnode slot
    obtain ⟨rfl,rfl⟩ | hnode := hcases q node hnode
    · cases slot with
      | destination1 => exact h1
      | destination2 => exact fun hnone => h.inserted q old hq hold .destination2 (h2 hnone)
    · exact h.inserted q node hq hnode slot
  · intro q node slot d hq hnode hd
    obtain ⟨rfl,rfl⟩ | hnode := hcases q node hnode
    · exact hedges slot d hd
    · exact h.edges q node slot d hq hnode hd
  · intro q node d hq hnode hnone hd
    obtain ⟨rfl,rfl⟩ | hnode := hcases q node hnode
    · exact hopened d hnone hd
    · exact h.opened q node d hq hnode hnone hd
  · intro v
    obtain hv | ⟨q,hq,node,hnode,hd⟩ := h.maps v
    · exact Or.inl hv
    · by_cases hpq : p=q
      · exact Or.inr ⟨p,hpq ▸ hq,new,List.getElem?_set_self hlt,h1⟩
      · exact Or.inr ⟨q,hq,node,by rw [← hnode]; exact List.getElem?_set_ne hpq,hd⟩

/-- A node with two destinations is put behind the others, as the only producer of a variable. -/
theorem Linked.append {parsed s : IrState} (h : Linked parsed s) (name : Name)
    (d1 d2 : Destination)
    (h1 : IsUsed parsed d1 ∨ IsLink parsed d1)
    (h2 : IsUsed parsed d2) :
    Linked parsed {s with
      heap := s.heap++[dupNode (some d1) (some d2)]
      variableMap := Function.update s.variableMap name [s.heap.length]} := by
  have hleft : ∀ {q : Nat} {node : Node},s.heap[q]?=some node →
      (s.heap++[dupNode (some d1) (some d2)])[q]?=some node := by
    intro q node hnode
    rw [List.getElem?_append_left (List.getElem?_eq_some_iff.mp hnode).1,hnode]
  have hcases : ∀ (q : Nat) (node : Node),
      (s.heap++[dupNode (some d1) (some d2)])[q]?=some node →
        s.heap[q]?=some node ∨ node=dupNode (some d1) (some d2) := by
    intro q node hnode
    obtain hold | ⟨k,-,hk⟩ := getElem?_append_cases hnode
    · exact Or.inl hold
    · exact Or.inr (List.mem_singleton.mp (List.mem_of_getElem? hk))
  constructor
  · intro q old hq
    obtain ⟨node,hnode,hrest⟩ := h.kept q old hq
    exact ⟨node,hleft hnode,hrest⟩
  · intro q node hq hnode slot
    obtain hnode | rfl := hcases q node hnode
    · exact h.inserted q node hq hnode slot
    · cases slot <;> simp [Node.slot,dupNode]
  · intro q node slot d hq hnode hd
    obtain hnode | rfl := hcases q node hnode
    · exact h.edges q node slot d hq hnode hd
    · cases slot with
      | destination1 => exact Option.some.inj hd ▸ h1
      | destination2 => exact Or.inl (Option.some.inj hd ▸ h2)
  · intro q node d hq hnode hnone hd
    obtain hnode | rfl := hcases q node hnode
    · exact h.opened q node d hq hnode hnone hd
    · cases hnone
  · intro v
    by_cases hv : v=name
    · subst hv
      refine Or.inr ⟨s.heap.length,by simp,dupNode (some d1) (some d2),?_,by simp [dupNode]⟩
      simp
    · simp only [Function.update_of_ne hv]
      obtain hmap | ⟨p,hp,node,hnode,hd⟩ := h.maps v
      · exact Or.inl hmap
      · exact Or.inr ⟨p,hp,node,hleft hnode,hd⟩

theorem Linked.connect {parsed s : IrState} (h : Linked parsed s)
    (hsize : parsed.heap.length ≤ s.heap.length) (name : Name) (receiver : Destination) (p : Nat)
    (hr : IsUsed parsed receiver) (hp : ¬IsBranch parsed.heap p) :
    Linked parsed (connect name receiver s p) := by
  unfold Assembler.connect
  split
  · exact h
  · rename_i parent hparent
    have hedge : ∀ slot d,parent.slot slot=some d →
        IsUsed parsed d ∨ IsLink parsed d :=
      fun slot d hd => h.edges p parent slot d hp hparent hd
    split_ifs with h1 h2
    · refine h.set p parent _ hp hparent rfl rfl (by simp) id ?_ ?_
      · intro slot d hd
        cases slot with
        | destination1 => exact Or.inl (Option.some.inj hd ▸ hr)
        | destination2 => exact hedge .destination2 d hd
      · intro d _ hd
        exact Option.some.inj hd ▸ hr
    · refine h.set p parent _ hp hparent rfl rfl h1 nofun ?_ nofun
      intro slot d hd
      cases slot with
      | destination1 => exact hedge .destination1 d hd
      | destination2 => exact Or.inl (Option.some.inj hd ▸ hr)
    · obtain ⟨d2,hd2⟩ := Option.ne_none_iff_exists'.mp h2
      have hlt := (List.getElem?_eq_some_iff.mp hparent).1
      have happend := h.append name d2 receiver (hedge .destination2 d2 hd2) hr
      dsimp only
      rw [hd2,← List.set_append_left p _ hlt]
      refine happend.set p parent _ hp (by rw [List.getElem?_append_left hlt,hparent]) rfl rfl h1
        nofun ?_ nofun
      intro slot d hd
      cases slot with
      | destination1 => exact hedge .destination1 d hd
      | destination2 => exact Or.inr (Option.some.inj hd ▸ ⟨rfl,hsize⟩)

theorem fixUp_linked {parsed : IrState} (hread : WellRead parsed) :
    Linked parsed (fixUp parsed) := by
  refine fixUp_induction ⟨?_,?_,?_⟩ (Linked.refl hread)
  · intro s node input hs
    exact hs.modify node _ (fun n => by cases input <;> rfl) (fun n => by cases input <;> rfl)
      fun n slot => by cases input <;> cases slot <;> rfl
  · intro s node hs
    exact hs.modify node moveLiteral (fun n => by unfold moveLiteral; split_ifs <;> rfl)
      (fun n => by unfold moveLiteral; split_ifs <;> rfl)
      fun n slot => by unfold moveLiteral; split_ifs <;> cases slot <;> rfl
  · intro s name receiver p hsources hr hp hs
    refine hs.connect hsources.size name receiver p ?_ ?_
    · exact ⟨name,hr⟩
    · intro hisbranch
      obtain hp | hp := hp
      · obtain ⟨node,hnode,hopen,-⟩ := hread.defined name p hp
        obtain ⟨other,hother,hne⟩ := hisbranch
        obtain rfl : node=other := Option.some.inj (hnode.symm.trans hother)
        exact hne hopen
      · exact absurd hisbranch.lt (by omega)

section Outputs

variable {parsed s : IrState} {done : List Statement}

/-- Only one edge goes to an output node, and it comes from the node of the branch line. -/
theorem BranchRead.parent_unique (h : BranchRead parsed done) {p q : Nat} {node other : Node}
    {slot slot' : DestSlot} {d d' : Destination} (hp : parsed.heap[p]?=some node)
    (hd : node.slot slot=some d) (hq : parsed.heap[q]?=some other)
    (hd' : other.slot slot'=some d') (heq : d.node=d'.node) : p=q ∧ slot=slot' := by
  obtain ⟨hflag,-,-,h1,h2⟩ := h.edges p node slot d hp hd
  obtain ⟨hflag',-,-,h1',h2'⟩ := h.edges q other slot' d' hq hd'
  -- a second output is no branch node
  have hcross : ∀ (x y : Nat) (n : Node),parsed.heap[y]?=some n → n.optimizable=false →
      IsOutput parsed.heap (x+1) → y=x+1 → False := by
    intro x y n hy hoff hout hxy
    subst hxy
    rw [IsOutput,hy] at hout
    obtain rfl := Option.some.inj hout
    cases hoff
  cases slot with
  | destination1 =>
    cases slot' with
    | destination1 => exact ⟨by rw [(h1 rfl).1,(h1' rfl).1,heq],rfl⟩
    | destination2 =>
      exact (hcross d.node q other hq hflag' (h1 rfl).2 (by rw [h2' rfl,heq])).elim
  | destination2 =>
    cases slot' with
    | destination1 =>
      exact (hcross d'.node p node hp hflag (h1' rfl).2 (by rw [h2 rfl,heq])).elim
    | destination2 => exact ⟨by rw [h2 rfl,h2' rfl,heq],rfl⟩

theorem Linked.output (h : Linked parsed s) (hbranch : BranchRead parsed done) (id : Nat)
    (node : Node) (hnode : s.heap[id]?=some node) (hopt : node.optimizable=true)
    (hid : id < parsed.heap.length) : IsOutput parsed.heap id := by
  have hold : parsed.heap[id]?=some parsed.heap[id] := List.getElem?_eq_getElem hid
  obtain ⟨node',hnode',-,hflag,-⟩ := h.kept id _ hold
  obtain rfl : node=node' := Option.some.inj (hnode.symm.trans hnode')
  rw [IsOutput,hold,hbranch.outputs id _ hold (hflag ▸ hopt)]

/-- The edge to an output node, as it stands after the loop. -/
theorem Linked.parent (h : Linked parsed s) (hbranch : BranchRead parsed done)
    (hread : WellRead parsed) (id : Nat) (hid : IsOutput parsed.heap id) :
    ∃ (p : Nat) (node : Node) (slot : DestSlot),IsBranch parsed.heap p ∧ s.heap[p]?=some node ∧
      node.optimizable=false ∧ node.slot slot=some ⟨id,.INPUT_ONE⟩ ∧
        ∀ (q : Nat) (other : Node) (slot' : DestSlot) (d : Destination),s.heap[q]?=some other →
          other.slot slot'=some d → d.node=id → q=p ∧ slot'=slot := by
  obtain ⟨p,old,slot,hold,hd⟩ := hbranch.parent id hid
  have hfirst : old.destination1 ≠ none := by
    intro hnone
    cases slot with
    | destination1 => simp [Node.slot,hnone] at hd
    | destination2 =>
      simp [Node.slot,hread.first old (List.mem_of_getElem? hold) hnone] at hd
  obtain ⟨node,hnode,-,hflag,hslots⟩ := h.kept p old hold
  refine ⟨p,node,slot,⟨old,hold,hfirst⟩,hnode,?_,by rw [hslots hfirst,hd],?_⟩
  · rw [hflag]
    exact (hbranch.edges p old slot _ hold hd).1
  · intro q other slot' d hother hd' hdid
    by_cases hq : IsBranch parsed.heap q
    · obtain ⟨old',hold',hfirst'⟩ := hq
      obtain ⟨other',hother',-,-,hslots'⟩ := h.kept q old' hold'
      obtain rfl : other=other' := Option.some.inj (hother.symm.trans hother')
      rw [hslots' hfirst'] at hd'
      exact hbranch.parent_unique hold' hd' hold hd hdid
    · have hlt := (List.getElem?_eq_some_iff.mp hid).1
      obtain hused | hlink := h.edges q other slot' d hq hother hd'
      · exact absurd (hdid ▸ hid) hused.not_output
      · have hge := hlink.2
        omega

end Outputs

end Manchester.Assembler
