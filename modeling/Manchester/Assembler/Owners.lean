import Manchester.Assembler.Lines

namespace Manchester.Assembler

/-- The line of a node. -/
def lineOf : List Statement → Nat → Nat
  | [],_ => 0
  | s::rest,id => if id < s.size then 0 else lineOf rest (id-s.size)+1

/-- The node of line k itself, the last one that it makes. -/
def ownNode : List Statement → Nat → Nat
  | [],_ => 0
  | s::_,0 => s.size-1
  | s::rest,k+1 => s.size+ownNode rest k

theorem lineOf_ownNode {ss : List Statement} {k : Nat} {s : Statement} (hk : ss[k]?=some s)
    (hsize : s.size ≠ 0) : lineOf ss (ownNode ss k)=k := by
  induction ss generalizing k with
  | nil => cases hk
  | cons first rest ih =>
    cases k with
    | zero =>
      obtain rfl := Option.some.inj hk
      rw [ownNode,lineOf,if_pos (by omega)]
    | succ k =>
      rw [ownNode,lineOf,if_neg (by omega),Nat.add_sub_cancel_left,ih hk]

theorem ownNode_mem {ss : List Statement} {k : Nat} {s : Statement} (n : Nat)
    (hk : ss[k]?=some s) (hsize : s.size ≠ 0) : (n+ownNode ss k,s)∈lineNodes n ss := by
  induction ss generalizing n k with
  | nil => cases hk
  | cons first rest ih =>
    cases k with
    | zero =>
      obtain rfl := Option.some.inj hk
      rw [lineNodes,if_neg hsize]
      exact List.mem_cons_self
    | succ k =>
      have hrest := ih (n+first.size) hk
      rw [ownNode,← Nat.add_assoc,lineNodes]
      split_ifs with hfirst
      · rwa [hfirst,Nat.add_zero] at hrest ⊢
      · exact List.mem_cons_of_mem _ hrest

/-- The node of the line, or the two before it in a branch line, define its variables. -/
def Statement.Defines (parsed : IrState) (id : Nat) : Statement → Prop
  | .assign target _ _ _ => id∈parsed.variableMap target
  | .branch trueOutput falseOutput _ _ _ => ∃ (b : Nat) (node : Node),id=b+2 ∧
      b∈parsed.variableMap trueOutput ∧ b+1∈parsed.variableMap falseOutput ∧
      parsed.heap[id]?=some node ∧ node.destination1=some ⟨b,.INPUT_ONE⟩ ∧
      node.destination2=some ⟨b+1,.INPUT_ONE⟩
  | _ => True

/-- What later lines leave alone. -/
structure Grows (s s' : IrState) : Prop where
  heap : s.heap <+: s'.heap
  defined : ∀ v,s.variableMap v⊆s'.variableMap v

theorem Grows.refl (s : IrState) : Grows s s := ⟨List.prefix_rfl,fun _ => List.Subset.refl _⟩

theorem Grows.trans {s s' s'' : IrState} (h : Grows s s') (h' : Grows s' s'') : Grows s s'' :=
  ⟨h.heap.trans h'.heap,fun v => List.Subset.trans (h.defined v) (h'.defined v)⟩

theorem Statement.Defines.mono {s s' : IrState} {id : Nat} {st : Statement}
    (h : st.Defines s id) (hgrows : Grows s s') : st.Defines s' id := by
  cases st with
  | assign target opcode input1 input2 => exact hgrows.defined _ h
  | branch t f opcode input test =>
    obtain ⟨b,node,hid,ht,hf,hnode,hslots⟩ := h
    exact ⟨b,node,hid,hgrows.defined _ ht,hgrows.defined _ hf,
      getElem?_of_isPrefix hgrows.heap hnode,hslots⟩
  | output _ _ | blank | unprocessed | externSymbol _ | label _ | exportSymbol _ => trivial

theorem Grows.labelLast (s : IrState) : Grows s s.labelLast := by
  unfold IrState.labelLast
  split_ifs
  · exact .refl s
  · exact ⟨List.prefix_rfl,fun _ => List.Subset.refl _⟩

theorem Grows.addNode (s : IrState) (node : Node) : Grows s (s.addNode node) :=
  ⟨List.prefix_append _ _,fun _ => List.Subset.refl _⟩

theorem Grows.defineLast (s : IrState) (name : Name) : Grows s (s.defineLast name) := by
  refine ⟨List.prefix_rfl,fun v id hid => ?_⟩
  by_cases hv : v=name
  · subst hv
    simp [IrState.defineLast,hid]
  · simpa [IrState.defineLast,Function.update_of_ne hv] using hid

/-- The nodes of one line that are no outputs: its own. -/
theorem readStatement_owner (s s' : IrState) (st : Statement) (h : readStatement s st=.ok s') :
    Grows s s' ∧ ∀ (id : Nat) (node : Node),s.heap.length ≤ id → s'.heap[id]?=some node →
      node.optimizable=false →
        id=s.heap.length+(st.size-1) ∧ st.size ≠ 0 ∧ st.Defines s' id := by
  have hnone : ∀ (t : IrState) (id : Nat) (node : Node),t.heap=s.heap → s.heap.length ≤ id →
      t.heap[id]?=some node → False := by
    intro t id node ht hid hnode
    rw [ht] at hnode
    have hlt := (List.getElem?_eq_some_iff.mp hnode).1
    omega
  cases st with
  | assign target opcode input1 input2 =>
    cases h
    let node : Node := ⟨opcode,some input1,input2,none,none,false⟩
    let mid := (s.addNode node).defineLast target
    have hgrows : Grows s mid := (Grows.addNode s node).trans (Grows.defineLast _ target)
    refine ⟨hgrows.trans (.labelLast mid),fun id other hid hother hflag => ?_⟩
    have hheap : mid.labelLast.heap=s.heap++[node] := by
      unfold IrState.labelLast
      split_ifs <;> rfl
    have hlt := (List.getElem?_eq_some_iff.mp hother).1
    rw [hheap,List.length_append,List.length_singleton] at hlt
    obtain rfl : id=s.heap.length := by omega
    refine ⟨rfl,by simp [Statement.size],?_⟩
    apply (Grows.labelLast mid).defined
    simp [mid,IrState.defineLast,IrState.addNode]
  | output opcode input =>
    cases h
    let node : Node := ⟨opcode,some input,none,none,none,false⟩
    refine ⟨(Grows.addNode s node).trans (.labelLast _),fun id other hid hother hflag => ?_⟩
    have hheap : (s.addNode node).labelLast.heap=s.heap++[node] := by
      unfold IrState.labelLast
      split_ifs <;> rfl
    have hlt := (List.getElem?_eq_some_iff.mp hother).1
    rw [hheap,List.length_append,List.length_singleton] at hlt
    exact ⟨by simp [Statement.size]; omega,by simp [Statement.size],trivial⟩
  | branch t f opcode input test =>
    cases h
    let node : Node := ⟨opcode,some input,test,some ⟨s.heap.length,.INPUT_ONE⟩,
      some ⟨s.heap.length+1,.INPUT_ONE⟩,false⟩
    let mid := s.addBranch t f node
    have hmem := mem_addBranch s t f
    have hgrows : Grows s mid := by
      refine ⟨by rw [addBranch_heap]; exact List.prefix_append _ _,fun v id hid => ?_⟩
      exact (hmem v node id).mpr (Or.inl hid)
    refine ⟨hgrows.trans (.labelLast mid),fun id other hid hother hflag => ?_⟩
    have hheap : mid.labelLast.heap=mid.heap := by
      unfold IrState.labelLast
      split_ifs <;> rfl
    have hother : mid.labelLast.heap[id]?=some other := hother
    rw [hheap] at hother
    obtain hold | ⟨-,rfl⟩ | ⟨rfl,rfl⟩ := addBranch_cases s t f node id other hother
    · have hlt := (List.getElem?_eq_some_iff.mp hold).1
      omega
    · cases hflag
    · refine ⟨rfl,by simp [Statement.size],s.heap.length,node,rfl,?_,?_,?_,rfl,rfl⟩
      · exact (Grows.labelLast mid).defined _ ((hmem t node _).mpr (Or.inr (Or.inl ⟨rfl,rfl⟩)))
      · exact (Grows.labelLast mid).defined _ ((hmem f node _).mpr (Or.inr (Or.inr ⟨rfl,rfl⟩)))
      · exact getElem?_of_isPrefix (Grows.labelLast mid).heap hother
  | blank | unprocessed =>
    cases h
    exact ⟨.refl _,fun id node hid hnode _ => (hnone _ id node rfl hid hnode).elim⟩
  | externSymbol name =>
    cases h
    exact ⟨⟨List.prefix_rfl,fun _ => List.Subset.refl _⟩,
      fun id node hid hnode _ => (hnone _ id node rfl hid hnode).elim⟩
  | label name | exportSymbol name =>
    simp only [readStatement] at h
    split_ifs at h
    all_goals
      cases h
      exact ⟨⟨List.prefix_rfl,fun _ => List.Subset.refl _⟩,
        fun id node hid hnode _ => (hnone _ id node rfl hid hnode).elim⟩

theorem readLines_owners (s s' : IrState) (lines : List Name) (h : readLines s lines=.ok s') :
    Grows s s' ∧ ∀ (id : Nat) (node : Node),s.heap.length ≤ id → s'.heap[id]?=some node →
      node.optimizable=false →
        let k := lineOf (statements lines) (id-s.heap.length)
        ∃ st,(statements lines)[k]?=some st ∧ st.size ≠ 0 ∧
          id=s.heap.length+ownNode (statements lines) k ∧ st.Defines s' id := by
  induction lines generalizing s with
  | nil =>
    cases h
    refine ⟨.refl _,fun id node hid hnode => ?_⟩
    have hlt := (List.getElem?_eq_some_iff.mp hnode).1
    omega
  | cons line lines ih =>
    simp only [readLines] at h
    split at h
    · cases h
    · rename_i st hline
      split at h
      · cases h
      · rename_i mid hmid
        have hstatements : statements (line::lines)=st::statements lines := by
          rw [statements,List.filterMap_cons,hline]
          rfl
        obtain ⟨hlen,-,-⟩ := readStatement_node s mid st hmid
        obtain ⟨hgrows,hfirst⟩ := readStatement_owner s mid st hmid
        obtain ⟨hgrows',hrest⟩ := ih mid h
        refine ⟨hgrows.trans hgrows',fun id node hid hnode hflag => ?_⟩
        rw [hstatements,lineOf]
        split_ifs with hown
        · have hlt : id < mid.heap.length := by omega
          have hnode' : mid.heap[id]?=some node := by
            obtain ⟨more,hmore⟩ := hgrows'.heap
            rw [← hmore,List.getElem?_append_left hlt] at hnode
            exact hnode
          obtain ⟨heq,hsize,hdefines⟩ := hfirst id node hid hnode' hflag
          exact ⟨st,rfl,hsize,heq,hdefines.mono hgrows'⟩
        · have hsub : id-mid.heap.length=id-s.heap.length-st.size := by omega
          obtain ⟨st',hst',hsize,heq,hdefines⟩ := hrest id node (by omega) hnode hflag
          rw [hsub] at hst' heq
          refine ⟨st',hst',hsize,?_,hdefines⟩
          rw [ownNode]
          omega

/-- What a branch line gives its node as destinations are definitions. -/
def OutputsDefined (s : IrState) : Prop :=
  ∀ (p : Nat) (node : Node) (slot : DestSlot) (d : Destination),s.heap[p]?=some node →
    node.slot slot=some d → ∃ v,d.node∈s.variableMap v

theorem readStatement_outputs (s s' : IrState) (st : Statement) (hs : OutputsDefined s)
    (h : readStatement s st=.ok s') : OutputsDefined s' := by
  obtain ⟨hgrows,-⟩ := readStatement_owner s s' st h
  have hold : ∀ {p : Nat} {node : Node} {slot : DestSlot} {d : Destination},
      s.heap[p]?=some node → node.slot slot=some d → ∃ v,d.node∈s'.variableMap v := by
    intro p node slot d hnode hd
    obtain ⟨v,hv⟩ := hs p node slot d hnode hd
    exact ⟨v,hgrows.defined v hv⟩
  have hheap : ∀ t : IrState,t.labelLast.heap=t.heap := by
    intro t
    unfold IrState.labelLast
    split_ifs <;> rfl
  intro p other slot d hother hd
  cases st with
  | assign target opcode input1 input2 =>
    cases h
    have hother : (s.heap++[(⟨opcode,some input1,input2,none,none,false⟩ : Node)])[p]?=
        some other := by
      rw [hheap] at hother
      exact hother
    obtain hsame | ⟨k,-,hk⟩ := getElem?_append_cases hother
    · exact hold hsame hd
    · rw [List.mem_singleton.mp (List.mem_of_getElem? hk)] at hd
      cases slot <;> cases hd
  | output opcode input =>
    cases h
    have hother : (s.heap++[(⟨opcode,some input,none,none,none,false⟩ : Node)])[p]?=
        some other := by
      rw [hheap] at hother
      exact hother
    obtain hsame | ⟨k,-,hk⟩ := getElem?_append_cases hother
    · exact hold hsame hd
    · rw [List.mem_singleton.mp (List.mem_of_getElem? hk)] at hd
      cases slot <;> cases hd
  | branch t f opcode input test =>
    cases h
    let node : Node := ⟨opcode,some input,test,some ⟨s.heap.length,.INPUT_ONE⟩,
      some ⟨s.heap.length+1,.INPUT_ONE⟩,false⟩
    have hmem := mem_addBranch s t f
    have hlabel := Grows.labelLast (s.addBranch t f node)
    have hother : (s.addBranch t f node).heap[p]?=some other := by
      rw [hheap] at hother
      exact hother
    obtain hsame | ⟨-,rfl⟩ | ⟨-,rfl⟩ := addBranch_cases s t f node p other hother
    · exact hold hsame hd
    · rw [slot_outputNode] at hd
      cases hd
    · cases slot with
      | destination1 =>
        obtain rfl := Option.some.inj hd
        exact ⟨t,hlabel.defined _ ((hmem t node _).mpr (Or.inr (Or.inl ⟨rfl,rfl⟩)))⟩
      | destination2 =>
        obtain rfl := Option.some.inj hd
        exact ⟨f,hlabel.defined _ ((hmem f node _).mpr (Or.inr (Or.inr ⟨rfl,rfl⟩)))⟩
  | blank | unprocessed | externSymbol name =>
    cases h
    exact hold hother hd
  | label name | exportSymbol name =>
    simp only [readStatement] at h
    split_ifs at h
    all_goals
      cases h
      exact hold hother hd

theorem readLines_outputs (s s' : IrState) (lines : List Name) (hs : OutputsDefined s)
    (h : readLines s lines=.ok s') : OutputsDefined s' := by
  induction lines generalizing s with
  | nil =>
    cases h
    exact hs
  | cons line lines ih =>
    simp only [readLines] at h
    split at h
    · cases h
    · split at h
      · cases h
      · rename_i mid hmid
        exact ih mid (readStatement_outputs s mid _ hs hmid) h

end Manchester.Assembler
