import Manchester.Assembler.Marker

namespace Manchester.Assembler

/-- At most one operand is left, and it is the first one if the opcode takes two. -/
def Node.Fed (node : Node) : Prop :=
  node.input2=none ∨ (node.input1=none ∧ node.opcode.numInputs ≠ 2)

/-- The matching function that the machine needs for the operands that are left: no instruction
with two operands left takes a token. -/
def Node.Needs (node : Node) (matching : Nat) : Prop :=
  node.operands.length < 2 ∧
    ((matching=matchingOne ∧ node.opcode ≠ .op .MER ∧
        (node.opcode.numInputs=1 ∨ node.operands.length=1)) ∨
      (matching=matchingAny ∧ node.opcode=.op .MER) ∨
      (matching=matchingBoth ∧ node.opcode.numInputs=2 ∧ node.opcode ≠ .op .MER ∧
        node.operands.length=0))

theorem Node.Fed.length {node : Node} (h : node.Fed) : node.operands.length < 2 := by
  obtain h2 | ⟨h1,-⟩ := h
  · cases h1 : node.input1 <;> simp [Node.operands,h1,h2]
  · cases h2 : node.input2 <;> simp [Node.operands,h1,h2]

theorem Node.Fed.needs {node : Node} {m : Nat} (h : node.Fed)
    (hm : matchingFunction node=.ok m) : node.Needs m := by
  refine ⟨h.length,?_⟩
  unfold matchingFunction at hm
  split_ifs at hm with hone htwo hboth hmer hfirst
  · cases hm
    refine Or.inl ⟨rfl,?_,Or.inl hone⟩
    intro hmer
    rw [hmer] at hone
    cases hone
  · cases hm
    exact Or.inr (Or.inl ⟨rfl,hmer⟩)
  · cases hm
    have h2 : node.input2=none := h.resolve_right fun hother => hother.2 htwo
    obtain ⟨arg,h1⟩ := Option.ne_none_iff_exists'.mp hfirst
    exact Or.inl ⟨rfl,hmer,Or.inr (by simp [Node.operands,h1,h2])⟩
  · cases hm
    have h2 : node.input2=none := h.resolve_right fun hother => hother.2 htwo
    have h1 : node.input1=none := by simpa using hfirst
    exact Or.inr (Or.inr ⟨rfl,htwo,hmer,by simp [Node.operands,h1,h2]⟩)

/-- A variable leaves its operand position free, and a literal beside it moves to the first. -/
theorem settled_fed (labels : Name → Option Nat) (old node : Node) (i : Input)
    (hop : node.opcode=old.opcode) (h1 : node.input1=settledInput labels old .INPUT_ONE)
    (h2 : node.input2=settledInput labels old .INPUT_TWO)
    (hfree : keptInput labels (old.input i)=none) : node.Fed := by
  unfold Node.Fed
  rw [h1,h2,hop]
  unfold settledInput moveLiteral
  cases i with
  | INPUT_ONE =>
    have hkept : keptInput labels old.input1=none := hfree
    by_cases hmove : old.opcode.numInputs=2 ∧ keptInput labels old.input2 ≠ none
    · left
      rw [if_pos ⟨hmove.1,hkept,hmove.2⟩]
      rfl
    · rw [if_neg fun h => hmove ⟨h.1,h.2.2⟩]
      by_cases hsecond : keptInput labels old.input2=none
      · exact Or.inl hsecond
      · exact Or.inr ⟨hkept,fun htwo => hmove ⟨htwo,hsecond⟩⟩
  | INPUT_TWO =>
    have hkept : keptInput labels old.input2=none := hfree
    left
    rw [if_neg fun h => h.2.2 hkept]
    exact hkept

section Edges

variable {input : List Name} {parsed : IrState} {g : Graph}

theorem Parsed.used_fed (h : Parsed input parsed g) {d : Destination} {node : Node}
    (hused : IsUsed parsed d) (hnode : g.heap[d.node]?=some node) : node.Fed := by
  obtain ⟨name,huse⟩ := hused
  obtain ⟨old,hold,hoperand⟩ := Option.bind_eq_some_iff.mp huse.operand
  have hrounds := fixUp_rounds parsed
  rw [h.graph] at hnode
  have hinputs : ∀ i,node.input i=settledInput parsed.labels old i := by
    intro i
    have hsettled := hrounds.settled d.node old huse.lt hold i
    have hread : inputOf (fixUp parsed).heap ⟨d.node,i⟩=node.input i := by
      change ((fixUp parsed).heap[d.node]?).bind _=_
      rw [hnode]
      rfl
    rw [← hread,hsettled]
  have hop : node.opcode=old.opcode := by
    have hkept := hrounds.sources.opcodes d.node huse.lt
    rw [hnode,hold] at hkept
    exact Option.some.inj hkept
  refine settled_fed parsed.labels old node d.input hop (hinputs .INPUT_ONE) (hinputs .INPUT_TWO) ?_
  rw [hoperand]
  simp [keptInput,huse.isVariable.1,huse.isVariable.2]

/-- The DUP nodes of the assembler have no operands. -/
theorem Parsed.dup_fed (h : Parsed input parsed g) {id : Nat} {node : Node}
    (hdup : IsOutput parsed.heap id ∨ parsed.heap.length ≤ id)
    (hnode : g.heap[id]?=some node) : node.Fed := by
  have hrounds := fixUp_rounds parsed
  rw [h.graph] at hnode
  left
  have hread : inputOf (fixUp parsed).heap ⟨id,.INPUT_TWO⟩=node.input2 := by
    change ((fixUp parsed).heap[id]?).bind _=_
    rw [hnode]
    rfl
  rw [← hread]
  obtain hout | hge := hdup
  · rw [hrounds.settled id outputNode (List.getElem?_eq_some_iff.mp hout).1 hout]
    rfl
  · rw [hrounds.waiting ⟨id,.INPUT_TWO⟩ hge]
    change (parsed.heap[id]?).bind _=_
    rw [List.getElem?_eq_none hge]
    rfl

/-- Every edge that is left after the pass goes to a use of a variable or to a DUP of the
assembler. -/
theorem Parsed.edge_cases (h : Parsed input parsed g) {id : Nat} {source : Node}
    {slot : DestSlot} {d : Destination} (hsource : g.optimized.heap[id]?=some source)
    (hd : source.slot slot=some d) :
    IsUsed parsed d ∨ IsOutput parsed.heap d.node ∨ parsed.heap.length ≤ d.node := by
  rw [optimized_heap] at hsource
  obtain ⟨old,hold,rfl⟩ := Option.map_eq_some_iff.mp hsource
  have hedge : ∀ (q : Nat) (n : Node) (s : DestSlot),¬IsBranch parsed.heap q →
      g.heap[q]?=some n → n.slot s=some d →
        IsUsed parsed d ∨ IsOutput parsed.heap d.node ∨ parsed.heap.length ≤ d.node := by
    intro q n s hq hn hs
    rw [h.graph] at hn
    obtain hused | hlink := h.linked.edges q n s d hq hn hs
    · exact Or.inl hused
    · exact Or.inr (Or.inr hlink.2)
  rw [slot_skipNode] at hd
  obtain ⟨hslot,-⟩ | ⟨mid,other,-,hrem,-,hother,hd1⟩ := skip_cases g _ _ d hd
  · by_cases hbranch : IsBranch parsed.heap id
    · obtain ⟨n,hn,hne⟩ := hbranch
      obtain ⟨kept,hkept,-,-,hslots⟩ := h.linked.kept id n hn
      rw [h.graph] at hold
      obtain rfl : old=kept := Option.some.inj (hold.symm.trans hkept)
      rw [hslots hne] at hslot
      obtain ⟨-,-,hout,-,-⟩ := h.branches.edges id n slot d hn hslot
      exact Or.inr (Or.inl hout)
    · exact hedge id old slot hbranch hold hslot
  · exact hedge mid.node other .destination1 (h.removable_output mid.node hrem).not_branch hother
      hd1

theorem Parsed.edge_fed (h : Parsed input parsed g) {id : Nat} {source node : Node}
    {slot : DestSlot} {d : Destination} (hsource : g.optimized.heap[id]?=some source)
    (hd : source.slot slot=some d) (hnode : g.optimized.heap[d.node]?=some node) : node.Fed := by
  rw [optimized_heap] at hnode
  obtain ⟨target,htarget,rfl⟩ := Option.map_eq_some_iff.mp hnode
  change target.Fed
  obtain hused | hdup := h.edge_cases hsource hd
  · exact h.used_fed hused htarget
  · exact h.dup_fed hdup htarget

end Edges

end Manchester.Assembler
