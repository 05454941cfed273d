import Manchester.Assembler.Placement

namespace Manchester.Assembler

/-- How many nodes a line makes; its own node is the last of them. -/
def Statement.size : Statement → Nat
  | .assign _ _ _ _ => 1
  | .output _ _ => 1
  | .branch _ _ _ _ _ => 3
  | _ => 0

def Statement.opcode : Statement → Option Opcode
  | .assign _ opcode _ _ => some opcode
  | .output opcode _ => some opcode
  | .branch _ _ opcode _ _ => some opcode
  | _ => none

/-- The lines that have nodes, with the ids of these when n nodes were made before. -/
def lineNodes : Nat → List Statement → List (Nat × Statement)
  | _,[] => []
  | n,s::rest =>
    if s.size=0 then lineNodes n rest else (n+(s.size-1),s)::lineNodes (n+s.size) rest

/-- The node has the opcode and the operands of the line, and is none of the pass's DUPs. -/
def Statement.IsRead (s : Statement) (node : Node) : Prop :=
  s.opcode=some node.opcode ∧ node.input1=s.operands[0]? ∧ node.input2=s.operands[1]? ∧
    node.optimizable=false

theorem readStatement_node (s s' : IrState) (statement : Statement)
    (h : readStatement s statement=.ok s') :
    s'.heap.length=s.heap.length+statement.size ∧ s.heap <+: s'.heap ∧
      (statement.size ≠ 0 → ∃ node,s'.heap[s.heap.length+(statement.size-1)]?=some node ∧
        statement.IsRead node) := by
  have hlabel : ∀ t : IrState,t.labelLast.heap=t.heap := by
    intro t
    unfold IrState.labelLast
    split_ifs <;> rfl
  cases statement with
  | assign target opcode input1 input2 =>
    cases h
    rw [hlabel]
    refine ⟨by simp [IrState.defineLast,IrState.addNode,Statement.size],?_,fun _ => ?_⟩
    · exact List.prefix_append _ _
    · refine ⟨⟨opcode,some input1,input2,none,none,false⟩,
        by simp [IrState.defineLast,IrState.addNode,Statement.size],rfl,rfl,?_,rfl⟩
      cases input2 <;> rfl
  | output opcode input =>
    cases h
    rw [hlabel]
    refine ⟨by simp [IrState.addNode,Statement.size],List.prefix_append _ _,fun _ => ?_⟩
    exact ⟨⟨opcode,some input,none,none,none,false⟩,by simp [IrState.addNode,Statement.size],rfl,
      rfl,rfl,rfl⟩
  | branch t f opcode input test =>
    cases h
    rw [hlabel]
    let node : Node := ⟨opcode,some input,test,some ⟨s.heap.length,.INPUT_ONE⟩,
      some ⟨s.heap.length+1,.INPUT_ONE⟩,false⟩
    have hheap : (s.addBranch t f node).heap=s.heap++[outputNode,outputNode,node] :=
      addBranch_heap s t f node
    change (s.addBranch t f node).heap.length=_ ∧ s.heap <+: (s.addBranch t f node).heap ∧
      (_ → ∃ other,(s.addBranch t f node).heap[_]?=some other ∧ _)
    rw [hheap]
    refine ⟨by simp [Statement.size],List.prefix_append _ _,fun _ => ?_⟩
    refine ⟨node,by simp [Statement.size],rfl,rfl,?_,rfl⟩
    cases test <;> rfl
  | blank | unprocessed | externSymbol name =>
    cases h
    exact ⟨rfl,List.prefix_rfl,fun hne => absurd rfl hne⟩
  | label name | exportSymbol name =>
    simp only [readStatement] at h
    split_ifs at h
    all_goals
      cases h
      exact ⟨rfl,List.prefix_rfl,fun hne => absurd rfl hne⟩

theorem readLines_nodes (s s' : IrState) (lines : List Name) (h : readLines s lines=.ok s') :
    s.heap <+: s'.heap ∧ ∀ (id : Nat) (statement : Statement),
      (id,statement)∈lineNodes s.heap.length (statements lines) →
        ∃ node,s'.heap[id]?=some node ∧ statement.IsRead node := by
  induction lines generalizing s with
  | nil =>
    cases h
    exact ⟨List.prefix_rfl,by simp [statements,lineNodes]⟩
  | cons line lines ih =>
    simp only [readLines] at h
    split at h
    · cases h
    · rename_i statement hline
      split at h
      · cases h
      · rename_i mid hmid
        have hstatements : statements (line::lines)=statement::statements lines := by
          rw [statements,List.filterMap_cons,hline]
          rfl
        obtain ⟨hlen,hpre,hnode⟩ := readStatement_node s mid statement hmid
        obtain ⟨hpre',hall⟩ := ih mid h
        refine ⟨hpre.trans hpre',?_⟩
        intro id other hmem
        rw [hstatements,lineNodes] at hmem
        split_ifs at hmem with hsize
        · rw [hlen,hsize,Nat.add_zero] at hall
          exact hall id other hmem
        · obtain heq | hmem := List.mem_cons.mp hmem
          · obtain ⟨rfl,rfl⟩ := Prod.mk.inj heq
            obtain ⟨node,hget,hread⟩ := hnode hsize
            exact ⟨node,getElem?_of_isPrefix hpre' hget,hread⟩
          · rw [hlen] at hall
            exact hall id other hmem

/-- The operand stands in the instruction: it is a literal or a label. -/
def Arg.isConstant (labels : Name → Option Nat) : Arg → Bool
  | .int _ => true
  | .str name => name != ['_'] && (labels name).isSome

theorem keptInput_some (labels : Name → Option Nat) (arg : Arg) :
    keptInput labels (some arg)=if arg.isConstant labels then some arg else none := by
  cases arg with
  | int value => rfl
  | str name =>
    by_cases hunder : name=['_']
    · simp [keptInput,Arg.isConstant,hunder]
    · simp [keptInput,Arg.isConstant,hunder]

/-- Where the operands of an instruction with two of them end up. -/
theorem settledInput_two (labels : Name → Option Nat) (old : Node) (a b : Arg)
    (h1 : old.input1=some a) (h2 : old.input2=some b) (htwo : old.opcode.numInputs=2) :
    settledInput labels old .INPUT_ONE=
        (if a.isConstant labels then some a else if b.isConstant labels then some b else none) ∧
      settledInput labels old .INPUT_TWO=
        if a.isConstant labels ∧ b.isConstant labels then some b else none := by
  unfold settledInput moveLiteral
  rw [h1,h2,keptInput_some,keptInput_some]
  cases ha : a.isConstant labels <;> cases hb : b.isConstant labels <;> simp [htwo,Node.input]

section Final

variable {input : List Name} {parsed : IrState} {g : Graph}

/-- The node of a line in the graph that the image is made of. -/
theorem Parsed.line_node (h : Parsed input parsed g) (hread : readLines .empty input=.ok parsed)
    {id : Nat} {statement : Statement} (hline : (id,statement)∈lineNodes 0 (statements input)) :
    ∃ old node,parsed.heap[id]?=some old ∧ statement.IsRead old ∧ id∈g.optimized.nodes ∧
      g.optimized.heap[id]?=some node ∧ node.opcode=old.opcode ∧
        ∀ i,node.input i=settledInput parsed.labels old i := by
  obtain ⟨-,hall⟩ := readLines_nodes .empty parsed input hread
  obtain ⟨old,hold,hisRead⟩ := hall id statement hline
  obtain ⟨new,hnew,hop,-,-⟩ := h.linked.kept id old hold
  have hnode : g.heap[id]?=some new := by
    rw [h.graph]
    exact hnew
  have hlt := (List.getElem?_eq_some_iff.mp hold).1
  refine ⟨old,_,hold,hisRead,?_,optimized_node hnode,hop,?_⟩
  · rw [h.linear.mem_optimized]
    refine ⟨(List.getElem?_eq_some_iff.mp hnode).1,?_⟩
    by_contra hrem
    have hout := h.removable_output id (by simpa using hrem)
    rw [IsOutput,hold] at hout
    have hflag := hisRead.2.2.2
    rw [Option.some.inj hout] at hflag
    cases hflag
  · intro i
    rw [← (fixUp_rounds parsed).settled id old hlt hold i]
    change _=((fixUp parsed).heap[id]?).bind _
    rw [hnew]
    cases i <;> rfl

theorem Parsed.labels_eq (h : Parsed input parsed g) : g.labels=parsed.labels := by
  rw [h.graph]
  exact (fixUp_rounds parsed).sources.labels

end Final

end Manchester.Assembler
