import Manchester.Assembler.Image
import Manchester.Assembler.Ports
import Manchester.Assembler.Targets

namespace Manchester.Assembler

open Framework

theorem settledInput_direct {labels : Name → Option Nat} (hlabels : ∀ v,labels v=none)
    {old : Node} {args : List Arg} (h : DirectOperands old.opcode args)
    (h1 : old.input1=args[0]?) (h2 : old.input2=args[1]?) (i : Input) :
    settledInput labels old i=(args.filter Arg.isInt)[i.value]? := by
  have hname : ∀ x,keptInput labels (some (.str x))=none := by
    intro x
    simp [keptInput,hlabels]
  have hnumber : ∀ a,keptInput labels (some (.int a))=some (.int a) := fun _ => rfl
  have hnone : keptInput labels none=none := rfl
  unfold settledInput moveLiteral
  rw [h1,h2]
  generalize old.opcode=o at h
  cases h with
  | name x hx hone => cases i <;> simp [hname,hnone,Node.input,Arg.isInt]
  | number a hone =>
    cases i <;> simp [hnumber,hnone,Node.input,List.filter_cons,Arg.isInt,Input.value]
  | names x y hx hy htwo => cases i <;> simp [hname,Node.input,Arg.isInt]
  | nameNumber x b hx htwo hmer =>
    cases i <;> simp [hname,hnumber,htwo,Node.input,List.filter_cons,Arg.isInt,Input.value]
  | numbers a b htwo hmer =>
    cases i <;> simp [hnumber,Node.input,List.filter_cons,Arg.isInt,Input.value]

theorem operands_direct {node : Node} {args : List Arg} (hlen : args.length ≤ 2)
    (h : ∀ i,node.input i=(args.filter Arg.isInt)[i.value]?) :
    node.operands=args.filter Arg.isInt := by
  have h1 : node.input1=(args.filter Arg.isInt)[0]? := h .INPUT_ONE
  have h2 : node.input2=(args.filter Arg.isInt)[1]? := h .INPUT_TWO
  have hfew : (args.filter Arg.isInt).length ≤ 2 := (List.length_filter_le _ _).trans hlen
  rw [Node.operands,h1,h2]
  generalize args.filter Arg.isInt=numbers at hfew
  cases numbers with
  | nil => rfl
  | cons a numbers =>
    cases numbers with
    | nil => rfl
    | cons b numbers =>
      obtain rfl : numbers=[] := List.eq_nil_of_length_eq_zero (by simpa using hfew)
      rfl

/-- Direct lines, the graph that they are assembled to, and the image that a machine starts with. A
name has one definition, or so few uses that every definition gets to all of them, and no second
destination is the word zero, which the marker would not count. -/
structure LineProgram (lines : List Name) (read : IrState) (parsed : Graph)
    (instructions : List Instruction) : Prop where
  direct : DirectLines lines read
  graph : Parsed lines read parsed
  few : ∀ v,v ≠ ['_'] → definitionCount lines v ≤ 1 ∨ useCount lines v ≤ 3
  image : ImageOf parsed.optimized instructions
  second : ∀ (id : Nat) (node : Node) (d : Destination),parsed.optimized.heap[id]?=some node →
    node.destination2=some d → ¬FirstPort parsed.optimized d

/-- The node of line L, with what its destinations lead to and its operands. -/
structure LineNode (lines : List Name) (read : IrState) (heap : List Node) (id : Nat) (node : Node)
    (L : Nat) (s : Statement) : Prop where
  statement : (statements lines)[L]?=some s
  size : s.size ≠ 0
  own : id=ownNode (statements lines) L
  opcode : s.opcode=some node.opcode
  operands : DirectOperands node.opcode s.operands
  inputs : ∀ i,node.input i=(s.operands.filter Arg.isInt)[i.value]?
  leads : s.Leads read heap node

section Program

variable {lines : List Name} {read : IrState} {parsed : Graph} {instructions : List Instruction}

theorem LineNode.line {heap : List Node} {id L : Nat} {node : Node} {s : Statement}
    (h : LineNode lines read heap id node L s) : lineOf (statements lines) id=L := by
  rw [h.own]
  exact lineOf_ownNode h.statement h.size

theorem LineProgram.labels (P : LineProgram lines read parsed instructions) :
    ∀ v,read.labels v=none := P.direct.labels

/-- A node of the image is one of the fixed-up heap but for its destinations. -/
theorem LineProgram.fixed (P : LineProgram lines read parsed instructions) {id : Nat} {node : Node}
    (hnode : parsed.optimized.heap[id]?=some node) :
    ∃ fixed,(fixUp read).heap[id]?=some fixed ∧ node.opcode=fixed.opcode ∧
      node.optimizable=fixed.optimizable ∧ ∀ i,node.input i=fixed.input i := by
  rw [optimized_heap] at hnode
  obtain ⟨fixed,hfixed,hskipped⟩ := Option.map_eq_some_iff.mp hnode
  rw [P.graph.graph] at hfixed
  refine ⟨fixed,hfixed,?_⟩
  rw [← hskipped]
  exact ⟨rfl,rfl,fun i => by cases i <;> rfl⟩

/-- What the assembler puts between the lines passes its tokens on. -/
theorem LineProgram.forwards (P : LineProgram lines read parsed instructions) {id : Nat}
    {node : Node} (hnode : parsed.optimized.heap[id]?=some node)
    (hbetween : IsOutput read.heap id ∨ read.heap.length ≤ id) : node.forwards=true := by
  obtain ⟨fixed,hfixed,hop,hopt,-⟩ := P.fixed hnode
  obtain hout | hge := hbetween
  · obtain ⟨kept,hkept,hop',hopt',-⟩ := P.graph.linked.kept id _ hout
    obtain rfl : fixed=kept := Option.some.inj (hfixed.symm.trans hkept)
    simp [Node.forwards,hop,hopt,hop',hopt',outputNode,dupNode]
  · obtain ⟨hop',hopt'⟩ := P.graph.shape.inserted id fixed hge hfixed
    simp [Node.forwards,hop,hopt,hop',hopt']

/-- Every node is a DUP of the assembler without operands or the node of a line. -/
theorem LineProgram.node_cases (P : LineProgram lines read parsed instructions) {id : Nat}
    {node : Node} (hnode : parsed.optimized.heap[id]?=some node) :
    (node.forwards=true ∧ node.opcode=.op .DUP ∧ node.operands=[]) ∨
      node.forwards=false ∧ ∃ L s,LineNode lines read parsed.optimized.heap id node L s := by
  obtain ⟨fixed,hfixed,hparts⟩ := P.fixed hnode
  have hrounds := fixUp_rounds read
  have hread : ∀ i,inputOf (fixUp read).heap ⟨id,i⟩=node.input i := by
    intro i
    change ((fixUp read).heap[id]?).bind _=_
    rw [hfixed,hparts.2.2 i]
    rfl
  have hempty : (∀ i,node.input i=none) → node.operands=[] := by
    intro hnone
    have h1 := hnone .INPUT_ONE
    have h2 := hnone .INPUT_TWO
    simp only [Node.input] at h1 h2
    rw [Node.operands,h1,h2]
    rfl
  by_cases hge : read.heap.length ≤ id
  · left
    obtain ⟨hop,-⟩ := P.graph.shape.inserted id fixed hge hfixed
    refine ⟨P.forwards hnode (Or.inr hge),hparts.1.trans hop,hempty ?_⟩
    intro i
    rw [← hread,hrounds.waiting ⟨id,i⟩ hge]
    change (read.heap[id]?).bind _=_
    rw [List.getElem?_eq_none hge]
    rfl
  · obtain ⟨was,hold⟩ : ∃ was,read.heap[id]?=some was :=
      ⟨_,List.getElem?_eq_getElem (Nat.lt_of_not_le hge)⟩
    obtain ⟨kept,hkept,hop,hopt,-⟩ := P.graph.linked.kept id _ hold
    obtain rfl : fixed=kept := Option.some.inj (hfixed.symm.trans hkept)
    by_cases hflag : was.optimizable=true
    · left
      have hout := P.graph.branches.outputs id _ hold hflag
      rw [hout] at hop hold
      refine ⟨P.forwards hnode (Or.inl hold),hparts.1.trans hop,hempty fun i => ?_⟩
      rw [← hread,hrounds.settled id outputNode (Nat.lt_of_not_le hge) hold]
      cases i <;> rfl
    · right
      have hstop : node.forwards=false := by
        rw [Node.forwards,hparts.2.1,hopt]
        simp [hflag]
      refine ⟨hstop,?_⟩
      obtain ⟨s,hs,hsize,hown,hdefines⟩ := (readLines_owners _ _ lines P.direct.read).2 id _
        (Nat.zero_le _) hold (by simpa using hflag)
      change id=0+ownNode (statements lines) _ at hown
      rw [Nat.zero_add] at hown
      obtain ⟨old,hold',hisRead⟩ := P.direct.owned hs hsize
      rw [← hown,hold] at hold'
      obtain rfl := Option.some.inj hold'
      have hopcode : s.opcode=some node.opcode := by
        rw [hparts.1,hop]
        exact hisRead.1
      have hdirect := Statement.isDirect_operands (P.direct.direct s (List.mem_of_getElem? hs))
        hopcode
      refine ⟨_,s,hs,hsize,hown,hopcode,hdirect,fun i => ?_,?_⟩
      · rw [← hread,hrounds.settled id _ (Nat.lt_of_not_le hge) hold]
        rw [hparts.1,hop] at hdirect
        exact settledInput_direct P.labels hdirect hisRead.2.1 hisRead.2.2.1 i
      · refine P.graph.leads P.direct.read P.labels P.few hdefines ?_ hnode hopcode
        rintro x o a b rfl
        have hline := P.direct.direct _ (List.mem_of_getElem? hs)
        cases o with
        | op o =>
          simp only [Statement.isDirect,Bool.and_eq_true,Bool.not_eq_true'] at hline
          exact choosesOutput_op hline.1.2
        | OUTD | OUTS => rfl

end Program

end Manchester.Assembler
