import Manchester.Assembler.Direct

namespace Manchester.Assembler

open Framework Framework.Net

/-- The rule and the port that an operand position stands for: the node of a line that merges
tokens is a rule for each operand, and any other node is one rule. -/
def portOf (ss : List Statement) (d : Destination) : (Nat × Nat) × Nat :=
  if (ss[lineOf ss d.node]?).bind Statement.opcode=some (.op .MER) then
    ((lineOf ss d.node,d.input.value),0)
  else ((lineOf ss d.node,0),d.input.value)

theorem Input.value_injective {i j : Input} (h : i.value=j.value) : i=j := by
  cases i <;> cases j <;> first | rfl | cases h

theorem exists_input {n : Nat} (h : n < 2) : ∃ i : Input,i.value=n := by
  match n,h with
  | 0,_ => exact ⟨.INPUT_ONE,rfl⟩
  | 1,_ => exact ⟨.INPUT_TWO,rfl⟩

theorem Statement.operands_lt (s : Statement) {j : Nat} {a : Arg} (h : s.operands[j]?=some a) :
    j < 2 := by
  have hlt := (List.getElem?_eq_some_iff.mp h).1
  have hlen : s.operands.length ≤ 2 := by
    cases s with
    | assign target opcode input1 input2 => cases input2 <;> simp [operands]
    | branch t f opcode input test => cases test <;> simp [operands]
    | output _ _ | blank | unprocessed | label _ | exportSymbol _ | externSymbol _ =>
      simp [operands]
  omega

theorem IsRead.input {s : Statement} {node : Node} (h : s.IsRead node) (i : Input) :
    node.input i=s.operands[i.value]? := by
  cases i with
  | INPUT_ONE => exact h.2.1
  | INPUT_TWO => exact h.2.2.1

section Ports

variable {τ α γ : Type} {dom : Domain τ α γ} {lines : List Name} {read : IrState} {k : Nat}
  {s : Statement} {o : Opcode}

/-- The node of a line. -/
theorem DirectLines.owned (h : DirectLines lines read) (hk : (statements lines)[k]?=some s)
    (hsize : s.size ≠ 0) :
    ∃ node,read.heap[ownNode (statements lines) k]?=some node ∧ s.IsRead node := by
  have hmem := ownNode_mem 0 hk hsize
  rw [Nat.zero_add] at hmem
  exact (readLines_nodes .empty read lines h.read).2 _ s hmem

theorem mem_uses {heap : List Node} {v : Name} {d : Destination} :
    d∈uses heap v ↔ ∃ node,heap[d.node]?=some node ∧ node.input d.input=some (.str v) := by
  rw [uses,List.mem_flatMap]
  constructor
  · rintro ⟨n,-,hn⟩
    obtain ⟨i,hi,rfl⟩ := List.mem_map.mp hn
    have hinput : (heap[n]?.bind fun node => node.input i)=some (.str v) := by
      simpa using (List.mem_filter.mp hi).2
    exact Option.bind_eq_some_iff.mp hinput
  · rintro ⟨node,hnode,hinput⟩
    obtain ⟨n,i⟩ := d
    have hlt := (List.getElem?_eq_some_iff.mp hnode).1
    refine ⟨n,List.mem_range.mpr hlt,List.mem_map.mpr ⟨i,List.mem_filter.mpr ⟨?_,?_⟩,rfl⟩⟩
    · cases i <;> simp
    · simp only [hnode,Option.bind_some,hinput,beq_self_eq_true]

/-- An operand position is at the node of a line, for the operand that it reads. -/
theorem DirectLines.use_line (h : DirectLines lines read) (hbranch : BranchRead read
    (statements lines)) {v : Name} {d : Destination} (hd : d∈uses read.heap v) :
    ∃ s,(statements lines)[lineOf (statements lines) d.node]?=some s ∧ s.size ≠ 0 ∧
      d.node=ownNode (statements lines) (lineOf (statements lines) d.node) ∧
      s.operands[d.input.value]?=some (.str v) := by
  obtain ⟨node,hnode,hinput⟩ := mem_uses.mp hd
  have hflag : node.optimizable=false := by
    by_contra hopt
    rw [hbranch.outputs d.node node hnode (by simpa using hopt)] at hinput
    cases hi : d.input <;> rw [hi] at hinput <;> cases hinput
  obtain ⟨s,hs,hsize,hown,-⟩ := (readLines_owners _ _ lines h.read).2 d.node node
    (Nat.zero_le _) hnode hflag
  change (statements lines)[lineOf (statements lines) d.node]?=some s at hs
  change d.node=0+ownNode (statements lines) (lineOf (statements lines) d.node) at hown
  rw [Nat.zero_add] at hown
  refine ⟨s,hs,hsize,hown,?_⟩
  obtain ⟨other,hother,hread⟩ := h.owned hs hsize
  rw [← hown] at hother
  obtain rfl : node=other := Option.some.inj (hnode.symm.trans hother)
  rw [← IsRead.input hread]
  exact hinput

theorem DirectLines.line_use (h : DirectLines lines read) (hk : (statements lines)[k]?=some s)
    (hsize : s.size ≠ 0) {j : Nat} {v : Name} (hj : s.operands[j]?=some (.str v)) :
    ∃d∈uses read.heap v,d.node=ownNode (statements lines) k ∧ d.input.value=j := by
  obtain ⟨i,rfl⟩ := exists_input (s.operands_lt hj)
  obtain ⟨node,hnode,hread⟩ := h.owned hk hsize
  exact ⟨⟨_,i⟩,mem_uses.mpr ⟨node,hnode,(IsRead.input hread i).trans hj⟩,rfl,rfl⟩

/-- Where a statement reads a name. -/
theorem DirectOperands.mem_ways (hlabels : NoLabels lines) (ho : s.opcode=some o)
    (h : DirectOperands o s.operands) (w i : Nat) (v : Name) :
    (∃ wires,(s.ways dom lines k)[w]?=some wires ∧ wires[i]?=some (.name v)) ↔
      ∃ j,s.operands[j]?=some (.str v) ∧ (w,i)=if o=.op .MER then (j,0) else (0,j) := by
  rw [h.ways hlabels ho]
  have hwires := fun j => h.wires (k := k) hlabels j v
  by_cases hmer : o=.op .MER
  · simp only [hmer,if_true,List.getElem?_map,Option.map_eq_some_iff]
    constructor
    · rintro ⟨wires,⟨x,hx,rfl⟩,hi⟩
      cases i with
      | zero =>
        obtain rfl := Option.some.inj hi
        exact ⟨w,(hwires w).mp hx,rfl⟩
      | succ i => cases hi
    · rintro ⟨j,hj,heq⟩
      obtain ⟨rfl,rfl⟩ := Prod.mk.inj heq
      exact ⟨_,⟨_,(hwires w).mpr hj,rfl⟩,rfl⟩
  · simp only [if_neg hmer]
    constructor
    · rintro ⟨wires,hw,hi⟩
      split_ifs at hw with hnil
      · cases w with
        | zero =>
          obtain rfl := Option.some.inj hw
          cases i with
          | zero => cases hi
          | succ i => cases hi
        | succ w => cases hw
      · cases w with
        | zero =>
          obtain rfl := Option.some.inj hw
          exact ⟨i,(hwires i).mp hi,rfl⟩
        | succ w => cases hw
    · rintro ⟨j,hj,heq⟩
      obtain ⟨rfl,rfl⟩ := Prod.mk.inj heq
      have hget := (hwires i).mpr hj
      refine ⟨_,?_,hget⟩
      rw [if_neg (List.ne_nil_of_mem (List.mem_of_getElem? hget))]
      rfl

theorem mem_segment {w : Nat} :
    (k,w)∈segment dom lines 0 lines.length ↔
      ∃ s,statementAt lines k=some s ∧ w < (s.ways dom lines k).length := by
  rw [segment,List.mem_flatMap]
  have hline : ∀ k',(k,w)∈lineRules dom lines k' ↔
      k=k' ∧ ∃ s,statementAt lines k=some s ∧ w < (s.ways dom lines k).length := by
    intro k'
    unfold lineRules
    cases hs : statementAt lines k' with
    | none =>
      simp only [List.not_mem_nil,false_iff]
      rintro ⟨rfl,s,hs',-⟩
      rw [hs] at hs'
      cases hs'
    | some s =>
      simp only [List.mem_map,List.mem_range,Prod.mk.injEq]
      constructor
      · rintro ⟨w',hw,rfl,rfl⟩
        exact ⟨rfl,s,hs,hw⟩
      · rintro ⟨rfl,s',hs',hw⟩
        obtain rfl := Option.some.inj (hs.symm.trans hs')
        exact ⟨w,hw,rfl,rfl⟩
  constructor
  · rintro ⟨k',-,hmem⟩
    exact ((hline k').mp hmem).2
  · intro hs
    refine ⟨k,?_,(hline k).mpr ⟨rfl,hs⟩⟩
    obtain ⟨s,hs,-⟩ := hs
    obtain ⟨line,hline,-⟩ := Option.bind_eq_some_iff.mp hs
    have hlt := (List.getElem?_eq_some_iff.mp hline).1
    simpa [List.mem_range'_1] using hlt

theorem ways_empty (hsize : s.size=0) : s.ways dom lines k=[] := by
  have hoperands : s.operands=[] := by cases s <;> first | rfl | cases hsize
  have hopcode : s.opcode=none := by cases s <;> first | rfl | cases hsize
  simp [Statement.ways,hoperands,hopcode]

/-- The ports that read a name are those of its uses in the graph. -/
theorem DirectLines.mem_ports (h : DirectLines lines read)
    (hbranch : BranchRead read (statements lines)) {v : Name} {p : (Nat × Nat) × Nat} :
    p∈(net dom lines).ports (segment dom lines 0 lines.length) (.name v) ↔
      ∃d∈uses read.heap v,portOf (statements lines) d=p := by
  obtain ⟨⟨k,w⟩,i⟩ := p
  have hat := fun k => readLines_statementAt h.read k
  rw [Net.mem_ports,mem_segment]
  constructor
  · rintro ⟨⟨s,hs,hw⟩,hread⟩
    obtain ⟨wires,hwires⟩ : ∃ wires,(s.ways dom lines k)[w]?=some wires :=
      ⟨_,List.getElem?_eq_getElem hw⟩
    rw [net_reads hs hwires] at hread
    have hsize : s.size ≠ 0 := by
      intro hzero
      rw [ways_empty hzero] at hw
      cases hw
    obtain ⟨o,ho⟩ := Statement.opcode_of_size hsize
    rw [hat k] at hs
    have hdirect := Statement.isDirect_operands (h.direct s (List.mem_of_getElem? hs)) ho
    obtain ⟨j,hj,heq⟩ := (hdirect.mem_ways h.noLabels ho w i v).mp ⟨wires,hwires,hread⟩
    obtain ⟨d,hd,hnode,hvalue⟩ := h.line_use hs hsize hj
    refine ⟨d,hd,?_⟩
    simp only [portOf,hnode,lineOf_ownNode hs hsize,hs,hvalue,Option.bind_some,ho,
      Option.some.injEq]
    split_ifs at heq ⊢
    · obtain ⟨rfl,rfl⟩ := Prod.mk.inj heq
      rfl
    · obtain ⟨rfl,rfl⟩ := Prod.mk.inj heq
      rfl
  · rintro ⟨d,hd,hport⟩
    obtain ⟨s,hs,hsize,-,hoperand⟩ := h.use_line hbranch hd
    obtain ⟨o,ho⟩ := Statement.opcode_of_size hsize
    have hdirect := Statement.isDirect_operands (h.direct s (List.mem_of_getElem? hs)) ho
    simp only [portOf,hs,Option.bind_some,ho,Option.some.injEq] at hport
    obtain ⟨hk,heq⟩ : lineOf (statements lines) d.node=k ∧
        (w,i)=if o=.op .MER then (d.input.value,0) else (0,d.input.value) := by
      split_ifs at hport ⊢
      · obtain ⟨hrule,rfl⟩ := Prod.mk.inj hport
        obtain ⟨hk,rfl⟩ := Prod.mk.inj hrule
        exact ⟨hk,rfl⟩
      · obtain ⟨hrule,rfl⟩ := Prod.mk.inj hport
        obtain ⟨hk,rfl⟩ := Prod.mk.inj hrule
        exact ⟨hk,rfl⟩
    subst hk
    obtain ⟨wires,hwires,hread⟩ : ∃ wires,(s.ways dom lines (lineOf (statements lines) d.node))[w]?=
        some wires ∧ wires[i]?=some (.name v) :=
      (hdirect.mem_ways h.noLabels ho w i v).mpr ⟨_,hoperand,heq⟩
    have hs' := (hat _).trans hs
    refine ⟨⟨s,hs',(List.getElem?_eq_some_iff.mp hwires).1⟩,?_⟩
    rw [net_reads hs' hwires]
    exact hread

theorem DirectLines.portOf_injective (h : DirectLines lines read)
    (hbranch : BranchRead read (statements lines)) {v v' : Name} {d d' : Destination}
    (hd : d∈uses read.heap v) (hd' : d'∈uses read.heap v')
    (heq : portOf (statements lines) d=portOf (statements lines) d') : d=d' := by
  obtain ⟨-,-,-,hnode,-⟩ := h.use_line hbranch hd
  obtain ⟨-,-,-,hnode',-⟩ := h.use_line hbranch hd'
  obtain ⟨hk,hinput⟩ : lineOf (statements lines) d.node=lineOf (statements lines) d'.node ∧
      d.input.value=d'.input.value := by
    have hk : lineOf (statements lines) d.node=lineOf (statements lines) d'.node := by
      have hfirst := congrArg (fun p => p.1.1) heq
      simp only [portOf,apply_ite] at hfirst
      simpa using hfirst
    refine ⟨hk,?_⟩
    unfold portOf at heq
    rw [hk] at heq
    split_ifs at heq
    · exact (Prod.mk.inj (Prod.mk.inj heq).1).2
    · exact (Prod.mk.inj heq).2
  obtain ⟨n,i⟩ := d
  obtain ⟨n',i'⟩ := d'
  rw [hk,← hnode'] at hnode
  rw [Destination.mk.injEq]
  exact ⟨hnode,Input.value_injective hinput⟩

theorem DirectLines.ports_perm (h : DirectLines lines read)
    (hbranch : BranchRead read (statements lines)) (v : Name) :
    ((net dom lines).ports (segment dom lines 0 lines.length) (.name v)).Perm
      ((uses read.heap v).map (portOf (statements lines))) := by
  refine (List.perm_ext_iff_of_nodup (nodup_ports (nodup_segment dom lines 0 lines.length) _)
    ?_).mpr fun p => ?_
  · exact (nodup_uses read.heap v).map_on fun d hd d' hd' =>
      h.portOf_injective hbranch hd hd'
  · rw [h.mem_ports hbranch,List.mem_map]

end Ports

end Manchester.Assembler
