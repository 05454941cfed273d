import Manchester.Assembler.Reading

namespace Manchester.Assembler

def inputOf (heap : List Node) (d : Destination) : Option Arg :=
  heap[d.node]?.bind fun node => node.input d.input

/-- The variables that the loop treats as such. -/
def IsVariable (labels : Name → Option Nat) (v : Name) : Prop := v ≠ ['_'] ∧ labels v=none

/-- An operand position of the read graph that names a variable. -/
structure IsUse (s0 : IrState) (name : Name) (d : Destination) : Prop where
  operand : inputOf s0.heap d=some (.str name)
  isVariable : IsVariable s0.labels name

theorem IsUse.lt {s0 : IrState} {name : Name} {d : Destination} (h : IsUse s0 name d) :
    d.node < s0.heap.length := by
  obtain ⟨node,hnode,-⟩ := Option.bind_eq_some_iff.mp h.operand
  exact (List.getElem?_eq_some_iff.mp hnode).1

theorem inputOf_modify_ne (heap : List Node) (n : Nat) (f : Node → Node) (d : Destination)
    (h : n ≠ d.node) : inputOf (heap.modify n f) d=inputOf heap d := by
  simp only [inputOf,List.getElem?_modify_ne f heap h]

theorem inputOf_set (heap : List Node) (p : Nat) (old new : Node) (d : Destination)
    (hp : heap[p]?=some old) (hinput : ∀ i,new.input i=old.input i) :
    inputOf (heap.set p new) d=inputOf heap d := by
  have hlt := (List.getElem?_eq_some_iff.mp hp).1
  by_cases h : p=d.node
  · subst h
    simp [inputOf,List.getElem?_set_self hlt,hp,hinput]
  · simp only [inputOf,List.getElem?_set_ne h]

/-- The inserted nodes have no inputs. -/
theorem connect_inputOf (name : Name) (receiver : Destination) (s : IrState) (p : Nat)
    (d : Destination) :
    inputOf (connect name receiver s p).heap d=inputOf s.heap d := by
  unfold connect
  split
  · rfl
  · rename_i parent hp
    split_ifs
    · exact inputOf_set _ _ _ _ _ hp fun i => by cases i <;> rfl
    · exact inputOf_set _ _ _ _ _ hp fun i => by cases i <;> rfl
    · have hset := inputOf_set s.heap p parent
        {parent with destination2 := some ⟨s.heap.length,.INPUT_ONE⟩} d hp
        fun i => by cases i <;> rfl
      rw [← hset]
      by_cases hlt : d.node < s.heap.length
      · simp only [inputOf]
        rw [List.getElem?_append_left (by simpa using hlt)]
      · have hnone : inputOf (s.heap.set p
            {parent with destination2 := some ⟨s.heap.length,.INPUT_ONE⟩}) d=none := by
          simp only [inputOf]
          rw [List.getElem?_eq_none (by simpa using hlt)]
          rfl
        rw [hnone]
        simp only [inputOf]
        rw [List.getElem?_append_right (by simpa using hlt),List.getElem?_singleton]
        split_ifs
        · cases d.input <;> rfl
        · rfl

theorem hookUp_inputOf (s : IrState) (name : Name) (receiver d : Destination) :
    inputOf (hookUp s name receiver).heap d=inputOf s.heap d := by
  unfold hookUp
  generalize s.variableMap name=ps
  induction ps generalizing s with
  | nil => rfl
  | cons p ps ih => rw [List.foldl_cons,ih,connect_inputOf]

theorem clearInput_inputOf (s : IrState) (d e : Destination) (h : e ≠ d) :
    inputOf (clearInput s d.node d.input).heap e=inputOf s.heap e := by
  by_cases hn : d.node=e.node
  · obtain ⟨n,i⟩ := d
    obtain ⟨m,j⟩ := e
    obtain rfl : n=m := hn
    have hij : j ≠ i := fun hij => h (by rw [hij])
    simp only [clearInput,inputOf,List.getElem?_modify]
    cases s.heap[n]? with
    | none => rfl
    | some node => cases i <;> cases j <;> simp_all [Node.clearInput,Node.input]
  · exact inputOf_modify_ne _ _ _ _ hn

theorem fixInput_inputOf (s : IrState) (d e : Destination) (h : e ≠ d) :
    inputOf (fixInput s d.node d.input).heap e=inputOf s.heap e := by
  unfold fixInput
  split
  · split_ifs
    · exact clearInput_inputOf s d e h
    · rfl
    · rw [hookUp_inputOf]
      exact clearInput_inputOf s d e h
  · rfl

/-- Variables become edges; labels and literals stay. -/
def keptInput (labels : Name → Option Nat) : Option Arg → Option Arg
  | some (.str name) =>
    if name=['_'] then none else if (labels name).isSome then some (.str name) else none
  | o => o

/-- The inputs of a node after its round. -/
def settledInput (labels : Name → Option Nat) (old : Node) (input : Input) : Option Arg :=
  (moveLiteral {old with
    input1 := keptInput labels old.input1
    input2 := keptInput labels old.input2}).input input

theorem clearInput_self (s : IrState) (d : Destination) :
    inputOf (clearInput s d.node d.input).heap d=none := by
  obtain ⟨n,i⟩ := d
  simp only [clearInput,inputOf,List.getElem?_modify]
  cases s.heap[n]? with
  | none => rfl
  | some node => cases i <;> simp [Node.clearInput,Node.input]

theorem fixInput_self (s : IrState) (d : Destination) :
    inputOf (fixInput s d.node d.input).heap d=keptInput s.labels (inputOf s.heap d) := by
  have hinput : inputOf s.heap d=s.heap[d.node]?.bind fun n => n.input d.input := rfl
  unfold fixInput
  split
  · rename_i name hname
    rw [hinput,hname]
    simp only [keptInput]
    split_ifs with hunder hlabel
    · exact clearInput_self s d
    · rw [hinput,hname]
    · rw [hookUp_inputOf]
      exact clearInput_self s d
  · rename_i hname
    rw [hinput]
    cases hop : s.heap[d.node]?.bind fun n => n.input d.input with
    | none => rfl
    | some arg =>
      cases arg with
      | int value => rfl
      | str name => exact absurd hop (hname name)

/-- The state between two steps of the loop, compared with the state that was read. -/
structure Sources (s0 s : IrState) : Prop where
  size : s0.heap.length ≤ s.heap.length
  labels : s.labels=s0.labels
  opcodes : ∀ n < s0.heap.length,(s.heap[n]?).map Node.opcode=(s0.heap[n]?).map Node.opcode
  producers : ∀ v,∀p∈s.variableMap v,p∈s0.variableMap v ∨ s0.heap.length ≤ p

theorem Sources.modify {s0 s : IrState} (h : Sources s0 s) (n : Nat) (f : Node → Node)
    (hf : ∀ node,(f node).opcode=node.opcode) :
    Sources s0 {s with heap := s.heap.modify n f} := by
  refine ⟨by simpa using h.size,h.labels,?_,h.producers⟩
  intro m hm
  rw [← h.opcodes m hm,List.getElem?_modify]
  cases s.heap[m]? with
  | none => rfl
  | some node =>
    by_cases hn : n=m
    · simp [hn,hf]
    · simp [hn]

theorem Sources.connect {s0 s : IrState} (h : Sources s0 s) (name : Name)
    (receiver : Destination) (p : Nat) : Sources s0 (connect name receiver s p) := by
  unfold Assembler.connect
  split
  · exact h
  · rename_i parent hp
    have hlt := (List.getElem?_eq_some_iff.mp hp).1
    have hset : ∀ new : Node,new.opcode=parent.opcode → ∀ n < s0.heap.length,
        ((s.heap.set p new)[n]?).map Node.opcode=(s0.heap[n]?).map Node.opcode := by
      intro new hnew n hn
      rw [← h.opcodes n hn]
      by_cases hpn : p=n
      · subst hpn
        rw [List.getElem?_set_self hlt,hp]
        simp [hnew]
      · rw [List.getElem?_set_ne hpn]
    split_ifs
    · exact ⟨by simpa using h.size,h.labels,hset _ rfl,h.producers⟩
    · exact ⟨by simpa using h.size,h.labels,hset _ rfl,h.producers⟩
    · refine ⟨by simpa using Nat.le_succ_of_le h.size,h.labels,?_,?_⟩
      · intro n hn
        rw [List.getElem?_append_left (by simpa using Nat.lt_of_lt_of_le hn h.size)]
        exact hset {parent with destination2 := some ⟨s.heap.length,.INPUT_ONE⟩} rfl n hn
      · intro v q hq
        by_cases hv : v=name
        · subst hv
          simp only [Function.update_self,List.mem_singleton] at hq
          exact Or.inr (hq ▸ h.size)
        · simp only [Function.update_of_ne hv] at hq
          exact h.producers v q hq

/-- The state after the rounds of the first k nodes. -/
structure Rounds (s0 s : IrState) (k : Nat) : Prop where
  sources : Sources s0 s
  waiting : ∀ d,k ≤ d.node → inputOf s.heap d=inputOf s0.heap d
  settled : ∀ (n : Nat) (old : Node),n < k → s0.heap[n]?=some old → ∀ i,
    inputOf s.heap ⟨n,i⟩=settledInput s0.labels old i

section Loop

variable {P : IrState → Prop} {s0 : IrState}

/-- What the three kinds of steps have to keep. -/
structure StepsKeep (P : IrState → Prop) (s0 : IrState) : Prop where
  clear : ∀ s node input,P s → P (clearInput s node input)
  move : ∀ (s : IrState) (node : Nat),P s → P {s with heap := s.heap.modify node moveLiteral}
  connect : ∀ s name receiver p,Sources s0 s → IsUse s0 name receiver →
    (p∈s0.variableMap name ∨ s0.heap.length ≤ p) → P s → P (connect name receiver s p)

theorem StepsKeep.hooked (hP : StepsKeep P s0) {s : IrState} {name : Name}
    {receiver : Destination} (huse : IsUse s0 name receiver) (hs : Sources s0 s) (h : P s) :
    Sources s0 (hookUp s name receiver) ∧ P (hookUp s name receiver) := by
  have hps := hs.producers name
  unfold hookUp
  revert hps
  generalize s.variableMap name=ps
  induction ps generalizing s with
  | nil => exact fun _ => ⟨hs,h⟩
  | cons p ps ih =>
    intro hps
    exact ih (hs.connect name receiver p)
      (hP.connect s name receiver p hs huse (hps p (by simp)) h)
      fun q hq => hps q (by simp [hq])

theorem StepsKeep.fixedInput (hP : StepsKeep P s0) {s : IrState} {d : Destination}
    (hwaiting : inputOf s.heap d=inputOf s0.heap d) (hs : Sources s0 s) (h : P s) :
    Sources s0 (fixInput s d.node d.input) ∧ P (fixInput s d.node d.input) := by
  have hclear : Sources s0 (clearInput s d.node d.input) ∧ P (clearInput s d.node d.input) := by
    refine ⟨hs.modify d.node _ ?_,hP.clear s d.node d.input h⟩
    intro node
    cases d.input <;> rfl
  unfold fixInput
  split
  · rename_i name hname
    split_ifs with hunder hlabel
    · exact hclear
    · exact ⟨hs,h⟩
    · have huse : IsUse s0 name d :=
        ⟨hwaiting ▸ hname,hunder,by rw [← hs.labels]; simpa using hlabel⟩
      exact hP.hooked huse hclear.1 hclear.2
  · exact ⟨hs,h⟩

theorem moveLiteral_opcode (node : Node) : (moveLiteral node).opcode=node.opcode := by
  unfold moveLiteral
  split_ifs <;> rfl

/-- The opcode and the inputs of a node decide where its literals end up. -/
theorem moveLiteral_input (node other : Node) (hop : node.opcode=other.opcode)
    (h1 : node.input1=other.input1) (h2 : node.input2=other.input2) (i : Input) :
    (moveLiteral node).input i=(moveLiteral other).input i := by
  unfold moveLiteral
  rw [hop,h1,h2]
  split_ifs
  · cases i <;> simp [Node.input]
  · cases i <;> simp [Node.input,h1,h2]

theorem StepsKeep.fixedNode (hP : StepsKeep P s0) {s : IrState} {k : Nat}
    (hk : k < s0.heap.length) (hr : Rounds s0 s k) (h : P s) :
    Rounds s0 (fixNode s k) (k+1) ∧ P (fixNode s k) := by
  have hlabels := hr.sources.labels
  obtain ⟨hs1,h1⟩ := hP.fixedInput (d := ⟨k,.INPUT_ONE⟩) (hr.waiting _ (Nat.le_refl k)) hr.sources h
  have hsecond : inputOf (fixInput s k .INPUT_ONE).heap ⟨k,.INPUT_TWO⟩=
      inputOf s0.heap ⟨k,.INPUT_TWO⟩ := by
    rw [fixInput_inputOf s ⟨k,.INPUT_ONE⟩ ⟨k,.INPUT_TWO⟩ (by simp),hr.waiting _ (Nat.le_refl k)]
  obtain ⟨hs2,h2⟩ := hP.fixedInput (d := ⟨k,.INPUT_TWO⟩) hsecond hs1 h1
  let s2 := fixInput (fixInput s k .INPUT_ONE) k .INPUT_TWO
  have hother : ∀ d : Destination,k ≠ d.node →
      inputOf (fixNode s k).heap d=inputOf s.heap d := by
    intro d hne
    rw [fixNode,inputOf_modify_ne _ _ _ _ hne,
      fixInput_inputOf _ ⟨k,.INPUT_TWO⟩ d (fun hd => hne (by rw [hd])),
      fixInput_inputOf _ ⟨k,.INPUT_ONE⟩ d (fun hd => hne (by rw [hd]))]
  refine ⟨⟨hs2.modify k moveLiteral moveLiteral_opcode,?_,?_⟩,hP.move _ k h2⟩
  · intro d hd
    rw [hother d (by omega)]
    exact hr.waiting d (by omega)
  · intro n old hn hold i
    by_cases hnk : n=k
    · subst hnk
      have hnode : (s2.heap[n]?).map Node.opcode=some old.opcode := by
        rw [hs2.opcodes n hk,hold]
        rfl
      obtain ⟨node,hnode,hop⟩ := Option.map_eq_some_iff.mp hnode
      have hin1 : node.input1=keptInput s0.labels old.input1 := by
        have hkept := fixInput_self s ⟨n,.INPUT_ONE⟩
        have hkeep := fixInput_inputOf (fixInput s n .INPUT_ONE) ⟨n,.INPUT_TWO⟩
          ⟨n,.INPUT_ONE⟩ (by simp)
        rw [hkept,hr.waiting _ (Nat.le_refl n),hlabels] at hkeep
        simpa [inputOf,hnode,hold,Node.input,s2] using hkeep
      have hin2 : node.input2=keptInput s0.labels old.input2 := by
        have hkept := fixInput_self (fixInput s n .INPUT_ONE) ⟨n,.INPUT_TWO⟩
        rw [hsecond,hs1.labels] at hkept
        simpa [inputOf,hnode,hold,Node.input,s2] using hkept
      have hfinal : inputOf (fixNode s n).heap ⟨n,i⟩=(moveLiteral node).input i := by
        change ((s2.heap.modify n moveLiteral)[n]?).bind _=_
        rw [List.getElem?_modify_eq,hnode]
        rfl
      rw [hfinal,settledInput]
      exact moveLiteral_input node {old with
        input1 := keptInput s0.labels old.input1
        input2 := keptInput s0.labels old.input2} hop hin1 hin2 i
    · rw [hother ⟨n,i⟩ (Ne.symm hnk)]
      exact hr.settled n old (by omega) hold i

theorem StepsKeep.rounds (hP : StepsKeep P s0) (h : P s0) (k : Nat) (hk : k ≤ s0.heap.length) :
    Rounds s0 ((List.range k).foldl fixNode s0) k ∧ P ((List.range k).foldl fixNode s0) := by
  induction k with
  | zero =>
    refine ⟨⟨⟨Nat.le_refl _,rfl,fun _ _ => rfl,fun _ _ hp => Or.inl hp⟩,fun _ _ => rfl,?_⟩,h⟩
    intro n old hn
    omega
  | succ k ih =>
    obtain ⟨hr,h⟩ := ih (by omega)
    rw [List.range_succ,List.foldl_append,List.foldl_cons,List.foldl_nil]
    exact hP.fixedNode hk hr h

/-- The steps of the loop write a node's inputs, or connect one more receiver. -/
theorem fixUp_induction (hP : StepsKeep P s0) (h : P s0) : P (fixUp s0) :=
  (hP.rounds h _ (Nat.le_refl _)).2

theorem fixUp_rounds (s0 : IrState) : Rounds s0 (fixUp s0) s0.heap.length := by
  have hP : StepsKeep (fun _ => True) s0 := ⟨by simp,by simp,by simp⟩
  exact (hP.rounds trivial _ (Nat.le_refl _)).1

end Loop

end Manchester.Assembler
