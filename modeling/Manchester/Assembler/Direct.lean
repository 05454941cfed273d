import Manchester.Assembler.LineFlow
import Manchester.Assembler.Leaves
import Manchester.Assembler.Marker

namespace Manchester.Assembler

open Framework Framework.Net

/-- Operands in the order in which the machine has them: names before numbers, and names alone
where tokens are merged. -/
inductive DirectOperands (o : Opcode) : List Arg → Prop where
  | name (x : Name) (hx : x ≠ ['_']) (hone : o.numInputs=1) : DirectOperands o [.str x]
  | number (a : Int) (hone : o.numInputs=1) : DirectOperands o [.int a]
  | names (x y : Name) (hx : x ≠ ['_']) (hy : y ≠ ['_']) (htwo : o.numInputs=2) :
    DirectOperands o [.str x,.str y]
  | nameNumber (x : Name) (b : Int) (hx : x ≠ ['_']) (htwo : o.numInputs=2)
    (hmer : o ≠ .op .MER) : DirectOperands o [.str x,.int b]
  | numbers (a b : Int) (htwo : o.numInputs=2) (hmer : o ≠ .op .MER) :
    DirectOperands o [.int a,.int b]

def directOperands (o : Opcode) : List Arg → Bool
  | [.str x] => x != ['_'] && o.numInputs==1
  | [.int _] => o.numInputs==1
  | [.str x,.str y] => x != ['_'] && y != ['_'] && o.numInputs==2
  | [.str x,.int _] => x != ['_'] && o.numInputs==2 && o != .op .MER
  | [.int _,.int _] => o.numInputs==2 && o != .op .MER
  | _ => false

theorem directOperands_cases {o : Opcode} {args : List Arg} (h : directOperands o args=true) :
    DirectOperands o args := by
  unfold directOperands at h
  split at h
  · simp only [Bool.and_eq_true,bne_iff_ne,beq_iff_eq] at h
    exact .name _ h.1 h.2
  · exact .number _ (by simpa using h)
  · simp only [Bool.and_eq_true,bne_iff_ne,beq_iff_eq] at h
    exact .names _ _ h.1.1 h.1.2 h.2
  · simp only [Bool.and_eq_true,bne_iff_ne,beq_iff_eq] at h
    exact .nameNumber _ _ h.1.1 h.1.2 h.2
  · simp only [Bool.and_eq_true,bne_iff_ne,beq_iff_eq] at h
    exact .numbers _ _ h.1 h.2
  · cases h

/-- A line without labels and external symbols that the machine computes by itself. An output line
has a variable to print. -/
def Statement.isDirect : Statement → Bool
  | .assign _ (.op o) input1 input2 =>
    !o.isExternal && !o.choosesOutput && directOperands (.op o) (input1::input2.toList)
  | .branch _ _ (.op o) input test =>
    (o==.BRR || o==.NTG) && directOperands (.op o) (input::test.toList)
  | .output opcode (.str x) => opcode.isSpecial && directOperands opcode [.str x]
  | .blank | .unprocessed => true
  | _ => false

theorem Statement.isDirect_operands {s : Statement} {o : Opcode} (h : s.isDirect=true)
    (ho : s.opcode=some o) : DirectOperands o s.operands := by
  cases s with
  | assign target opcode input1 input2 =>
    obtain rfl := Option.some.inj ho
    cases opcode with
    | op o =>
      simp only [isDirect,Bool.and_eq_true] at h
      exact directOperands_cases h.2
    | OUTD | OUTS => cases h
  | branch t f opcode input test =>
    obtain rfl := Option.some.inj ho
    cases opcode with
    | op o =>
      simp only [isDirect,Bool.and_eq_true] at h
      exact directOperands_cases h.2
    | OUTD | OUTS => cases h
  | output opcode input =>
    obtain rfl := Option.some.inj ho
    cases input with
    | int value => cases h
    | str x =>
      simp only [isDirect,Bool.and_eq_true] at h
      exact directOperands_cases h.2
  | blank | unprocessed | label _ | exportSymbol _ | externSymbol _ => cases ho

theorem Statement.isDirect_internal {s : Statement} {o : OpcodeType} (h : s.isDirect=true)
    (ho : s.opcode=some (.op o)) : o.isExternal=false ∧ o ≠ .RTD := by
  cases s with
  | assign target opcode input1 input2 =>
    obtain rfl : opcode=.op o := Option.some.inj ho
    simp only [isDirect,Bool.and_eq_true,Bool.not_eq_true'] at h
    refine ⟨h.1.1,?_⟩
    rintro rfl
    cases h.1.2
  | branch t f opcode input test =>
    obtain rfl : opcode=.op o := Option.some.inj ho
    simp only [isDirect,Bool.and_eq_true,Bool.or_eq_true,beq_iff_eq] at h
    obtain rfl | rfl := h.1 <;> exact ⟨rfl,by simp⟩
  | output opcode input =>
    obtain rfl : opcode=.op o := Option.some.inj ho
    cases input <;> simp [isDirect,Opcode.isSpecial] at h
  | blank | unprocessed | label _ | exportSymbol _ | externSymbol _ => cases ho

theorem choosesOutput_op {o : OpcodeType} (h : o.choosesOutput=false) :
    (Opcode.op o).choosesOutput=false := by
  cases o <;> first | rfl | cases h

theorem Statement.opcode_of_size {s : Statement} (h : s.size ≠ 0) : ∃ o,s.opcode=some o := by
  cases s <;> first | exact ⟨_,rfl⟩ | exact absurd rfl h

/-- Every line of a program that is read is understood. -/
theorem readLines_statementAt {s s' : IrState} {lines : List Name}
    (h : readLines s lines=.ok s') (k : Nat) : statementAt lines k=(statements lines)[k]? := by
  induction lines generalizing s k with
  | nil => rfl
  | cons line lines ih =>
    simp only [readLines] at h
    split at h
    · cases h
    · rename_i st hline
      split at h
      · cases h
      · have hstatements : statements (line::lines)=st::statements lines := by
          rw [statements,List.filterMap_cons,hline]
          rfl
        rw [hstatements]
        cases k with
        | zero =>
          rw [statementAt,List.getElem?_cons_zero,Option.bind_some,hline]
          rfl
        | succ k =>
          have hrest := ih h k
          rw [statementAt] at hrest ⊢
          rw [List.getElem?_cons_succ,List.getElem?_cons_succ,hrest]

/-- Without label lines there is no label. -/
theorem readLines_unlabelled {s s' : IrState} {lines : List Name}
    (h : readLines s lines=.ok s') (hnone : ∀ l,Statement.label l∉statements lines)
    (hpending : s.label=[]) (hlabels : ∀ v,s.labels v=none) : ∀ v,s'.labels v=none := by
  induction lines generalizing s with
  | nil =>
    cases h
    exact hlabels
  | cons line lines ih =>
    simp only [readLines] at h
    split at h
    · cases h
    · rename_i st hline
      split at h
      · cases h
      · rename_i mid hmid
        have hstatements : statements (line::lines)=st::statements lines := by
          rw [statements,List.filterMap_cons,hline]
          rfl
        rw [hstatements] at hnone
        have hlast : ∀ t : IrState,t.label=[] → (∀ v,t.labels v=none) →
            t.labelLast.label=[] ∧ ∀ v,t.labelLast.labels v=none := by
          intro t ht hv
          rw [IrState.labelLast,if_pos ht]
          exact ⟨ht,hv⟩
        have hkeep : mid.label=[] ∧ ∀ v,mid.labels v=none := by
          cases st with
          | label name => exact absurd (List.mem_cons_self ..) (hnone name)
          | assign target opcode input1 input2 =>
            cases hmid
            exact hlast _ hpending hlabels
          | output opcode input =>
            cases hmid
            exact hlast _ hpending hlabels
          | branch t f opcode input test =>
            cases hmid
            exact hlast _ hpending hlabels
          | blank | unprocessed | externSymbol name =>
            cases hmid
            exact ⟨hpending,hlabels⟩
          | exportSymbol name =>
            simp only [readStatement,hlabels name] at hmid
            cases hmid
        exact ih h (fun l hl => hnone l (List.mem_cons_of_mem _ hl)) hkeep.1 hkeep.2

/-- The lines of a program that is accepted, each of them direct. -/
structure DirectLines (lines : List Name) (read : IrState) : Prop where
  read : readLines .empty lines=.ok read
  direct : ∀s∈statements lines,s.isDirect=true

section Lines

variable {lines : List Name} {read : IrState}

theorem DirectLines.noLabel (h : DirectLines lines read) (l : Name) :
    Statement.label l∉statements lines := by
  intro hl
  cases h.direct _ hl

theorem DirectLines.labels (h : DirectLines lines read) : ∀ v,read.labels v=none :=
  readLines_unlabelled h.read h.noLabel rfl fun _ => rfl

theorem DirectLines.noLabels (h : DirectLines lines read) : NoLabels lines := by
  intro x
  rw [isLabel,List.any_eq_false]
  intro s hs hlabel
  rw [eq_of_beq hlabel] at hs
  exact h.noLabel x hs

theorem DirectLines.externs (h : DirectLines lines read) {parsed : Graph}
    (hparsed : Parsed lines read parsed) : read.externalReferences=[] := by
  rw [List.eq_nil_iff_forall_not_mem]
  intro e he
  cases h.direct _ ((hparsed.branches.externs e).mp he)

end Lines

section Wires

variable {τ α γ : Type} {dom : Domain τ α γ} {lines : List Name} {k : Nat}

/-- The names among the operands are the first ones. -/
theorem DirectOperands.wires (hlabels : NoLabels lines) {o : Opcode} {args : List Arg}
    (h : DirectOperands o args) (i : Nat) (v : Name) :
    (args.filterMap (operandWire lines k))[i]?=some (.name v) ↔ args[i]?=some (.str v) := by
  have hwire : ∀ {x : Name},x ≠ ['_'] → operandWire lines k (.str x)=some (.name x) :=
    fun hx => operandWire_str hlabels hx k
  cases h with
  | name x hx _ => cases i <;> simp [hwire hx]
  | number a _ => cases i <;> simp [List.filterMap_cons]
  | names x y hx hy _ =>
    match i with
    | 0 | 1 | i+2 => simp [hwire hx,hwire hy]
  | nameNumber x b hx _ _ =>
    match i with
    | 0 | 1 | i+2 => simp [List.filterMap_cons,hwire hx]
  | numbers a b _ _ =>
    match i with
    | 0 | 1 | i+2 => simp [List.filterMap_cons]

/-- The ways in which a direct line takes its operands. -/
theorem DirectOperands.ways (hlabels : NoLabels lines) {s : Statement} {o : Opcode}
    (ho : s.opcode=some o) (h : DirectOperands o s.operands) :
    s.ways dom lines k=
      if o=.op .MER then (s.operands.filterMap (operandWire lines k)).map fun x => [x]
      else if s.operands.filterMap (operandWire lines k)=[] then [[.start]]
      else [s.operands.filterMap (operandWire lines k)] := by
  have hwire : ∀ {x : Name},x ≠ ['_'] → operandWire lines k (.str x)=some (.name x) :=
    fun hx => operandWire_str hlabels hx k
  have hconstant : ∀ x,constant dom lines (.str x)=none := constant_str hlabels
  unfold Statement.ways
  rw [ho]
  by_cases hmer : o=.op .MER
  · rw [if_pos hmer,if_pos (by rw [hmer])]
  · rw [if_neg hmer,if_neg (by simpa using hmer)]
    generalize s.operands=args at h
    cases h with
    | name x hx _ => simp [hwire hx,hconstant]
    | number a _ => simp [List.filterMap_cons]
    | names x y hx hy _ => simp [hwire hx,hwire hy,hconstant]
    | nameNumber x b hx _ _ => simp [List.filterMap_cons,hwire hx,hconstant]
    | numbers a b _ _ => simp [List.filterMap_cons]

end Wires

end Manchester.Assembler
