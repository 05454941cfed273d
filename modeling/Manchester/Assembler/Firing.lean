import Manchester.Assembler.Lines
import Manchester.Framework.Net
import Manchester.Pipeline.FunctionUnit

namespace Manchester.Assembler

open Framework

/-- What the instructions compute with. The machine is one such domain; `γ` is what the outside
decides at a firing. -/
structure Domain (τ α γ : Type) where
  /-- The tag of the instructions that wait for nothing. -/
  base : τ
  literal : Int → α
  /-- The destination that a label stands for, and back. -/
  address : Name → α
  labelAt : α → Option Name
  truth : α → Bool
  tagOf : τ → α
  ofTag : α → τ
  /-- The tag that the NTG of a line makes. -/
  newTag : γ → Nat → τ → τ
  next : τ → τ
  level : τ → α → τ
  compute : OpcodeType → α → α → Option α
  /-- What an instruction gives that is not computed from its operands. -/
  answer : γ → OpcodeType → Option α

variable {τ α γ : Type}

/-- Tag and value of the result of an instruction with one result; none at the end of the
machine. -/
def Domain.result (dom : Domain τ α γ) (c : γ) (t : τ) (a b : α) : OpcodeType → Option (τ × α)
  | .DUP => some (t,a)
  | .MER => some (t,a)
  | .ITG => some (dom.next t,a)
  | .SIL => some (dom.level t b,a)
  | .CTG => some (dom.ofTag a,b)
  | .ETG => some (t,dom.tagOf t)
  | o => ((dom.compute o a b).or (dom.answer c o)).map fun v => (t,v)

structure Choice where
  area : BitVec 32
  data : DataType
  deriving Inhabited

/-- The values that the function unit computes of two operands, or of the first one. -/
def compute (o : OpcodeType) (a b : DataType) : Option DataType :=
  match o with
  | .ADD => some (a+b)
  | .SUB => some (a-b)
  | .LT => some (boolData (a.slt b))
  | .GT => some (boolData (b.slt a))
  | .GTE => some (boolData (b.sle a))
  | .LTE => some (boolData (a.sle b))
  | .EQ => some (boolData (a==b))
  | .NEQ => some (boolData (a != b))
  | .NEG => some (boolData (a==0))
  | .MUL => some (a*b)
  | .XOR => some (a^^^b)
  | .AND => some (a&&&b)
  | .OR => some (a|||b)
  | .SHL => some (a <<< (b.toNat%64))
  | .SHR => some (a >>> (b.toNat%64))
  | _ => none

/-- The domain of the function unit, for the addresses that the labels have. -/
def machineDomain (labels : List Name) (address : Name → DataType) :
    Domain TagType DataType Choice where
  base := noTag
  literal := BitVec.ofInt 64
  address := address
  labelAt v := labels.find? fun l => address l=v
  truth v := v != 0
  tagOf t := t
  ofTag v := v
  newTag c _ _ := createTag c.area 0
  next t := t+1
  level t v := createTag (tagToTagArea t) (v.setWidth 32)
  compute := compute
  answer c o := if o=.HLT then none else some c.data

/-- Where the tokens of a program are: under a name, in what a line prints, or on their way to a
label. `start` is for the instructions that wait for nothing. -/
inductive Wire where
  | start
  | name (x : Name)
  | printed (line : Nat)
  | label (x : Name)
  deriving DecidableEq, Repr

def statementAt (lines : List Name) (k : Nat) : Option Statement :=
  lines[k]?.bind fun line => (decodeLine line).toOption

def isLabel (lines : List Name) (name : Name) : Bool :=
  (statements lines).any fun s => s==.label name

/-- The label that waits for the next instruction. -/
def pendingLabel (lines : List Name) : Option Name :=
  (statements lines).foldl (fun pending s =>
    match s with
    | .label name => some name
    | s => if s.size=0 then pending else none) none

/-- The wire that an operand is read from; a constant has none. -/
def operandWire (lines : List Name) (k : Nat) : Arg → Option Wire
  | .int _ => none
  | .str x =>
    if x=['_'] then (pendingLabel (lines.take k)).map Wire.label
    else if isLabel lines x then none
    else some (.name x)

def constant (dom : Domain τ α γ) (lines : List Name) : Arg → Option α
  | .int value => some (dom.literal value)
  | .str x => if x != ['_'] && isLabel lines x then some (dom.address x) else none

/-- The wires that a statement takes a token from each; a MER takes one token from any. A statement
of constants waits for nothing but the start, and one with an operand that nothing is sent to does
not fire. -/
def Statement.ways (dom : Domain τ α γ) (lines : List Name) (k : Nat) (s : Statement) :
    List (List Wire) :=
  let wires := s.operands.filterMap (operandWire lines k)
  if s.opcode=some (.op .MER) then wires.map fun x => [x]
  else if s.operands.length=wires.length+(s.operands.filterMap (constant dom lines)).length then
    if wires ≠ [] then [wires] else if s.operands ≠ [] then [[.start]] else []
  else []

/-- The values of the operands, with constants behind tokens. -/
def Statement.values (dom : Domain τ α γ) (lines : List Name) (k : Nat) (s : Statement)
    (vs : List α) : List α :=
  (if s.operands.filterMap (operandWire lines k)=[] then [] else vs)++
    s.operands.filterMap (constant dom lines)

def targetWires (x : Name) : List Wire := if x=['_'] then [] else [.name x]

/-- The tokens that an instruction makes for the wires of its two destinations. -/
def Domain.outputs (dom : Domain τ α γ) (k : Nat) (c : γ) (t : τ) (o : OpcodeType)
    (first second : List Wire) : List α → List (Token Wire τ α)
  | [] => []
  | a::rest =>
    let b := rest.headD a
    match o with
    | .BRR => (if dom.truth b then first else second).map fun x => ⟨x,t,a⟩
    | .NTG => (first.map fun x => ⟨x,t,dom.tagOf (dom.newTag c k t)⟩)++
        second.map fun x => ⟨x,t,dom.tagOf t⟩
    | .RTD => (dom.labelAt b).toList.map fun l => ⟨.label l,t,a⟩
    | o =>
      match dom.result c t a b o with
      | some (t',v) => (first++second).map fun x => ⟨x,t',v⟩
      | none => []

/-- The function unit gives the tokens of the machine's domain, for the destinations of the packet.
A BRR and an NTG use the second one whatever the marker says. An RTD has its destination in its
data. -/
theorem functionUnit_outputs (labels : List Name) (address : Name → DataType) (env : FunctionEnv)
    (random : RandomStream) (calls k : Nat) (data : DataType) (packet : ExecutionPacket)
    (o : OpcodeType) (hopcode : packet.opcode=o.bits) (hinternal : o.isExternal=false)
    (hreturn : o ≠ .RTD) (first second : Wire) (hne : second ≠ first) :
    ∃ result calls',functionUnit env random calls packet=some (result,calls') ∧
      result.tokens=((machineDomain labels address).outputs k ⟨newTagArea (random calls),data⟩
        packet.tag o [first]
        (if o=.BRR ∨ o=.NTG ∨ packet.marker=bothOutputMarker then [second] else [])
        [packet.data1,packet.data2]).map fun token =>
          ⟨if token.wire=first then packet.destination1 else packet.destination2,token.value,
            token.tag⟩ := by
  have hmarker : oneOutputMarker ≠ bothOutputMarker := by decide
  unfold functionUnit
  rw [hopcode,OpcodeType.ofBits_bits]
  cases o <;> first | (cases hinternal; done) | (exact absurd rfl hreturn) | skip
  all_goals refine ⟨_,_,rfl,?_⟩
  case BRR =>
    by_cases hb : packet.data2=0#64 <;>
      simp [ExecutionResult.tokens,ExecutionResult.withTag,Domain.outputs,machineDomain,hb,hne,
        hmarker]
  case NTG =>
    simp [ExecutionResult.tokens,Domain.outputs,machineDomain,hne]
  all_goals
    by_cases hboth : packet.marker=bothOutputMarker <;>
      simp [pureResult,ExecutionResult.tokens,ExecutionResult.withTag,Domain.outputs,
        Domain.result,machineDomain,compute,hboth,hne,hmarker]

/-- The tokens that line k makes of the values of its operands. -/
def Statement.emits (dom : Domain τ α γ) (k : Nat) (c : γ) (t : τ) (values : List α) :
    Statement → List (Token Wire τ α)
  | .assign target (.op o) _ _ => dom.outputs k c t o (targetWires target) [] values
  | .branch trueOutput falseOutput (.op o) _ _ =>
    dom.outputs k c t o (targetWires trueOutput) (targetWires falseOutput) values
  | .assign _ _ _ _ | .branch _ _ _ _ _ | .output _ _ =>
    values.head?.toList.map fun a => ⟨.printed k,t,a⟩
  | _ => []

/-- The wires that line k may make tokens for. -/
def Statement.Targets (k : Nat) (x : Wire) : Statement → Prop
  | .assign target (.op o) _ _ => x∈targetWires target ∨ (o=.RTD ∧ ∃ l,x=.label l)
  | .branch trueOutput falseOutput (.op o) _ _ =>
    (x∈targetWires trueOutput ∨ x∈targetWires falseOutput) ∨ (o=.RTD ∧ ∃ l,x=.label l)
  | .assign _ _ _ _ | .branch _ _ _ _ _ | .output _ _ => x=.printed k
  | _ => False

theorem Domain.outputs_wire (dom : Domain τ α γ) (k : Nat) (c : γ) (t : τ) (o : OpcodeType)
    (first second : List Wire) (values : List α) :
    ∀ token∈dom.outputs k c t o first second values,
      (token.wire∈first ∨ token.wire∈second) ∨ (o=.RTD ∧ ∃ l,token.wire=.label l) := by
  intro token htoken
  have hmap : ∀ (wires : List Wire) (f : Wire → Token Wire τ α),(∀ x,(f x).wire=x) →
      token∈wires.map f → token.wire∈wires := by
    intro wires f hf hmem
    obtain ⟨x,hx,rfl⟩ := List.mem_map.mp hmem
    rw [hf]
    exact hx
  cases values with
  | nil => cases htoken
  | cons a rest =>
    simp only [outputs] at htoken
    split at htoken
    · split at htoken
      · exact Or.inl (Or.inl (hmap _ _ (fun _ => rfl) htoken))
      · exact Or.inl (Or.inr (hmap _ _ (fun _ => rfl) htoken))
    · obtain htoken | htoken := List.mem_append.mp htoken
      · exact Or.inl (Or.inl (hmap _ _ (fun _ => rfl) htoken))
      · exact Or.inl (Or.inr (hmap _ _ (fun _ => rfl) htoken))
    · obtain ⟨l,-,rfl⟩ := List.mem_map.mp htoken
      exact Or.inr ⟨rfl,l,rfl⟩
    · split at htoken
      · have hmem := hmap _ _ (fun _ => rfl) htoken
        exact Or.inl (List.mem_append.mp hmem)
      · cases htoken

theorem Statement.emits_targets (dom : Domain τ α γ) (k : Nat) (c : γ) (t : τ) (values : List α)
    (s : Statement) : ∀ token∈s.emits dom k c t values,s.Targets k token.wire := by
  intro token htoken
  have hprinted : token∈values.head?.toList.map (fun a => ⟨.printed k,t,a⟩) →
      token.wire=.printed k := by
    intro hmem
    obtain ⟨a,-,rfl⟩ := List.mem_map.mp hmem
    rfl
  cases s with
  | assign target opcode input1 input2 =>
    cases opcode with
    | op o => simpa [Targets] using dom.outputs_wire k c t o _ _ values token htoken
    | OUTD | OUTS => exact hprinted htoken
  | branch trueOutput falseOutput opcode input test =>
    cases opcode with
    | op o => exact dom.outputs_wire k c t o _ _ values token htoken
    | OUTD | OUTS => exact hprinted htoken
  | output opcode input => exact hprinted htoken
  | blank | label _ | exportSymbol _ | externSymbol _ | unprocessed => cases htoken

/-- A rule is a line and one of the ways in which it takes its operands. -/
def net (dom : Domain τ α γ) (lines : List Name) : Net Wire (Nat × Nat) τ α γ where
  reads r := ((statementAt lines r.1).bind fun s => (s.ways dom lines r.1)[r.2]?).getD []
  targets r x := ∃ s,statementAt lines r.1=some s ∧ s.Targets r.1 x
  emits r c t vs :=
    match statementAt lines r.1 with
    | some s => s.emits dom r.1 c t (s.values dom lines r.1 vs)
    | none => []
  emits_targets := by
    intro r c t vs token htoken
    cases hs : statementAt lines r.1 with
    | none =>
      rw [hs] at htoken
      cases htoken
    | some s =>
      rw [hs] at htoken
      exact ⟨s,rfl,s.emits_targets dom r.1 c t _ token htoken⟩

def lineRules (dom : Domain τ α γ) (lines : List Name) (k : Nat) : List (Nat × Nat) :=
  match statementAt lines k with
  | some s => (List.range (s.ways dom lines k).length).map fun w => (k,w)
  | none => []

/-- The rules of `len` lines from line n on. -/
def segment (dom : Domain τ α γ) (lines : List Name) (n len : Nat) : List (Nat × Nat) :=
  (List.range' n len).flatMap (lineRules dom lines)

theorem segment_append (dom : Domain τ α γ) (lines : List Name) (n len len' : Nat) :
    segment dom lines n len++segment dom lines (n+len) len'=segment dom lines n (len+len') := by
  rw [segment,segment,segment,← List.flatMap_append,List.range'_append_1]

theorem segment_one (dom : Domain τ α γ) (lines : List Name) (n : Nat) :
    segment dom lines n 1=lineRules dom lines n := by
  simp [segment]

theorem nodup_segment (dom : Domain τ α γ) (lines : List Name) (n len : Nat) :
    (segment dom lines n len).Nodup := by
  refine List.nodup_flatMap.mpr ⟨fun k _ => ?_,List.Nodup.pairwise_of_forall_ne
    List.nodup_range' fun k _ k' _ hne r hr hr' => ?_⟩
  · unfold lineRules
    split
    · refine List.nodup_range.map fun w w' h => ?_
      exact (Prod.mk.inj h).2
    · exact List.nodup_nil
  · have hline : ∀ {k : Nat},r∈lineRules dom lines k → r.1=k := by
      intro k hr
      unfold lineRules at hr
      split at hr
      · obtain ⟨w,-,rfl⟩ := List.mem_map.mp hr
        rfl
      · cases hr
    exact hne ((hline hr).symm.trans (hline hr'))

end Manchester.Assembler
