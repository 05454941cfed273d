import Manchester.Machine.Types

namespace Manchester

-- The function unit: one execution packet in, its result tokens out.

/-- What `function_unit` finds in its uninitialised locals, and what `time` answers. -/
structure FunctionEnv where
  output : ExecutionResult
  computationResult : DataType
  time : DataType
  deriving DecidableEq, Repr

def boolData (b : Bool) : DataType := if b then 1 else 0

/-- Numbers from `random` come in the order of the calls: call n gets `random n`. -/
abbrev RandomStream := Nat → BitVec 64

def newTagArea (random : BitVec 64) : BitVec 32 := random.setWidth 32

/-- The end of `function_unit` for the opcodes that leave the output to it. -/
def pureResult (packet : ExecutionPacket) (output : ExecutionResult)
    (computationResult : DataType) : ExecutionResult :=
  let output1 : TokenType :=
    {output.output1 with destination := packet.destination1,data := computationResult}
  if packet.marker=bothOutputMarker then
    {output with
      output1 := output1
      output2 :=
        {output.output2 with destination := packet.destination2,data := computationResult}
      marker := bothOutputMarker}
  else {output with output1 := output1}

/-- The output with both tags set. -/
def ExecutionResult.withTag (output : ExecutionResult) (tag : TagType) : ExecutionResult :=
  {output with
    output1 := {output.output1 with tag := tag}
    output2 := {output.output2 with tag := tag}}

/-- The result and the number of calls of `random` so far; none is the exit. A shift count is
taken modulo 64, as the x86-64 shifts do. -/
def functionUnit (env : FunctionEnv) (random : RandomStream) (calls : Nat)
    (packet : ExecutionPacket) : Option (ExecutionResult × Nat) :=
  let unset : ExecutionResult := {env.output with marker := oneOutputMarker}
  let output := unset.withTag packet.tag
  let a := packet.data1
  let b := packet.data2
  let result (value : DataType) := some (pureResult packet output value,calls)
  match OpcodeType.ofBits packet.opcode with
  | some .ADD => result (a+b)
  | some .SUB => result (a-b)
  | some .LT => result (boolData (a.slt b))
  | some .GT => result (boolData (b.slt a))
  | some .GTE => result (boolData (b.sle a))
  | some .LTE => result (boolData (a.sle b))
  | some .EQ => result (boolData (a==b))
  | some .NEQ => result (boolData (a != b))
  | some .NEG => result (boolData (a==0))
  | some .DUP => result a
  | some .BRR =>
    let destination := if b ≠ 0 then packet.destination1 else packet.destination2
    some ({output with output1 := {output.output1 with destination := destination,data := a}},calls)
  | some .MER => result a
  | some .NTG =>
    some ({
      output1 := ⟨packet.destination1,createTag (newTagArea (random calls)) 0,packet.tag⟩
      output2 := ⟨packet.destination2,packet.tag,packet.tag⟩
      marker := bothOutputMarker},calls+1)
  | some .ITG => some (pureResult packet (output.withTag (packet.tag+1)) a,calls)
  | some .SIL =>
    let tag := createTag (tagToTagArea packet.tag) (b.setWidth 32)
    some (pureResult packet (output.withTag tag) a,calls)
  | some .CTG => some (pureResult packet (output.withTag a) b,calls)
  | some .RTD =>
    some ({output with output1 := {output.output1 with destination := b.setWidth 32,data := a}},
      calls)
  | some .ETG => result packet.tag
  | some .MUL => result (a*b)
  | some .XOR => result (a^^^b)
  | some .AND => result (a&&&b)
  | some .OR => result (a|||b)
  | some .SHL => result (a <<< (b.toNat%64))
  | some .SHR => result (a >>> (b.toNat%64))
  | some .HLT => none
  | some .RND => some (pureResult packet output (random calls^^^packet.tag^^^env.time),calls+1)
  -- no case sets the result: the opcodes of the other modules, and words that are no opcode
  | some .OPN | some .RED | some .WRT | some .CLS | some .LOD | some .LS | some .SDF | some .ULK
  | some .LSK | none => result env.computationResult

/-- The tokens of a result. -/
def ExecutionResult.tokens (result : ExecutionResult) : List TokenType :=
  result.output1::if result.marker=bothOutputMarker then [result.output2] else []

/-- The opcodes that need something from outside, or that stop the machine. -/
def OpcodeType.isExternal : OpcodeType → Bool
  | .OPN | .RED | .WRT | .CLS | .LS | .SDF | .ULK | .LSK | .LOD | .RND | .HLT => true
  | _ => false

/-- An opcode of the instruction set that needs nothing from outside. -/
def IsInternal (opcode : BitVec 32) : Prop :=
  ∃ o,OpcodeType.ofBits opcode=some o ∧ o.isExternal=false

theorem pureResult_tokens (packet : ExecutionPacket) (output output' : ExecutionResult)
    (value : DataType) (h1 : output.output1.tag=output'.output1.tag)
    (h2 : output.output2.tag=output'.output2.tag) (hone : output.marker=oneOutputMarker)
    (hone' : output'.marker=oneOutputMarker) :
    (pureResult packet output value).tokens=(pureResult packet output' value).tokens := by
  have hne : oneOutputMarker ≠ bothOutputMarker := by decide
  by_cases hboth : packet.marker=bothOutputMarker
  · simp [pureResult,ExecutionResult.tokens,hboth,h1,h2]
  · simp [pureResult,ExecutionResult.tokens,hboth,hone,hone',hne,h1]

/-- The tokens of an internal opcode do not depend on what the uninitialised locals hold. -/
theorem functionUnit_internal (random : RandomStream) (calls : Nat) (packet : ExecutionPacket)
    (h : IsInternal packet.opcode) (env env' : FunctionEnv) :
    ∃ result result' calls',functionUnit env random calls packet=some (result,calls') ∧
      functionUnit env' random calls packet=some (result',calls') ∧
        result.tokens=result'.tokens := by
  obtain ⟨o,ho,hint⟩ := h
  unfold functionUnit
  rw [ho]
  cases o <;> first | (cases hint; done) | skip
  all_goals refine ⟨_,_,_,rfl,rfl,?_⟩
  all_goals first | rfl | exact pureResult_tokens packet _ _ _ rfl rfl rfl rfl

section Units

variable (env : FunctionEnv) (random : RandomStream) (calls : Nat) (packet : ExecutionPacket)

/-- The tokens where a case of the switch leaves the output to the end. -/
theorem pureResult_value (value : DataType) :
    (pureResult packet
      (ExecutionResult.withTag {env.output with marker := oneOutputMarker} packet.tag) value).tokens=
        ⟨packet.destination1,value,packet.tag⟩::
          if packet.marker=bothOutputMarker then [⟨packet.destination2,value,packet.tag⟩]
          else [] := by
  have hne : oneOutputMarker ≠ bothOutputMarker := by decide
  by_cases hboth : packet.marker=bothOutputMarker
  · simp [pureResult,ExecutionResult.tokens,ExecutionResult.withTag,hboth]
  · simp [pureResult,ExecutionResult.tokens,ExecutionResult.withTag,hboth,hne]

theorem functionUnit_dup (h : packet.opcode=OpcodeType.DUP.bits) :
    ∃ result,functionUnit env random calls packet=some (result,calls) ∧
      result.tokens=⟨packet.destination1,packet.data1,packet.tag⟩::
        if packet.marker=bothOutputMarker then [⟨packet.destination2,packet.data1,packet.tag⟩]
        else [] := by
  refine ⟨_,?_,pureResult_value env packet packet.data1⟩
  simp only [functionUnit,h,OpcodeType.ofBits_bits]

theorem functionUnit_xor (h : packet.opcode=OpcodeType.XOR.bits) :
    ∃ result,functionUnit env random calls packet=some (result,calls) ∧
      result.tokens=⟨packet.destination1,packet.data1^^^packet.data2,packet.tag⟩::
        if packet.marker=bothOutputMarker then
          [⟨packet.destination2,packet.data1^^^packet.data2,packet.tag⟩]
        else [] := by
  refine ⟨_,?_,pureResult_value env packet _⟩
  simp only [functionUnit,h,OpcodeType.ofBits_bits]

theorem functionUnit_add (h : packet.opcode=OpcodeType.ADD.bits) :
    ∃ result,functionUnit env random calls packet=some (result,calls) ∧
      result.tokens=⟨packet.destination1,packet.data1+packet.data2,packet.tag⟩::
        if packet.marker=bothOutputMarker then
          [⟨packet.destination2,packet.data1+packet.data2,packet.tag⟩]
        else [] := by
  refine ⟨_,?_,pureResult_value env packet _⟩
  simp only [functionUnit,h,OpcodeType.ofBits_bits]

/-- An RTD has one token, whatever its marker. -/
theorem functionUnit_rtd (h : packet.opcode=OpcodeType.RTD.bits) :
    ∃ result,functionUnit env random calls packet=some (result,calls) ∧
      result.tokens=[⟨packet.data2.setWidth 32,packet.data1,packet.tag⟩] := by
  have hne : oneOutputMarker ≠ bothOutputMarker := by decide
  refine ⟨⟨⟨packet.data2.setWidth 32,packet.data1,packet.tag⟩,
    ⟨env.output.output2.destination,env.output.output2.data,packet.tag⟩,oneOutputMarker⟩,?_,?_⟩
  · simp only [functionUnit,h,OpcodeType.ofBits_bits,ExecutionResult.withTag]
  · simp [ExecutionResult.tokens,hne]

end Units

theorem functionUnit_calls_cases (env : FunctionEnv) (random : RandomStream) (calls : Nat)
    (packet : ExecutionPacket) (result : ExecutionResult) (calls' : Nat)
    (h : functionUnit env random calls packet=some (result,calls')) :
    calls'=calls ∨ calls'=calls+1 := by
  unfold functionUnit at h
  cases ho : OpcodeType.ofBits packet.opcode with
  | none =>
    rw [ho] at h
    cases h
    exact Or.inl rfl
  | some o =>
    rw [ho] at h
    cases o <;> cases h <;> first | exact Or.inl rfl | exact Or.inr rfl

/-- A packet takes at most one number, the one for a tag area. -/
theorem functionUnit_calls (env : FunctionEnv) (random : RandomStream) (calls : Nat)
    (packet : ExecutionPacket) (result : ExecutionResult) (calls' : Nat)
    (h : functionUnit env random calls packet=some (result,calls')) : calls ≤ calls' := by
  obtain rfl | rfl := functionUnit_calls_cases env random calls packet result calls' h
  · exact Nat.le_refl _
  · exact Nat.le_succ _

end Manchester
