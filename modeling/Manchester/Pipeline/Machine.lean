import Manchester.Framework.Network
import Manchester.Matching.MatchingUnit
import Manchester.Pipeline.InputModule
import Manchester.Pipeline.IoSwitch
import Manchester.Pipeline.ProcessingUnit
import Manchester.Pipeline.StoreUnit

namespace Manchester

open Framework

-- The five modules in their ring. Each module fills one queue, and the queue has the name of the
-- module that fills it.

inductive ModuleName where
  | instructionStore | inputModule | processingUnit | ioSwitch | matchingUnit
  deriving DecidableEq, Repr

namespace ModuleName

/-- The module whose queue this one reads. -/
abbrev source : ModuleName → ModuleName
  | instructionStore => matchingUnit
  | inputModule => instructionStore
  | processingUnit => inputModule
  | ioSwitch => processingUnit
  | matchingUnit => ioSwitch

theorem source_injective : Function.Injective source := by
  intro i j h
  cases i <;> cases j <;> first | rfl | cases h

/-- What the queue of the module holds. -/
abbrev Msg : ModuleName → Type
  | instructionStore => ExecutionPacket
  | inputModule => ExecutionPacket
  | processingUnit => TokenType
  | ioSwitch => TokenType
  | matchingUnit => ReadyTokenPairType

/-- What the module keeps between two rounds. -/
abbrev Local : ModuleName → Type
  | instructionStore => InstructionStore
  | inputModule => Unit
  | processingUnit => ProcessingState
  | ioSwitch => List Output
  | matchingUnit => TokenWaitingTableType

abbrev Env : ModuleName → Type
  | instructionStore => StoreEnv
  | inputModule => SystemCalls
  | processingUnit => FunctionEnv
  | ioSwitch => Unit
  | matchingUnit => Unit

end ModuleName

/-- What stays the same in all runs of one machine: how it was built, the numbers that `random`
gives, and the memory behind two records. -/
structure MachineConfig where
  trapFlag : Bool
  random : RandomStream
  overrun : TableOverrun
  behind : List UInt8

def react (c : MachineConfig) : ∀ i : ModuleName,i.Env → i.Local → i.source.Msg →
    Option (i.Local × List i.Msg)
  | .instructionStore => fun env store pair => storePair c.overrun env store pair
  | .inputModule => fun calls _ packet => some ((),[inputPacket calls packet])
  | .processingUnit => fun env state packet => processPacket c.trapFlag c.random env state packet
  | .ioSwitch => fun _ printed token => some (switchToken c.behind printed token)
  | .matchingUnit => fun _ table token => some (matchToken table token)

abbrev machine (c : MachineConfig) : Network ModuleName where
  source := ModuleName.source
  reader := ModuleName.source_injective
  Msg := ModuleName.Msg
  Local := ModuleName.Local
  Env := ModuleName.Env
  react := react c

/-- A state of the machine with queues of one capacity. -/
abbrev Machine (c : MachineConfig) (cap : Nat) := (machine c).State cap

def sizeMatchingStore : Nat := 2048

/-- The image is the store as the first load has left it. -/
def start (c : MachineConfig) (image : InstructionStore) : ∀ i : ModuleName,
    i.Local → List i.Msg → Prop
  | .instructionStore => fun store pending =>
    store=image ∧ pending=addReadyInstructions c.overrun image.instructions
  | .inputModule => fun _ pending => pending=[]
  | .processingUnit => fun state pending => state=ProcessingState.empty ∧ pending=[]
  | .ioSwitch => fun printed pending => printed=[] ∧ pending=[]
  | .matchingUnit => fun table pending =>
    (∃ stale,table=newTokenWaitingTable sizeMatchingStore stale) ∧ pending=[]

def Started (c : MachineConfig) (image : InstructionStore) {cap : Nat} (s : Machine c cap) : Prop :=
  Network.Starts (N := machine c) (start c image) s

/-- The matching function that an instruction needs: ANY for MER, ONE for other instructions that
wait for one token, BOTH for those that wait for two. -/
def TargetFits (overrun : TableOverrun) (inst : Instruction) (matching : BitVec 32) : Prop :=
  (matching=matchingOne ∧ inst.opcode ≠ OpcodeType.MER.bits ∧
    (inst.instructionLiteral=InstructionLiteralType.ONE.bits ∨ numInputs overrun inst.opcode=1)) ∨
  (matching=matchingAny ∧ inst.opcode=OpcodeType.MER.bits) ∨
  (matching=matchingBoth ∧ inst.instructionLiteral=InstructionLiteralType.NONE.bits ∧
    numInputs overrun inst.opcode=2)

/-- The destination is one of the switch, or names no instruction, or has the matching function
that its instruction needs. -/
def DestinationFits (overrun : TableOverrun) (instructions : List Instruction)
    (d : DestinationType) : Prop :=
  isSwitchDestination d=true ∨ ∀ inst,
    instructions[(destinationToAddress d).toNat]?=some inst →
      TargetFits overrun inst (destinationToMatchingFunction d)

/-- The destinations that stand in the image. -/
def IsStatic (instructions : List Instruction) (d : DestinationType) : Prop :=
  ∃inst∈instructions,d=inst.destination1 ∨ d=inst.destination2

def ImageFits (overrun : TableOverrun) (instructions : List Instruction) : Prop :=
  ∀ d,IsStatic instructions d → DestinationFits overrun instructions d

theorem ImageFits.destination {overrun : TableOverrun} {instructions : List Instruction}
    (h : ImageFits overrun instructions) {d : DestinationType}
    (hrun : ¬IsStatic instructions d → DestinationFits overrun instructions d) :
    DestinationFits overrun instructions d := by
  by_cases hstatic : IsStatic instructions d
  · exact h d hstatic
  · exact hrun hstatic

theorem DestinationFits.target {overrun : TableOverrun} {instructions : List Instruction}
    {d : DestinationType} (h : DestinationFits overrun instructions d)
    (hswitch : isSwitchDestination d=false) {inst : Instruction}
    (hinst : instructions[(destinationToAddress d).toNat]?=some inst) :
    TargetFits overrun inst (destinationToMatchingFunction d) := by
  obtain hio | hfits := h
  · rw [hswitch] at hio
    cases hio
  · exact hfits inst hinst

theorem numInputs_opcode (overrun : TableOverrun) (o : OpcodeType) :
    numInputs overrun o.bits=opcodeToNumInputsTable.getD o.ctorIdx 0 := by
  cases o <;> rfl

theorem TargetFits.single {overrun : TableOverrun} {inst : Instruction} {matching : BitVec 32}
    (h : TargetFits overrun inst matching) (hsingle : matching=matchingOne ∨ matching=matchingAny) :
    inst.instructionLiteral=InstructionLiteralType.ONE.bits ∨ numInputs overrun inst.opcode=1 := by
  obtain ⟨-,-,h⟩ | ⟨-,h⟩ | ⟨h,-,-⟩ := h
  · exact h
  · right
    rw [h,numInputs_opcode]
    rfl
  · obtain rfl | rfl := hsingle <;> exact absurd h (by decide)

theorem TargetFits.both {overrun : TableOverrun} {inst : Instruction}
    (h : TargetFits overrun inst matchingBoth) :
    inst.instructionLiteral=InstructionLiteralType.NONE.bits ∧ numInputs overrun inst.opcode=2 := by
  obtain ⟨h,-,-⟩ | ⟨h,-⟩ | ⟨-,h⟩ := h
  · exact absurd h (by decide)
  · exact absurd h (by decide)
  · exact h

/-- A token alone that fits never makes the store read the token that is missing. -/
theorem firePair_single (overrun : TableOverrun) (address : Nat) (inst : Instruction)
    (token1 token2 : TokenType) {matching : BitVec 32} (hfits : TargetFits overrun inst matching)
    (hsingle : matching=matchingOne ∨ matching=matchingAny) :
    firePair overrun address inst token1 token2=
      [makePacket address inst token1.data inst.literal1 token1.tag] := by
  have hone := hfits.single hsingle
  have hnot : ¬(inst.instructionLiteral=InstructionLiteralType.NONE.bits ∧
      numInputs overrun inst.opcode=2) := by
    intro ⟨hnone,htwo⟩
    obtain h | h := hone
    · exact absurd (hnone.symm.trans h) (by decide)
    · omega
  rw [firePair,if_neg hnot,if_pos hone]

/-- A pair that fits is taken apart into its two operands. -/
theorem firePair_both (overrun : TableOverrun) (address : Nat) (inst : Instruction)
    (token1 token2 : TokenType) (hfits : TargetFits overrun inst matchingBoth) :
    firePair overrun address inst token1 token2=
      [makePacket address inst token1.data token2.data token1.tag] := by
  rw [firePair,if_pos hfits.both]

end Manchester
