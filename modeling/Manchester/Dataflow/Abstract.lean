import Manchester.Framework.Transition
import Manchester.Pipeline.FunctionUnit
import Manchester.Pipeline.IoSwitch
import Manchester.Pipeline.StoreUnit
import Mathlib.Algebra.BigOperators.Group.Multiset.Basic

namespace Manchester

-- The tagged-token dataflow machine: a collection of operands, and instructions that fire.

/-- What an instruction consumes: a token, or its own literals when it needs nothing else. -/
inductive Operand where
  | token (t : TokenType)
  | literals (address : Nat)
  deriving DecidableEq, Repr

section Firing

variable (overrun : TableOverrun) (instructions : List Instruction)

/-- An instruction with the operands of one tag that it consumes, and the packet that is evaluated
for it. -/
inductive Firing : Multiset Operand → ExecutionPacket → Prop where
  | both (address : Nat) (inst : Instruction) (token1 token2 : TokenType)
      (hinst : instructions[address]?=some inst)
      (hnone : inst.instructionLiteral=InstructionLiteralType.NONE.bits)
      (htwo : numInputs overrun inst.opcode=2)
      (haddress1 : (destinationToAddress token1.destination).toNat=address)
      (haddress2 : (destinationToAddress token2.destination).toNat=address)
      (hinput1 : destinationToInput token1.destination=inputOne)
      (hinput2 : destinationToInput token2.destination=inputTwo)
      (htag : token1.tag=token2.tag) :
      Firing {.token token1,.token token2}
        (makePacket address inst token1.data token2.data token1.tag)
  | single (address : Nat) (inst : Instruction) (token : TokenType)
      (hinst : instructions[address]?=some inst)
      (hone : inst.instructionLiteral=InstructionLiteralType.ONE.bits ∨
        numInputs overrun inst.opcode=1)
      (haddress : (destinationToAddress token.destination).toNat=address) :
      Firing {.token token} (makePacket address inst token.data inst.literal1 token.tag)
  | literals (address : Nat) (inst : Instruction) (packet : ExecutionPacket)
      (hinst : instructions[address]?=some inst)
      (hready : readyPacket overrun address inst=some packet) :
      Firing {.literals address} packet

/-- The instructions whose operands are all literals, each once. -/
def readyAddresses : List Nat :=
  instructions.zipIdx.filterMap fun p => (readyPacket overrun p.2 p.1).map fun _ => p.2

end Firing

/-- `calls` counts the random numbers drawn. -/
structure Dataflow where
  operands : Multiset Operand
  calls : Nat

/-- The tokens that the function unit gives for a packet; at the end of the machine none. -/
def evaluate (env : FunctionEnv) (random : RandomStream) (calls : Nat) (packet : ExecutionPacket) :
    List TokenType × Nat :=
  match functionUnit env random calls packet with
  | some (result,calls) => (result.tokens,calls)
  | none => ([],calls)

/-- The only step: an instruction consumes its operands, and its result tokens appear. -/
inductive Dataflow.Step (overrun : TableOverrun) (random : RandomStream)
    (instructions : List Instruction) : Dataflow → Dataflow → Prop where
  | fire (consumed rest : Multiset Operand) (calls : Nat) (packet : ExecutionPacket)
      (env : FunctionEnv) (hfiring : Firing overrun instructions consumed packet) :
      Step overrun random instructions ⟨consumed+rest,calls⟩
        ⟨↑((evaluate env random calls packet).1.map Operand.token)+rest,
          (evaluate env random calls packet).2⟩

/-- A firing takes its operands from any collection that has them. -/
theorem Dataflow.Step.of_operands {overrun : TableOverrun} {instructions : List Instruction}
    {a : Dataflow} {consumed rest : Multiset Operand} {packet : ExecutionPacket}
    (random : RandomStream) (env : FunctionEnv) (ha : a.operands=consumed+rest)
    (hfiring : Firing overrun instructions consumed packet) :
    Dataflow.Step overrun random instructions a
      ⟨↑((evaluate env random a.calls packet).1.map Operand.token)+rest,
        (evaluate env random a.calls packet).2⟩ := by
  obtain ⟨operands,calls⟩ := a
  change operands=_ at ha
  rw [ha]
  exact .fire consumed rest calls packet env hfiring

def Dataflow.start (overrun : TableOverrun) (instructions : List Instruction) : Dataflow :=
  ⟨↑((readyAddresses overrun instructions).map Operand.literals),0⟩

/-- The packets that the store begins with are those of the instructions that wait for nothing. -/
theorem addReadyInstructions_firing (overrun : TableOverrun) (instructions : List Instruction) :
    Multiset.Rel (fun packet consumed => Firing overrun instructions consumed packet)
      ↑(addReadyInstructions overrun instructions)
      ↑((readyAddresses overrun instructions).map fun address =>
        ({Operand.literals address} : Multiset Operand)) := by
  have hall : ∀ l : List (Instruction × Nat),
      (∀p∈l,instructions[p.2]?=some p.1) →
      Multiset.Rel (fun packet consumed => Firing overrun instructions consumed packet)
        ↑(l.filterMap fun p => readyPacket overrun p.2 p.1)
        ↑((l.filterMap fun p => (readyPacket overrun p.2 p.1).map fun _ => p.2).map
          fun address => ({Operand.literals address} : Multiset Operand)) := by
    intro l hl
    induction l with
    | nil => exact .zero
    | cons p l ih =>
      have hrest := ih fun q hq => hl q (by simp [hq])
      cases hready : readyPacket overrun p.2 p.1 with
      | none => simpa [List.filterMap_cons,hready] using hrest
      | some packet =>
        simp only [List.filterMap_cons,hready,Option.map_some,List.map_cons,← Multiset.cons_coe]
        exact .cons (.literals p.2 p.1 packet (hl p (by simp)) hready) hrest
  apply hall
  intro ⟨inst,i⟩ hp
  exact List.mem_zipIdx_iff_getElem?.mp hp

/-- What the switch prints when an operand gets to it. -/
def Operand.printed (behind : List UInt8) : Operand → Option Output
  | .token t => printToken behind t
  | .literals _ => none

/-- The outputs of all the tokens that are on their way to the switch, in no order. -/
def Dataflow.printed (behind : List UInt8) (a : Dataflow) : Multiset Output :=
  a.operands.filterMap (Operand.printed behind)

end Manchester
