import Manchester.Dataflow.Abstract
import Manchester.Matching.Waiting
import Manchester.Pipeline.Machine
import Mathlib.Data.Multiset.Bind
import Mathlib.Tactic.Abel

namespace Manchester

open Framework

/-- The operand tokens of a pair. -/
def ReadyTokenPairType.tokens (pair : ReadyTokenPairType) : List TokenType :=
  pair.token1::pair.token2.toList

/-- The instruction that a token is for. -/
def tokenTarget (instructions : List Instruction) (token : TokenType) : Option Instruction :=
  instructions[(destinationToAddress token.destination).toNat]?

section Holdings

variable {c : MachineConfig} {cap : Nat}

/-- The tokens in the queues, in the hands of the modules and in the waiting table. A ready pair
counts as its operand tokens. -/
def heldTokens (s : Machine c cap) : Multiset TokenType :=
  s.held .processingUnit+s.held .ioSwitch+(s.locals .matchingUnit).waiting+
    (s.held .matchingUnit).bind fun pair => ↑pair.tokens

/-- The packets in the queues and in the hands: instructions that are fired but not evaluated. -/
def heldPackets (s : Machine c cap) : Multiset ExecutionPacket :=
  s.held .instructionStore+s.held .inputModule

/-- The tokens that have left: those the switch has kept, those the matching unit has no function
for, and those for no instruction that the store has ignored. -/
def goneTokens (instructions : List Instruction) (s : Machine c cap) : Multiset TokenType :=
  ↑((s.channel .processingUnit).taken.filter fun t => isSwitchDestination t.destination)+
    ↑((s.channel .ioSwitch).taken.filter fun t => ¬Passes t ∧ ¬Pairs t)+
    ↑(((s.channel .matchingUnit).taken.filter fun pair =>
      (tokenTarget instructions pair.token1).isNone).flatMap ReadyTokenPairType.tokens)

end Holdings

/-- Up to this state no file opcode and no LOD has been executed, the destinations that were made
while running fit their instructions, and no two tokens that wait for a partner are alike in
address, tag and port. -/
structure Orderly (c : MachineConfig) (image : InstructionStore) {cap : Nat} (s : Machine c cap) :
    Prop where
  noFile : ∀p∈(s.channel .instructionStore).taken,∀ o,OpcodeType.ofBits p.opcode=some o →
    o.isFile=false
  noLoad : ∀pair∈(s.channel .matchingUnit).taken,∀ inst,
    tokenTarget image.instructions pair.token1=some inst → inst.opcode ≠ OpcodeType.LOD.bits
  runTime : ∀t∈(s.channel .ioSwitch).taken,¬IsStatic image.instructions t.destination →
    DestinationFits c.overrun image.instructions t.destination
  distinct : ∀ t u,t::ₘ{u} ≤ heldTokens s → Pairs t → Pairs u → tokenToKey t=tokenToKey u →
    destinationToInput t.destination ≠ destinationToInput u.destination

/-- The state of the dataflow machine that a state of the pipeline stands for. A packet counts as
the operands that its instruction has consumed. -/
structure Corresponds (c : MachineConfig) (image : InstructionStore) {cap : Nat}
    (s : Machine c cap) (a : Dataflow) : Prop where
  operands : ∃ consumed : Multiset (Multiset Operand),
    Multiset.Rel (fun packet ops => Firing c.overrun image.instructions ops packet)
      (heldPackets s) consumed ∧
    a.operands=(heldTokens s+goneTokens image.instructions s).map Operand.token+consumed.sum
  calls : a.calls=(s.locals .processingUnit).calls

/-- A pair for which the store makes one packet, whatever an unset token holds; or one for no
instruction. -/
def PairReady (overrun : TableOverrun) (instructions : List Instruction)
    (pair : ReadyTokenPairType) : Prop :=
  (∀t∈pair.tokens,tokenTarget instructions t=none) ∨
    ∃ inst packet,tokenTarget instructions pair.token1=some inst ∧
      Firing overrun instructions ↑(pair.tokens.map Operand.token) packet ∧
      ∀ unset,firePair overrun (destinationToAddress pair.token1.destination).toNat inst
        pair.token1 (pair.token2.getD unset)=[packet]

structure PipelineInv (c : MachineConfig) (image : InstructionStore) {cap : Nat}
    (s : Machine c cap) : Prop where
  store : s.locals .instructionStore=image
  table : (s.locals .matchingUnit).Valid
  switched : ∀t∈s.held .ioSwitch,isSwitchDestination t.destination=false
  pairs : ∀pair∈s.held .matchingUnit,PairReady c.overrun image.instructions pair
  gone : ∀t∈goneTokens image.instructions s,isSwitchDestination t.destination=true ∨
    tokenTarget image.instructions t=none

section Pairs

variable {overrun : TableOverrun} {instructions : List Instruction}

theorem pairReady_single {token : TokenType} (hpass : Passes token)
    (hfits : ∀ inst,tokenTarget instructions token=some inst →
      TargetFits overrun inst (destinationToMatchingFunction token.destination)) :
    PairReady overrun instructions ⟨token,none⟩ := by
  cases htarget : tokenTarget instructions token with
  | none =>
    left
    simpa [ReadyTokenPairType.tokens] using htarget
  | some inst =>
    have hfit := hfits inst htarget
    refine Or.inr ⟨inst,_,htarget,.single _ inst token htarget (hfit.single hpass) rfl,?_⟩
    exact fun unset => firePair_single overrun _ inst token unset hfit hpass

theorem pairReady_both {pair : ReadyTokenPairType} (hvalid : ValidPair pair)
    (hfits : ∀ inst,tokenTarget instructions pair.token1=some inst →
      TargetFits overrun inst matchingBoth) : PairReady overrun instructions pair := by
  obtain ⟨token1,token2⟩ := pair
  obtain ⟨second,hsecond,htag,haddress,hinput1,hinput2⟩ := hvalid
  obtain rfl : token2=some second := hsecond
  cases htarget : tokenTarget instructions token1 with
  | none =>
    left
    have hother : tokenTarget instructions second=none := by
      rw [tokenTarget,← haddress]
      exact htarget
    simpa [ReadyTokenPairType.tokens] using ⟨htarget,hother⟩
  | some inst =>
    have hfit := hfits inst htarget
    refine Or.inr ⟨inst,_,htarget,.both _ inst token1 second htarget hfit.both.1 hfit.both.2 rfl
      (by rw [haddress]) hinput1 hinput2 htag,?_⟩
    exact fun unset => firePair_both overrun _ inst token1 second hfit

end Pairs

end Manchester
