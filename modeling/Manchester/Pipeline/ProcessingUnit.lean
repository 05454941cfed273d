import Manchester.Pipeline.FunctionUnit
import Mathlib.Logic.Function.Basic

namespace Manchester

-- The processing unit: the function unit, and trap mode around it.

def trapCodeLimit : Nat := 100

/-- The integer hash of the hash table library, cut to 32 bits and widened again. -/
def hash (word : BitVec 64) : DataType :=
  (((word >>> 33)^^^word^^^(word <<< 11)).setWidth 32).setWidth 64

/-- The table `trap_waiting`, which is used as a map. -/
abbrev TrapWaiting := DestinationType → Option TokenType

/-- What the unit keeps between two rounds of its loop. -/
structure ProcessingState where
  trapWaiting : TrapWaiting
  calls : Nat
  exited : Bool

def ProcessingState.empty : ProcessingState := ⟨fun _ => none,0,false⟩

/-- The three tokens that ask the trap code about a token. They have the fresh tag area as their
tag, and the random destination is the key under which the token waits. -/
def singleStepToken (random : RandomStream) (input : DestinationType) (token : TokenType)
    (s : ProcessingState) : ProcessingState × List TokenType :=
  let newTag : TagType := (newTagArea (random s.calls)).setWidth 64
  let randomDest : DestinationType := (random (s.calls+1)).setWidth 32
  ({s with
      trapWaiting := Function.update s.trapWaiting randomDest (some token)
      calls := s.calls+2},
    [⟨createDestination 0 inputOne matchingOne,hash (input.setWidth 64),newTag⟩,
      ⟨createDestination 1 inputOne matchingOne,hash (token.destination.setWidth 64),newTag⟩,
      ⟨createDestination 2 inputOne matchingOne,randomDest.setWidth 64,newTag⟩])

def singleStepTokens (random : RandomStream) (input : DestinationType) :
    List TokenType → ProcessingState → ProcessingState × List TokenType
  | [],s => (s,[])
  | token::tokens,s =>
    let (s1,sent) := singleStepToken random input token s
    let (s2,later) := singleStepTokens random input tokens s1
    (s2,sent++later)

/-- The address is cut to 16 bits for the test. -/
def isTrapCode (input : DestinationType) : Bool :=
  ((destinationToAddress input).setWidth 16).toNat < trapCodeLimit

/-- What a round does with the tokens of the result. -/
def sendTokens (trapFlag : Bool) (random : RandomStream) (next : ExecutionPacket)
    (tokens : List TokenType) (s : ProcessingState) : ProcessingState × List TokenType :=
  if trapFlag && !isTrapCode next.input then singleStepTokens random next.input tokens s
  else (s,tokens)

/-- An RTD in trap mode may be the answer of the trap code about a token that waits. -/
def finishPacket (trapFlag : Bool) (random : RandomStream) (next : ExecutionPacket)
    (output1 : TokenType) (tokens : List TokenType) (s : ProcessingState) :
    ProcessingState × List TokenType :=
  if trapFlag && next.opcode==OpcodeType.RTD.bits then
    match s.trapWaiting output1.destination with
    | some toSend =>
      ({s with trapWaiting := Function.update s.trapWaiting output1.destination none},
        if output1.data=1 then [toSend] else [])
    | none => sendTokens trapFlag random next tokens s
  else sendTokens trapFlag random next tokens s

/-- One round of the loop. A unit that has exited takes no packet. -/
def processPacket (trapFlag : Bool) (random : RandomStream) (env : FunctionEnv)
    (s : ProcessingState) (next : ExecutionPacket) :
    Option (ProcessingState × List TokenType) :=
  if s.exited then none
  else match functionUnit env random s.calls next with
    | none => some ({s with exited := true},[])
    | some (result,calls) =>
      some (finishPacket trapFlag random next result.output1 result.tokens {s with calls := calls})

/-- What a round does with an internal opcode depends on nothing outside the unit. -/
theorem processPacket_internal (trapFlag : Bool) (random : RandomStream) (s : ProcessingState)
    (next : ExecutionPacket) (h : IsInternal next.opcode) (env env' : FunctionEnv) :
    processPacket trapFlag random env s next=processPacket trapFlag random env' s next := by
  obtain ⟨result,result',calls,hunit,hunit',htokens⟩ :=
    functionUnit_internal random s.calls next h env env'
  have hfirst : result.output1=result'.output1 := (List.cons.inj htokens).1
  simp only [processPacket,hunit,hunit',htokens,hfirst]

/-- Without trap mode every packet is evaluated, and its tokens are sent. -/
theorem processPacket_plain (random : RandomStream) (env : FunctionEnv) (s : ProcessingState)
    (next : ExecutionPacket) (hexited : s.exited=false) :
    processPacket false random env s next=
      match functionUnit env random s.calls next with
      | none => some ({s with exited := true},[])
      | some (result,calls) => some ({s with calls := calls},result.tokens) := by
  unfold processPacket
  rw [hexited]
  rfl

end Manchester
