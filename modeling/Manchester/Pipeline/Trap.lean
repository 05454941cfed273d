import Manchester.Pipeline.ProcessingUnit
import Mathlib.Data.List.Basic

namespace Manchester

/-- The three tokens that ask the trap code about a token. -/
def handlerTokens (input : DestinationType) (token : TokenType) (tag : TagType)
    (location : DestinationType) : List TokenType :=
  [⟨createDestination 0 inputOne matchingOne,hash (input.setWidth 64),tag⟩,
    ⟨createDestination 1 inputOne matchingOne,hash (token.destination.setWidth 64),tag⟩,
    ⟨createDestination 2 inputOne matchingOne,location.setWidth 64,tag⟩]

/-- A result token that waits, the tag of its handler tokens, and the return location under which
it waits. -/
structure Asked where
  token : TokenType
  tag : TagType
  location : DestinationType

/-- None of the result tokens is sent: for each of them there is one set of handler tokens, and it
waits under the return location that they name. -/
def Mediated (input : DestinationType) (tokens : List TokenType) (waiting : TrapWaiting)
    (sent : List TokenType) : Prop :=
  ∃ asked : List Asked,asked.map Asked.token=tokens ∧
    sent=asked.flatMap (fun a => handlerTokens input a.token a.tag a.location) ∧
    ∀a∈asked,waiting a.location=some a.token

/-- The return location that is drawn when `calls` numbers have been drawn before. -/
def returnLocation (random : RandomStream) (calls : Nat) : DestinationType :=
  (random (calls+1)).setWidth 32

section Rounds

variable {random : RandomStream} {input : DestinationType}

theorem singleStepToken_sent (token : TokenType) (s : ProcessingState) :
    (singleStepToken random input token s).2=
      handlerTokens input token ((newTagArea (random s.calls)).setWidth 64)
        (returnLocation random s.calls) := rfl

theorem singleStepToken_waiting (token : TokenType) (s : ProcessingState) :
    (singleStepToken random input token s).1.trapWaiting=
      Function.update s.trapWaiting (returnLocation random s.calls) (some token) := rfl

theorem singleStepToken_calls (token : TokenType) (s : ProcessingState) :
    (singleStepToken random input token s).1.calls=s.calls+2 := rfl

theorem mediated_one (token : TokenType) (s : ProcessingState) :
    Mediated input [token] (singleStepTokens random input [token] s).1.trapWaiting
      (singleStepTokens random input [token] s).2 := by
  refine ⟨[⟨token,(newTagArea (random s.calls)).setWidth 64,returnLocation random s.calls⟩],
    rfl,?_,?_⟩
  · simp [singleStepTokens,singleStepToken_sent]
  · simp [singleStepTokens,singleStepToken_waiting]

/-- Of two tokens under one return location only the second is left. -/
theorem mediated_two_iff (token1 token2 : TokenType) (s : ProcessingState) :
    Mediated input [token1,token2]
        (singleStepTokens random input [token1,token2] s).1.trapWaiting
        (singleStepTokens random input [token1,token2] s).2 ↔
      token1=token2 ∨ returnLocation random s.calls ≠ returnLocation random (s.calls+2) := by
  have hsent : (singleStepTokens random input [token1,token2] s).2=
      handlerTokens input token1 ((newTagArea (random s.calls)).setWidth 64)
          (returnLocation random s.calls)++
        handlerTokens input token2 ((newTagArea (random (s.calls+2))).setWidth 64)
          (returnLocation random (s.calls+2)) := by
    simp [singleStepTokens,singleStepToken_sent,singleStepToken_calls]
  have hwaiting : (singleStepTokens random input [token1,token2] s).1.trapWaiting=
      Function.update (Function.update s.trapWaiting (returnLocation random s.calls)
        (some token1)) (returnLocation random (s.calls+2)) (some token2) := by
    simp [singleStepTokens,singleStepToken_waiting,singleStepToken_calls]
  rw [hsent,hwaiting]
  constructor
  · intro ⟨asked,htokens,hout,hall⟩
    obtain ⟨a1,a2,rfl⟩ : ∃ a1 a2,asked=[a1,a2] := by
      have hlen : asked.length=2 := by simpa using congrArg List.length htokens
      exact List.length_eq_two.mp hlen
    have h1 : a1.token=token1 := by simpa using (List.cons.inj htokens).1
    have hloc : returnLocation random s.calls=a1.location := by
      have hthird := congrArg (fun l : List TokenType => (l.getD 2 ⟨0,0,0⟩).data) hout
      have hwidth : (returnLocation random s.calls).setWidth 64=a1.location.setWidth 64 := hthird
      have hback := congrArg (fun w : BitVec 64 => w.setWidth 32) hwidth
      simpa [BitVec.setWidth_setWidth] using hback
    by_cases hsame : returnLocation random s.calls=returnLocation random (s.calls+2)
    · left
      have hfirst := hall a1 (by simp)
      rw [← hloc,hsame,Function.update_self,h1] at hfirst
      exact (Option.some.inj hfirst).symm
    · exact Or.inr hsame
  · intro h
    refine ⟨[⟨token1,(newTagArea (random s.calls)).setWidth 64,returnLocation random s.calls⟩,
      ⟨token2,(newTagArea (random (s.calls+2))).setWidth 64,
        returnLocation random (s.calls+2)⟩],rfl,by simp,?_⟩
    intro a ha
    simp only [List.mem_cons,List.not_mem_nil,or_false] at ha
    obtain rfl | rfl := ha
    · obtain rfl | hne := h
      · by_cases hsame : returnLocation random s.calls=returnLocation random (s.calls+2)
        · simp [hsame]
        · simp [Function.update_of_ne hsame]
      · simp [Function.update_of_ne hne]
    · simp

theorem Mediated.length {tokens sent : List TokenType} {waiting : TrapWaiting}
    (h : Mediated input tokens waiting sent) : sent.length=3*tokens.length := by
  obtain ⟨asked,htokens,hout,-⟩ := h
  have hlen : ∀ l : List Asked,
      (l.flatMap fun a => handlerTokens input a.token a.tag a.location).length=3*l.length := by
    intro l
    induction l with
    | nil => rfl
    | cons a l ih =>
      rw [List.flatMap_cons,List.length_append,ih,List.length_cons]
      simp only [handlerTokens,List.length_cons,List.length_nil]
      omega
  rw [hout,← htokens,hlen,List.length_map]

end Rounds

/-- The packet is no answer of the trap code about a token that waits. -/
def NoAnswer (s : ProcessingState) (next : ExecutionPacket) (result : ExecutionResult) : Prop :=
  next.opcode=OpcodeType.RTD.bits → s.trapWaiting result.output1.destination=none

theorem processPacket_trap (random : RandomStream) (env : FunctionEnv) (s : ProcessingState)
    (next : ExecutionPacket) (result : ExecutionResult) (calls : Nat) (hexited : s.exited=false)
    (hunit : functionUnit env random s.calls next=some (result,calls))
    (hanswer : NoAnswer s next result) :
    processPacket true random env s next=some (if isTrapCode next.input then
        ({s with calls := calls},result.tokens)
      else singleStepTokens random next.input result.tokens {s with calls := calls}) := by
  unfold processPacket
  rw [if_neg (by simp [hexited]),hunit]
  apply congrArg some
  have hsend : sendTokens true random next result.tokens {s with calls := calls}=
      if isTrapCode next.input then ({s with calls := calls},result.tokens)
      else singleStepTokens random next.input result.tokens {s with calls := calls} := by
    unfold sendTokens
    cases isTrapCode next.input <;> rfl
  rw [← hsend,finishPacket]
  by_cases hrtd : next.opcode=OpcodeType.RTD.bits
  · have hnone : s.trapWaiting result.output1.destination=none := hanswer hrtd
    simp [hrtd,hnone]
  · simp [hrtd]

theorem isTrapCode_iff (input : DestinationType) :
    isTrapCode input=true ↔ (destinationToAddress input).toNat%2^16 < trapCodeLimit := by
  simp [isTrapCode]

/-- A packet of user code, in whatever state the unit is, is mediated exactly when the low 16 bits
of its address are not those of the trap code, and two result tokens do not draw one return
location. -/
theorem mediated_iff (random : RandomStream) (env : FunctionEnv) (s : ProcessingState)
    (next : ExecutionPacket) (result : ExecutionResult) (calls : Nat) (hexited : s.exited=false)
    (hunit : functionUnit env random s.calls next=some (result,calls))
    (hanswer : NoAnswer s next result) :
    (∃ s' sent,processPacket true random env s next=some (s',sent) ∧
        Mediated next.input result.tokens s'.trapWaiting sent) ↔
      trapCodeLimit ≤ (destinationToAddress next.input).toNat%2^16 ∧
        (result.marker=bothOutputMarker → result.output1=result.output2 ∨
          returnLocation random calls ≠ returnLocation random (calls+2)) := by
  rw [processPacket_trap random env s next result calls hexited hunit hanswer]
  have htrap := isTrapCode_iff next.input
  constructor
  · intro hmediates
    obtain ⟨s',sent,hround,hmediated⟩ := hmediates
    obtain hround := Option.some.inj hround
    by_cases hlow : isTrapCode next.input=true
    · -- a packet that passes for trap code sends its tokens themselves
      rw [if_pos hlow,Prod.mk.injEq] at hround
      have hlen := hmediated.length
      rw [← hround.2] at hlen
      simp only [ExecutionResult.tokens,List.length_cons] at hlen
      omega
    · rw [if_neg hlow] at hround
      have hmem : Mediated next.input result.tokens
          (singleStepTokens random next.input result.tokens {s with calls := calls}).1.trapWaiting
          (singleStepTokens random next.input result.tokens {s with calls := calls}).2 := by
        rw [hround]
        exact hmediated
      refine ⟨by rw [htrap] at hlow; omega,?_⟩
      intro hboth
      rw [ExecutionResult.tokens,if_pos hboth] at hmem
      exact (mediated_two_iff _ _ _).mp hmem
  · intro hcode
    obtain ⟨haddress,hlocations⟩ := hcode
    have hlow : ¬isTrapCode next.input=true := by rw [htrap]; omega
    rw [if_neg hlow]
    refine ⟨_,_,rfl,?_⟩
    by_cases hboth : result.marker=bothOutputMarker
    · rw [ExecutionResult.tokens,if_pos hboth]
      exact (mediated_two_iff _ _ _).mpr (hlocations hboth)
    · rw [ExecutionResult.tokens,if_neg hboth]
      exact mediated_one _ _

/-- A round of the unit in trap mode: the states around it, the packet and what is sent. -/
structure Round where
  before : ProcessingState
  env : FunctionEnv
  next : ExecutionPacket
  after : ProcessingState
  sent : List TokenType

/-- The rounds of a run, oldest first. -/
inductive RunsFrom (random : RandomStream) : ProcessingState → List Round → Prop where
  | nil (s : ProcessingState) : RunsFrom random s []
  | cons (round : Round) (rounds : List Round)
    (hround : processPacket true random round.env round.before round.next=
      some (round.after,round.sent))
    (hrest : RunsFrom random round.after rounds) : RunsFrom random round.before (round::rounds)

theorem RunsFrom.round {random : RandomStream} {s : ProcessingState} {rounds : List Round}
    (h : RunsFrom random s rounds) (round : Round) (hmem : round∈rounds) :
    processPacket true random round.env round.before round.next=some (round.after,round.sent) := by
  induction h with
  | nil => simp at hmem
  | cons first rest hround _ ih =>
    obtain rfl | hlater := List.mem_cons.mp hmem
    · exact hround
    · exact ih hlater

/-- In every run, a round on a packet is mediated exactly when the cast of its address to 16 bits
does not make it trap code, and its two result tokens, if it has two that differ, draw two return
locations. -/
theorem trap_mode_mediates (random : RandomStream) (rounds : List Round)
    (hrun : RunsFrom random ProcessingState.empty rounds) (round : Round) (hmem : round∈rounds)
    (result : ExecutionResult) (calls : Nat)
    (hunit : functionUnit round.env random round.before.calls round.next=some (result,calls))
    (hanswer : NoAnswer round.before round.next result) :
    Mediated round.next.input result.tokens round.after.trapWaiting round.sent ↔
      trapCodeLimit ≤ (destinationToAddress round.next.input).toNat%2^16 ∧
        (result.marker=bothOutputMarker → result.output1=result.output2 ∨
          returnLocation random calls ≠ returnLocation random (calls+2)) := by
  have hround := hrun.round round hmem
  have hexited : round.before.exited=false := by
    cases h : round.before.exited with
    | false => rfl
    | true => simp [processPacket,h] at hround
  rw [← mediated_iff random round.env round.before round.next result calls hexited hunit hanswer]
  constructor
  · intro h
    exact ⟨_,_,hround,h⟩
  · intro hmediates
    obtain ⟨s',sent,hsame,h⟩ := hmediates
    rw [hround] at hsame
    obtain ⟨rfl,rfl⟩ := Prod.mk.inj (Option.some.inj hsame)
    exact h

/-- The first round of a unit whose packet is a DUP of 7 at the given address, for OUTD. -/
def dupRound (address : BitVec 32) : Round :=
  let next : ExecutionPacket :=
    ⟨7,0,OpcodeType.DUP.bits,0,outputdDestination,0,createDestination address 0 0,0⟩
  let env : FunctionEnv := ⟨⟨⟨0,0,0⟩,⟨0,0,0⟩,0⟩,0,0⟩
  let round := (processPacket true (fun _ => 5) env ProcessingState.empty next).getD
    (ProcessingState.empty,[])
  ⟨ProcessingState.empty,env,next,round.1,round.2⟩

theorem trap_mode_mediates_dup :
    Mediated (dupRound 200).next.input [⟨outputdDestination,7,0⟩] (dupRound 200).after.trapWaiting
      (dupRound 200).sent :=
  (trap_mode_mediates (fun _ => 5) [dupRound 200]
    (RunsFrom.cons (dupRound 200) [] rfl (RunsFrom.nil _)) (dupRound 200) (by simp)
    ⟨⟨outputdDestination,7,0⟩,⟨0,0,0⟩,oneOutputMarker⟩ 0 rfl (fun _ => rfl)).mpr
      ⟨by decide,fun h => absurd h (by decide)⟩

/-- The instruction at address 65536 is far above the trap code, and its result is sent. -/
theorem trap_mode_escaped :
    trapCodeLimit ≤ (destinationToAddress (dupRound 0x10000).next.input).toNat ∧
      RunsFrom (fun _ => 5) ProcessingState.empty [dupRound 0x10000] ∧
      NoAnswer (dupRound 0x10000).before (dupRound 0x10000).next
        ⟨⟨outputdDestination,7,0⟩,⟨0,0,0⟩,oneOutputMarker⟩ ∧
      functionUnit (dupRound 0x10000).env (fun _ => 5) 0 (dupRound 0x10000).next=
        some (⟨⟨outputdDestination,7,0⟩,⟨0,0,0⟩,oneOutputMarker⟩,0) ∧
      (dupRound 0x10000).sent=[⟨outputdDestination,7,0⟩] ∧
      ¬Mediated (dupRound 0x10000).next.input [⟨outputdDestination,7,0⟩]
        (dupRound 0x10000).after.trapWaiting (dupRound 0x10000).sent := by
  refine ⟨by decide,RunsFrom.cons (dupRound 0x10000) [] rfl (RunsFrom.nil _),fun _ => rfl,rfl,
    rfl,?_⟩
  intro h
  have hlen : (dupRound 0x10000).sent.length=3 := h.length
  have hone : (dupRound 0x10000).sent.length=1 := rfl
  omega

end Manchester
