import Mathlib.Data.List.Induction
import Manchester.Pipeline.Trap

namespace Manchester

/-- A token that waits, and how many numbers had been drawn before the two for it: that tells it
from every other one. -/
structure Held where
  token : TokenType
  call : Nat
  deriving DecidableEq, Repr

namespace Held

/-- The tag of the handler tokens for it. -/
def tag (random : RandomStream) (held : Held) : TagType :=
  (newTagArea (random held.call)).setWidth 64

/-- The return location issued for it. -/
def location (random : RandomStream) (held : Held) : DestinationType :=
  returnLocation random held.call

end Held

/-- The table with the history of its entries. -/
abbrev Holding := DestinationType → Option Held

def Holding.empty : Holding := fun _ => none

/-- What `singleStepTokens` puts into the table. -/
def issues : Nat → List TokenType → List Held
  | _,[] => []
  | calls,token::tokens => ⟨token,calls⟩::issues (calls+2) tokens

/-- One put, in the table and in its history. -/
def wait (random : RandomStream) (waiting : TrapWaiting) (held : Held) : TrapWaiting :=
  Function.update waiting (held.location random) (some held.token)

def hold (random : RandomStream) (holding : Holding) (held : Held) : Holding :=
  Function.update holding (held.location random) (some held)

namespace Round

/-- The packet is an RTD to a location under which a token waits. -/
def isAnswer (round : Round) : Bool :=
  round.next.opcode==OpcodeType.RTD.bits &&
    (round.before.trapWaiting (round.next.data2.setWidth 32)).isSome

/-- The tokens that a round puts into the table. -/
def puts (random : RandomStream) (round : Round) : List Held :=
  match functionUnit round.env random round.before.calls round.next with
  | none => []
  | some (result,calls) =>
    if round.isAnswer || isTrapCode round.next.input then [] else issues calls result.tokens

def holdingAfter (random : RandomStream) (holding : Holding) (round : Round) : Holding :=
  if round.isAnswer then Function.update holding (round.next.data2.setWidth 32) none
  else (round.puts random).foldl (hold random) holding

/-- The tokens that a round sends on account of its packet: those of the result of trap code, and
the three that ask about each of them of any other code. -/
def own (random : RandomStream) (round : Round) : List TokenType :=
  match functionUnit round.env random round.before.calls round.next with
  | none => []
  | some (result,calls) =>
    if isTrapCode round.next.input then result.tokens
    else (issues calls result.tokens).flatMap fun held =>
      handlerTokens round.next.input held.token (held.tag random) (held.location random)

def Legal (random : RandomStream) (round : Round) : Prop :=
  processPacket true random round.env round.before round.next=some (round.after,round.sent)

end Round

/-- The history is one of the table of the unit. -/
structure Tracks (random : RandomStream) (holding : Holding) (s : ProcessingState) : Prop where
  table : ∀ location,s.trapWaiting location=(holding location).map Held.token
  held : ∀ location held,holding location=some held →
    held.location random=location ∧ held.call < s.calls

/-- The token is in the table before the round, or is put there in it, and is not there after. -/
def Leaves (random : RandomStream) (holding : Holding) (round : Round) (held : Held) : Prop :=
  (holding (held.location random)=some held ∨ held∈round.puts random) ∧
    round.holdingAfter random holding (held.location random) ≠ some held

/-- The round is an RTD of the trap code, to the return location of the token and with the tag of
its handler tokens. -/
def Authorized (random : RandomStream) (round : Round) (held : Held) : Prop :=
  round.next.opcode=OpcodeType.RTD.bits ∧
    (destinationToAddress round.next.input).toNat < trapCodeLimit ∧
    round.next.data2.setWidth 32=held.location random ∧ round.next.tag=held.tag random

/-- A token leaves the table in this round only by an authorized RTD, and is then released if the
data is 1 and discarded if not; an authorized RTD takes it out; and a round in which none leaves
sends nothing but its own tokens. -/
structure Authority (random : RandomStream) (holding : Holding) (round : Round) : Prop where
  leaves : ∀ held,Leaves random holding round held →
    Authorized random round held ∧
      round.sent=if round.next.data1=1 then [held.token] else []
  stays : (∀ held,¬Leaves random holding round held) → round.sent=round.own random
  answers : ∀ held,holding (held.location random)=some held → Authorized random round held →
    Leaves random holding round held

/-- An RTD to a location where a token waits is the answer of the trap code about that token, and
no location is drawn for which a token waits. -/
structure Guarded (random : RandomStream) (holding : Holding) (round : Round) : Prop where
  answer : ∀ held,holding (round.next.data2.setWidth 32)=some held →
    round.next.opcode=OpcodeType.RTD.bits →
      (destinationToAddress round.next.input).toNat < trapCodeLimit ∧
        round.next.tag=held.tag random
  free : ∀held∈round.puts random,holding (held.location random)=none
  distinct : (round.puts random).Pairwise fun held held' =>
    held.location random ≠ held'.location random

section Rounds

variable {random : RandomStream} {holding : Holding} {round : Round}

theorem mem_issues {calls : Nat} {tokens : List TokenType} {held : Held}
    (h : held∈issues calls tokens) : calls ≤ held.call ∧ held.call < calls+2*tokens.length := by
  induction tokens generalizing calls with
  | nil => cases h
  | cons token tokens ih =>
    rw [List.length_cons]
    obtain rfl | hlater := List.mem_cons.mp h
    · simp only
      omega
    · have hrest := ih hlater
      omega

theorem issues_pairwise (calls : Nat) (tokens : List TokenType) :
    (issues calls tokens).Pairwise fun held held' => held ≠ held' := by
  induction tokens generalizing calls with
  | nil => exact List.Pairwise.nil
  | cons token tokens ih =>
    refine List.Pairwise.cons ?_ (ih _)
    rintro held hheld rfl
    have hcall := (mem_issues hheld).1
    simp only at hcall
    omega

/-- The table after a row of puts. -/
theorem singleStepTokens_waiting (input : DestinationType) (tokens : List TokenType)
    (s : ProcessingState) :
    (singleStepTokens random input tokens s).1.trapWaiting=
        (issues s.calls tokens).foldl (wait random) s.trapWaiting ∧
      (singleStepTokens random input tokens s).1.calls=s.calls+2*tokens.length := by
  induction tokens generalizing s with
  | nil => exact ⟨rfl,rfl⟩
  | cons token tokens ih =>
    obtain ⟨hwaiting,hcalls⟩ := ih (singleStepToken random input token s).1
    rw [singleStepToken_calls] at hwaiting hcalls
    rw [singleStepToken_waiting] at hwaiting
    constructor
    · exact hwaiting
    · rw [List.length_cons]
      show (singleStepTokens random input tokens
        (singleStepToken random input token s).1).1.calls=_
      rw [hcalls]
      omega

theorem singleStepTokens_sent (input : DestinationType)
    (tokens : List TokenType) (s : ProcessingState) :
    (singleStepTokens random input tokens s).2=(issues s.calls tokens).flatMap (fun held =>
        handlerTokens input held.token (held.tag random) (held.location random)) ∧
      (singleStepTokens random input tokens s).1.exited=s.exited := by
  induction tokens generalizing s with
  | nil => exact ⟨rfl,rfl⟩
  | cons token tokens ih =>
    obtain ⟨hsent,hexited⟩ := ih (singleStepToken random input token s).1
    rw [singleStepToken_calls] at hsent
    constructor
    · rw [issues,List.flatMap_cons,← hsent]
      rfl
    · exact hexited

/-- What a legal round does: the unit stops, the answer takes a token out, or it sends or holds the
tokens of the result. -/
inductive RoundOutcome (random : RandomStream) (round : Round) : Prop where
  | exited (hunit : functionUnit round.env random round.before.calls round.next=none)
      (hanswer : round.isAnswer=false) (hsent : round.sent=[])
      (hwaiting : round.after.trapWaiting=round.before.trapWaiting)
      (hcalls : round.after.calls=round.before.calls)
  | answered (hanswer : round.isAnswer=true) (token : TokenType)
      (hwaits : round.before.trapWaiting (round.next.data2.setWidth 32)=some token)
      (hsent : round.sent=if round.next.data1=1 then [token] else [])
      (hwaiting : round.after.trapWaiting=
        Function.update round.before.trapWaiting (round.next.data2.setWidth 32) none)
      (hcalls : round.after.calls=round.before.calls)
  | passed (result : ExecutionResult) (calls : Nat)
      (hunit : functionUnit round.env random round.before.calls round.next=some (result,calls))
      (hanswer : round.isAnswer=false) (htrap : isTrapCode round.next.input=true)
      (hsent : round.sent=result.tokens)
      (hwaiting : round.after.trapWaiting=round.before.trapWaiting)
      (hcalls : round.after.calls=calls)
  | trapped (result : ExecutionResult) (calls : Nat)
      (hunit : functionUnit round.env random round.before.calls round.next=some (result,calls))
      (hanswer : round.isAnswer=false) (htrap : isTrapCode round.next.input=false)
      (hafter : (round.after,round.sent)=singleStepTokens random round.next.input result.tokens
        {round.before with calls := calls})

theorem Round.Legal.exited_eq (hlegal : round.Legal random) : round.before.exited=false := by
  cases h : round.before.exited with
  | false => rfl
  | true => simp [Round.Legal,processPacket,h] at hlegal

/-- A round that is no answer sends the tokens of its result, or asks about them. -/
theorem outcome_of_sent {result : ExecutionResult} {calls : Nat}
    (hunit : functionUnit round.env random round.before.calls round.next=some (result,calls))
    (hanswer : round.isAnswer=false)
    (hfinish : sendTokens true random round.next result.tokens {round.before with calls := calls}=
      (round.after,round.sent)) : RoundOutcome random round := by
  rw [sendTokens,Bool.true_and] at hfinish
  cases htrap : isTrapCode round.next.input with
  | true =>
    rw [htrap] at hfinish
    obtain ⟨hafter,hsent⟩ := Prod.mk.inj hfinish
    exact .passed result calls hunit hanswer htrap hsent.symm (by rw [← hafter])
      (by rw [← hafter])
  | false =>
    rw [htrap] at hfinish
    exact .trapped result calls hunit hanswer htrap hfinish.symm

theorem Round.Legal.outcome (hlegal : round.Legal random) : RoundOutcome random round := by
  have hexited := hlegal.exited_eq
  rw [Round.Legal,processPacket,if_neg (by simp [hexited])] at hlegal
  cases hunit : functionUnit round.env random round.before.calls round.next with
  | none =>
    rw [hunit] at hlegal
    obtain ⟨hafter,hsent⟩ := Prod.mk.inj (Option.some.inj hlegal)
    refine .exited hunit ?_ hsent.symm (by rw [← hafter]) (by rw [← hafter])
    -- an RTD does not stop the unit
    rw [Round.isAnswer,Bool.and_eq_false_iff]
    left
    rw [beq_eq_false_iff_ne]
    intro hrtd
    obtain ⟨result,hresult,-⟩ :=
      functionUnit_rtd round.env random round.before.calls round.next hrtd
    rw [hunit] at hresult
    cases hresult
  | some p =>
    obtain ⟨result,calls⟩ := p
    rw [hunit] at hlegal
    have hfinish := Option.some.inj hlegal
    rw [finishPacket] at hfinish
    by_cases hrtd : round.next.opcode=OpcodeType.RTD.bits
    · obtain ⟨result',hresult',htokens⟩ :=
        functionUnit_rtd round.env random round.before.calls round.next hrtd
      obtain ⟨rfl,rfl⟩ := Prod.mk.inj (Option.some.inj (hunit.symm.trans hresult'))
      have houtput : result.output1=⟨round.next.data2.setWidth 32,round.next.data1,
          round.next.tag⟩ := (List.cons.inj htokens).1
      simp only [hrtd,beq_self_eq_true,Bool.and_self,if_true,houtput] at hfinish
      cases hwaits : round.before.trapWaiting (round.next.data2.setWidth 32) with
      | some token =>
        rw [hwaits] at hfinish
        obtain ⟨hafter,hsent⟩ := Prod.mk.inj hfinish
        refine .answered ?_ token hwaits hsent.symm (by rw [← hafter]) (by rw [← hafter])
        simp [Round.isAnswer,hrtd,hwaits]
      | none =>
        have hanswer : round.isAnswer=false := by simp [Round.isAnswer,hwaits]
        rw [hwaits] at hfinish
        exact outcome_of_sent hunit hanswer hfinish
    · have hanswer : round.isAnswer=false := by simp [Round.isAnswer,hrtd]
      have hne : (round.next.opcode==OpcodeType.RTD.bits)=false := by simpa using hrtd
      simp only [hne,Bool.and_false,Bool.false_eq_true,if_false] at hfinish
      exact outcome_of_sent hunit hanswer hfinish

theorem foldl_hold_of_ne (puts : List Held) (location : DestinationType)
    (h : ∀held∈puts,held.location random ≠ location) :
    puts.foldl (hold random) holding location=holding location := by
  induction puts generalizing holding with
  | nil => rfl
  | cons put puts ih =>
    rw [List.foldl_cons,ih fun held hheld => h held (by simp [hheld]),hold,
      Function.update_of_ne (h put (by simp)).symm]

/-- A location that is put to holds the last token put there. -/
theorem foldl_hold_of_mem (puts : List Held) (held : Held) (h : held∈puts) :
    ∃last∈puts,last.location random=held.location random ∧
      puts.foldl (hold random) holding (held.location random)=some last := by
  induction puts using List.reverseRecOn with
  | nil => cases h
  | append_singleton puts put ih =>
    rw [List.foldl_append,List.foldl_cons,List.foldl_nil,hold]
    by_cases hlast : held.location random=put.location random
    · exact ⟨put,by simp,hlast.symm,by rw [hlast,Function.update_self]⟩
    · have hold : held∈puts := by
        obtain hmem | hmem := List.mem_append.mp h
        · exact hmem
        · exact absurd (congrArg _ (List.mem_singleton.mp hmem)) hlast
      obtain ⟨last,hmem,hsame,hlookup⟩ := ih hold
      exact ⟨last,by simp [hmem],hsame,by rw [Function.update_of_ne hlast,hlookup]⟩

theorem foldl_hold_of_distinct (puts : List Held)
    (hdistinct : puts.Pairwise fun held held' => held.location random ≠ held'.location random)
    (held : Held) (h : held∈puts) :
    puts.foldl (hold random) holding (held.location random)=some held := by
  induction puts generalizing holding with
  | nil => cases h
  | cons put puts ih =>
    obtain ⟨hput,hrest⟩ := List.pairwise_cons.mp hdistinct
    rw [List.foldl_cons]
    obtain rfl | hmem := List.mem_cons.mp h
    · rw [foldl_hold_of_ne _ _ fun held' hheld' => (hput held' hheld').symm,hold,
        Function.update_self]
    · exact ih hrest hmem

theorem foldl_hold_table (puts : List Held) (waiting : TrapWaiting)
    (h : ∀ location,waiting location=(holding location).map Held.token)
    (location : DestinationType) :
    puts.foldl (wait random) waiting location=
      (puts.foldl (hold random) holding location).map Held.token := by
  induction puts generalizing holding waiting with
  | nil => exact h location
  | cons put puts ih =>
    apply ih
    intro place
    by_cases hplace : place=put.location random
    · rw [hplace,wait,hold,Function.update_self,Function.update_self]
      rfl
    · rw [wait,hold,Function.update_of_ne hplace,Function.update_of_ne hplace,h place]

theorem puts_of_answer (h : round.isAnswer=true) : round.puts random=[] := by
  rw [Round.puts]
  cases functionUnit round.env random round.before.calls round.next with
  | none => rfl
  | some p => simp [h]

theorem puts_of_trapCode (h : isTrapCode round.next.input=true) : round.puts random=[] := by
  rw [Round.puts]
  cases functionUnit round.env random round.before.calls round.next with
  | none => rfl
  | some p => simp [h]

/-- Tokens that are put into the table are new. -/
theorem mem_puts_call {held : Held} (h : held∈round.puts random) :
    round.before.calls ≤ held.call := by
  rw [Round.puts] at h
  cases hunit : functionUnit round.env random round.before.calls round.next with
  | none =>
    rw [hunit] at h
    cases h
  | some p =>
    rw [hunit] at h
    simp only at h
    split_ifs at h
    · cases h
    · have hcalls := functionUnit_calls _ _ _ _ _ _ hunit
      have hcall := (mem_issues h).1
      omega

theorem puts_nodup : (round.puts random).Pairwise fun held held' => held ≠ held' := by
  rw [Round.puts]
  cases functionUnit round.env random round.before.calls round.next with
  | none => exact List.Pairwise.nil
  | some p =>
    simp only
    split_ifs
    · exact List.Pairwise.nil
    · exact issues_pairwise _ _

/-- One round: the history goes on being that of the table. -/
theorem Tracks.step (htracks : Tracks random holding round.before) (hlegal : round.Legal random) :
    Tracks random (round.holdingAfter random holding) round.after := by
  have hkeep : ∀ calls,round.before.calls ≤ calls → ∀ location held,
      holding location=some held → held.location random=location ∧ held.call < calls := by
    intro calls hle location held hheld
    obtain ⟨hlocation,hcall⟩ := htracks.held location held hheld
    exact ⟨hlocation,by omega⟩
  cases hlegal.outcome with
  | exited hunit hanswer _ hwaiting hcalls =>
    have hsame : round.holdingAfter random holding=holding := by
      simp [Round.holdingAfter,hanswer,Round.puts,hunit]
    rw [hsame]
    exact ⟨fun location => by rw [hwaiting]; exact htracks.table location,
      by rw [hcalls]; exact htracks.held⟩
  | answered hanswer token hwaits _ hwaiting hcalls =>
    rw [Round.holdingAfter,if_pos hanswer]
    constructor
    · intro location
      rw [hwaiting]
      by_cases hplace : location=round.next.data2.setWidth 32
      · rw [hplace,Function.update_self,Function.update_self]
        rfl
      · rw [Function.update_of_ne hplace,Function.update_of_ne hplace,htracks.table location]
    · intro location held hheld
      by_cases hplace : location=round.next.data2.setWidth 32
      · rw [hplace,Function.update_self] at hheld
        cases hheld
      · rw [Function.update_of_ne hplace] at hheld
        rw [hcalls]
        exact htracks.held location held hheld
  | passed result calls hunit hanswer htrap _ hwaiting hcalls =>
    have hsame : round.holdingAfter random holding=holding := by
      rw [Round.holdingAfter,if_neg (by simp [hanswer]),puts_of_trapCode htrap]
      rfl
    have hle := functionUnit_calls _ _ _ _ _ _ hunit
    rw [hsame]
    exact ⟨fun location => by rw [hwaiting]; exact htracks.table location,
      by rw [hcalls]; exact hkeep calls hle⟩
  | trapped result calls hunit hanswer htrap hafter =>
    have hstate : round.after=(singleStepTokens random round.next.input result.tokens
        {round.before with calls := calls}).1 := congrArg Prod.fst hafter
    have hstep := @singleStepTokens_waiting random round.next.input result.tokens
      {round.before with calls := calls}
    rw [← hstate] at hstep
    have hwaiting := hstep.1
    have hcalls : round.after.calls=calls+2*result.tokens.length := hstep.2
    have hputs : round.puts random=issues calls result.tokens := by
      simp [Round.puts,hunit,hanswer,htrap]
    have hle := functionUnit_calls _ _ _ _ _ _ hunit
    rw [Round.holdingAfter,if_neg (by simp [hanswer]),hputs]
    constructor
    · intro location
      rw [hwaiting]
      exact foldl_hold_table _ _ htracks.table location
    · intro location held hheld
      by_cases hput : ∃put∈issues calls result.tokens,put.location random=location
      · obtain ⟨put,hmem,rfl⟩ := hput
        obtain ⟨last,hlast,hsame,hlookup⟩ := foldl_hold_of_mem _ put hmem
        obtain rfl := Option.some.inj (hlookup.symm.trans hheld)
        rw [hcalls]
        exact ⟨hsame,(mem_issues hlast).2⟩
      · push Not at hput
        rw [foldl_hold_of_ne _ _ hput] at hheld
        rw [hcalls]
        exact hkeep _ (by omega) location held hheld

theorem Tracks.isAnswer_iff (htracks : Tracks random holding round.before) :
    round.isAnswer=true ↔ round.next.opcode=OpcodeType.RTD.bits ∧
      ∃ held,holding (round.next.data2.setWidth 32)=some held := by
  rw [Round.isAnswer,htracks.table,Bool.and_eq_true,beq_iff_eq,Option.isSome_map,
    Option.isSome_iff_exists]

/-- A round of the trap code puts nothing into the table. -/
theorem Authorized.puts {held : Held} (h : Authorized random round held) :
    round.puts random=[] := by
  apply puts_of_trapCode
  rw [isTrapCode_iff]
  exact Nat.lt_of_le_of_lt (Nat.mod_le _ _) h.2.1

/-- Only an answer sends something else than the tokens of the round. -/
theorem Round.Legal.sends_own (hlegal : round.Legal random) (hanswer : round.isAnswer=false) :
    round.sent=round.own random := by
  cases hlegal.outcome with
  | exited hunit _ hsent => rw [hsent,Round.own,hunit]
  | answered hnot => rw [hanswer] at hnot; cases hnot
  | passed result calls hunit _ htrap hsent =>
    rw [hsent,Round.own,hunit]
    exact (if_pos htrap).symm
  | trapped result calls hunit _ htrap hafter =>
    have hsent : round.sent=(singleStepTokens random round.next.input result.tokens
        {round.before with calls := calls}).2 := congrArg Prod.snd hafter
    rw [hsent,(singleStepTokens_sent _ _ _).1,Round.own,hunit]
    exact (if_neg (by simp [htrap])).symm

/-- An answer takes the token that it is about out of the table. -/
theorem Tracks.leaves_of_answer (htracks : Tracks random holding round.before) {held : Held}
    (hheld : holding (round.next.data2.setWidth 32)=some held) (hanswer : round.isAnswer=true) :
    Leaves random holding round held := by
  have hlocation := (htracks.held _ held hheld).1
  refine ⟨.inl (by rw [hlocation]; exact hheld),?_⟩
  rw [Round.holdingAfter,if_pos hanswer,hlocation,Function.update_self]
  exact fun hsome => by cases hsome

theorem Authority.guarded (htracks : Tracks random holding round.before)
    (h : Authority random holding round) : Guarded random holding round := by
  have hfree : ∀put∈round.puts random,holding (put.location random)=none := by
    intro put hput
    cases hheld : holding (put.location random) with
    | none => rfl
    | some held =>
      exfalso
      have hnot : round.isAnswer=false := by
        rw [Bool.eq_false_iff]
        intro hanswer
        rw [puts_of_answer hanswer] at hput
        cases hput
      obtain ⟨hlocation,hcall⟩ := htracks.held _ held hheld
      obtain ⟨last,hlast,-,hlookup⟩ := @foldl_hold_of_mem random holding _ put hput
      -- the last put has a later number, so the token that was there is lost
      have hlost : Leaves random holding round held := by
        refine ⟨.inl (by rw [hlocation]; exact hheld),?_⟩
        rw [Round.holdingAfter,if_neg (by simp [hnot]),hlocation,hlookup]
        intro hsame
        obtain rfl := Option.some.inj hsame
        have hnew := mem_puts_call hlast
        omega
      have hnone := (h.leaves held hlost).1.puts
      rw [hnone] at hput
      cases hput
  refine ⟨?_,hfree,?_⟩
  · intro held hheld hrtd
    have hanswer := htracks.isAnswer_iff.mpr ⟨hrtd,held,hheld⟩
    obtain ⟨-,haddress,-,htag⟩ := (h.leaves held (htracks.leaves_of_answer hheld hanswer)).1
    exact ⟨haddress,htag⟩
  · -- a put that stays is the one that its location holds
    have hstays : ∀put∈round.puts random,
        round.holdingAfter random holding (put.location random)=some put := by
      intro put hput
      by_contra hgone
      rw [(h.leaves put ⟨.inr hput,hgone⟩).1.puts] at hput
      cases hput
    apply puts_nodup.imp_of_mem
    intro a b ha hb hne hsame
    have hboth := hstays a ha
    rw [hsame,hstays b hb] at hboth
    exact hne (Option.some.inj hboth).symm

theorem Guarded.authority (htracks : Tracks random holding round.before)
    (hlegal : round.Legal random) (h : Guarded random holding round) :
    Authority random holding round := by
  constructor
  · intro held ⟨hwas,hgone⟩
    cases hanswer : round.isAnswer with
    | true =>
      obtain ⟨hrtd,other,hother⟩ := htracks.isAnswer_iff.mp hanswer
      rw [puts_of_answer hanswer] at hwas
      rw [Round.holdingAfter,if_pos hanswer] at hgone
      have hheld : holding (held.location random)=some held := by
        obtain hheld | hput := hwas
        · exact hheld
        · cases hput
      have hplace : held.location random=round.next.data2.setWidth 32 := by
        by_contra hne
        rw [Function.update_of_ne hne] at hgone
        exact hgone hheld
      rw [hplace] at hheld
      obtain ⟨haddress,htag⟩ := h.answer held hheld hrtd
      refine ⟨⟨hrtd,haddress,hplace.symm,htag⟩,?_⟩
      cases hlegal.outcome with
      | exited _ hnot => rw [hanswer] at hnot; cases hnot
      | passed _ _ _ hnot => rw [hanswer] at hnot; cases hnot
      | trapped _ _ _ hnot => rw [hanswer] at hnot; cases hnot
      | answered _ token hwaits hsent =>
        rw [htracks.table,hheld] at hwaits
        obtain rfl := Option.some.inj hwaits
        exact hsent
    | false =>
      exfalso
      rw [Round.holdingAfter,if_neg (by simp [hanswer])] at hgone
      by_cases hput : held∈round.puts random
      · exact hgone (foldl_hold_of_distinct _ h.distinct held hput)
      · have hheld := hwas.resolve_right hput
        apply hgone
        rw [foldl_hold_of_ne,hheld]
        intro put hmem hplace
        have hnone := h.free put hmem
        rw [hplace,hheld] at hnone
        cases hnone
  · intro hstay
    apply hlegal.sends_own
    rw [Bool.eq_false_iff]
    intro hanswer
    obtain ⟨-,held,hheld⟩ := htracks.isAnswer_iff.mp hanswer
    exact hstay held (htracks.leaves_of_answer hheld hanswer)
  · intro held hheld hauthorized
    rw [← hauthorized.2.2.1] at hheld
    exact htracks.leaves_of_answer hheld
      (htracks.isAnswer_iff.mpr ⟨hauthorized.1,held,hheld⟩)

end Rounds

/-- The rounds of a run with the history before each. -/
def withHolding (random : RandomStream) : Holding → List Round → List (Holding × Round)
  | _,[] => []
  | holding,round::rounds =>
    (holding,round)::withHolding random (round.holdingAfter random holding) rounds

theorem RunsFrom.tracks {random : RandomStream} {s : ProcessingState} {rounds : List Round}
    (hrun : RunsFrom random s rounds) (holding : Holding) (htracks : Tracks random holding s) :
    ∀p∈withHolding random holding rounds,Tracks random p.1 p.2.before ∧ p.2.Legal random := by
  induction hrun generalizing holding with
  | nil => intro p hp; cases hp
  | cons round rounds hround _ ih =>
    have hlegal : round.Legal random := hround
    intro p hp
    obtain rfl | hlater := List.mem_cons.mp hp
    · exact ⟨htracks,hlegal⟩
    · exact ih _ (htracks.step hlegal) p hlater

theorem tracks_empty (random : RandomStream) :
    Tracks random Holding.empty ProcessingState.empty :=
  ⟨fun _ => rfl,fun _ _ h => by cases h⟩

/-- In every run, tokens leave the table by the authority of the trap code alone exactly when in
every round an RTD to the location of a token is the answer about it, and the locations drawn are
free: the unit checks neither who sends the RTD, nor its tag, nor what a put overwrites. -/
theorem release_authority_iff (random : RandomStream) (rounds : List Round)
    (hrun : RunsFrom random ProcessingState.empty rounds) :
    (∀p∈withHolding random Holding.empty rounds,Authority random p.1 p.2) ↔
      ∀p∈withHolding random Holding.empty rounds,Guarded random p.1 p.2 := by
  refine forall₂_congr fun p hp => ?_
  obtain ⟨htracks,hlegal⟩ := hrun.tracks Holding.empty (tracks_empty random) p hp
  exact ⟨fun h => h.guarded htracks,fun h => h.authority htracks hlegal⟩

/-- A round on an RTD of the value 1 to the location 5, after that of a DUP at address 200. -/
private def rtdRound (address : BitVec 32) (tag : TagType) : Round :=
  let next : ExecutionPacket :=
    ⟨1,5,OpcodeType.RTD.bits,tag,0,0,createDestination address 0 0,0⟩
  let env : FunctionEnv := ⟨⟨⟨0,0,0⟩,⟨0,0,0⟩,0⟩,0,0⟩
  let round := (processPacket true (fun _ => 5) env (dupRound 200).after next).getD
    (ProcessingState.empty,[])
  ⟨(dupRound 200).after,env,next,round.1,round.2⟩

private def waitingDup : Held := ⟨⟨outputdDestination,7,0⟩,0⟩

private theorem dup_rtd_runs (address : BitVec 32) (tag : TagType)
    (h : (rtdRound address tag).Legal fun _ => 5) :
    RunsFrom (fun _ => 5) ProcessingState.empty [dupRound 200,rtdRound address tag] :=
  RunsFrom.cons (dupRound 200) _ rfl (RunsFrom.cons (rtdRound address tag) [] h (RunsFrom.nil _))

private theorem holding_of_dup :
    (dupRound 200).holdingAfter (fun _ => 5) Holding.empty 5=some waitingDup := by
  have hputs : (dupRound 200).puts (fun _ => 5)=[waitingDup] := rfl
  rw [Round.holdingAfter,if_neg (by decide),hputs]
  rfl

theorem release_authority_answer :
    (rtdRound 5 5).sent=[waitingDup.token] ∧
      ∀p∈withHolding (fun _ => 5) Holding.empty [dupRound 200,rtdRound 5 5],
        Authority (fun _ => 5) p.1 p.2 := by
  refine ⟨rfl,?_⟩
  refine (release_authority_iff (fun _ => 5) _ (dup_rtd_runs 5 5 rfl)).mpr ?_
  intro p hp
  obtain rfl | hp := List.mem_cons.mp hp
  · refine ⟨?_,fun _ _ => rfl,List.pairwise_singleton _ _⟩
    intro held hheld
    cases hheld
  · obtain rfl := List.mem_singleton.mp hp
    refine ⟨?_,?_,List.Pairwise.nil⟩
    · intro held hheld _
      obtain rfl := Option.some.inj (holding_of_dup.symm.trans hheld)
      exact ⟨by decide,rfl⟩
    · intro held hput
      cases hput

/-- The RTD is one of user code, with a tag of its own, and the token is sent. -/
theorem release_by_user_code :
    RunsFrom (fun _ => 5) ProcessingState.empty [dupRound 200,rtdRound 300 9] ∧
      (rtdRound 300 9).sent=[waitingDup.token] ∧
      ¬∀p∈withHolding (fun _ => 5) Holding.empty [dupRound 200,rtdRound 300 9],
        Authority (fun _ => 5) p.1 p.2 := by
  refine ⟨dup_rtd_runs 300 9 rfl,rfl,?_⟩
  intro h
  have hround := h _ (List.mem_cons_of_mem _ (List.mem_singleton_self _))
  have hleaves : Leaves (fun _ => 5) ((dupRound 200).holdingAfter (fun _ => 5) Holding.empty)
      (rtdRound 300 9) waitingDup := by
    refine ⟨.inl holding_of_dup,?_⟩
    have hanswer : (rtdRound 300 9).isAnswer=true := rfl
    show (rtdRound 300 9).holdingAfter (fun _ => 5) _ 5 ≠ _
    rw [Round.holdingAfter,if_pos hanswer]
    have hnone : ∀ holding : Holding,Function.update holding 5 none 5=none :=
      fun _ => Function.update_self _ _ _
    intro hsome
    rw [show (rtdRound 300 9).next.data2.setWidth 32=(5 : BitVec 32) from rfl,hnone] at hsome
    cases hsome
  exact absurd (hround.leaves _ hleaves).1.2.1 (by decide)

end Manchester
