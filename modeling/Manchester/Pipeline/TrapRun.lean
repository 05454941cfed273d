import Manchester.Pipeline.TrapCode
import Mathlib.Data.Multiset.Bind
import Mathlib.Data.Multiset.Filter

namespace Manchester

-- A token that waits has asked the trap code with three tokens, and the answer comes after five
-- instructions.

/-- How far the token for `src` has come: asked, doubled, cancelled by the XOR, or at the RTD. -/
inductive SourceStage where
  | asked | doubled | cancelled | approved
  deriving DecidableEq, Repr

-- The addresses that the tokens of the trap code have, and their inputs.

theorem source_address :
    (destinationToAddress (createDestination 0 inputOne matchingOne)).toNat=0 := by decide

theorem dest_address :
    (destinationToAddress (createDestination 1 inputOne matchingOne)).toNat=1 := by decide

theorem location_address :
    (destinationToAddress (createDestination 2 inputOne matchingOne)).toNat=2 := by decide

theorem first_address : (destinationToAddress trapSource.destination1).toNat=3 := by decide

theorem second_address : (destinationToAddress trapSource.destination2).toNat=3 := by decide

theorem zero_address : (destinationToAddress trapXor.destination1).toNat=4 := by decide

theorem one_address : (destinationToAddress trapAdd.destination1).toNat=5 := by decide

theorem returning_address :
    (destinationToAddress trapReturnLoc.destination1).toNat=5 := by decide

theorem first_input : destinationToInput trapSource.destination1=inputOne := by decide

theorem second_input : destinationToInput trapSource.destination2=inputTwo := by decide

theorem one_input : destinationToInput trapAdd.destination1=inputOne := by decide

theorem returning_input : destinationToInput trapReturnLoc.destination1=inputTwo := by decide

/-- How many instructions there are up to the RTD. -/
def SourceStage.work : SourceStage → Nat
  | .asked => 3
  | .doubled => 2
  | .cancelled => 1
  | .approved => 0

/-- A token that waits, with the state of the run that decides about it. -/
structure TrapRun where
  held : Held
  source : DataType
  stage : SourceStage
  /-- The return location is at the RTD. -/
  returning : Bool
  deriving DecidableEq, Repr

namespace TrapRun

variable (random : RandomStream)

def sourceTokens (run : TrapRun) : Multiset TokenType :=
  let tag := run.held.tag random
  match run.stage with
  | .asked => {⟨createDestination 0 inputOne matchingOne,run.source,tag⟩}
  | .doubled =>
    ⟨trapSource.destination1,run.source,tag⟩ ::ₘ {⟨trapSource.destination2,run.source,tag⟩}
  | .cancelled => {⟨trapXor.destination1,0,tag⟩}
  | .approved => {⟨trapAdd.destination1,1,tag⟩}

def locationTokens (run : TrapRun) : Multiset TokenType :=
  let data := (run.held.location random).setWidth 64
  let tag := run.held.tag random
  if run.returning then {⟨trapReturnLoc.destination1,data,tag⟩}
  else {⟨createDestination 2 inputOne matchingOne,data,tag⟩}

/-- All its tokens but the one for `dest`, which the answer does not wait for. -/
def tokens (run : TrapRun) : Multiset TokenType :=
  run.sourceTokens random+run.locationTokens random

def destToken (held : Held) : TokenType :=
  ⟨createDestination 1 inputOne matchingOne,hash (held.token.destination.setWidth 64),
    held.tag random⟩

/-- What `dest` makes of it. -/
def noteToken (held : Held) : TokenType :=
  ⟨devNullDestination,hash (held.token.destination.setWidth 64),held.tag random⟩

/-- The run as it begins. -/
def ask (input : DestinationType) (held : Held) : TrapRun :=
  ⟨held,hash (input.setWidth 64),.asked,false⟩

/-- The tokens of a run, each with the states in which it is in flight. -/
inductive Has : TrapRun → TokenType → Prop where
  | source (held : Held) (source : DataType) (returning : Bool) :
      Has ⟨held,source,.asked,returning⟩
        ⟨createDestination 0 inputOne matchingOne,source,held.tag random⟩
  | first (held : Held) (source : DataType) (returning : Bool) :
      Has ⟨held,source,.doubled,returning⟩ ⟨trapSource.destination1,source,held.tag random⟩
  | second (held : Held) (source : DataType) (returning : Bool) :
      Has ⟨held,source,.doubled,returning⟩ ⟨trapSource.destination2,source,held.tag random⟩
  | zero (held : Held) (source : DataType) (returning : Bool) :
      Has ⟨held,source,.cancelled,returning⟩ ⟨trapXor.destination1,0,held.tag random⟩
  | one (held : Held) (source : DataType) (returning : Bool) :
      Has ⟨held,source,.approved,returning⟩ ⟨trapAdd.destination1,1,held.tag random⟩
  | location (held : Held) (source : DataType) (stage : SourceStage) :
      Has ⟨held,source,stage,false⟩ ⟨createDestination 2 inputOne matchingOne,
        (held.location random).setWidth 64,held.tag random⟩
  | returning (held : Held) (source : DataType) (stage : SourceStage) :
      Has ⟨held,source,stage,true⟩ ⟨trapReturnLoc.destination1,
        (held.location random).setWidth 64,held.tag random⟩

theorem has_of_mem {run : TrapRun} {t : TokenType} (h : t∈run.tokens random) :
    run.Has random t := by
  obtain ⟨held,source,stage,returning⟩ := run
  obtain hsource | hlocation := Multiset.mem_add.mp h
  · cases stage with
    | asked =>
      obtain rfl := Multiset.mem_singleton.mp hsource
      exact .source held source returning
    | doubled =>
      simp only [sourceTokens,Multiset.mem_cons] at hsource
      obtain rfl | hsecond := hsource
      · exact .first held source returning
      · obtain rfl := Multiset.mem_singleton.mp hsecond
        exact .second held source returning
    | cancelled =>
      obtain rfl := Multiset.mem_singleton.mp hsource
      exact .zero held source returning
    | approved =>
      obtain rfl := Multiset.mem_singleton.mp hsource
      exact .one held source returning
  · cases returning with
    | false =>
      obtain rfl := Multiset.mem_singleton.mp hlocation
      exact .location held source stage
    | true =>
      obtain rfl := Multiset.mem_singleton.mp hlocation
      exact .returning held source stage

theorem Has.tag {run : TrapRun} {t : TokenType} (h : run.Has random t) :
    t.tag=run.held.tag random := by
  cases h <;> rfl

/-- How many instructions are left for it. -/
def work (run : TrapRun) : Nat := (if run.returning then 1 else 2)+run.stage.work

theorem exists_token (run : TrapRun) : ∃t∈run.tokens random,t.tag=run.held.tag random := by
  cases hreturning : run.returning with
  | true => exact ⟨_,by simp [tokens,locationTokens,hreturning]; exact .inr rfl,rfl⟩
  | false => exact ⟨_,by simp [tokens,locationTokens,hreturning]; exact .inr rfl,rfl⟩

theorem handlerTokens_eq (input : DestinationType) (held : Held) :
    (↑(handlerTokens input held.token (held.tag random) (held.location random)) :
      Multiset TokenType)=(ask input held).tokens random+{destToken random held} := by
  apply Multiset.coe_eq_coe.mpr
  exact List.Perm.cons _ (List.Perm.swap _ _ [])

end TrapRun

/-- The token is for an instruction of the trap code. -/
def toTrapCode (t : TokenType) : Bool := (destinationToAddress t.destination).toNat < trapCodeLimit

/-- How many instructions the trap code has to do for its tokens. -/
def remaining (runs : Multiset TrapRun) (pending : Multiset Held) : Nat :=
  (runs.map TrapRun.work).sum+pending.card

@[simp] theorem remaining_cons (run : TrapRun) (runs : Multiset TrapRun)
    (pending : Multiset Held) :
    remaining (run ::ₘ runs) pending=run.work+remaining runs pending := by
  simp [remaining,add_assoc]

/-- The tokens in the table are those whose runs are in flight, each with a tag and a location of
its own. Pending are the tokens for `dest`, also of runs that are over. -/
structure Outstanding (random : RandomStream) (waiting : TrapWaiting) (flight : Multiset TokenType)
    (runs : Multiset TrapRun) (pending : Multiset Held) : Prop where
  flight : flight=runs.bind (TrapRun.tokens random)+pending.map (TrapRun.destToken random)
  tags : (runs.map fun run => run.held.tag random).Nodup
  locations : (runs.map fun run => run.held.location random).Nodup
  waits : ∀run∈runs,waiting (run.held.location random)=some run.held.token
  covers : ∀ location,waiting location ≠ none → ∃run∈runs,run.held.location random=location
  own : ∀run∈runs,toTrapCode run.held.token=false

namespace Outstanding

variable {random : RandomStream} {waiting : TrapWaiting} {flight : Multiset TokenType}
  {runs others : Multiset TrapRun} {pending : Multiset Held} {run run' : TrapRun}

theorem empty : Outstanding random (fun _ => none) 0 0 0 where
  flight := rfl
  tags := by simp
  locations := by simp
  waits := by simp
  covers := fun _ h => absurd rfl h
  own := by simp

theorem mem_flight (h : Outstanding random waiting flight runs pending) {t : TokenType}
    (ht : t∈flight) :
    (∃held∈pending,TrapRun.destToken random held=t) ∨ ∃run∈runs,run.Has random t := by
  rw [h.flight,Multiset.mem_add,Multiset.mem_bind,Multiset.mem_map] at ht
  obtain ⟨run,hrun,hmem⟩ | hpending := ht
  · exact .inr ⟨run,hrun,TrapRun.has_of_mem random hmem⟩
  · exact .inl hpending

/-- Two runs whose tokens have one tag are the same. -/
theorem run_unique (h : Outstanding random waiting flight runs pending) (hrun : run∈runs)
    (hrun' : run'∈runs) (htag : run.held.tag random=run'.held.tag random) : run=run' :=
  Multiset.inj_on_of_nodup_map h.tags run hrun run' hrun' htag

/-- The consumed tokens are of one run, which then goes on to its next state. -/
theorem advance {consumed rest kept new : Multiset TokenType}
    (h : Outstanding random waiting (consumed+rest) (run ::ₘ others) pending)
    (hheld : run'.held=run.held) (hold : run.tokens random=consumed+kept)
    (hnew : run'.tokens random=new+kept) :
    Outstanding random waiting (new+rest) (run' ::ₘ others) pending where
  flight := by
    have hflight := h.flight
    rw [Multiset.cons_bind,hold] at hflight
    have hrest : rest=kept+others.bind (TrapRun.tokens random)+
        pending.map (TrapRun.destToken random) := by
      apply add_left_cancel (a := consumed)
      rw [hflight]
      ac_rfl
    rw [Multiset.cons_bind,hnew,hrest]
    ac_rfl
  tags := by simpa [hheld] using h.tags
  locations := by simpa [hheld] using h.locations
  waits := by
    intro other hother
    obtain rfl | hother := Multiset.mem_cons.mp hother
    · rw [hheld]
      exact h.waits run (Multiset.mem_cons_self _ _)
    · exact h.waits other (Multiset.mem_cons_of_mem hother)
  covers := by
    intro location hlocation
    obtain ⟨other,hother,rfl⟩ := h.covers location hlocation
    obtain rfl | hother := Multiset.mem_cons.mp hother
    · exact ⟨run',Multiset.mem_cons_self _ _,by rw [hheld]⟩
    · exact ⟨other,Multiset.mem_cons_of_mem hother,rfl⟩
  own := by
    intro other hother
    obtain rfl | hother := Multiset.mem_cons.mp hother
    · rw [hheld]
      exact h.own run (Multiset.mem_cons_self _ _)
    · exact h.own other (Multiset.mem_cons_of_mem hother)

/-- The consumed tokens are the last ones of a run, and its token leaves the table. -/
theorem finish {rest : Multiset TokenType}
    (h : Outstanding random waiting (run.tokens random+rest) (run ::ₘ others) pending) :
    Outstanding random (Function.update waiting (run.held.location random) none) rest others
      pending := by
  have hlocations := h.locations
  have htags := h.tags
  rw [Multiset.map_cons,Multiset.nodup_cons] at hlocations htags
  have hne : ∀other∈others,other.held.location random ≠ run.held.location random := by
    intro other hother hsame
    exact hlocations.1 (Multiset.mem_map.mpr ⟨other,hother,hsame⟩)
  constructor
  · have hflight := h.flight
    rw [Multiset.cons_bind,add_assoc] at hflight
    exact add_left_cancel hflight
  · exact htags.2
  · exact hlocations.2
  · intro other hother
    rw [Function.update_of_ne (hne other hother)]
    exact h.waits other (Multiset.mem_cons_of_mem hother)
  · intro location hlocation
    by_cases hsame : location=run.held.location random
    · rw [hsame,Function.update_self] at hlocation
      exact absurd rfl hlocation
    · rw [Function.update_of_ne hsame] at hlocation
      obtain ⟨other,hother,rfl⟩ := h.covers location hlocation
      obtain rfl | hother := Multiset.mem_cons.mp hother
      · exact absurd rfl hsame
      · exact ⟨other,hother,rfl⟩
  · exact fun other hother => h.own other (Multiset.mem_cons_of_mem hother)

/-- A token for `dest` goes, and nothing else changes. -/
theorem note {held : Held} {rest : Multiset TokenType}
    (h : Outstanding random waiting (TrapRun.destToken random held ::ₘ rest) runs
      (held ::ₘ pending)) : Outstanding random waiting rest runs pending where
  flight := by
    have hflight := h.flight
    rw [Multiset.map_cons,Multiset.add_cons] at hflight
    exact (Multiset.cons_inj_right _).mp hflight
  tags := h.tags
  locations := h.locations
  waits := h.waits
  covers := h.covers
  own := h.own

/-- A new token waits under a free location, and no token in flight has its tag. -/
theorem ask (h : Outstanding random waiting flight runs pending) (input : DestinationType)
    (held : Held) (hfree : waiting (held.location random)=none)
    (htag : ∀t∈flight,t.tag ≠ held.tag random) (hown : toTrapCode held.token=false) :
    Outstanding random (wait random waiting held)
      (↑(handlerTokens input held.token (held.tag random) (held.location random))+flight)
      (TrapRun.ask input held ::ₘ runs) (held ::ₘ pending) where
  flight := by
    rw [TrapRun.handlerTokens_eq,Multiset.cons_bind,h.flight,Multiset.map_cons,
      ← Multiset.singleton_add]
    ac_rfl
  tags := by
    rw [Multiset.map_cons,Multiset.nodup_cons]
    refine ⟨?_,h.tags⟩
    intro hmem
    obtain ⟨run,hrun,hsame⟩ := Multiset.mem_map.mp hmem
    obtain ⟨t,ht,htrun⟩ := run.exists_token random
    apply htag t _ (htrun.trans hsame)
    rw [h.flight,Multiset.mem_add,Multiset.mem_bind]
    exact .inl ⟨run,hrun,ht⟩
  locations := by
    rw [Multiset.map_cons,Multiset.nodup_cons]
    refine ⟨?_,h.locations⟩
    intro hmem
    obtain ⟨run,hrun,hsame⟩ := Multiset.mem_map.mp hmem
    have hwaits := h.waits run hrun
    rw [show run.held.location random=held.location random from hsame,hfree] at hwaits
    cases hwaits
  waits := by
    intro run hrun
    obtain rfl | hrun := Multiset.mem_cons.mp hrun
    · exact Function.update_self _ _ _
    · have hwaits := h.waits run hrun
      have hne : run.held.location random ≠ held.location random := by
        intro hsame
        rw [hsame,hfree] at hwaits
        cases hwaits
      rw [wait,Function.update_of_ne hne]
      exact hwaits
  covers := by
    intro location hlocation
    by_cases hsame : location=held.location random
    · exact ⟨_,Multiset.mem_cons_self _ _,hsame.symm⟩
    · rw [wait,Function.update_of_ne hsame] at hlocation
      obtain ⟨run,hrun,hat⟩ := h.covers location hlocation
      exact ⟨run,Multiset.mem_cons_of_mem hrun,hat⟩
  own := by
    intro run hrun
    obtain rfl | hrun := Multiset.mem_cons.mp hrun
    · exact hown
    · exact h.own run hrun

/-- What a round asks about all tokens of its result. -/
theorem asks (input : DestinationType) (puts : List Held)
    (h : Outstanding random waiting flight runs pending)
    (hfree : ∀held∈puts,waiting (held.location random)=none)
    (htag : ∀held∈puts,∀t∈flight,t.tag ≠ held.tag random)
    (hdistinct : puts.Pairwise fun held held' =>
      held.location random ≠ held'.location random ∧ held.tag random ≠ held'.tag random)
    (hown : ∀held∈puts,toTrapCode held.token=false) :
    ∃ runs',Multiset.map TrapRun.held runs'=↑puts+runs.map TrapRun.held ∧
      Outstanding random (puts.foldl (wait random) waiting)
        (↑(puts.flatMap fun held =>
          handlerTokens input held.token (held.tag random) (held.location random))+flight)
        runs' (↑puts+pending) := by
  induction puts generalizing waiting flight runs pending with
  | nil => exact ⟨runs,by simp,by simpa using h⟩
  | cons held puts ih =>
    obtain ⟨hne,hdistinct⟩ := List.pairwise_cons.mp hdistinct
    have hfirst := h.ask input held (hfree held (by simp)) (htag held (by simp))
      (hown held (by simp))
    have hfree' : ∀later∈puts,wait random waiting held (later.location random)=none := by
      intro later hlater
      rw [wait,Function.update_of_ne (hne later hlater).1.symm]
      exact hfree later (by simp [hlater])
    have htag' : ∀later∈puts,∀t∈(↑(handlerTokens input held.token (held.tag random)
        (held.location random))+flight : Multiset TokenType),t.tag ≠ later.tag random := by
      intro later hlater t ht
      obtain hnew | hold := Multiset.mem_add.mp ht
      · have hsame : t.tag=held.tag random := by
          simp only [handlerTokens,Multiset.mem_coe,List.mem_cons,List.not_mem_nil,or_false] at hnew
          obtain rfl | rfl | rfl := hnew <;> rfl
        rw [hsame]
        exact (hne later hlater).2
      · exact htag later (by simp [hlater]) t hold
    obtain ⟨runs',hruns,hlast⟩ := ih hfirst hfree' htag' hdistinct
      fun later hlater => hown later (by simp [hlater])
    refine ⟨runs',?_,?_⟩
    · rw [hruns,Multiset.map_cons,← Multiset.cons_coe,Multiset.add_cons,Multiset.cons_add]
      rfl
    · rw [List.foldl_cons,List.flatMap_cons,← Multiset.coe_add,← Multiset.cons_coe,
        Multiset.cons_add,← Multiset.add_cons]
      convert hlast using 1
      ac_rfl

end Outstanding

end Manchester
