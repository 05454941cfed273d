import Manchester.Pipeline.TrapFiring

namespace Manchester

/-- The result of a packet depends on the number that it draws, and on no other. -/
theorem functionUnit_shift {env : FunctionEnv} {random random' : RandomStream}
    {calls calls' after : Nat} {packet : ExecutionPacket} {result : ExecutionResult}
    (h : functionUnit env random calls packet=some (result,after))
    (hsame : calls < after → random' calls'=random calls) :
    functionUnit env random' calls' packet=some (result,calls'+(after-calls)) := by
  unfold functionUnit at h ⊢
  cases ho : OpcodeType.ofBits packet.opcode with
  | none =>
    rw [ho] at h
    cases h
    simp
  | some o =>
    rw [ho] at h
    cases o <;> cases h <;> simp [hsame]

theorem functionUnit_exits {env : FunctionEnv} {random : RandomStream} {calls : Nat}
    {packet : ExecutionPacket} (h : functionUnit env random calls packet=none)
    (random' : RandomStream) (calls' : Nat) : functionUnit env random' calls' packet=none := by
  unfold functionUnit at h ⊢
  cases ho : OpcodeType.ofBits packet.opcode with
  | none =>
    rw [ho] at h
    cases h
  | some o =>
    rw [ho] at h
    cases o <;> first | rfl | cases h

/-- A run of the plain unit on packets, each with the environment of its round. -/
def plainRun (random : RandomStream) : ProcessingState → List (FunctionEnv × ExecutionPacket) →
    Option (ProcessingState × List TokenType)
  | s,[] => some (s,[])
  | s,(env,next)::packets =>
    match processPacket false random env s next with
    | none => none
    | some (s1,sent) =>
      match plainRun random s1 packets with
      | none => none
      | some (s2,later) => some (s2,sent++later)

/-- The numbers of a list, in order. -/
def numbers (drawn : List (BitVec 64)) : RandomStream := fun n => drawn.getD n 0

theorem processPacket_plain_shift {env : FunctionEnv} {random random' : RandomStream}
    {s s1 : ProcessingState} {next : ExecutionPacket} {sent : List TokenType}
    (h : processPacket false random env s next=some (s1,sent))
    (hsame : s.calls < s1.calls → random' s.calls=random s.calls) :
    processPacket false random' env s next=some (s1,sent) ∧ s.calls ≤ s1.calls := by
  cases hexited : s.exited with
  | true =>
    rw [processPacket,if_pos hexited] at h
    cases h
  | false =>
    rw [processPacket_plain _ _ _ _ hexited] at h ⊢
    cases hunit : functionUnit env random s.calls next with
    | none =>
      rw [hunit] at h
      cases h
      rw [functionUnit_exits hunit]
      exact ⟨rfl,Nat.le_refl _⟩
    | some r =>
      obtain ⟨result,calls⟩ := r
      rw [hunit] at h
      cases h
      have hcalls := functionUnit_calls _ _ _ _ _ _ hunit
      rw [functionUnit_shift hunit hsame]
      simp only [Nat.add_sub_cancel' hcalls,true_and]
      exact hcalls

/-- A run does not depend on the numbers that it has not drawn. -/
theorem plainRun_congr {random random' : RandomStream} {s s' : ProcessingState}
    {packets : List (FunctionEnv × ExecutionPacket)} {tokens : List TokenType}
    (h : plainRun random s packets=some (s',tokens))
    (hsame : ∀n < s'.calls,random' n=random n) :
    plainRun random' s packets=some (s',tokens) ∧ s.calls ≤ s'.calls := by
  induction packets generalizing s tokens with
  | nil =>
    cases h
    exact ⟨rfl,Nat.le_refl _⟩
  | cons p packets ih =>
    obtain ⟨env,next⟩ := p
    simp only [plainRun] at h ⊢
    cases hround : processPacket false random env s next with
    | none =>
      rw [hround] at h
      cases h
    | some r =>
      obtain ⟨s1,sent⟩ := r
      rw [hround] at h
      cases hrest : plainRun random s1 packets with
      | none =>
        simp only [hrest] at h
        cases h
      | some r =>
        obtain ⟨s2,later⟩ := r
        simp only [hrest] at h
        cases h
        obtain ⟨hlater,hle⟩ := ih hrest
        obtain ⟨hfirst,hle'⟩ := processPacket_plain_shift hround
          fun hlt => hsame s.calls (by omega)
        rw [hfirst]
        simp only [hlater]
        exact ⟨trivial,by omega⟩

theorem plainRun_append {random : RandomStream} {s s1 s2 : ProcessingState}
    {packets : List (FunctionEnv × ExecutionPacket)} {tokens sent : List TokenType}
    {env : FunctionEnv} {next : ExecutionPacket} (h : plainRun random s packets=some (s1,tokens))
    (hround : processPacket false random env s1 next=some (s2,sent)) :
    plainRun random s (packets++[(env,next)])=some (s2,tokens++sent) := by
  induction packets generalizing s tokens with
  | nil =>
    cases h
    simp [plainRun,hround]
  | cons p packets ih =>
    obtain ⟨env',first⟩ := p
    simp only [plainRun,List.cons_append] at h ⊢
    cases hfirst : processPacket false random env' s first with
    | none =>
      rw [hfirst] at h
      cases h
    | some r =>
      obtain ⟨s',out⟩ := r
      simp only [hfirst] at h
      cases hrest : plainRun random s' packets with
      | none =>
        simp only [hrest] at h
        cases h
      | some r =>
        obtain ⟨s2,later⟩ := r
        simp only [hrest] at h
        cases h
        simp only [ih hrest,List.append_assoc]

theorem issues_tokens (calls : Nat) (tokens : List TokenType) :
    (issues calls tokens).map Held.token=tokens := by
  induction tokens generalizing calls with
  | nil => rfl
  | cons token tokens ih => rw [issues,List.map_cons,ih]

/-- The unit, the tokens that are on their way to the trap code, and all others that it has sent.
The packets of the program and the numbers that the function unit drew for them are history. -/
structure TrapSystem where
  unit : ProcessingState
  flight : Multiset TokenType
  emitted : Multiset TokenType
  packets : List (FunctionEnv × ExecutionPacket)
  drawn : List (BitVec 64)

def TrapSystem.start : TrapSystem := ⟨.empty,0,0,[],[]⟩

/-- The numbers that the function unit draws for a packet. -/
def drawnFor (env : FunctionEnv) (random : RandomStream) (calls : Nat) (next : ExecutionPacket) :
    List (BitVec 64) :=
  if calls < (evaluate env random calls next).2 then [random calls] else []

/-- What is assumed of a packet of the program, of the numbers for its tokens, and of the tokens. -/
structure Innocent (random : RandomStream) (s : TrapSystem) (env : FunctionEnv)
    (next : ExecutionPacket) (puts : List Held) : Prop where
  address : trapCodeLimit ≤ (destinationToAddress next.input).toNat ∧
    (destinationToAddress next.input).toNat < 2^16
  /-- The result destination of an RTD is no return location under which a token waits. -/
  answer : next.opcode=OpcodeType.RTD.bits → s.unit.trapWaiting (next.data2.setWidth 32)=none
  location : ∀held∈puts,s.unit.trapWaiting (held.location random)=none
  tag : ∀held∈puts,∀t∈s.flight,t.tag ≠ held.tag random
  distinct : puts.Pairwise fun held held' =>
    held.location random ≠ held'.location random ∧ held.tag random ≠ held'.tag random
  own : ∀held∈puts,toTrapCode held.token=false

/-- A round of the unit, on a packet of the program or on one of an instruction of the trap code
whose tokens have come together. -/
inductive TrapSystem.Step (random : RandomStream) (overrun : TableOverrun) (os : List Instruction) :
    TrapSystem → TrapSystem → Prop where
  | program (s : TrapSystem) (env : FunctionEnv) (next : ExecutionPacket) (after : ProcessingState)
      (sent : List TokenType)
      (hinnocent : Innocent random s env next
        (issues (evaluate env random s.unit.calls next).2
          (evaluate env random s.unit.calls next).1))
      (hround : processPacket true random env s.unit next=some (after,sent)) :
      Step random overrun os s ⟨after,↑(sent.filter toTrapCode)+s.flight,
        ↑(sent.filter fun t => !toTrapCode t)+s.emitted,s.packets++[(env,next)],
        s.drawn++drawnFor env random s.unit.calls next⟩
  | code (s : TrapSystem) (consumed rest : Multiset TokenType) (env : FunctionEnv)
      (packet : ExecutionPacket) (after : ProcessingState) (sent : List TokenType)
      (hflight : s.flight=consumed+rest)
      (hfiring : Firing overrun (trapCode++os) (consumed.map Operand.token) packet)
      (hround : processPacket true random env s.unit packet=some (after,sent)) :
      Step random overrun os s ⟨after,↑(sent.filter toTrapCode)+rest,
        ↑(sent.filter fun t => !toTrapCode t)+s.emitted,s.packets,s.drawn⟩

/-- The trap code has been asked about each token of the plain unit. These tokens are those that
have been emitted and those whose runs are in flight; beside them a note to DEV_NULL has been
emitted for each token about which `dest` has been told. -/
structure Transparent (random : RandomStream) (s : TrapSystem) (runs : Multiset TrapRun)
    (pending noted : Multiset Held) (plain : ProcessingState) (tokens : List TokenType) :
    Prop where
  outstanding : Outstanding random s.unit.trapWaiting s.flight runs pending
  run : plainRun (numbers s.drawn) .empty s.packets=some (plain,tokens)
  calls : plain.calls=s.drawn.length
  exited : plain.exited=s.unit.exited
  asked : (noted+pending).map Held.token=↑tokens
  tokens : s.emitted+runs.map (fun run => run.held.token)=
    ↑tokens+noted.map (TrapRun.noteToken random)

section Steps

variable {random : RandomStream} {overrun : TableOverrun} {os : List Instruction}
  {s : TrapSystem} {runs : Multiset TrapRun} {pending noted : Multiset Held}
  {plain : ProcessingState} {tokens : List TokenType}

theorem exited_of_round {env : FunctionEnv} {unit after : ProcessingState} {next : ExecutionPacket}
    {sent : List TokenType} (hround : processPacket true random env unit next=some (after,sent)) :
    unit.exited=false := by
  cases hexited : unit.exited with
  | false => rfl
  | true =>
    rw [processPacket,if_pos hexited] at hround
    cases hround

theorem handlerTokens_inside {input location : DestinationType} {token : TokenType} {tag : TagType}
    {t : TokenType} (h : t∈handlerTokens input token tag location) : toTrapCode t=true := by
  simp only [handlerTokens,List.mem_cons,List.not_mem_nil,or_false] at h
  have h0 : (destinationToAddress (createDestination 0 inputOne matchingOne)).toNat <
      trapCodeLimit := by decide
  have h1 : (destinationToAddress (createDestination 1 inputOne matchingOne)).toNat <
      trapCodeLimit := by decide
  have h2 : (destinationToAddress (createDestination 2 inputOne matchingOne)).toNat <
      trapCodeLimit := by decide
  obtain rfl | rfl | rfl := h
  · exact decide_eq_true h0
  · exact decide_eq_true h1
  · exact decide_eq_true h2

theorem filter_inside {sent : List TokenType} (h : ∀t∈sent,toTrapCode t=true) :
    sent.filter toTrapCode=sent ∧ (sent.filter fun t => !toTrapCode t)=[] := by
  refine ⟨List.filter_eq_self.mpr h,List.filter_eq_nil_iff.mpr ?_⟩
  intro t ht
  simp [h t ht]

theorem filter_outside {t : TokenType} (h : toTrapCode t=false) :
    [t].filter toTrapCode=[] ∧ ([t].filter fun t => !toTrapCode t)=[t] := by
  simp [h]

/-- The plain unit does the round of a packet with the numbers that were drawn for it. -/
theorem plain_round (env : FunctionEnv) (next : ExecutionPacket)
    (hrun : plainRun (numbers s.drawn) .empty s.packets=some (plain,tokens))
    (hcalls : plain.calls=s.drawn.length) (hexited : plain.exited=false) :
    ∃ plain',plainRun (numbers (s.drawn++drawnFor env random s.unit.calls next)) .empty
        (s.packets++[(env,next)])=
          some (plain',tokens++(evaluate env random s.unit.calls next).1) ∧
      plain'.calls=(s.drawn++drawnFor env random s.unit.calls next).length ∧
      plain'.exited=(functionUnit env random s.unit.calls next).isNone := by
  obtain ⟨drawn,hdrawn⟩ : ∃ drawn,drawn=s.drawn++drawnFor env random s.unit.calls next := ⟨_,rfl⟩
  have hbefore : ∀n < plain.calls,numbers drawn n=numbers s.drawn n := by
    intro n hn
    rw [hdrawn,numbers,numbers,List.getD_append _ _ _ _ (by omega)]
  have hpackets := (plainRun_congr hrun hbefore).1
  rw [← hdrawn]
  cases hunit : functionUnit env random s.unit.calls next with
  | none =>
    have hround : processPacket false (numbers drawn) env plain next=
        some ({plain with exited := true},[]) := by
      rw [processPacket_plain _ _ _ _ hexited,functionUnit_exits hunit]
    refine ⟨{plain with exited := true},?_,?_,rfl⟩
    · rw [evaluate,hunit]
      exact plainRun_append hpackets hround
    · rw [hdrawn,drawnFor,evaluate,hunit,if_neg (Nat.lt_irrefl _),List.append_nil]
      exact hcalls
  | some r =>
    obtain ⟨result,calls⟩ := r
    have hnew : drawnFor env random s.unit.calls next=
        if s.unit.calls < calls then [random s.unit.calls] else [] := by
      rw [drawnFor,evaluate,hunit]
    have hnumber : s.unit.calls < calls → numbers drawn plain.calls=random s.unit.calls := by
      intro hlt
      rw [hdrawn,hnew,if_pos hlt,numbers,hcalls]
      simp
    have hround : processPacket false (numbers drawn) env plain next=
        some ({plain with calls := plain.calls+(calls-s.unit.calls)},result.tokens) := by
      rw [processPacket_plain _ _ _ _ hexited,functionUnit_shift hunit hnumber]
    refine ⟨{plain with calls := plain.calls+(calls-s.unit.calls)},?_,?_,hexited⟩
    · rw [evaluate,hunit]
      exact plainRun_append hpackets hround
    · rw [hdrawn,hnew,List.length_append,← hcalls]
      obtain rfl | rfl := functionUnit_calls_cases _ _ _ _ _ _ hunit
      · simp
      · simp

theorem Innocent.notTrapCode {env : FunctionEnv} {next : ExecutionPacket} {puts : List Held}
    (h : Innocent random s env next puts) : isTrapCode next.input=false := by
  obtain ⟨hlow,hhigh⟩ := h.address
  rw [Bool.eq_false_iff,Ne,isTrapCode_iff]
  omega

theorem Innocent.noAnswer {env : FunctionEnv} {next : ExecutionPacket} {puts : List Held}
    {result : ExecutionResult} {calls : Nat} (h : Innocent random s env next puts)
    (hunit : functionUnit env random s.unit.calls next=some (result,calls)) :
    NoAnswer s.unit next result := by
  intro hrtd
  obtain ⟨result',hresult,htokens⟩ := functionUnit_rtd env random s.unit.calls next hrtd
  rw [hunit,Option.some.injEq,Prod.mk.injEq] at hresult
  have houtput : result'.output1=⟨next.data2.setWidth 32,next.data1,next.tag⟩ :=
    (List.cons.inj htokens).1
  rw [hresult.1,houtput]
  exact h.answer hrtd

theorem Transparent.program (h : Transparent random s runs pending noted plain tokens)
    {env : FunctionEnv} {next : ExecutionPacket} {after : ProcessingState} {sent : List TokenType}
    (hinnocent : Innocent random s env next
      (issues (evaluate env random s.unit.calls next).2 (evaluate env random s.unit.calls next).1))
    (hround : processPacket true random env s.unit next=some (after,sent)) :
    ∃ runs' pending' plain' tokens',
      Transparent random ⟨after,↑(sent.filter toTrapCode)+s.flight,
        ↑(sent.filter fun t => !toTrapCode t)+s.emitted,s.packets++[(env,next)],
        s.drawn++drawnFor env random s.unit.calls next⟩ runs' pending' noted plain' tokens' := by
  have hexited : s.unit.exited=false := exited_of_round hround
  obtain ⟨plain',hrun,hcalls,hexited'⟩ := @plain_round random s plain tokens env next h.run h.calls
    (h.exited.trans hexited)
  cases hunit : functionUnit env random s.unit.calls next with
  | none =>
    rw [processPacket,if_neg (by simp [hexited]),hunit] at hround
    cases hround
    rw [hunit] at hexited'
    refine ⟨runs,pending,plain',_,⟨?_,hrun,hcalls,hexited',?_,?_⟩⟩
    · simpa using h.outstanding
    · rw [evaluate,hunit]
      simpa using h.asked
    · rw [evaluate,hunit]
      simpa using h.tokens
  | some r =>
    obtain ⟨result,calls⟩ := r
    rw [hunit] at hexited'
    have heval : evaluate env random s.unit.calls next=(result.tokens,calls) := by
      rw [evaluate,hunit]
    rw [heval] at hinnocent
    rw [processPacket_trap random env s.unit next result calls hexited hunit
      (hinnocent.noAnswer hunit),hinnocent.notTrapCode,if_neg Bool.false_ne_true] at hround
    have hafter := Option.some.inj hround
    obtain ⟨hsent,hstill⟩ := @singleStepTokens_sent random next.input result.tokens
      {s.unit with calls := calls}
    obtain ⟨hwaiting,-⟩ := @singleStepTokens_waiting random next.input result.tokens
      {s.unit with calls := calls}
    rw [hafter] at hsent hstill hwaiting
    change sent=_ at hsent
    change after.exited=_ at hstill
    change after.trapWaiting=_ at hwaiting
    obtain ⟨runs',hruns,houtstanding⟩ := h.outstanding.asks next.input
      (issues calls result.tokens) hinnocent.location hinnocent.tag hinnocent.distinct hinnocent.own
    have hinside : ∀t∈sent,toTrapCode t=true := by
      intro t ht
      rw [hsent] at ht
      obtain ⟨held,-,ht⟩ := List.mem_flatMap.mp ht
      exact handlerTokens_inside ht
    obtain ⟨hkept,hout⟩ := filter_inside hinside
    refine ⟨runs',↑(issues calls result.tokens)+pending,plain',_,⟨?_,hrun,hcalls,?_,?_,?_⟩⟩
    · rw [hkept,hsent,hwaiting]
      exact houtstanding
    · exact hexited'.trans (hexited.symm.trans hstill.symm)
    · rw [heval,← Multiset.coe_add,← h.asked]
      simp only [Multiset.map_add,Multiset.map_coe,issues_tokens]
      ac_rfl
    · have hnew : runs'.map (fun run => run.held.token)=
          ↑result.tokens+runs.map (fun run => run.held.token) := by
        have hheld := congrArg (Multiset.map Held.token) hruns
        simpa [Function.comp_def,issues_tokens] using hheld
      have htokens := congrArg ((↑result.tokens : Multiset TokenType)+·) h.tokens
      rw [heval,hout,hnew,← Multiset.coe_add,Multiset.coe_nil,zero_add]
      calc s.emitted+(↑result.tokens+runs.map fun run => run.held.token)
          = ↑result.tokens+(s.emitted+runs.map fun run => run.held.token) := by ac_rfl
        _ = ↑result.tokens+(↑tokens+noted.map (TrapRun.noteToken random)) := htokens
        _ = ↑tokens+↑result.tokens+noted.map (TrapRun.noteToken random) := by ac_rfl

theorem noteToken_outside (held : Held) : toTrapCode (TrapRun.noteToken random held)=false := by
  have h : ¬(destinationToAddress devNullDestination).toNat < trapCodeLimit := by decide
  exact decide_eq_false h

theorem Transparent.code (h : Transparent random s runs pending noted plain tokens)
    {consumed rest : Multiset TokenType} {env : FunctionEnv} {packet : ExecutionPacket}
    {after : ProcessingState} {sent : List TokenType} (hflight : s.flight=consumed+rest)
    (hfiring : Firing overrun (trapCode++os) (consumed.map Operand.token) packet)
    (hround : processPacket true random env s.unit packet=some (after,sent)) :
    ∃ runs' pending' noted',
      Transparent random ⟨after,↑(sent.filter toTrapCode)+rest,
        ↑(sent.filter fun t => !toTrapCode t)+s.emitted,s.packets,s.drawn⟩
        runs' pending' noted' plain tokens ∧
      remaining runs' pending' < remaining runs pending := by
  have hexited := exited_of_round hround
  have houtstanding := h.outstanding
  rw [hflight] at houtstanding
  cases houtstanding.fire overrun os hexited hfiring with
  | moves sent' runs' hround' hinside hruns h' hless =>
    obtain ⟨rfl,rfl⟩ := Prod.mk.inj (Option.some.inj (hround.symm.trans hround'))
    obtain ⟨hkept,hout⟩ := filter_inside hinside
    refine ⟨runs',pending,noted,⟨?_,h.run,h.calls,h.exited,h.asked,?_⟩,hless⟩
    · rw [hkept]
      exact h'
    · have hsame : runs'.map (fun run => run.held.token)=runs.map (fun run => run.held.token) := by
        have hheld := congrArg (Multiset.map Held.token) hruns
        simpa [Function.comp_def] using hheld
      rw [hout,hsame,Multiset.coe_nil,zero_add]
      exact h.tokens
  | notes held others hpending hround' h' hless =>
    obtain ⟨rfl,rfl⟩ := Prod.mk.inj (Option.some.inj (hround.symm.trans hround'))
    obtain ⟨hkept,hout⟩ := filter_outside (@noteToken_outside random held)
    refine ⟨runs,others,held ::ₘ noted,⟨?_,h.run,h.calls,h.exited,?_,?_⟩,hless⟩
    · rw [hkept,Multiset.coe_nil,zero_add]
      exact h'
    · rw [← h.asked,hpending,Multiset.cons_add,Multiset.add_cons]
    · rw [hout,Multiset.coe_singleton,add_assoc,h.tokens,Multiset.map_cons,
        ← Multiset.singleton_add]
      ac_rfl
  | releases run others hruns hround' h' hless =>
    obtain ⟨rfl,rfl⟩ := Prod.mk.inj (Option.some.inj (hround.symm.trans hround'))
    have hown : toTrapCode run.held.token=false := by
      apply houtstanding.own
      rw [hruns]
      exact Multiset.mem_cons_self _ _
    obtain ⟨hkept,hout⟩ := filter_outside hown
    refine ⟨others,pending,noted,⟨?_,h.run,h.calls,h.exited,h.asked,?_⟩,hless⟩
    · rw [hkept,Multiset.coe_nil,zero_add]
      exact h'
    · have htokens := h.tokens
      rw [hruns,Multiset.map_cons,← Multiset.singleton_add] at htokens
      change ↑([run.held.token].filter fun t => !toTrapCode t)+s.emitted+
        others.map (fun run => run.held.token)=_
      rw [← htokens,hout,Multiset.coe_singleton]
      ac_rfl

end Steps

/-- The states that a run of the unit in trap mode comes to. -/
abbrev TrapSystem.Reached (random : RandomStream) (overrun : TableOverrun) (os : List Instruction)
    (s : TrapSystem) : Prop :=
  Transition.Reachable (fun s => s=TrapSystem.start) (TrapSystem.Step random overrun os) s

theorem TrapSystem.Reached.transparent {random : RandomStream} {overrun : TableOverrun}
    {os : List Instruction} {s : TrapSystem} (hr : TrapSystem.Reached random overrun os s) :
    ∃ runs pending noted plain tokens,Transparent random s runs pending noted plain tokens := by
  apply hr.invariant
  · rintro s rfl
    exact ⟨0,0,0,.empty,[],.empty,rfl,rfl,rfl,rfl,rfl⟩
  · intro s t ⟨runs,pending,noted,plain,tokens,h⟩ hs
    cases hs with
    | program env next after sent hinnocent hround =>
      obtain ⟨runs',pending',plain',tokens',h'⟩ := h.program hinnocent hround
      exact ⟨runs',pending',noted,plain',tokens',h'⟩
    | code consumed rest env packet after sent hflight hfiring hround =>
      obtain ⟨runs',pending',noted',h',-⟩ := h.code hflight hfiring hround
      exact ⟨runs',pending',noted',plain,tokens,h'⟩

end Manchester
