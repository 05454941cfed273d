import Manchester.Pipeline.Transparent

namespace Manchester

section Progress

variable (random : RandomStream) (overrun : TableOverrun) (os : List Instruction)

/-- Among the tokens of a run there are always some that fit an instruction. -/
theorem TrapRun.exists_firing (run : TrapRun) :
    ∃ consumed packet,consumed ≤ run.tokens random ∧
      Firing overrun (trapCode++os) (consumed.map Operand.token) packet := by
  obtain ⟨held,source,stage,returning⟩ := run
  cases stage with
  | asked =>
    have hfiring := @Firing.single overrun (trapCode++os) 0 trapSource
      ⟨createDestination 0 inputOne matchingOne,source,held.tag random⟩ rfl (Or.inr rfl)
      source_address
    exact ⟨{_},_,Multiset.le_add_right _ _,hfiring⟩
  | doubled =>
    have hfiring := @Firing.both overrun (trapCode++os) 3 trapXor
      ⟨trapSource.destination1,source,held.tag random⟩
      ⟨trapSource.destination2,source,held.tag random⟩ rfl rfl rfl first_address second_address
      first_input second_input rfl
    exact ⟨_ ::ₘ {_},_,Multiset.le_add_right _ _,hfiring⟩
  | cancelled =>
    have hfiring := @Firing.single overrun (trapCode++os) 4 trapAdd
      ⟨trapXor.destination1,0,held.tag random⟩ rfl (Or.inl rfl) zero_address
    exact ⟨{_},_,Multiset.le_add_right _ _,hfiring⟩
  | approved =>
    cases returning with
    | false =>
      have hfiring := @Firing.single overrun (trapCode++os) 2 trapReturnLoc
        ⟨createDestination 2 inputOne matchingOne,(held.location random).setWidth 64,
          held.tag random⟩ rfl (Or.inr rfl) location_address
      exact ⟨{_},_,Multiset.le_add_left _ _,hfiring⟩
    | true =>
      have hfiring := @Firing.both overrun (trapCode++os) 5 trapReturn
        ⟨trapAdd.destination1,1,held.tag random⟩
        ⟨trapReturnLoc.destination1,(held.location random).setWidth 64,held.tag random⟩ rfl rfl rfl
        one_address returning_address one_input returning_input rfl
      exact ⟨_ ::ₘ {_},_,le_refl _,hfiring⟩

/-- As long as tokens for the trap code are in flight, one of its instructions can fire. -/
theorem Outstanding.exists_firing {waiting : TrapWaiting} {flight : Multiset TokenType}
    {runs : Multiset TrapRun} {pending : Multiset Held}
    (h : Outstanding random waiting flight runs pending)
    (hmore : flight ≠ 0) : ∃ consumed rest packet,flight=consumed+rest ∧
      Firing overrun (trapCode++os) (consumed.map Operand.token) packet := by
  have hfound : ∃ consumed packet,consumed ≤ flight ∧
      Firing overrun (trapCode++os) (consumed.map Operand.token) packet := by
    by_cases hruns : runs=0
    · have hpending : pending ≠ 0 := by
        rintro rfl
        apply hmore
        rw [h.flight,hruns,Multiset.zero_bind,Multiset.map_zero,add_zero]
      obtain ⟨held,hheld⟩ := Multiset.exists_mem_of_ne_zero hpending
      have hfiring := @Firing.single overrun (trapCode++os) 1 trapUnused
        (TrapRun.destToken random held) rfl (Or.inr rfl) dest_address
      refine ⟨{TrapRun.destToken random held},_,?_,hfiring⟩
      rw [h.flight,Multiset.singleton_le]
      exact Multiset.mem_add.mpr (Or.inr (Multiset.mem_map_of_mem _ hheld))
    · obtain ⟨run,hrun⟩ := Multiset.exists_mem_of_ne_zero hruns
      obtain ⟨others,rfl⟩ := Multiset.exists_cons_of_mem hrun
      obtain ⟨consumed,packet,hle,hfiring⟩ := run.exists_firing random overrun os
      refine ⟨consumed,packet,?_,hfiring⟩
      rw [h.flight,Multiset.cons_bind,add_assoc]
      exact hle.trans (Multiset.le_add_right _ _)
  obtain ⟨consumed,packet,hle,hfiring⟩ := hfound
  obtain ⟨rest,hflight⟩ := Multiset.le_iff_exists_add.mp hle
  exact ⟨consumed,rest,packet,hflight,hfiring⟩

end Progress

section Settle

variable {random : RandomStream} (overrun : TableOverrun) (os : List Instruction)

/-- The trap code alone can bring its tokens to an end: then all tokens that the plain unit has sent
have been emitted, and a note about each of them. The induction is on the instructions that are
left. -/
theorem Transparent.settles {s : TrapSystem} {runs : Multiset TrapRun}
    {pending noted : Multiset Held} {plain : ProcessingState} {tokens : List TokenType}
    (h : Transparent random s runs pending noted plain tokens) (env : FunctionEnv)
    (hexited : s.unit.exited=false) :
    ∃ t asked,Relation.ReflTransGen (TrapSystem.Step random overrun os) s t ∧ t.flight=0 ∧
      t.packets=s.packets ∧ Multiset.map Held.token asked=↑tokens ∧
      t.emitted=↑tokens+asked.map (TrapRun.noteToken random) := by
  induction hn : remaining runs pending using Nat.strongRecOn generalizing
      s runs pending noted with
  | ind n ih =>
    subst hn
    by_cases hmore : s.flight=0
    · have hruns : runs=0 := by
        apply Multiset.eq_zero_of_forall_notMem
        intro run hrun
        obtain ⟨t,ht,-⟩ := run.exists_token random
        have hmem : t∈s.flight := by
          rw [h.outstanding.flight]
          exact Multiset.mem_add.mpr (Or.inl (Multiset.mem_bind.mpr ⟨run,hrun,ht⟩))
        rw [hmore] at hmem
        exact Multiset.notMem_zero t hmem
      have hpending : pending=0 := by
        have hflight := h.outstanding.flight
        rw [hmore,hruns,Multiset.zero_bind,zero_add] at hflight
        exact Multiset.map_eq_zero.mp hflight.symm
      have hasked := h.asked
      have htokens := h.tokens
      rw [hpending,add_zero] at hasked
      rw [hruns,Multiset.map_zero,add_zero] at htokens
      exact ⟨s,noted,.refl,hmore,rfl,hasked,htokens⟩
    · obtain ⟨consumed,rest,packet,hflight,hfiring⟩ :=
        h.outstanding.exists_firing random overrun os hmore
      have houtstanding := h.outstanding
      rw [hflight] at houtstanding
      obtain ⟨after,sent,hround,hstill⟩ :=
        (@Outstanding.fire random env _ _ _ _ overrun os _ _ houtstanding hexited hfiring).round
      obtain ⟨runs',pending',noted',h',hless⟩ := h.code hflight hfiring hround
      obtain ⟨t,asked,ht,hend⟩ := ih _ hless h' (hstill.trans hexited) rfl
      have hstep :=
        TrapSystem.Step.code s consumed rest env packet after sent hflight hfiring hround
      exact ⟨t,asked,.head hstep ht,hend⟩

end Settle

/-- In every run of the unit in trap mode, the trap code has been asked once about each token that
the plain unit sends for the packets of the program. These tokens are those that have been emitted
and those that wait with the tokens of their runs in flight, and nothing else has been emitted but
what `dest` makes of the questions. As long as the unit has not exited, the trap code alone can
bring out the rest. -/
theorem trap_transparent (random : RandomStream) (overrun : TableOverrun) (os : List Instruction)
    (s : TrapSystem) (hr : TrapSystem.Reached random overrun os s) :
    ∃ plain tokens,∃ runs : Multiset TrapRun,∃ pending noted : Multiset Held,
      plainRun (numbers s.drawn) .empty s.packets=some (plain,tokens) ∧
      (noted+pending).map Held.token=↑tokens ∧
      s.emitted+runs.map (fun run => run.held.token)=
        ↑tokens+noted.map (TrapRun.noteToken random) ∧
      s.flight=runs.bind (TrapRun.tokens random)+pending.map (TrapRun.destToken random) ∧
      (∀run∈runs,s.unit.trapWaiting (run.held.location random)=some run.held.token) ∧
      (s.unit.exited=false → ∃ t asked,
        Relation.ReflTransGen (TrapSystem.Step random overrun os) s t ∧ t.flight=0 ∧
          t.packets=s.packets ∧ Multiset.map Held.token asked=↑tokens ∧
          t.emitted=↑tokens+asked.map (TrapRun.noteToken random)) := by
  obtain ⟨runs,pending,noted,plain,tokens,h⟩ := hr.transparent
  refine ⟨plain,tokens,runs,pending,noted,h.run,h.asked,h.tokens,h.outstanding.flight,
    h.outstanding.waits,?_⟩
  exact h.settles overrun os ⟨⟨⟨0,0,0⟩,⟨0,0,0⟩,0⟩,0,0⟩

/-- After a DUP of 7 at address 200, its token waits. -/
private def dupWaits : TrapSystem :=
  let round := dupRound 200
  ⟨round.after,↑(round.sent.filter toTrapCode)+0,↑(round.sent.filter fun t => !toTrapCode t)+0,
    [(round.env,round.next)],[]⟩

private theorem dupWaits_reached : TrapSystem.Reached (fun _ => 5) (fun _ => 0) [] dupWaits := by
  have first : TrapSystem.Reached (fun _ => 5) (fun _ => 0) [] TrapSystem.start := .start rfl
  apply first.next
  refine TrapSystem.Step.program TrapSystem.start (dupRound 200).env (dupRound 200).next
    (dupRound 200).after (dupRound 200).sent ?_ rfl
  refine ⟨by decide,fun _ => rfl,fun _ _ => rfl,?_,List.pairwise_singleton _ _,?_⟩
  · intro held _ t ht
    cases ht
  · intro held hheld
    rw [List.mem_singleton.mp hheld]
    rfl

/-- The trap code alone comes to the end with the token and the note. -/
theorem trap_transparent_dup :
    dupWaits.unit.trapWaiting 5=some ⟨outputdDestination,7,0⟩ ∧ dupWaits.emitted=0 ∧
      ∃ t asked,Relation.ReflTransGen
          (TrapSystem.Step (fun _ => 5) (fun _ => 0) []) dupWaits t ∧ t.flight=0 ∧
        Multiset.map Held.token asked={⟨outputdDestination,7,0⟩} ∧
        t.emitted={⟨outputdDestination,7,0⟩}+asked.map (TrapRun.noteToken fun _ => 5) := by
  obtain ⟨plain,tokens,-,-,-,hrun,-,-,-,-,hsettles⟩ :=
    trap_transparent (fun _ => 5) (fun _ => 0) [] dupWaits dupWaits_reached
  obtain ⟨t,asked,hsteps,hflight,-,hasked,hemitted⟩ := hsettles rfl
  have hplain : plainRun (numbers dupWaits.drawn) .empty dupWaits.packets=
      some (.empty,[⟨outputdDestination,7,0⟩]) := rfl
  obtain ⟨-,rfl⟩ := Prod.mk.inj (Option.some.inj (hrun.symm.trans hplain))
  exact ⟨rfl,rfl,t,asked,hsteps,hflight,hasked,hemitted⟩

end Manchester
