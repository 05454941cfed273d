import Mathlib.Algebra.BigOperators.Fin
import Manchester.Queue.Ring

namespace Manchester

/-- The steps that a call has before it returns. -/
def Call.stepsLeft {n : Nat} : Call n → Nat
  | .idle => 0
  | .addWait _ | .removeWait => 3
  | .addEnter _ | .removeEnter => 2
  | .addPost | .removePost _ => 1

theorem Call.stepsLeft_le {n : Nat} (c : Call n) : c.stepsLeft ≤ 3 := by
  cases c <;> simp [stepsLeft]

/-- The elements that a call has still to copy in. -/
def Call.addsLeft {n : Nat} : Call n → Nat
  | .addWait _ | .addEnter _ => 1
  | _ => 0

/-- The elements that a call has still to copy out. -/
def Call.removesLeft {n : Nat} : Call n → Nat
  | .removeWait | .removeEnter => 1
  | _ => 0

section Progress

variable {Pid : Type*} [Fintype Pid] [DecidableEq Pid] {maxCount elementSize : Nat}
  {s t : QueueState Pid elementSize}

/-- A step in which no process starts a call. -/
def Finishes (maxCount elementSize : Nat) (s t : QueueState Pid elementSize) : Prop :=
  QueueStep maxCount elementSize s t ∧ ∀ p,s.call p=.idle → t.call p=.idle

/-- A step that starts no call brings one call a step nearer to its end. -/
theorem Finishes.lowers (h : Finishes maxCount elementSize s t) :
    tally Call.stepsLeft t.call+1=tally Call.stepsLeft s.call := by
  obtain ⟨hs,hidle⟩ := h
  have moves : ∀ p c,t.call=Function.update s.call p c → c.stepsLeft+1=(s.call p).stepsLeft →
      tally Call.stepsLeft t.call+1=tally Call.stepsLeft s.call := by
    intro p c hcall hsteps
    have htally := tally_update Call.stepsLeft s.call p c
    rw [hcall]
    omega
  cases hs with
  | callAdd p element hp =>
    have hstays := hidle p hp
    simp [QueueState.setCall] at hstays
  | callRemove p hp =>
    have hstays := hidle p hp
    simp [QueueState.setCall] at hstays
  | waitWrite p element hp _ => exact moves p _ rfl (by rw [hp]; rfl)
  | copyIn p element hp => exact moves p _ rfl (by rw [hp]; rfl)
  | postRead p hp => exact moves p _ rfl (by rw [hp]; rfl)
  | waitRead p hp _ => exact moves p _ rfl (by rw [hp]; rfl)
  | copyOut p hp => exact moves p _ rfl (by rw [hp]; rfl)
  | postWrite p element hp => exact moves p _ rfl (by rw [hp]; rfl)

/-- An element is added, or removed, when a call has one less to copy. -/
theorem Finishes.copies (h : Finishes maxCount elementSize s t) :
    t.added.length+tally Call.addsLeft t.call=s.added.length+tally Call.addsLeft s.call ∧
      t.removed.length+tally Call.removesLeft t.call=
        s.removed.length+tally Call.removesLeft s.call := by
  obtain ⟨hs,hidle⟩ := h
  have moves : ∀ p c,t.call=Function.update s.call p c →
      t.added.length+c.addsLeft=s.added.length+(s.call p).addsLeft →
      t.removed.length+c.removesLeft=s.removed.length+(s.call p).removesLeft →
      t.added.length+tally Call.addsLeft t.call=s.added.length+tally Call.addsLeft s.call ∧
        t.removed.length+tally Call.removesLeft t.call=
          s.removed.length+tally Call.removesLeft s.call := by
    intro p c hcall hadds hremoves
    have hleft := tally_update Call.addsLeft s.call p c
    have hright := tally_update Call.removesLeft s.call p c
    rw [hcall]
    omega
  cases hs with
  | callAdd p element hp =>
    have hstays := hidle p hp
    simp [QueueState.setCall] at hstays
  | callRemove p hp =>
    have hstays := hidle p hp
    simp [QueueState.setCall] at hstays
  | waitWrite p element hp _ => exact moves p _ rfl (by rw [hp]; rfl) (by rw [hp]; rfl)
  | copyIn p element hp =>
    exact moves p _ rfl (by rw [hp]; exact List.length_append) (by rw [hp]; rfl)
  | postRead p hp => exact moves p _ rfl (by rw [hp]; rfl) (by rw [hp]; rfl)
  | waitRead p hp _ => exact moves p _ rfl (by rw [hp]; rfl) (by rw [hp]; rfl)
  | copyOut p hp =>
    exact moves p _ rfl (by rw [hp]; rfl) (by rw [hp]; exact List.length_append)
  | postWrite p element hp => exact moves p _ rfl (by rw [hp]; rfl) (by rw [hp]; rfl)

theorem Finishes.run_le (run : Nat → QueueState Pid elementSize) (n : Nat)
    (hrun : ∀ i < n,Finishes maxCount elementSize (run i) (run (i+1))) :
    n ≤ tally Call.stepsLeft (run 0).call := by
  have hsum : ∀ m ≤ n,tally Call.stepsLeft (run m).call+m=tally Call.stepsLeft (run 0).call := by
    intro m hm
    induction m with
    | zero => rfl
    | succ m ih =>
      have hlow := (hrun m hm).lowers
      have hprev := ih (Nat.le_of_succ_le hm)
      omega
  have hall := hsum n le_rfl
  omega

omit [Fintype Pid] in
/-- A process whose call is under way has a step of its own, or waits at a semaphore that is 0. -/
theorem waits_of_final (hfinal : ∀ u,¬Finishes maxCount elementSize t u) (p : Pid) :
    t.call p=.idle ∨ ((∃ element,t.call p=.addWait element) ∧ t.canWriteLock=0) ∨
      (t.call p=.removeWait ∧ t.canReadLock=0) := by
  have stays : ∀ (u : QueueState Pid elementSize) (c : Call elementSize),
      u.call=Function.update t.call p c → t.call p ≠ .idle →
        ∀ q,t.call q=.idle → u.call q=.idle := by
    intro u c hu hp q hq
    have hne : q ≠ p := fun heq => hp (heq ▸ hq)
    rw [hu,Function.update_of_ne hne,hq]
  cases hp : t.call p with
  | idle => exact Or.inl rfl
  | addWait element =>
    right
    left
    refine ⟨⟨element,rfl⟩,?_⟩
    by_contra hne
    exact hfinal _ ⟨.waitWrite t p element hp (Nat.pos_of_ne_zero hne),
      stays _ _ rfl (by simp [hp])⟩
  | removeWait =>
    right
    right
    refine ⟨rfl,?_⟩
    by_contra hne
    exact hfinal _ ⟨.waitRead t p hp (Nat.pos_of_ne_zero hne),stays _ _ rfl (by simp [hp])⟩
  | addEnter element =>
    exact absurd ⟨.copyIn t p element hp,stays _ _ rfl (by simp [hp])⟩ (hfinal _)
  | addPost => exact absurd ⟨.postRead t p hp,stays _ _ rfl (by simp [hp])⟩ (hfinal _)
  | removeEnter => exact absurd ⟨.copyOut t p hp,stays _ _ rfl (by simp [hp])⟩ (hfinal _)
  | removePost element =>
    exact absurd ⟨.postWrite t p element hp,stays _ _ rfl (by simp [hp])⟩ (hfinal _)

/-- A state in which every process rests or waits at a semaphore holds no permit outside them. -/
theorem tally_of_final (hfinal : ∀ u,¬Finishes maxCount elementSize t u) :
    tally Call.holdsWrite t.call=0 ∧ tally Call.holdsRead t.call=0 := by
  have hnone : ∀ p,(t.call p).holdsWrite=0 ∧ (t.call p).holdsRead=0 := by
    intro p
    obtain hp | ⟨⟨element,hp⟩,-⟩ | ⟨hp,-⟩ := waits_of_final hfinal p <;>
      exact ⟨by rw [hp]; rfl,by rw [hp]; rfl⟩
  exact ⟨Finset.sum_eq_zero fun p _ => (hnone p).1,Finset.sum_eq_zero fun p _ => (hnone p).2⟩

/-- No wake-up is lost. From every state that the processes reach, the calls under way make at most
three steps for each process before nothing is left but to start new ones. Then the semaphores count
exactly the free and the unread slots, each call that has ended has copied its element, and a call
is still waiting only where it has to: a `queue_add` at a full ring, a `queue_remove` at an empty
one. -/
theorem queue_calls_end (hm : 0 < maxCount) (he : 0 < elementSize)
    (hr : QueueReachable maxCount elementSize s) :
    (∀ (run : Nat → QueueState Pid elementSize) (n : Nat),run 0=s →
      (∀ i < n,Finishes maxCount elementSize (run i) (run (i+1))) → n ≤ 3*Fintype.card Pid) ∧
    ∀ t,Relation.ReflTransGen (Finishes maxCount elementSize) s t →
      (∀ u,¬Finishes maxCount elementSize t u) →
        t.canReadLock=t.added.length-t.removed.length ∧
        t.canWriteLock=maxCount-(t.added.length-t.removed.length) ∧
        t.added.length+tally Call.addsLeft t.call=s.added.length+tally Call.addsLeft s.call ∧
        t.removed.length+tally Call.removesLeft t.call=
          s.removed.length+tally Call.removesLeft s.call ∧
        ∀ p,t.call p=.idle ∨
          ((∃ element,t.call p=.addWait element) ∧ t.added.length=t.removed.length+maxCount) ∨
          (t.call p=.removeWait ∧ t.added.length=t.removed.length) := by
  constructor
  · intro run n hzero hrun
    have hcount : tally Call.stepsLeft (run 0).call ≤ ∑ _p : Pid,3 :=
      Finset.sum_le_sum fun p _ => ((run 0).call p).stepsLeft_le
    have hsteps := Finishes.run_le run n hrun
    rw [Finset.sum_const,Finset.card_univ,Nat.nsmul_eq_mul,hzero] at hcount
    rw [hzero] at hsteps
    omega
  · intro t ht hfinal
    have hreach : QueueReachable maxCount elementSize t ∧
        t.added.length+tally Call.addsLeft t.call=s.added.length+tally Call.addsLeft s.call ∧
        t.removed.length+tally Call.removesLeft t.call=
          s.removed.length+tally Call.removesLeft s.call := by
      clear hfinal
      induction ht with
      | refl => exact ⟨hr,rfl,rfl⟩
      | tail _ hstep ih =>
        obtain ⟨hadds,hremoves⟩ := hstep.copies
        exact ⟨ih.1.next hstep.1,hadds.trans ih.2.1,hremoves.trans ih.2.2⟩
    have hinv := QueueReachable.inv hm he hreach.1
    have hwrites := hinv.writes
    have hreads := hinv.reads
    obtain ⟨hwrite,hread⟩ := tally_of_final hfinal
    refine ⟨by omega,by omega,hreach.2.1,hreach.2.2,fun p => ?_⟩
    obtain hp | ⟨hp,hlock⟩ | ⟨hp,hlock⟩ := waits_of_final hfinal p
    · exact Or.inl hp
    · exact Or.inr (Or.inl ⟨hp,by omega⟩)
    · exact Or.inr (Or.inr ⟨hp,by omega⟩)

/-- A process that waits for an element has it when another one has added it. -/
theorem queue_calls_end_handed_over : ∃ s : QueueState (Fin 2) 1,
    s.call 0=.removeWait ∧ (∃ element,s.call 1=.addWait element) ∧
    ∀ t,Relation.ReflTransGen (Finishes 1 1) s t → (∀ u,¬Finishes 1 1 t u) →
      t.call 0=.idle ∧ t.removed.length=1 := by
  have start : QueueReachable 1 1 (queueNew 1 1 : QueueState (Fin 2) 1) := .start rfl
  have waiting := start.next (.callRemove _ 0 rfl)
  have adding := waiting.next (.callAdd _ 1 ⟨[7],rfl⟩ rfl)
  refine ⟨((queueNew 1 1 : QueueState (Fin 2) 1).setCall 0 .removeWait).setCall 1
    (.addWait ⟨[7],rfl⟩),rfl,⟨_,rfl⟩,fun t ht hfinal => ?_⟩
  obtain ⟨-,-,hadds,hremoves,hcalls⟩ :=
    (queue_calls_end (by decide) (by decide) adding).2 t ht hfinal
  simp only [tally,Fin.sum_univ_two] at hadds hremoves
  change _=1 at hadds
  change _=1 at hremoves
  -- the counts leave one way in which both calls can have come to an end
  obtain h0 | ⟨⟨element,h0⟩,hfull⟩ | ⟨h0,hempty⟩ := hcalls 0 <;>
    obtain h1 | ⟨⟨element',h1⟩,hfull'⟩ | ⟨h1,hempty'⟩ := hcalls 1 <;>
    rw [h0,h1] at hadds hremoves <;>
    simp only [Call.addsLeft,Call.removesLeft] at hadds hremoves <;>
    first | omega | exact ⟨h0,by omega⟩

end Progress

end Manchester
