import Manchester.Framework.Deadlock
import Manchester.Framework.Ranked

namespace Framework
namespace Network

variable {ι : Type} [DecidableEq ι] [Fintype ι] {N : Network ι} {cap : Nat} {s t : N.State cap}

/-- A round that puts at most one message brings what is on its way nearer to its end. -/
theorem distance_round (height : ι → Nat) {i : ι} (hne : N.source i ≠ i)
    (hheight : height (N.source i)=height i+1) {x : N.Msg (N.source i)}
    {rest : List (N.Msg (N.source i))} (hidle : s.pending i=[])
    (hitems : (s.channel (N.source i)).queue.items=x::rest) (new : N.Local i)
    {out : List (N.Msg i)} (hshort : out.length ≤ 1) :
    distance height (s.afterTake i x new out) < distance height s := by
  cases out with
  | cons y out =>
    obtain rfl : out=[] := List.eq_nil_of_length_eq_zero (by simpa using hshort)
    exact distance_afterTake height hne hheight hidle hitems new y
  | nil =>
    have hload : ∀ j,j ≠ N.source i → load (s.afterTake i x new []) j=load s j := by
      intro j hsource
      by_cases hj : j=i
      · subst hj
        simp [load,State.held_afterTake_self hne hidle]
      · rw [load,State.held_afterTake_of_ne hj hsource]
        rfl
    have hless : load s (N.source i)=load (s.afterTake i x new []) (N.source i)+1 := by
      simp [load,State.held_afterTake_source hne hitems new []]
    have hpending : ∀ j,(s.afterTake i x new []).pending j=s.pending j := by
      intro j
      by_cases hj : j=i
      · subst hj
        simp [State.afterTake,hidle]
      · simp [State.afterTake,Function.update_of_ne hj]
    apply Finset.sum_lt_sum
    · intro j _
      rw [hpending]
      by_cases hsource : j=N.source i
      · subst hsource
        rw [hless,Nat.mul_add,Nat.mul_add]
        omega
      · rw [hload j hsource]
    · refine ⟨N.source i,Finset.mem_univ _,?_⟩
      rw [hpending,hless,hheight,Nat.mul_add,Nat.mul_add]
      omega

omit [Fintype ι] in
/-- What has been taken after a round had been taken before it or was on its way. -/
theorem Took.taken_or_held {i : ι} {x : N.Msg (N.source i)} {new : N.Local i}
    {out : List (N.Msg i)} (h : Took s t i x new out) {j : ι} {y : N.Msg j}
    (hy : y∈(t.channel j).taken) : y∈(s.channel j).taken ∨ y∈s.held j := by
  by_cases hj : j=N.source i
  · subst hj
    rw [h.taken,List.mem_append,List.mem_singleton] at hy
    obtain hy | rfl := hy
    · exact Or.inl hy
    · right
      rw [h.source]
      exact Multiset.mem_cons_self y _
  · rw [h.takenOthers j hj] at hy
    exact Or.inl hy

/-- Where only the rounds of one process are steps of an abstract machine, and all others put at
most one message each, nothing but finitely many steps lie between two of them. -/
theorem rankedSimulation {τ : Type*} {step' : τ → τ → Prop} {R : N.State cap → τ → Prop}
    (first : ι) (hne : ∀ i,N.source i ≠ i) (height : ι → Nat)
    (hheight : ∀ i,i ≠ first → height (N.source i)=height i+1)
    (hput : ∀ s t a,R s a → Delivered s t → R t a)
    (hround : ∀ s t a i env x new out,i ≠ first → R s a →
      N.react i env (s.locals i) x=some (new,out) → Took s t i x new out →
      out.length ≤ 1 ∧ R t a)
    (hwork : ∀ s t a env x new out,R s a → N.react first env (s.locals first) x=some (new,out) →
      Took s t first x new out → ∃ b,step' a b ∧ R t b) :
    Transition.RankedSimulation (fun s t : N.State cap => Step s t) step'
      fun s a n => R s a ∧ n=distance height s := by
  rintro s t a n ⟨hR,rfl⟩ hstep
  cases hstep with
  | put i y rest hpending hroom =>
    have hR' := hput _ _ a hR (State.delivered_afterPut hpending hroom)
    exact Or.inl ⟨_,distance_afterPut height hpending hroom,hR',rfl⟩
  | take i env x rest new out hidle hitems hreact =>
    have htook := State.took_afterTake (hne i) hidle hitems new out
    by_cases hi : i=first
    · subst hi
      obtain ⟨b,hab,hR'⟩ := hwork _ _ a env x new out hR hreact htook
      exact Or.inr ⟨b,_,hab,hR',rfl⟩
    · obtain ⟨hshort,hR'⟩ := hround _ _ a i env x new out hi hR hreact htook
      exact Or.inl ⟨_,distance_round height (hne i) (hheight i hi) hidle hitems new hshort,hR',rfl⟩

omit [Fintype ι] in
/-- A network whose processes answer each message stops where it is deadlocked or has nothing left
to do. -/
theorem deadlocked_or_idle
    (hanswers : ∀ i,∀x∈s.held (N.source i),∃ env r,N.react i env (s.locals i) x=some r)
    (hfinal : ¬∃ t,Step s t) : Deadlocked s ∨ ∀ i,WaitsForMessage s i := by
  have hblocked : ∀ i,Blocked s i := by
    intro i
    cases hpending : s.pending i with
    | cons y rest =>
      left
      refine ⟨by simp [hpending],?_⟩
      have hbound := (s.channel i).queue.bound
      by_contra hspace
      exact hfinal ⟨_,.put s i y rest hpending (by omega)⟩
    | nil =>
      right
      refine ⟨hpending,?_⟩
      cases hitems : (s.channel (N.source i)).queue.items with
      | nil => rfl
      | cons x rest =>
        obtain ⟨env,⟨new,out⟩,hreact⟩ := hanswers i x (by simp [State.held,hitems])
        exact absurd ⟨_,.take s i env x rest new out hpending hitems hreact⟩ hfinal
  by_cases hroom : ∃ i,WaitsForRoom s i
  · exact Or.inl ⟨hblocked,hroom⟩
  · exact Or.inr fun i => (hblocked i).resolve_left fun h => hroom ⟨i,h⟩

omit [DecidableEq ι] in
/-- In a ring where all wait for a message there is none. -/
theorem held_idle (hidle : ∀ i,WaitsForMessage s i) (i : ι) : s.held i=0 := by
  obtain ⟨j,rfl⟩ := Finite.injective_iff_surjective.mp N.reader i
  rw [State.held,(hidle j).2,(hidle _).1]
  rfl

end Network
end Framework
