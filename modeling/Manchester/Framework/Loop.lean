import Mathlib.Order.Basic
import Mathlib.Tactic.Common

namespace Framework

variable {σ ρ : Type*}

/-- What is left when a statement has been executed: a state to go on from, or a result. -/
inductive Outcome (σ ρ : Type*) where
  | next (s : σ)
  | returned (r : ρ)

/-- A second statement after a first one, unless there is a result already. -/
def Outcome.andThen : Option (Outcome σ ρ) → (σ → Option (Outcome σ ρ)) → Option (Outcome σ ρ)
  | none,_ => none
  | some (.returned r),_ => some (.returned r)
  | some (.next s),f => f s

section AndThen

variable (f : σ → Option (Outcome σ ρ))

@[simp] theorem Outcome.none_andThen : Outcome.andThen none f=none := rfl

@[simp] theorem Outcome.returned_andThen (r : ρ) :
    Outcome.andThen (some (.returned r)) f=some (.returned r) := rfl

@[simp] theorem Outcome.next_andThen (s : σ) : Outcome.andThen (some (.next s)) f=f s := rfl

end AndThen

/-- A loop with a test before each round. None where a test or a round fails, or more than `n`
tests are made. -/
def iterate (test : σ → Option (Bool × σ)) (body : σ → Option (Outcome σ ρ)) :
    Nat → σ → Option (Outcome σ ρ)
  | 0,_ => none
  | n+1,s =>
    match test s with
    | none => none
    | some (false,t) => some (.next t)
    | some (true,t) => Outcome.andThen (body t) (iterate test body n)

namespace iterate

variable {test : σ → Option (Bool × σ)} {body : σ → Option (Outcome σ ρ)}

theorem of_false {n : Nat} {s t : σ} (h : test s=some (false,t)) :
    iterate test body (n+1) s=some (.next t) := by
  rw [iterate,h]

theorem of_true {n : Nat} {s t u : σ} (h : test s=some (true,t)) (hbody : body t=some (.next u)) :
    iterate test body (n+1) s=iterate test body n u := by
  rw [iterate,h]
  simp only [hbody,Outcome.next_andThen]

/-- Tests and rounds with more answers give the same result, and so do more tests. -/
theorem extends_result {test' : σ → Option (Bool × σ)} {body' : σ → Option (Outcome σ ρ)}
    (htest : ∀ s r,test s=some r → test' s=some r)
    (hbody : ∀ s o,body s=some o → body' s=some o) {n m : Nat} (hm : n ≤ m) {s : σ}
    {r : Outcome σ ρ} (h : iterate test body n s=some r) : iterate test' body' m s=some r := by
  induction n generalizing s m with
  | zero => cases h
  | succ n ih =>
    obtain ⟨m,rfl⟩ : ∃ k,m=k+1 := ⟨m-1,by omega⟩
    cases ht : test s with
    | none => simp [iterate,ht] at h
    | some bt =>
      obtain ⟨b,t⟩ := bt
      have ht' := htest s _ ht
      simp only [iterate,ht] at h
      simp only [iterate,ht']
      cases b with
      | false => exact h
      | true =>
        simp only at h ⊢
        cases hout : body t with
        | none => simp [hout] at h
        | some o =>
          rw [hbody t o hout]
          rw [hout] at h
          cases o with
          | returned r => exact h
          | next u => exact ih (Nat.le_of_succ_le_succ hm) h

/-- A loop that is never left has no outcome, whether a round fails or they go on for ever. -/
theorem stuck {inv : σ → Prop} (htest : ∀ s,inv s → test s=some (true,s))
    (hround : ∀ s,inv s → body s=none ∨ ∃ t,body s=some (.next t) ∧ inv t) :
    ∀ n s,inv s → iterate test body n s=none := by
  intro n
  induction n with
  | zero => exact fun _ _ => rfl
  | succ n ih =>
    intro s hinv
    rcases hround s hinv with hnone | ⟨t,hbody,ht⟩
    · rw [iterate,htest s hinv]
      simp only [hnone,Outcome.none_andThen]
    · rw [of_true (htest s hinv) hbody]
      exact ih t ht

/-- One test and, where it succeeds, one round, with the result of the loop to reach: the loop is
left in a state that satisfies `post`, or goes on with a smaller measure. -/
def Round (test : σ → Option (Bool × σ)) (body : σ → Option (Outcome σ ρ))
    (inv : Nat → σ → Prop) (post : σ → Prop) (k : Nat) (s : σ) : Prop :=
  (∃ t,test s=some (false,t) ∧ post t) ∨
    ∃ t u j,test s=some (true,t) ∧ body t=some (.next u) ∧ j < k ∧ inv j u

/-- Where each round keeps the invariant and lowers the measure, the loop ends after at most as
many rounds as the measure says. -/
theorem terminates {inv : Nat → σ → Prop} {post : σ → Prop}
    (hround : ∀ k s,inv k s → Round test body inv post k s) :
    ∀ k s n,inv k s → k < n → ∃ t,iterate test body n s=some (.next t) ∧ post t := by
  intro k
  induction k using Nat.strongRecOn with
  | ind k ih =>
    intro s n hinv hlt
    obtain ⟨n,rfl⟩ : ∃ m,n=m+1 := ⟨n-1,by omega⟩
    rcases hround k s hinv with ⟨t,htest,hpost⟩ | ⟨t,u,j,htest,hbody,hj,hinv'⟩
    · exact ⟨t,of_false htest,hpost⟩
    · have hrest := ih j hj u n hinv' (by omega)
      rwa [of_true htest hbody]

end iterate

end Framework
