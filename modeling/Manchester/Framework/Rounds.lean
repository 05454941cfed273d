import Mathlib.Data.List.Basic

namespace Transition

variable {σ ρ : Type*}

/-- A run from a state as the list of its rounds, oldest first: each is a legal round, and starts
in the state in which the one before it ends. -/
inductive Rounds (before after : ρ → σ) (legal : ρ → Prop) : σ → List ρ → Prop where
  | nil (s : σ) : Rounds before after legal s []
  | cons (r : ρ) (rs : List ρ) (hlegal : legal r) (hrest : Rounds before after legal (after r) rs) :
      Rounds before after legal (before r) (r::rs)

variable {before after : ρ → σ} {legal : ρ → Prop} {s : σ} {rs : List ρ}

/-- What holds at the start and is kept by the rounds of the run holds before each of them. -/
theorem Rounds.invariant {inv : σ → Prop} (h : Rounds before after legal s rs) (h0 : inv s)
    (hstep : ∀r∈rs,legal r → inv (before r) → inv (after r)) :
    ∀r∈rs,legal r ∧ inv (before r) := by
  induction h with
  | nil => simp
  | cons r rs hlegal _ ih =>
    intro r' hr'
    obtain rfl | hlater := List.mem_cons.mp hr'
    · exact ⟨hlegal,h0⟩
    · exact ih (hstep r (by simp) hlegal h0) (fun q hq => hstep q (by simp [hq])) r' hlater

theorem Rounds.all_legal (h : Rounds before after legal s rs) : ∀r∈rs,legal r := by
  intro r hr
  have hall := @Rounds.invariant σ ρ before after legal s rs (fun _ => True) h trivial
    fun _ _ _ _ => trivial
  exact (hall r hr).1

end Transition
