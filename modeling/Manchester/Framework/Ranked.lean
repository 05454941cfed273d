import Manchester.Framework.Transition
import Mathlib.Order.WellFounded

namespace Transition

variable {σ τ : Type*}

theorem acc_of_ends {step : σ → σ → Prop} {s : σ}
    (hends : ∀ run : Nat → σ,run 0=s → ¬∀ n,step (run n) (run (n+1))) : Acc (flip step) s := by
  by_contra hnot
  obtain ⟨f,hf,hsteps⟩ := not_acc_iff_exists_descending_chain.mp hnot
  exact hends f hf hsteps

/-- Where no run goes on for ever, every state that is reached leads to one without a step. -/
theorem Reachable.exists_end {step : σ → σ → Prop} {start t : σ}
    (hends : ∀ run : Nat → σ,run 0=start → ¬∀ n,step (run n) (run (n+1)))
    (hr : Reachable (· = start) step t) :
    ∃ u,Relation.ReflTransGen step t u ∧ ¬∃ v,step u v := by
  have hacc : Acc (flip step) t := by
    induction hr with
    | start h =>
      obtain rfl := h
      exact acc_of_ends hends
    | next _ hs ih => exact ih.inv hs
  clear hr
  induction hacc with
  | intro t _ ih =>
    by_cases hfinal : ∃ v,step t v
    · obtain ⟨v,hv⟩ := hfinal
      obtain ⟨u,hu,hlast⟩ := ih v hv
      exact ⟨u,.head hv hu,hlast⟩
    · exact ⟨t,.refl,hfinal⟩

/-- Each step is matched by an abstract step, or by none where the rank gets less: only so many
steps in a row are invisible. -/
def RankedSimulation (step : σ → σ → Prop) (step' : τ → τ → Prop) (R : σ → τ → Nat → Prop) : Prop :=
  ∀ s t a n,R s a n → step s t → (∃ m,m < n ∧ R t a m) ∨ ∃ b m,step' a b ∧ R t b m

namespace RankedSimulation

variable {step : σ → σ → Prop} {step' : τ → τ → Prop} {R : σ → τ → Nat → Prop}

theorem reachable (h : RankedSimulation step step' R) {init : σ → Prop} {init' : τ → Prop}
    (hstart : ∀ s,init s → ∃ a n,init' a ∧ R s a n) {s : σ} (hs : Reachable init step s) :
    ∃ a n,Reachable init' step' a ∧ R s a n := by
  have hinit : ∀ s,init s → ∃ a,init' a ∧ ∃ n,R s a n := by
    intro s hs
    obtain ⟨a,n,ha,hR⟩ := hstart s hs
    exact ⟨a,ha,n,hR⟩
  have hmatch : ∀ s t a,(∃ n,R s a n) → step s t →
      ∃ b,Relation.ReflTransGen step' a b ∧ ∃ n,R t b n := by
    intro s t a hR hst
    obtain ⟨n,hR⟩ := hR
    obtain ⟨m,-,hR'⟩ | ⟨b,m,hab,hR'⟩ := h s t a n hR hst
    · exact ⟨a,.refl,m,hR'⟩
    · exact ⟨b,.single hab,m,hR'⟩
  obtain ⟨a,ha,n,hR⟩ := hs.simulation hinit fun s t a hR _ hst => hmatch s t a hR hst
  exact ⟨a,n,ha,hR⟩

/-- Where the abstract runs end, the concrete ones do. -/
theorem acc (h : RankedSimulation step step' R) {a : τ} (ha : Acc (flip step') a) :
    ∀ {s : σ} {n : Nat},R s a n → Acc (flip step) s := by
  induction ha with
  | intro a _ iha =>
    intro s n
    -- between two abstract steps the rank carries the induction
    induction n using Nat.strongRecOn generalizing s with
    | ind n ihn =>
      intro hR
      refine Acc.intro s fun t hst => ?_
      obtain ⟨m,hm,hR'⟩ | ⟨b,m,hab,hR'⟩ := h s t a n hR hst
      · exact ihn m hm hR'
      · exact iha b hab hR'

theorem run_ends (h : RankedSimulation step step' R) {s : σ} {a : τ} {n : Nat} (hR : R s a n)
    (hends : ∀ run : Nat → τ,run 0=a → ¬∀ n,step' (run n) (run (n+1))) (run : Nat → σ)
    (hzero : run 0=s) : ¬∀ n,step (run n) (run (n+1)) := by
  intro hrun
  have hs := h.acc (acc_of_ends hends) hR
  exact not_acc_iff_exists_descending_chain.mpr ⟨run,hzero,hrun⟩ hs

end RankedSimulation

end Transition
