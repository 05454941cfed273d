import Mathlib.Logic.Relation

namespace Transition

variable {σ τ : Type*}

/-- States reached from an initial state by finitely many steps. -/
inductive Reachable (init : σ → Prop) (step : σ → σ → Prop) : σ → Prop where
  | start {s : σ} (h : init s) : Reachable init step s
  | next {s t : σ} (hr : Reachable init step s) (hs : step s t) : Reachable init step t

variable {init : σ → Prop} {step : σ → σ → Prop}

/-- An inductive invariant holds in every reachable state. -/
theorem Reachable.invariant {inv : σ → Prop} {s : σ} (hr : Reachable init step s)
    (h0 : ∀ s,init s → inv s) (hs : ∀ s t,inv s → step s t → inv t) : inv s := by
  induction hr with
  | start h => exact h0 _ h
  | next _ h ih => exact hs _ _ ih h

theorem Reachable.many {s t : σ} (hr : Reachable init step s)
    (h : Relation.ReflTransGen step s t) : Reachable init step t := by
  induction h with
  | refl => exact hr
  | tail _ hb ih => exact .next ih hb

/-- A forward simulation: each step is matched by finitely many abstract steps. -/
theorem Reachable.simulation {init' : τ → Prop} {step' : τ → τ → Prop} {R : σ → τ → Prop}
    {s : σ} (hr : Reachable init step s)
    (h0 : ∀ s,init s → ∃ a,init' a ∧ R s a)
    (hs : ∀ s t a,R s a → Reachable init' step' a → step s t →
      ∃ b,Relation.ReflTransGen step' a b ∧ R t b) :
    ∃ a,Reachable init' step' a ∧ R s a := by
  induction hr with
  | start h =>
    obtain ⟨a,ha,hR⟩ := h0 _ h
    exact ⟨a,.start ha,hR⟩
  | next _ h ih =>
    obtain ⟨a,ha,hR⟩ := ih
    obtain ⟨b,hab,hRb⟩ := hs _ _ a hR ha h
    refine ⟨b,?_,hRb⟩
    clear hR hRb
    induction hab with
    | refl => exact ha
    | tail _ hb ihb => exact .next ihb hb

/-- Where an invariant makes each step lower a measure, some state without a step is reached. -/
theorem Reachable.exists_final {inv : σ → Prop} (measure : σ → Nat)
    (hs : ∀ s t,inv s → step s t → inv t ∧ measure t < measure s) {s : σ}
    (hr : Reachable init step s) (hinv : inv s) :
    ∃ t,Reachable init step t ∧ inv t ∧ ∀ u,¬step t u := by
  induction hn : measure s using Nat.strongRecOn generalizing s with
  | ind n ih =>
    subst hn
    by_cases hfinal : ∃ u,step s u
    · obtain ⟨u,hu⟩ := hfinal
      obtain ⟨hinv',hless⟩ := hs s u hinv hu
      exact ih _ hless (.next hr hu) hinv' rfl
    · exact ⟨s,hr,hinv,fun u hu => hfinal ⟨u,hu⟩⟩

end Transition
