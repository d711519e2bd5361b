import Mathlib
/-!
# Transition systems

What every step keeps holds along a run, and a measure that every step lowers
brings every run to a state without steps.
-/

namespace Transition

open Relation

variable {S : Type} {step : S → S → Prop}

theorem inv (I : S → Prop) (hstep : ∀ s s', I s → step s s' → I s') {s s' : S} (h0 : I s)
    (h : ReflTransGen step s s') : I s' := by
  induction h with
  | refl => exact h0
  | tail _ hs ih => exact hstep _ _ ih hs

theorem exists_last (μ : S → Nat) (hμ : ∀ s s', step s s' → μ s' < μ s) (s : S) :
    ∃ s', ReflTransGen step s s' ∧ ∀ t, ¬ step s' t := by
  induction hn : μ s using Nat.strong_induction_on generalizing s with
  | _ n ih =>
    by_cases hstep : ∃ t, step s t
    · obtain ⟨t, ht⟩ := hstep
      obtain ⟨s', hs', hlast⟩ := ih (μ t) (hn ▸ hμ s t ht) t rfl
      exact ⟨s', .head ht hs', hlast⟩
    · exact ⟨s, .refl, fun t ht => hstep ⟨t, ht⟩⟩

end Transition
