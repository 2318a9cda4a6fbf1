import IronClaw.Foundation.Run
import Mathlib.Order.WellFounded
import Mathlib.Order.SuccPred.Basic

/-!
# Endless runs

What an endless run gets to, if it takes some steps again and again.
-/

namespace IronClaw.Foundation

variable {σ α β : Type*} {step : σ → α → Option σ} {r : β → β → Prop} {μ : σ → β} {P : σ → Prop}
  {F : α → Prop} {s : Nat → σ} {a : Nat → α}

/-- **The fairness rule**: if steps under `F` lower a measure until `P` holds, and others keep it,
then `P` holds again and again in runs that take such steps or have `P` so. -/
theorem exists_of_fair (hr : WellFounded r) (hstep : ∀ s a s', step s a = some s' → ¬ P s →
      P s' ∨ r (μ s') (μ s) ∨ ¬ F a ∧ μ s' = μ s)
    (hrun : ∀ i, step (s i) (a i) = some (s (i + 1)))
    (hfair : ∀ i, ∃ j ≥ i, F (a j) ∨ P (s j)) (i : Nat) : ∃ j ≥ i, P (s j) := by
  by_contra! hnever
  obtain ⟨m, ⟨j, hj, rfl⟩, hmin⟩ := hr.has_min {m | ∃ j ≥ i, μ (s j) = m} ⟨_, i, le_rfl, rfl⟩
  -- from the least measure on it stays, and no step under `F` is taken
  have hnext (k : Nat) (hk : k ≥ j) (heq : μ (s k) = μ (s j)) :
      ¬ F (a k) ∧ μ (s (k + 1)) = μ (s j) := by
    rcases hstep _ _ _ (hrun k) (hnever k (hj.trans hk)) with h | h | ⟨hf, h⟩
    · exact absurd h (hnever _ (by omega))
    · exact absurd (heq ▸ h) (hmin _ ⟨k + 1, by omega, rfl⟩)
    · exact ⟨hf, h.trans heq⟩
  have hsame : ∀ k ≥ j, μ (s k) = μ (s j) :=
    Nat.le_induction rfl fun k hk ih => (hnext k hk ih).2
  obtain ⟨k, hk, hf | hP⟩ := hfair j
  · exact (hnext k hk (hsame k hk)).1 hf
  · exact hnever k (hj.trans hk) hP

end IronClaw.Foundation
