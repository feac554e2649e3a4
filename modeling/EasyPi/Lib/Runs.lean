/-
# Runs of a state machine

A machine takes one input a step. A run is a list of inputs; a condition may be
asked of every step of it, about the input and the state it meets. What every
such step keeps holds after every such run.

Key definition: `Along`.
Key theorem: `Along.invariant`.
-/
import Mathlib.Data.List.Basic

namespace EasyPi

variable {σ ι : Type*} {step : σ → ι → σ} {C D : σ → ι → Prop} {s : σ}

/-- Each step of a run meets a condition on the state before it. -/
def Along (step : σ → ι → σ) (C : σ → ι → Prop) : σ → List ι → Prop
  | _, [] => True
  | s, i :: is => C s i ∧ Along step C (step s i) is

namespace Along

/-- **What every step under the condition keeps holds after the run.** -/
theorem invariant {I : σ → Prop} (hstep : ∀ s i, I s → C s i → I (step s i)) {is : List ι}
    (hs : I s) (h : Along step C s is) : I (is.foldl step s) := by
  induction is generalizing s with
  | nil => exact hs
  | cons i is ih => exact ih (hstep s i hs h.1) h.2

theorem mono (hCD : ∀ s i, C s i → D s i) {is : List ι} (h : Along step C s is) : Along step D s is := by
  induction is generalizing s with
  | nil => exact trivial
  | cons i is ih => exact ⟨hCD s i h.1, ih h.2⟩

instance decidable [∀ s i, Decidable (C s i)] : ∀ (s : σ) (is : List ι), Decidable (Along step C s is)
  | _, [] => .isTrue trivial
  | s, i :: is =>
    have := decidable (step s i) is
    inferInstanceAs (Decidable (C s i ∧ Along step C (step s i) is))

end Along
end EasyPi
