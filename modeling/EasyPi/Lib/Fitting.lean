/-
# The longest part that fits

The elements of a list weigh something. What fits a limit from the front of the list is found element by element,
up to the first one that does not fit.
-/
import Mathlib.Algebra.BigOperators.Group.List.Basic
import Mathlib.Algebra.GroupWithZero.Nat
import Mathlib.Data.List.Infix

namespace EasyPi

open List

variable {α : Type*} (weight : α → ℕ)

def weightOf (l : List α) : ℕ := (l.map weight).sum

/-- Of the starts of a list that weigh no more than the limit, the longest. -/
def LongestFitting (limit : ℕ) (l kept : List α) : Prop :=
  kept <+: l ∧ weightOf weight kept ≤ limit ∧ ∀ longer, longer <+: l → weightOf weight longer ≤ limit → longer <+: kept

def fitting : ℕ → List α → List α
  | _, [] => []
  | limit, a :: l => if weight a ≤ limit then a :: fitting (limit - weight a) l else []

variable {weight} {limit : ℕ} {a : α} {l kept : List α}

@[simp] theorem weightOf_nil : weightOf weight [] = 0 := rfl

@[simp] theorem weightOf_cons : weightOf weight (a :: l) = weight a + weightOf weight l := by
  rw [weightOf, map_cons, sum_cons, weightOf]

@[simp] theorem weightOf_append (k l : List α) : weightOf weight (k ++ l) = weightOf weight k + weightOf weight l := by
  rw [weightOf, map_append, sum_append, weightOf, weightOf]

theorem weightOf_replicate (n : ℕ) : weightOf weight (List.replicate n a) = n * weight a := by
  induction n with
  | zero => rw [replicate_zero, weightOf_nil, Nat.zero_mul]
  | succ n ih => rw [replicate_succ, weightOf_cons, ih, Nat.succ_mul, Nat.add_comm]

theorem fitting_longest (limit : ℕ) (l : List α) : LongestFitting weight limit l (fitting weight limit l) := by
  induction l generalizing limit with
  | nil => exact ⟨prefix_rfl, Nat.zero_le _, fun longer h _ => h⟩
  | cons a l ih =>
    unfold fitting
    by_cases ha : weight a ≤ limit
    · obtain ⟨hpre, hle, hlon⟩ := ih (limit - weight a)
      rw [if_pos ha]
      refine ⟨(prefix_cons_inj a).mpr hpre, ?_, fun longer h hfits => ?_⟩
      · rw [weightOf_cons]
        omega
      · cases longer with
        | nil => exact nil_prefix
        | cons b longer =>
          obtain ⟨rfl, htail⟩ := cons_prefix_cons.mp h
          rw [weightOf_cons] at hfits
          exact (prefix_cons_inj b).mpr (hlon longer htail (by omega))
    · rw [if_neg ha]
      refine ⟨ nil_prefix, Nat.zero_le _, fun longer h hfits => ?_⟩
      cases longer with
      | nil => exact nil_prefix
      | cons b longer =>
        obtain ⟨rfl, -⟩ := cons_prefix_cons.mp h
        rw [weightOf_cons] at hfits
        omega

/-- **The longest part that fits** is what fits element by element. -/
theorem longestFitting_iff : LongestFitting weight limit l kept ↔ kept = fitting weight limit l := by
  have hfit : LongestFitting weight limit l (fitting weight limit l) := fitting_longest limit l
  constructor
  · intro h
    have hto := hfit.2.2 kept h.1 h.2.1
    have hfrom := h.2.2 _ hfit.1 hfit.2.1
    exact hto.eq_of_length_le hfrom.length_le
  · rintro rfl
    exact hfit

end EasyPi
