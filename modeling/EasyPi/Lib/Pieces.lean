/-
# Offsets of the pieces of a text

A text is the concatenation of pieces, and the offset of a piece is the length of those before it.
Offsets grow with the pieces, the text between two offsets is the pieces between them, and every
offset in the text is in a piece.
-/
import Mathlib.Data.List.Basic
import Mathlib.Data.List.TakeDrop
import Mathlib.Order.Monotone.Basic

namespace EasyPi

open List

variable {α : Type*} {pieces : List (List α)} {i j : ℕ}

def offsetOf (pieces : List (List α)) (i : ℕ) : ℕ := (pieces.take i).flatten.length

@[simp] theorem offsetOf_length : offsetOf pieces pieces.length = pieces.flatten.length := by
  rw [offsetOf, take_length]

theorem offsetOf_cons_succ (piece : List α) (pieces : List (List α)) (i : ℕ) :
    offsetOf (piece :: pieces) (i + 1) = piece.length + offsetOf pieces i := by
  rw [offsetOf, take_succ_cons, flatten_cons, length_append, offsetOf]

theorem offsetOf_mono : Monotone (offsetOf pieces) := by
  intro i j hij
  rw [offsetOf, offsetOf, ← Nat.add_sub_cancel' hij, take_add, flatten_append, length_append]
  exact Nat.le_add_right _ _

theorem flatten_split (pieces : List (List α)) (i : ℕ) :
    pieces.flatten = (pieces.take i).flatten ++ (pieces.drop i).flatten := by
  rw [← flatten_append, take_append_drop]

theorem offsetOf_le_length : offsetOf pieces i ≤ pieces.flatten.length := by
  rw [flatten_split pieces i, length_append]
  exact Nat.le_add_right _ _

/-- **Every offset** in the text is in one of the pieces. -/
theorem exists_piece {p : ℕ} (hp : p < pieces.flatten.length) :
    ∃ i < pieces.length, offsetOf pieces i ≤ p ∧ p < offsetOf pieces (i + 1) := by
  induction pieces generalizing p with
  | nil => cases hp
  | cons piece pieces ih =>
    by_cases hlt : p < piece.length
    · refine ⟨0, Nat.succ_pos _, Nat.zero_le _, ?_⟩
      rw [offsetOf_cons_succ]
      omega
    · rw [flatten_cons, length_append] at hp
      obtain ⟨i, hi, hle, hlt'⟩ := ih (p := p - piece.length) (by omega)
      refine ⟨i + 1, Nat.succ_lt_succ hi, ?_, ?_⟩
      · rw [offsetOf_cons_succ]
        omega
      · rw [offsetOf_cons_succ]
        omega

theorem drop_offsetOf (pieces : List (List α)) (i : ℕ) :
    pieces.flatten.drop (offsetOf pieces i) = (pieces.drop i).flatten := by
  rw [flatten_split pieces i, offsetOf, drop_left]

theorem flatten_slice (pieces : List (List α)) (i j : ℕ) :
    (pieces.flatten.take (offsetOf pieces j)).drop (offsetOf pieces i) = ((pieces.take j).drop i).flatten := by
  have htake : pieces.flatten.take (offsetOf pieces j) = (pieces.take j).flatten := by
    rw [flatten_split pieces j, offsetOf, take_left]
  rw [htake]
  rcases Nat.le_total i j with hij | hij
  · have hoff : offsetOf pieces i = offsetOf (pieces.take j) i := by
      rw [offsetOf, offsetOf, take_take, Nat.min_eq_left hij]
    rw [hoff, drop_offsetOf]
  · rw [drop_of_length_le (show (pieces.take j).flatten.length ≤ _ from offsetOf_mono hij),
      drop_of_length_le (by rw [length_take]; omega), flatten_nil]

theorem drop_eq_slice_append (pieces : List (List α)) (hij : i ≤ j) :
    (pieces.drop i).flatten = ((pieces.take j).drop i).flatten ++ (pieces.drop j).flatten := by
  rw [← flatten_append, ← drop_take_append_drop pieces i (j - i), Nat.add_sub_cancel' hij, drop_take]

theorem length_slice (pieces : List (List α)) (hij : i ≤ j) :
    offsetOf pieces i + ((pieces.take j).drop i).flatten.length = offsetOf pieces j := by
  rw [← flatten_slice, length_drop, length_take,
    Nat.min_eq_left offsetOf_le_length, Nat.add_sub_cancel' (offsetOf_mono hij)]

end EasyPi
