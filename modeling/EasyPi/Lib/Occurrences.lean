/-
# Occurrences of a text in another

A text is looked for from an offset on (`indexOf?`), and another one is cut at its occurrences
(`splitText`): from left to right, and an occurrence that overlaps the one before it does not count.
So a count by cutting is one exactly when every occurrence overlaps the first.
-/
import Mathlib.Data.List.Basic
import Mathlib.Data.List.Infix
import Mathlib.Data.Nat.Find

namespace EasyPi

open List

variable {α : Type*} {content text t piece : List α} {i start skip : ℕ}

/-- The text occurs in `content` at the offset. -/
def OccursAt (content text : List α) (i : ℕ) : Prop := text <+: content.drop i

theorem OccursAt.le_length (h : OccursAt content text i) (hne : text ≠ []) : i + text.length ≤ content.length := by
  have hle := h.length_le
  have hpos := length_pos_iff.mpr hne
  rw [length_drop] at hle
  omega

theorem OccursAt.take_drop (h : OccursAt content text i) :
    (content.drop i).take text.length = text := (prefix_iff_eq_take.mp h).symm

theorem occursAt_cons_succ {c : α} : OccursAt (c :: t) text (i + 1) ↔ OccursAt t text i := by
  unfold OccursAt
  rw [drop_succ_cons]

theorem occursAt_drop {j : ℕ} : OccursAt (content.drop i) text j ↔ OccursAt content text (i + j) := by
  unfold OccursAt
  rw [drop_drop]

variable [DecidableEq α]

instance : DecidablePred (OccursAt content text) := fun i =>
  inferInstanceAs (Decidable (text <+: content.drop i))

/-- The first offset of the text, from `start` on, which counts as the end when it is past it. -/
def indexOf? (content text : List α) (start : ℕ := 0) : Option ℕ :=
  (List.range (content.length + 1)).find? fun i =>
    decide (min start content.length ≤ i) && decide (OccursAt content text i)

/-- The pieces after `piece`, with `skip` units of an occurrence left to pass over. -/
def splitFrom (text : List α) : ℕ → List α → List α → List (List α)
  | _, piece, [] => [piece]
  | skip + 1, piece, _ :: t => splitFrom text skip piece t
  | 0, piece, c :: t =>
    if text <+: c :: t then piece :: splitFrom text (text.length - 1) [] t
    else splitFrom text 0 (piece ++ [c]) t

/-- `content`, cut at the occurrences of the text; into units, if it is empty. -/
def splitText (content text : List α) : List (List α) :=
  if text = [] then content.map fun c => [c] else splitFrom text 0 [] content

/-- **A text that is found** occurs there, and nowhere before. -/
theorem indexOf?_eq_some_iff (hne : text ≠ []) : indexOf? content text start = some i ↔
    start ≤ i ∧ OccursAt content text i ∧ ∀ j, start ≤ j → j < i → ¬ OccursAt content text j := by
  have hpos := length_pos_iff.mpr hne
  unfold indexOf?
  rw [List.find?_range_eq_some]
  simp only [Bool.and_eq_true, decide_eq_true_eq, mem_range, Bool.not_eq_true',
    Bool.and_eq_false_iff, decide_eq_false_iff_not]
  constructor
  · rintro ⟨⟨hsta, hi⟩, -, hfst⟩
    have hlt := hi.le_length hne
    refine ⟨by omega, hi, fun j hj hji => ?_⟩
    rcases hfst j hji with hmin | hnot
    · omega
    · exact hnot
  · rintro ⟨hsta, hi, hfst⟩
    have hlt := hi.le_length hne
    refine ⟨⟨by omega, hi⟩, by omega, fun j hji => ?_⟩
    by_cases hj : start ≤ j
    · exact .inr (hfst j hj hji)
    · exact .inl (by omega)

theorem indexOf?_eq_none_iff (hne : text ≠ []) :
    indexOf? content text start = none ↔ ∀ j, start ≤ j → ¬ OccursAt content text j := by
  constructor
  · intro hnone j hj hocc
    have hex : ∃ i, start ≤ i ∧ OccursAt content text i := ⟨j, hj, hocc⟩
    have hsome : indexOf? content text start = some (Nat.find hex) :=
      (indexOf?_eq_some_iff hne).mpr ⟨(Nat.find_spec hex).1, (Nat.find_spec hex).2,
        fun j hj hlt hocc => Nat.find_min hex hlt ⟨hj, hocc⟩⟩
    rw [hnone] at hsome
    cases hsome
  · intro hnone
    rw [Option.eq_none_iff_forall_ne_some]
    intro i hi
    obtain ⟨hsta, hocc, -⟩ := (indexOf?_eq_some_iff hne).mp hi
    exact hnone i hsta hocc

/-! ### Pieces -/

theorem one_le_length_splitFrom : 1 ≤ (splitFrom text skip piece t).length := by
  induction t generalizing skip piece with
  | nil => rw [splitFrom]; exact Nat.le_refl 1
  | cons c t ih =>
    cases skip with
    | succ skip => rw [splitFrom]; exact ih
    | zero =>
      rw [splitFrom]
      split
      · rw [length_cons]
        exact Nat.le_add_left _ _
      · exact ih

theorem length_splitFrom_of_none (h : ∀ j, skip ≤ j → ¬ OccursAt t text j) :
    (splitFrom text skip piece t).length = 1 := by
  induction t generalizing skip piece with
  | nil => rw [splitFrom]; rfl
  | cons c t ih =>
    cases skip with
    | succ skip =>
      rw [splitFrom]
      exact ih fun j hj => by rw [← occursAt_cons_succ (c := c)]; exact h _ (Nat.succ_le_succ hj)
    | zero =>
      have hnot : ¬ text <+: c :: t := h 0 (Nat.le_refl 0)
      rw [splitFrom, if_neg hnot]
      exact ih fun j hj => by rw [← occursAt_cons_succ (c := c)]; exact h _ (Nat.zero_le _)

theorem length_splitFrom_of_first (hne : text ≠ []) (hskip : skip ≤ i) (hi : OccursAt t text i)
    (hfst : ∀ j, skip ≤ j → j < i → ¬ OccursAt t text j) :
    (splitFrom text skip piece t).length = (splitFrom text text.length [] (t.drop i)).length + 1 := by
  obtain ⟨l, hl⟩ := Nat.exists_eq_succ_of_ne_zero (length_pos_iff.mpr hne).ne'
  induction t generalizing skip piece i with
  | nil =>
    have hle := hi.le_length hne
    rw [length_nil] at hle
    omega
  | cons c t ih =>
    cases skip with
    | succ skip =>
      obtain ⟨i, rfl⟩ := Nat.exists_eq_add_of_le' hskip
      rw [splitFrom, show i + (skip + 1) = (i + skip) + 1 by omega, drop_succ_cons]
      rw [show i + (skip + 1) = (i + skip) + 1 by omega, occursAt_cons_succ] at hi
      exact ih (Nat.le_add_left _ _) hi fun j hj hlt => by
        rw [← occursAt_cons_succ (c := c)]
        exact hfst _ (Nat.succ_le_succ hj) (by omega)
    | zero =>
      cases i with
      | zero =>
        have hpre : text <+: c :: t := hi
        rw [splitFrom, if_pos hpre, length_cons, drop_zero, hl, splitFrom]
        rfl
      | succ i =>
        have hnot : ¬ text <+: c :: t := hfst 0 (Nat.le_refl 0) (Nat.succ_pos i)
        rw [splitFrom, if_neg hnot, drop_succ_cons]
        rw [occursAt_cons_succ] at hi
        exact ih (Nat.zero_le _) hi fun j hj hlt => by
          rw [← occursAt_cons_succ (c := c)]
          exact hfst _ (Nat.zero_le _) (Nat.succ_lt_succ hlt)

theorem length_splitFrom_eq_one_iff (hne : text ≠ []) :
    (splitFrom text skip piece t).length = 1 ↔ ∀ j, skip ≤ j → ¬ OccursAt t text j := by
  refine ⟨fun hone => ?_, length_splitFrom_of_none⟩
  by_contra hsome
  push Not at hsome
  have hfst := @length_splitFrom_of_first _ text t piece _ _ _ hne (Nat.find_spec hsome).1
    (Nat.find_spec hsome).2 fun j hj hlt hocc => Nat.find_min hsome hlt ⟨hj, hocc⟩
  have hpos := @one_le_length_splitFrom _ text (t.drop (Nat.find hsome)) [] text.length _
  omega

theorem two_le_length_splitText (hne : text ≠ []) (hi : OccursAt content text i) :
    2 ≤ (splitText content text).length := by
  have hex : ∃ i, OccursAt content text i := ⟨i, hi⟩
  unfold splitText
  rw [if_neg hne, length_splitFrom_of_first hne (Nat.zero_le _) (Nat.find_spec hex)
    fun j _ hlt => Nat.find_min hex hlt]
  exact Nat.succ_le_succ one_le_length_splitFrom

/-- **One cut is made** exactly when the text occurs, and every occurrence overlaps the first. -/
theorem splitText_length_eq_two_iff (hne : text ≠ []) (hi : indexOf? content text = some i) :
    (splitText content text).length = 2 ↔ ∀ j, OccursAt content text j → j < i + text.length := by
  obtain ⟨-, hocc, hfst⟩ := (indexOf?_eq_some_iff hne).mp hi
  unfold splitText
  rw [if_neg hne, length_splitFrom_of_first hne (Nat.zero_le i) hocc hfst, Nat.succ_inj, length_splitFrom_eq_one_iff hne]
  constructor
  · intro hnone j hj
    by_contra hlt
    have hle : text.length ≤ j - i := by omega
    refine hnone (j - i) hle (occursAt_drop.mpr ?_)
    rwa [Nat.add_sub_cancel' (by omega)]
  · intro hall j hj hocc
    have hlt := hall (i + j) (occursAt_drop.mp hocc)
    omega

end EasyPi
