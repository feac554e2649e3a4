/-
# Texts as segments between separators

A text is determined by its segments. One text continues another behind a separator exactly when its segments
continue the segments of the other.
-/
import Mathlib.Data.List.Infix

namespace EasyPi

open List

/-! ### Segments -/

theorem not_mem_of_mem_splitOn {α : Type*} [BEq α] [LawfulBEq α] {a : α} {text piece : List α}
    (h : piece ∈ text.splitOn a) : a ∉ piece := by
  induction text generalizing piece with
  | nil =>
    rw [splitOn_nil, mem_singleton] at h
    rw [h]
    exact not_mem_nil
  | cons c text ih =>
    rw [splitOn_cons_eq_if_modifyHead] at h
    split at h
    · rcases mem_cons.mp h with rfl | hpiece
      · exact not_mem_nil
      · exact ih hpiece
    · rename_i hne
      cases hspl : text.splitOn a with
      | nil => exact absurd hspl (splitOn_ne_nil a text)
      | cons first rest =>
        rw [hspl, modifyHead_cons] at h
        rcases mem_cons.mp h with rfl | hpiece
        · intro hmem
          rcases mem_cons.mp hmem with rfl | hmem
          · exact hne (beq_self_eq_true _)
          · exact ih (hspl ▸ mem_cons_self ..) hmem
        · exact ih (hspl ▸ mem_cons_of_mem _ hpiece)

section
variable {α : Type} {a : α} {text other : List α}

theorem intercalate_append {segments more : List (List α)} (hseg : segments ≠ []) (hmore : more ≠ []) :
    [a].intercalate (segments ++ more) = [a].intercalate segments ++ a :: [a].intercalate more := by
  induction segments with
  | nil => exact absurd rfl hseg
  | cons segment segments ih =>
    by_cases h : segments = []
    · rw [h, intercalate_singleton, singleton_append, intercalate_cons_of_ne_nil hmore]
      rw [append_assoc]
      rfl
    · have hne : segments ++ more ≠ [] := fun hnil => h (append_eq_nil_iff.mp hnil).1
      rw [cons_append, intercalate_cons_of_ne_nil hne, ih h, intercalate_cons_of_ne_nil h]
      simp only [append_assoc]

variable [BEq α] [LawfulBEq α]

theorem splitOn_injective (h : text.splitOn a = other.splitOn a) : text = other := by
  have hjoi := congrArg [a].intercalate h
  rwa [intercalate_splitOn, intercalate_splitOn] at hjoi

/-- **A text continues another behind a separator** when its segments do. -/
theorem prefix_separator_iff : other ++ [a] <+: text ↔ ∃ more, more ≠ [] ∧ text.splitOn a = other.splitOn a ++ more := by
  constructor
  · rintro ⟨rest, hrest⟩
    refine ⟨rest.splitOn a, splitOn_ne_nil a rest, ?_⟩
    rw [← hrest, append_assoc, singleton_append, splitOn_append_cons_self]
  · rintro ⟨more, hmore, hspl⟩
    refine ⟨[a].intercalate more, ?_⟩
    have htext := @intercalate_splitOn _ text _ _ a
    rw [hspl, intercalate_append (splitOn_ne_nil a other) hmore, intercalate_splitOn] at htext
    rw [append_assoc, singleton_append, htext]

theorem prefix_or_eq_iff : text = other ∨ other ++ [a] <+: text ↔ other.splitOn a <+: text.splitOn a := by
  rw [prefix_separator_iff]
  constructor
  · rintro (rfl | ⟨more, -, hspl⟩)
    · exact prefix_rfl
    · exact ⟨more, hspl.symm⟩
  · rintro ⟨more, hspl⟩
    by_cases hmore : more = []
    · rw [hmore, append_nil] at hspl
      exact .inl (splitOn_injective hspl.symm)
    · exact .inr ⟨more, hmore, hspl.symm⟩

end

section
variable {σ : Type} (stay up : σ → Bool)

/-- One segment of a walk: it stays in the directory, goes up or goes down. -/
def walkStep (directory : List σ) (segment : σ) : List σ :=
  if stay segment then directory else if up segment then directory.dropLast else directory ++ [segment]

def walk (directory : List σ) (segments : List σ) : List σ := segments.foldl (walkStep stay up) directory

variable {stay up} {directory segments : List σ}

theorem walk_append (more : List σ) :
    walk stay up directory (segments ++ more) = walk stay up (walk stay up directory segments) more :=
  foldl_append

/-- **A walk that never goes up** ends below where it started. -/
theorem walk_down (h : ∀ segment ∈ segments, up segment = false) :
    walk stay up directory segments = directory ++ segments.filter (! stay ·) := by
  induction segments generalizing directory with
  | nil => exact (append_nil _).symm
  | cons segment segments ih =>
    obtain ⟨hup, hrest⟩ := forall_mem_cons.mp h
    change walk stay up (walkStep stay up directory segment) segments = _
    rw [ih hrest, walkStep, hup]
    by_cases hstay : stay segment = true
    · simp [hstay]
    · simp [hstay]

end

end EasyPi
