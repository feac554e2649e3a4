/-
# The outcome of applying edits

Edits are applied in three parts: every edit is found at one place (`Found`), the places do not
overlap (`Matched`), and the new texts are written there (`written`). Matched edits are written, and
what is thrown before that is about the edits, not about the lines of the content.
-/
import EasyPi.Lib.Except
import EasyPi.CodingAgent.EditDiff
import EasyPi.CodingAgent.ReplacementLines

namespace EasyPi.CodingAgent

open List
namespace EditDiff

/-- The errors about lines, which no caller should see. -/
def EditError.isInternal : EditError → Bool
  | .lineCount | .outsideBase => true
  | _ => false

/-- The edit is found once, and the replacement is for the place where it is. -/
structure Found (nfkc : Text → Text) (base : Text) (edit : Edit) (r : TextReplacement) : Prop where
  intro ::
  found : ∃ m, fuzzyFindText nfkc base edit.oldText = some (.found m) ∧ m.occurrenceCount ≤ 1 ∧
    r = { matchIndex := m.index, matchLength := m.matchLength
          newText := newTextFor m.matchTier edit.newText }

/-- The edits are all found in the base, in ranges that do not overlap. -/
structure Matched (nfkc : Text → Text) (content : Text) (edits : List Edit) (used : Bool) (base : Text)
    (rs : List TextReplacement) : Prop where
  oldTexts : ∀ edit ∈ edits, (normalizeEdit edit).oldText ≠ []
  initial : ∃ initial, findTexts nfkc content (edits.map normalizeEdit) = some initial ∧
    used = initial.any (·.usedFuzzyMatch)
  baseEq : base = if used then normalizeForFuzzyMatch nfkc content else content
  found : List.Forall₂ (Found nfkc base) (edits.map normalizeEdit) rs
  ordered : Patch.Ordered ((sortByIndex rs).map TextReplacement.patch)

def written (content : Text) (edits : List Edit) (used : Bool) (base : Text)
    (rs : List TextReplacement) : Except EditError AppliedEditsResult := do
  let newContent ← writeMatches used content base (sortByIndex rs)
  if content = newContent then .error (.noChange edits.length)
  else .ok { baseContent := content, newContent }

variable {nfkc : Text → Text} {content base : Text} {edits : List Edit} {edit : Edit} {used : Bool}
  {rs : List TextReplacement} {r : TextReplacement} {matched : List MatchedEdit} {n : ℕ}

theorem checkOldTexts_eq_ok_iff : checkOldTexts edits = .ok () ↔ ∀ edit ∈ edits, edit.oldText ≠ [] := by
  unfold checkOldTexts
  split
  · rename_i hnone
    simpa using hnone
  · rename_i i hsome
    obtain ⟨hi, hemp, -⟩ := List.findIdx?_eq_some_iff_getElem.mp hsome
    refine ⟨fun h => (by cases h), fun h => ?_⟩
    exact absurd (by simpa using hemp) (h _ (getElem_mem hi))

theorem checkOldTexts_error {e : EditError} (h : checkOldTexts edits = .error e) : e.isInternal = false := by
  unfold checkOldTexts at h
  split at h
  · cases h
  · cases h
    rfl

/-! ### Matches -/

theorem matchEdit_of_found (h : Found nfkc base edit r) :
    (matchEdit nfkc base n matched edit).run = some (.ok { r with editIndex := matched.length }) := by
  obtain ⟨m, hm, hcnt, rfl⟩ := h
  unfold matchEdit
  rw [run_bind_of_ok (run_lift_eq_some.mpr ⟨_, hm, rfl⟩)]
  dsimp only
  rw [if_neg (Nat.not_lt_of_le hcnt)]
  rfl

theorem refuseNotFound_eq_some {out : Except EditError MatchedEdit}
    (h : (refuseNotFound nfkc base n matched edit).run = some out) : ∃ e, out = .error e ∧ e.isInternal = false := by
  unfold refuseNotFound at h
  dsimp only at h
  split at h
  · rcases run_bind_eq_some.mp h with ⟨result, -, h⟩ | ⟨e, hlift, rfl⟩
    · split at h
      · cases h
        exact ⟨_, rfl, rfl⟩
      · cases h
        exact ⟨_, rfl, rfl⟩
    · obtain ⟨a, -, hcas⟩ := run_lift_eq_some.mp hlift
      cases hcas
  · cases h
    exact ⟨_, rfl, rfl⟩

/-- **One edit**: it is found, or refused. -/
theorem found_of_matchEdit {out : Except EditError MatchedEdit}
    (h : (matchEdit nfkc base n matched edit).run = some out) :
    (∃ m, out = .ok m ∧ Found nfkc base edit m.toTextReplacement) ∨ ∃ e, out = .error e ∧ e.isInternal = false := by
  unfold matchEdit at h
  rcases run_bind_eq_some.mp h with ⟨result, hlift, h⟩ | ⟨e, hlift, rfl⟩
  · obtain ⟨_, hfnd, hcas⟩ := run_lift_eq_some.mp hlift
    cases hcas
    dsimp only at h
    split at h
    · split at h
      · cases h
        exact .inr ⟨_, rfl, rfl⟩
      · exact .inr (refuseNotFound_eq_some h)
    · rename_i m
      split at h
      · cases h
        exact .inr ⟨_, rfl, rfl⟩
      · rename_i hcnt
        cases h
        exact .inl ⟨_, rfl, ⟨m, hfnd, Nat.le_of_not_lt hcnt, rfl⟩⟩
  · obtain ⟨a, -, hcas⟩ := run_lift_eq_some.mp hlift
    cases hcas

theorem matchEdits_of_found (h : List.Forall₂ (Found nfkc base) edits rs) :
    ∃ new : List MatchedEdit, (matchEdits nfkc base n matched edits).run = some (.ok (matched ++ new)) ∧
      new.map (·.toTextReplacement) = rs := by
  induction h generalizing matched with
  | nil => exact ⟨[], by rw [append_nil]; rfl, rfl⟩
  | @cons edit r edits rs hr _ ih =>
    obtain ⟨new, hnew, hmap⟩ := @ih (matched ++ [{ r with editIndex := matched.length }])
    refine ⟨{ r with editIndex := matched.length } :: new, ?_, by rw [map_cons, hmap]⟩
    unfold matchEdits
    rw [run_bind_of_ok (matchEdit_of_found hr), hnew, append_assoc]
    rfl

/-- **All edits**: they are found, or one is refused. -/
theorem found_of_matchEdits {out : Except EditError (List MatchedEdit)}
    (h : (matchEdits nfkc base n matched edits).run = some out) :
    (∃ new : List MatchedEdit, out = .ok (matched ++ new) ∧
        List.Forall₂ (Found nfkc base) edits (new.map (·.toTextReplacement))) ∨
      ∃ e, out = .error e ∧ e.isInternal = false := by
  induction edits generalizing matched with
  | nil =>
    cases h
    exact .inl ⟨[], by rw [append_nil], .nil⟩
  | cons edit edits ih =>
    unfold matchEdits at h
    rcases run_bind_eq_some.mp h with ⟨m, hm, h⟩ | ⟨e, hm, rfl⟩
    · rcases found_of_matchEdit hm with ⟨_, hok, hfnd⟩ | ⟨e, hok, -⟩
      · cases hok
        rcases ih h with ⟨new, rfl, hnew⟩ | herror
        · exact .inl ⟨m :: new, by rw [append_assoc]; rfl, .cons hfnd hnew⟩
        · exact .inr herror
      · cases hok
    · rcases found_of_matchEdit hm with ⟨_, hok, -⟩ | ⟨_, herror, hinte⟩
      · cases hok
      · cases herror
        exact .inr ⟨e, rfl, hinte⟩

theorem checkOverlaps_eq_ok_iff {ms : List MatchedEdit} : checkOverlaps ms = .ok () ↔
    Patch.Ordered (ms.map fun m => m.toTextReplacement.patch) := by
  induction ms with
  | nil => exact ⟨fun _ => .nil, fun _ => rfl⟩
  | cons a ms ih =>
    cases ms with
    | nil => exact ⟨fun _ => pairwise_singleton _ _, fun _ => rfl⟩
    | cons b ms =>
      rw [checkOverlaps, map_cons, Patch.Ordered, pairwise_cons]
      split
      · rename_i hlt
        refine ⟨fun h => (by cases h), fun h => ?_⟩
        exact absurd (h.1 _ mem_cons_self) (Nat.not_le_of_lt hlt)
      · rename_i hle
        rw [ih]
        refine ⟨fun h => ⟨fun p hp => ?_, h⟩, fun h => h.2⟩
        rcases mem_cons.mp hp with rfl | hp
        · exact Nat.le_of_not_lt hle
        · have hbp := (pairwise_cons.mp h).1 p hp
          have hb := b.toTextReplacement.patch.start_le_stop
          exact Nat.le_trans (Nat.le_of_not_lt hle) (Nat.le_trans hb hbp)

theorem checkOverlaps_error {ms : List MatchedEdit} {e : EditError} (h : checkOverlaps ms = .error e) :
    e.isInternal = false := by
  induction ms with
  | nil => cases h
  | cons a ms ih =>
    cases ms with
    | nil => cases h
    | cons b ms =>
      rw [checkOverlaps] at h
      split at h
      · cases h
        rfl
      · exact ih h

theorem map_sort_matchedEdits (ms : List MatchedEdit) :
    (ms.mergeSort fun a b => a.matchIndex ≤ b.matchIndex).map (·.toTextReplacement) =
      sortByIndex (ms.map (·.toTextReplacement)) :=
  map_mergeSort fun _ _ _ _ => rfl

/-! ### The outcome -/

theorem run_written (content : Text) (edits : List Edit) (newContent : Text) :
    (do
      if content = newContent then
        throw (.noChange edits.length)
      return { baseContent := content, newContent } : Applying AppliedEditsResult).run =
    some (if content = newContent then .error (.noChange edits.length)
      else .ok { baseContent := content, newContent }) := by
  dsimp only
  split
  · rfl
  · rfl

/-- **Matched edits are written**. -/
theorem apply_of_matched (h : Matched nfkc content edits used base rs) :
    (applyEditsToNormalizedContent nfkc content edits).run = some (written content edits used base rs) := by
  obtain ⟨initial, hini, hused⟩ := h.initial
  obtain ⟨ms, hms, hmap⟩ := @matchEdits_of_found _ _ _ _ [] edits.length h.found
  rw [nil_append] at hms
  have hche : (ExceptT.mk (some (checkOldTexts (edits.map normalizeEdit))) : Applying Unit).run = some (.ok ()) := by
    refine congrArg some (checkOldTexts_eq_ok_iff.mpr ?_)
    intro edit hedit
    obtain ⟨edit', hedit', rfl⟩ := mem_map.mp hedit
    exact h.oldTexts edit' hedit'
  have hord : (ExceptT.mk (some (checkOverlaps
      (ms.mergeSort fun a b => a.matchIndex ≤ b.matchIndex))) : Applying Unit).run = some (.ok ()) := by
    have hpat := h.ordered
    rw [← hmap, ← map_sort_matchedEdits, map_map] at hpat
    exact congrArg some (checkOverlaps_eq_ok_iff.mpr hpat)
  unfold applyEditsToNormalizedContent
  dsimp only
  rw [run_bind_of_ok hche, run_bind_of_ok (run_lift_eq_some.mpr ⟨_, hini, rfl⟩)]
  rw [← hused, ← h.baseEq, run_bind_of_ok hms]
  rw [run_bind_of_ok hord, map_sort_matchedEdits, hmap]
  unfold written
  cases hwri : writeMatches used content base (sortByIndex rs) with
  | error e => rfl
  | ok newContent => exact run_written content edits newContent

/-- **What returns** was written for matched edits, or is an error about the edits. -/
theorem matched_of_apply {out : Except EditError AppliedEditsResult}
    (h : (applyEditsToNormalizedContent nfkc content edits).run = some out) :
    (∃ used base rs, Matched nfkc content edits used base rs) ∨ ∃ e, out = .error e ∧ e.isInternal = false := by
  unfold applyEditsToNormalizedContent at h
  dsimp only at h
  rcases run_bind_eq_some.mp h with ⟨_, hche, h⟩ | ⟨e, hche, rfl⟩
  · rcases run_bind_eq_some.mp h with ⟨initial, hini, h⟩ | ⟨e, hini, rfl⟩
    · obtain ⟨_, hfin, hcas⟩ := run_lift_eq_some.mp hini
      cases hcas
      rcases run_bind_eq_some.mp h with ⟨ms, hms, h⟩ | ⟨e, hms, rfl⟩
      · rcases found_of_matchEdits hms with ⟨new, hnew, hfnd⟩ | ⟨e, herror, -⟩
        · obtain rfl : ms = new := by simpa using hnew
          rcases run_bind_eq_some.mp h with ⟨_, hover, -⟩ | ⟨e, hover, rfl⟩
          · refine .inl ⟨_, _, _, fun edit hedit => ?_, ⟨initial, hfin, rfl⟩, rfl, hfnd, ?_⟩
            · have hall := checkOldTexts_eq_ok_iff.mp (Option.some.inj hche)
              exact hall _ (mem_map_of_mem hedit)
            · rw [← map_sort_matchedEdits, map_map]
              exact checkOverlaps_eq_ok_iff.mp (Option.some.inj hover)
          · exact .inr ⟨e, rfl, checkOverlaps_error (Option.some.inj hover)⟩
        · cases herror
      · rcases found_of_matchEdits hms with ⟨_, hnew, -⟩ | ⟨_, herror, hinte⟩
        · cases hnew
        · cases herror
          exact .inr ⟨e, rfl, hinte⟩
    · obtain ⟨a, -, hcas⟩ := run_lift_eq_some.mp hini
      cases hcas
  · exact .inr ⟨e, rfl, checkOldTexts_error (Option.some.inj hche)⟩

end EditDiff
end EasyPi.CodingAgent
