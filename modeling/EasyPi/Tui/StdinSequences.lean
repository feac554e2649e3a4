/-
# Whole sequences

The scan cuts a text into its sequences, and nothing gets lost in the cut: the sequences and the remainder are the
text. The remainder is empty exactly for a text that is made of whole sequences, which is told without the scan.
-/
import EasyPi.Tui.StdinBuffer

namespace EasyPi.Tui

open List
namespace Stdin

variable {c : UInt16} {u t v text : Text}

/-- **The sequences and the remainder are the text.** -/
theorem extractFrom_flatten (candidate text : Text) :
    (extractFrom candidate text).1.flatten ++ (extractFrom candidate text).2 = candidate ++ text := by
  induction text generalizing candidate with
  | nil => simp [extractFrom]
  | cons c rest ih =>
    unfold extractFrom
    by_cases hpl : candidate = [] ∧ c ≠ esc
    · rw [if_pos hpl, hpl.1]
      simp [ih []]
    · rw [if_neg hpl]
      have hnext : (if candidate ++ [c] = [esc, esc] ∧ startsSequence rest.head? then
          ([esc] :: (extractFrom [esc] rest).1, (extractFrom [esc] rest).2)
          else ((candidate ++ [c]) :: (extractFrom [] rest).1, (extractFrom [] rest).2)).1.flatten ++
          (if candidate ++ [c] = [esc, esc] ∧ startsSequence rest.head? then
          ([esc] :: (extractFrom [esc] rest).1, (extractFrom [esc] rest).2)
          else ((candidate ++ [c]) :: (extractFrom [] rest).1, (extractFrom [] rest).2)).2 = candidate ++ c :: rest := by
        split
        · rename_i hdou
          have hih := ih [esc]
          rw [append_cons, hdou.1]
          simp only [flatten_cons, append_assoc, hih]
          rfl
        · simp [ih []]
      cases hsts : isCompleteSequence (candidate ++ [c]) with
      | incomplete => simpa using ih (candidate ++ [c])
      | complete => exact hnext
      | notEscape => exact hnext

/-! ### The first sequence -/

/-- Every candidate up to the text is incomplete. -/
def Pending (text : Text) : Prop := ∀ v, v <+: text → v ≠ [] → isCompleteSequence v = .incomplete

/-- The text is a complete sequence, and no shorter candidate is. -/
structure First (u : Text) : Prop where
  head : u.head? = some esc
  complete : isCompleteSequence u = .complete
  shortest : ∀ v, v <+: u → v ≠ [] → v ≠ u → isCompleteSequence v = .incomplete

/-- The text is two `ESC`, and the second one begins a sequence. -/
def Doubled (u t : Text) : Prop := u = [esc, esc] ∧ startsSequence t.head? = true

instance : Decidable (Doubled u t) := inferInstanceAs (Decidable (_ ∧ _))

theorem First.ne_nil (h : First u) : u ≠ [] := by
  rintro rfl
  cases h.head

theorem prefix_concat_cases (h : v <+: u ++ [c]) : v = u ++ [c] ∨ v <+: u := by
  rcases prefix_concat_iff.mp h with rfl | hv
  · exact .inl rfl
  · exact .inr hv

theorem Pending.concat (h : Pending u) (hsts : isCompleteSequence (u ++ [c]) = .incomplete) : Pending (u ++ [c]) := by
  intro v hv hne
  rcases prefix_concat_cases hv with rfl | hv
  · exact hsts
  · exact h v hv hne

theorem Pending.first (h : Pending u) (hhead : (u ++ [c]).head? = some esc)
    (hsts : isCompleteSequence (u ++ [c]) = .complete) : First (u ++ [c]) := by
  refine ⟨hhead, hsts, fun v hv hne hsho => ?_⟩
  rcases prefix_concat_cases hv with rfl | hv
  · exact absurd rfl hsho
  · exact h v hv hne

theorem isCompleteSequence_ne_notEscape (h : u.head? = some esc) : isCompleteSequence u ≠ .notEscape := by
  have hcsi : isCompleteCsiSequence u ≠ .notEscape := by
    unfold isCompleteCsiSequence
    dsimp only
    repeat' split
    all_goals simp
  have hosc : isCompleteOscSequence u ≠ .notEscape := by
    unfold isCompleteOscSequence
    repeat' split
    all_goals simp
  have hstr : ∀ introducer, isCompleteString introducer u ≠ .notEscape := by
    intro introducer
    unfold isCompleteString
    repeat' split
    all_goals simp
  unfold isCompleteSequence
  rw [if_neg (not_not_intro h)]
  dsimp only
  split
  · simp
  split
  · split
    · split <;> simp
    · exact hcsi
  split
  · exact hosc
  split
  · exact hstr _
  split
  · exact hstr _
  split
  · split <;> simp
  · simp

theorem pending_esc : Pending [esc] := by
  intro v hv hne
  have hone : v = [esc] := by
    rcases prefix_concat_cases (u := []) hv with rfl | hv
    · rfl
    · exact absurd (prefix_nil.mp hv) hne
  rw [hone]
  decide

theorem extractFrom_unit (hc : c ≠ esc) (t : Text) :
    extractFrom [] (c :: t) = ([c] :: (extractFrom [] t).1, (extractFrom [] t).2) := by
  rw [extractFrom, if_pos ⟨rfl, hc⟩]

theorem extractFrom_incomplete (hne : u ++ [c] ≠ [] ∧ (u ++ [c]).head? = some esc)
    (hsts : isCompleteSequence (u ++ [c]) = .incomplete) (t : Text) :
    extractFrom u (c :: t) = extractFrom (u ++ [c]) t := by
  have hpl : ¬ (u = [] ∧ c ≠ esc) := by
    rintro ⟨rfl, hc⟩
    exact hc (by simpa using hne.2)
  rw [extractFrom, if_neg hpl, hsts]

theorem extractFrom_complete (hhead : (u ++ [c]).head? = some esc)
    (hsts : isCompleteSequence (u ++ [c]) = .complete) (hdou : ¬ Doubled (u ++ [c]) t) :
    extractFrom u (c :: t) = ((u ++ [c]) :: (extractFrom [] t).1, (extractFrom [] t).2) := by
  have hpl : ¬ (u = [] ∧ c ≠ esc) := by
    rintro ⟨rfl, hc⟩
    exact hc (by simpa using hhead)
  rw [extractFrom, if_neg hpl, hsts]
  exact if_neg hdou

theorem extractFrom_doubled (hdou : Doubled (u ++ [c]) t) :
    extractFrom u (c :: t) = ([esc] :: (extractFrom [esc] t).1, (extractFrom [esc] t).2) := by
  have hu : u = [esc] ∧ c = esc := by
    have h := hdou.1
    rw [show [esc, esc] = [esc] ++ [esc] from rfl] at h
    exact ⟨(append_inj' h rfl).1, by simpa using (append_inj' h rfl).2⟩
  obtain ⟨rfl, rfl⟩ := hu
  have hsts : isCompleteSequence ([esc] ++ [esc]) = .complete := by decide
  rw [extractFrom, if_neg (by simp), hsts]
  exact if_pos hdou

theorem extractFrom_pending (hhead : u = [] ∨ u.head? = some esc) (hpend : Pending u) (t : Text) :
    extractFrom [] (u ++ t) = extractFrom u t := by
  induction u using List.reverseRecOn generalizing t with
  | nil => rfl
  | append_singleton u c ih =>
    have hesc : (u ++ [c]).head? = some esc := by
      rcases hhead with h | h
      · simp at h
      · exact h
    have hu : u = [] ∨ u.head? = some esc := by
      rcases u with _ | ⟨d, u⟩
      · exact .inl rfl
      · exact .inr (by simpa using hesc)
    rw [append_assoc, ih hu (fun v hv => hpend v (hv.trans (prefix_append _ _)))]
    exact extractFrom_incomplete ⟨by simp, hesc⟩ (hpend _ prefix_rfl (by simp)) t

theorem extractFrom_pending_nil (hhead : u = [] ∨ u.head? = some esc) (hpend : Pending u) :
    extractFrom [] u = ([], u) := by
  have h := extractFrom_pending hhead hpend []
  rwa [append_nil] at h

/-- **The first sequence of a text is cut off**, unless it is an `ESC` before a sequence. -/
theorem extractFrom_first (hfst : First u) (hdou : ¬ Doubled u t) :
    extractFrom [] (u ++ t) = (u :: (extractFrom [] t).1, (extractFrom [] t).2) := by
  rcases eq_nil_or_concat u with rfl | ⟨v, c, rfl⟩
  · exact absurd rfl hfst.ne_nil
  · rw [concat_eq_append] at hfst hdou ⊢
    have hpend : Pending v := fun w hw hne =>
      hfst.shortest w (hw.trans (prefix_append _ _)) hne fun heq => by
        have hle := hw.length_le
        rw [heq, length_append, length_singleton] at hle
        omega
    have hv : v = [] ∨ v.head? = some esc := by
      have hhead := hfst.head
      rcases v with _ | ⟨d, v⟩
      · exact .inl rfl
      · exact .inr (by simpa using hhead)
    rw [append_assoc, extractFrom_pending hv hpend]
    exact extractFrom_complete hfst.head hfst.complete hdou

/-! ### Whole sequences -/

/-- The text is made of single units and whole sequences. -/
inductive Whole : Text → Prop
  | nil : Whole []
  | unit {c : UInt16} {t : Text} : c ≠ esc → Whole t → Whole (c :: t)
  | escape {t : Text} : startsSequence t.head? = true → Whole (esc :: t) → Whole (esc :: esc :: t)
  | sequence {u t : Text} : First u → ¬ Doubled u t → Whole t → Whole (u ++ t)

theorem Whole.remainder (h : Whole t) : (extractFrom [] t).2 = [] := by
  induction h with
  | nil => rfl
  | unit hc _ ih => rw [extractFrom_unit hc]; exact ih
  | @escape t hsta _ ih =>
    have hone := extractFrom_pending (.inr rfl) pending_esc (esc :: t)
    have htwo := extractFrom_pending (.inr rfl) pending_esc t
    rw [singleton_append] at hone htwo
    rw [hone, extractFrom_doubled ⟨rfl, hsta⟩, ← htwo]
    exact ih
  | sequence hfst hdou _ ih => rw [extractFrom_first hfst hdou]; exact ih

theorem whole_of_remainder (hhead : u = [] ∨ u.head? = some esc) (hpend : Pending u)
    (h : (extractFrom u t).2 = []) : Whole (u ++ t) := by
  induction t generalizing u with
  | nil =>
    have hu : u = [] := h
    rw [hu]
    exact .nil
  | cons c t ih =>
    by_cases hpl : u = [] ∧ c ≠ esc
    · obtain ⟨rfl, hc⟩ := hpl
      rw [extractFrom_unit hc] at h
      exact .unit hc (ih (.inl rfl) hpend h)
    · have hesc : (u ++ [c]).head? = some esc := by
        rcases hhead with rfl | hu
        · simpa using hpl
        · rcases u with _ | ⟨d, u⟩
          · cases hu
          · simpa using hu
      cases hsts : isCompleteSequence (u ++ [c]) with
      | incomplete =>
        rw [extractFrom_incomplete ⟨by simp, hesc⟩ hsts] at h
        rw [append_cons]
        exact ih (.inr hesc) (hpend.concat hsts) h
      | notEscape => exact absurd hsts (isCompleteSequence_ne_notEscape hesc)
      | complete =>
        rw [append_cons]
        by_cases hdou : Doubled (u ++ [c]) t
        · rw [extractFrom_doubled hdou] at h
          rw [hdou.1]
          exact .escape hdou.2 (ih (.inr rfl) pending_esc h)
        · rw [extractFrom_complete hesc hsts hdou] at h
          refine .sequence (hpend.first hesc hsts) hdou ?_
          exact ih (.inl rfl) (fun v hv hne => absurd (prefix_nil.mp hv) hne) h

/-- **Nothing remains** exactly of a text of whole sequences. -/
theorem remainder_eq_nil_iff : (extractCompleteSequences text).2 = [] ↔ Whole text := by
  constructor
  · intro h
    exact whole_of_remainder (.inl rfl) (fun v hv hne => absurd (prefix_nil.mp hv) hne) h
  · exact Whole.remainder

end Stdin
end EasyPi.Tui
