/-
# A cursor in the lines of a text

Lines with a place in them: the lines above and below it, and the two parts of its own line. Without breaks in the lines
such a place is the same as the text before it and the text after it. Text goes in at the place, line by
line.
-/
import EasyPi.Lib.Segments
import EasyPi.Lib.TextLines

namespace EasyPi

open List

structure TextCursor (α : Type*) where
  above : List (List α)
  left : List α
  right : List α
  below : List (List α)

namespace TextCursor

variable {α : Type*} (nl : α) (c : TextCursor α)

def lines : List (List α) := c.above ++ (c.left ++ c.right) :: c.below

def before : List α := joinLines nl (c.above ++ [c.left])

def after : List α := joinLines nl (c.right :: c.below)

def Unbroken : Prop := (∀ line ∈ c.above ++ [c.left], nl ∉ line) ∧ ∀ line ∈ c.right :: c.below, nl ∉ line

theorem joinLines_cons_append (a b : List α) (below : List (List α)) :
    joinLines nl ((a ++ b) :: below) = a ++ joinLines nl (b :: below) := by
  cases below with
  | nil => simp
  | cons next below =>
    rw [joinLines_cons nl _ (cons_ne_nil _ _), joinLines_cons nl b (cons_ne_nil _ _), append_assoc]

theorem joinLines_concat_append (above : List (List α)) (a b : List α) :
    joinLines nl (above ++ [a ++ b]) = joinLines nl (above ++ [a]) ++ b := by
  by_cases h : above = []
  · subst h
    simp
  · rw [joinLines_append nl h (cons_ne_nil _ _), joinLines_append nl h (cons_ne_nil _ _),
      joinLines_singleton, joinLines_singleton, append_assoc, cons_append]

theorem joinLines_concat_nil {above : List (List α)} (h : above ≠ []) :
    joinLines nl (above ++ [[]]) = joinLines nl above ++ [nl] := by
  rw [joinLines_append nl h (cons_ne_nil _ _), joinLines_singleton]

theorem joinLines_extend (above : List (List α)) (left first : List α) (rest : List (List α)) :
    joinLines nl (above ++ (left ++ first) :: rest) = joinLines nl (above ++ [left]) ++ joinLines nl (first :: rest) := by
  by_cases h : above = []
  · subst h
    rw [nil_append, nil_append, joinLines_singleton, joinLines_cons_append]
  · rw [joinLines_append nl h (cons_ne_nil _ _), joinLines_append nl h (cons_ne_nil _ _),
      joinLines_singleton, joinLines_cons_append, append_assoc, cons_append]

theorem before_append_after : c.before nl ++ c.after nl = joinLines nl c.lines := by
  unfold before after lines
  rw [joinLines_extend]

variable {c}

theorem unbroken_lines (h : c.Unbroken nl) : ∀ line ∈ c.lines, nl ∉ line := by
  obtain ⟨habv, hbel⟩ := h
  intro line hmem
  rcases mem_append.mp hmem with hin | hrest
  · exact habv line (by simp [hin])
  · rcases mem_cons.mp hrest with rfl | hin
    · rw [mem_append, not_or]
      exact ⟨habv c.left (by simp), hbel c.right (by simp)⟩
    · exact hbel line (by simp [hin])

variable [DecidableEq α]

theorem splitOn_before (h : c.Unbroken nl) : (c.before nl).splitOn nl = c.above ++ [c.left] :=
  splitOn_intercalate nl h.1 (by simp)

theorem splitOn_after (h : c.Unbroken nl) : (c.after nl).splitOn nl = c.right :: c.below :=
  splitOn_intercalate nl h.2 (cons_ne_nil _ _)

/-- **A place is the texts around it.** -/
theorem ext_texts {d : TextCursor α} (hc : c.Unbroken nl) (hd : d.Unbroken nl) (hbef : c.before nl = d.before nl)
    (haft : c.after nl = d.after nl) : c = d := by
  have habv : c.above ++ [c.left] = d.above ++ [d.left] := by
    rw [← splitOn_before nl hc, hbef, splitOn_before nl hd]
  have hbel : c.right :: c.below = d.right :: d.below := by
    rw [← splitOn_after nl hc, haft, splitOn_after nl hd]
  obtain ⟨hlns, hleft⟩ := append_inj' habv rfl
  cases c
  cases d
  simp only [List.cons.injEq, and_true] at hlns hleft hbel
  simp [hlns, hleft, hbel]

theorem lines_eq_splitOn (h : c.Unbroken nl) : c.lines = (c.before nl ++ c.after nl).splitOn nl := by
  rw [before_append_after]
  exact (splitOn_intercalate nl (unbroken_lines nl h) (by simp [lines])).symm

/-! ### Insertion -/

/-- A text at the place, which is then behind it. -/
def insert (c : TextCursor α) (text : List α) : TextCursor α :=
  match text.splitOn nl with
  | [] => c
  | [line] => { c with left := c.left ++ line }
  | first :: rest => { c with above := c.above ++ (c.left ++ first) :: rest.dropLast, left := rest.getLastD [] }

theorem insert_single {text : List α} (h : text.splitOn nl = [text]) :
    c.insert nl text = { c with left := c.left ++ text } := by
  unfold insert
  rw [h]

theorem insert_lines {text first last : List α} {mid : List (List α)} (h : text.splitOn nl = first :: mid ++ [last]) :
    c.insert nl text = { c with above := c.above ++ (c.left ++ first) :: mid, left := last } := by
  unfold insert
  rw [h]
  cases mid with
  | nil => rfl
  | cons second mid =>
    dsimp only [cons_append]
    rw [← cons_append, dropLast_concat, getLastD_concat]

theorem splitOn_cases (text : List α) : text.splitOn nl = [text] ∧ nl ∉ text ∨
    ∃ first mid last, text.splitOn nl = first :: mid ++ [last] := by
  by_cases h : nl ∈ text
  · right
    obtain ⟨first, rest, rfl, hfst⟩ := eq_append_cons_of_mem h
    have hspl : (first ++ nl :: rest).splitOn nl = first :: rest.splitOn nl := by
      rw [splitOn_append_cons_self, splitOn_eq_singleton hfst, singleton_append]
    obtain ⟨mid, last, hrest⟩ : ∃ mid last, rest.splitOn nl = mid ++ [last] :=
      ⟨_, _, (dropLast_append_getLast (splitOn_ne_nil nl rest)).symm⟩
    exact ⟨first, mid, last, by rw [hspl, hrest, cons_append]⟩
  · exact Or.inl ⟨splitOn_eq_singleton h, h⟩

theorem insert_before (text : List α) : (c.insert nl text).before nl = c.before nl ++ text := by
  rcases splitOn_cases nl text with ⟨hsgl, -⟩ | ⟨first, mid, last, hlns⟩
  · rw [insert_single nl hsgl]
    exact joinLines_concat_append nl c.above c.left text
  · rw [insert_lines nl hlns]
    have htext : joinLines nl (first :: mid ++ [last]) = text := by
      rw [← hlns]
      exact intercalate_splitOn nl
    unfold before
    dsimp only
    rw [append_assoc, cons_append, joinLines_extend, ← cons_append, htext]

theorem insert_after (text : List α) : (c.insert nl text).after nl = c.after nl := by
  rcases splitOn_cases nl text with ⟨hsgl, -⟩ | ⟨first, mid, last, hlns⟩
  · rw [insert_single nl hsgl]
    rfl
  · rw [insert_lines nl hlns]
    rfl

theorem insert_unbroken (h : c.Unbroken nl) (text : List α) : (c.insert nl text).Unbroken nl := by
  obtain ⟨habv, hbel⟩ := h
  obtain ⟨habv, hleft⟩ : (∀ line ∈ c.above, nl ∉ line) ∧ nl ∉ c.left :=
    ⟨fun line hline => habv line (by simp [hline]), habv c.left (by simp)⟩
  rcases splitOn_cases nl text with ⟨hsgl, htext⟩ | ⟨first, mid, last, hlns⟩
  · rw [insert_single nl hsgl]
    refine ⟨fun line hline => ?_, hbel⟩
    rcases mem_append.mp hline with hin | hlast
    · exact habv line hin
    · rw [mem_singleton.mp hlast, mem_append, not_or]
      exact ⟨hleft, htext⟩
  · rw [insert_lines nl hlns]
    have hpts : ∀ line ∈ first :: mid ++ [last], nl ∉ line := by
      rw [← hlns]
      exact fun line hline => not_mem_of_mem_splitOn hline
    refine ⟨fun line hline => ?_, hbel⟩
    dsimp only at hline
    rw [append_assoc, cons_append] at hline
    rcases mem_append.mp hline with hin | hnew
    · exact habv line hin
    · rcases mem_cons.mp hnew with rfl | hrest
      · rw [mem_append, not_or]
        exact ⟨hleft, hpts first (by simp)⟩
      · exact hpts line (by simpa using Or.inr hrest)

end TextCursor
end EasyPi
