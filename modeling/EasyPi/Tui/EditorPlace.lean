/-
# The document around the cursor

The document with its cursor as a place in lines. The pieces that the deletions and yanks of the editor are made of,
as changes of the texts before and after the place.
-/
import EasyPi.Lib.TextCursor
import EasyPi.Tui.Editor

namespace EasyPi.Tui

open List
namespace Editor

/-- The cursor is in the document, and the lines have no line breaks. -/
structure EditorState.WellFormed (s : EditorState) : Prop where
  line : s.cursorLine < s.lines.length
  col : s.cursorCol ≤ s.line.length
  unbroken : ∀ line ∈ s.lines, lf ∉ line

def EditorState.textBefore (s : EditorState) : Text := joinLines lf (s.lines.take s.cursorLine ++ [s.before])

def EditorState.textAfter (s : EditorState) : Text := joinLines lf (s.after :: s.lines.drop (s.cursorLine + 1))

def ofCursor (c : TextCursor UInt16) : EditorState := ⟨c.lines, c.above.length, c.left.length⟩

variable {c : TextCursor UInt16} {s : EditorState}

attribute [local simp] TextCursor.lines

@[simp] theorem line_ofCursor : (ofCursor c).line = c.left ++ c.right := by
  simp [EditorState.line, ofCursor]

@[simp] theorem before_ofCursor : (ofCursor c).before = c.left := by
  rw [EditorState.before, line_ofCursor]
  exact take_left

@[simp] theorem after_ofCursor : (ofCursor c).after = c.right := by
  rw [EditorState.after, line_ofCursor]
  exact drop_left

@[simp] theorem cursorCol_ofCursor : (ofCursor c).cursorCol = c.left.length := rfl

@[simp] theorem cursorLine_ofCursor : (ofCursor c).cursorLine = c.above.length := rfl

@[simp] theorem lines_ofCursor : (ofCursor c).lines = c.lines := rfl

theorem textBefore_ofCursor : (ofCursor c).textBefore = c.before lf := by
  simp [EditorState.textBefore, TextCursor.before]

theorem textAfter_ofCursor : (ofCursor c).textAfter = c.after lf := by
  simp [EditorState.textAfter, TextCursor.after]

/-- **A document is a place in its lines.** -/
theorem wellFormed_iff : s.WellFormed ↔ ∃ c : TextCursor UInt16, c.Unbroken lf ∧ s = ofCursor c := by
  constructor
  · intro h
    have hlt := h.line
    have hget := List.getElem?_eq_getElem hlt
    have hline : s.line = s.lines[s.cursorLine] := by
      rw [EditorState.line, hget]
      rfl
    refine ⟨⟨s.lines.take s.cursorLine, s.before, s.after, s.lines.drop (s.cursorLine + 1)⟩, ⟨?_, ?_⟩, ?_⟩
    · intro line hmem
      rcases mem_append.mp hmem with habv | hleft
      · exact h.unbroken line (mem_of_mem_take habv)
      · rw [mem_singleton.mp hleft]
        have hown := h.unbroken _ (getElem_mem h.line)
        rw [← hline] at hown
        exact fun hlf => hown (mem_of_mem_take hlf)
    · intro line hmem
      rcases mem_cons.mp hmem with rfl | hbelow
      · have hown := h.unbroken _ (getElem_mem h.line)
        rw [← hline] at hown
        exact fun hlf => hown (mem_of_mem_drop hlf)
      · exact h.unbroken line (mem_of_mem_drop hbelow)
    · have hlns : s.lines = s.lines.take s.cursorLine ++ (s.before ++ s.after) :: s.lines.drop (s.cursorLine + 1) := by
        have hown : s.before ++ s.after = s.lines[s.cursorLine] := by
          rw [← hline]
          exact take_append_drop _ _
        rw [hown, getElem_cons_drop, take_append_drop]
      have hrow : (s.lines.take s.cursorLine).length = s.cursorLine := by
        rw [length_take]
        omega
      have hcol : s.before.length = s.cursorCol := by
        rw [EditorState.before, length_take]
        have hle := h.col
        omega
      unfold ofCursor TextCursor.lines
      dsimp only
      rw [← hlns, hrow, hcol]
  · rintro ⟨c, hc, rfl⟩
    refine ⟨?_, ?_, TextCursor.unbroken_lines lf hc⟩
    · simp
    · simp

theorem setLine_ofCursor (left right : Text) :
    (ofCursor c).setLine (left ++ right) left.length = ofCursor { c with left := left, right := right } := by
  simp [EditorState.setLine, ofCursor]

variable (above : List Text)

theorem eraseIdx_behind (line next : Text) (below : List Text) :
    (above ++ line :: next :: below).eraseIdx (above.length + 1) = above ++ line :: below := by
  rw [eraseIdx_append_of_length_le (by omega), Nat.add_sub_cancel_left]
  rfl

theorem mergeWithPrevious_ofCursor (previousLine right : Text) (below : List Text) :
    (ofCursor ⟨above ++ [previousLine], [], right, below⟩).mergeWithPrevious =
      ofCursor ⟨above, previousLine, right, below⟩ := by
  simp [EditorState.mergeWithPrevious, EditorState.line, ofCursor, eraseIdx_behind]

theorem mergeWithNext_ofCursor (left nextLine : Text) (below : List Text) :
    (ofCursor ⟨above, left, [], nextLine :: below⟩).mergeWithNext = ofCursor ⟨above, left, nextLine, below⟩ := by
  simp [EditorState.mergeWithNext, EditorState.line, ofCursor, eraseIdx_behind]

/-! ### Yanks -/

/-- **A yank puts the text at the cursor.** -/
theorem insertYanked_ofCursor (text : Text) : (ofCursor c).insertYanked text = ofCursor (c.insert lf text) := by
  unfold EditorState.insertYanked splitLines
  rcases TextCursor.splitOn_cases lf text with ⟨hsgl, -⟩ | ⟨first, mid, last, hlns⟩
  · rw [TextCursor.insert_single lf hsgl, hsgl]
    dsimp only
    rw [if_pos length_singleton, before_ofCursor, after_ofCursor, cursorCol_ofCursor, ← length_append]
    exact setLine_ofCursor (c.left ++ text) c.right
  · rw [TextCursor.insert_lines lf hlns, hlns]
    have hlen : (first :: mid ++ [last]).length = mid.length + 2 := by simp
    have hlast : (first :: mid ++ [last]).getLastD [] = last := getLastD_concat
    have hmid : ((first :: mid ++ [last]).drop 1).dropLast = mid := by simp
    dsimp only
    rw [hlen, hlast, hmid, if_neg (by omega), before_ofCursor, after_ofCursor]
    simp [ofCursor]

theorem deleteYanked_insert (text : Text) : (ofCursor (c.insert lf text)).deleteYanked text = ofCursor c := by
  unfold EditorState.deleteYanked splitLines
  by_cases hnil : text = []
  · subst hnil
    rw [if_pos rfl, TextCursor.insert_single lf (by simp), append_nil]
  rw [if_neg hnil]
  rcases TextCursor.splitOn_cases lf text with ⟨hsgl, -⟩ | ⟨first, mid, last, hlns⟩
  · rw [TextCursor.insert_single lf hsgl, hsgl]
    dsimp only
    rw [if_pos length_singleton, line_ofCursor, after_ofCursor, cursorCol_ofCursor, length_append, Nat.add_sub_cancel,
      append_assoc, take_left]
    simp [EditorState.setLine, ofCursor]
  · rw [TextCursor.insert_lines lf hlns, hlns]
    have hlen : (first :: mid ++ [last]).length = mid.length + 2 := by simp
    have hrow : (c.above ++ (c.left ++ first) :: mid).length - (mid.length + 2 - 1) = c.above.length := by
      rw [length_append, length_cons]
      omega
    dsimp only
    rw [hlen, if_neg (by omega), cursorLine_ofCursor, hrow, after_ofCursor, lines_ofCursor]
    have hget : (c.above ++ (c.left ++ first) :: mid ++ (last ++ c.right) :: c.below)[c.above.length]? =
        some (c.left ++ first) := by simp
    have hdrop : (c.above ++ (c.left ++ first) :: mid ++ (last ++ c.right) :: c.below).drop
        (c.above.length + (mid.length + 2)) = c.below := by
      rw [append_assoc, ← drop_drop, drop_left]
      simp
    unfold TextCursor.lines
    dsimp only
    rw [hget, hdrop]
    simp [ofCursor]

end Editor
end EasyPi.Tui
