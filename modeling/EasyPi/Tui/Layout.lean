/-
# The layout of the editor

`layoutText` of `packages/tui/src/components/editor.ts`. The lines of the document are laid out one after the other,
and the cursor is shown in one of the layout lines.
-/
import EasyPi.Tui.WordWrapPartition

namespace EasyPi.Tui

open List
namespace Editor

structure LayoutLine where
  text : Text
  lineIndex : ℕ
  startIndex : ℕ
  endIndex : ℕ
  hasCursor : Bool
  cursorPos : Option ℕ := none
  deriving DecidableEq

/-- The layout line of a chunk; `cursor` is the column of the cursor in a line that has it. -/
def layoutChunk (lineIndex : ℕ) (cursor : Option ℕ) (chunk : TextChunk) (isLastChunk : Bool) : LayoutLine :=
  let without := ⟨chunk.text, lineIndex, chunk.startIndex, chunk.endIndex, false, none⟩
  match cursor with
  | none => without
  | some cursorPos =>
    if isLastChunk ∧ chunk.startIndex ≤ cursorPos then
      { without with hasCursor := true, cursorPos := some (cursorPos - chunk.startIndex) }
    else if ¬ isLastChunk ∧ chunk.startIndex ≤ cursorPos ∧ cursorPos < chunk.endIndex then
      { without with hasCursor := true, cursorPos := some (min (cursorPos - chunk.startIndex) chunk.text.length) }
    else without

def layoutChunks (lineIndex : ℕ) (cursor : Option ℕ) : List TextChunk → List LayoutLine
  | [] => []
  | chunk :: chunks => layoutChunk lineIndex cursor chunk chunks.isEmpty :: layoutChunks lineIndex cursor chunks

/-- The layout lines of a line of the document. -/
def layoutLine (u : Unicode) (fuel contentWidth : ℕ) (segment : Text → List Segment) (lineIndex : ℕ)
    (cursor : Option ℕ) (line : Text) : Option (List LayoutLine) :=
  if u.visibleWidth line ≤ contentWidth then some [⟨line, lineIndex, 0, line.length, cursor.isSome, cursor⟩]
  else (wordWrapLine u fuel line contentWidth (some (segment line))).map (layoutChunks lineIndex cursor)

/-- The loop of `layoutText`, from a line on. -/
def layoutLines (u : Unicode) (fuel contentWidth : ℕ) (segment : Text → List Segment) (cursorLine cursorCol : ℕ) :
    ℕ → List Text → Option (List LayoutLine)
  | _, [] => some []
  | i, line :: lines =>
    (layoutLine u fuel contentWidth segment i (if i = cursorLine then some cursorCol else none) line).bind fun first =>
      (layoutLines u fuel contentWidth segment cursorLine cursorCol (i + 1) lines).map (first ++ ·)

/-- `layoutText`, with the identifiers of the pastes and the markers of the attachments of the editor. -/
def layoutText (u : Unicode) (fuel : ℕ) (validPasteIds : List ℤ) (attachmentMarkers : List Text)
    (state : EditorState) (contentWidth : ℕ) : Option (List LayoutLine) :=
  if state.lines = [] ∨ state.lines = [[]] then some [⟨[], 0, 0, 0, true, some 0⟩]
  else layoutLines u fuel contentWidth (segmentWithMarkers u .grapheme · validPasteIds attachmentMarkers)
    state.cursorLine state.cursorCol 0 state.lines

/-! ### Partitions -/

/-- Chunks that follow each other from an index to the end of the line. -/
def Consecutive (line : Text) : ℕ → List TextChunk → Prop
  | index, [] => index = line.length
  | index, chunk :: chunks => chunk.startIndex = index ∧ chunk.startIndex ≤ chunk.endIndex ∧
      chunk.text = slice line chunk.startIndex chunk.endIndex ∧ Consecutive line chunk.endIndex chunks

/-- The chunks of a line cut it into parts that fit, at the places for breaks. -/
structure Partitions (u : Unicode) (maxWidth : ℕ) (line : Text) (groups : List (List Text))
    (chunks : List TextChunk) : Prop where
  ne_nil : chunks ≠ []
  consecutive : Consecutive line 0 chunks
  fits : ∀ chunk ∈ chunks, u.visibleWidth chunk.text ≤ maxWidth
  text_ne_nil : line ≠ [] → ∀ chunk ∈ chunks, chunk.text ≠ []
  breaks : ∀ chunk ∈ chunks, ∃ before behind, u.graphemes line = before ++ behind ∧
    chunk.startIndex = before.flatten.length ∧ BreaksAt u maxWidth groups before

variable {u : Unicode} {maxWidth : ℕ} {line : Text} {groups : List (List Text)} {chunks : List TextChunk}

variable {allowed : List Text → Prop}

theorem Laid.consecutive {before : List Text} (h : Laid u maxWidth allowed before chunks)
    {behind : List Text} (hline : line = (before ++ behind).flatten) {following : List TextChunk}
    (hrest : Consecutive line (unitsOf before) following) : Consecutive line 0 (chunks ++ following) := by
  induction h generalizing behind following with
  | nil => exact hrest
  | snoc h hne hfits halw ih =>
    rw [append_assoc] at hline ⊢
    rename_i before part chunks
    refine ih hline ⟨rfl, ?_, ?_, hrest⟩
    · dsimp only
      rw [unitsOf_append]
      omega
    · dsimp only
      rw [hline, ← append_assoc, slice_flatten]

theorem Laid.of_mem {gs : List Text} (h : Laid u maxWidth allowed gs chunks) :
    ∀ chunk ∈ chunks, ∃ before part behind, gs = before ++ part ++ behind ∧ part ≠ [] ∧ widthOf u part ≤ maxWidth ∧
      chunk.text = part.flatten ∧ chunk.startIndex = unitsOf before ∧ allowed before := by
  induction h with
  | nil => exact fun chunk hchk => by cases hchk
  | snoc h hne hfits halw ih =>
    rename_i start part chunks
    intro chunk hchk
    rcases mem_append.mp hchk with hold | hnew
    · obtain ⟨before, part', behind, hgs, hrest⟩ := ih chunk hold
      exact ⟨before, part', behind ++ part, by rw [hgs, append_assoc], hrest⟩
    · rw [mem_singleton] at hnew
      subst hnew
      exact ⟨start, part, [], (append_nil _).symm, hne, hfits, rfl, rfl, halw⟩

theorem Laid.ne_nil {gs : List Text} (h : Laid u maxWidth allowed gs chunks) (hgs : gs ≠ []) : chunks ≠ [] := by
  cases h with
  | nil => exact absurd rfl hgs
  | snoc => exact concat_ne_nil _ _

theorem Laid.partitions (hu : u.LawfulGraphemes) (h : Wrappable u maxWidth line groups)
    (hlaid : Laid u maxWidth (BreaksAt u maxWidth groups) (u.graphemes line) chunks) (hpos : line ≠ []) :
    Partitions u maxWidth line groups chunks := by
  have hline : line = (u.graphemes line ++ []).flatten := by rw [append_nil, hu.flatten]
  have hne : u.graphemes line ≠ [] := fun hnil => hpos (by rw [hline, hnil]; rfl)
  refine ⟨hlaid.ne_nil hne, ?_, fun chunk hchk => ?_, fun _ chunk hchk => ?_, fun chunk hchk => ?_⟩
  · have hend : Consecutive line (unitsOf (u.graphemes line)) [] := by
      change (u.graphemes line).flatten.length = line.length
      rw [hu.flatten]
    simpa using hlaid.consecutive hline hend
  · obtain ⟨before, part, behind, hgs, -, hfits, htext, -⟩ := hlaid.of_mem chunk hchk
    rwa [htext, h.additive part ⟨before, behind, hgs.symm⟩]
  · obtain ⟨before, part, behind, hgs, hpart, -, htext, -⟩ := hlaid.of_mem chunk hchk
    have hun : 0 < unitsOf part := unitsOf_pos hpart fun g hg => hu.ne_nil line g (by rw [hgs]; simp [hg])
    rw [htext]
    exact length_pos_iff.mp hun
  · obtain ⟨before, part, behind, hgs, -, -, -, hpre, halw⟩ := hlaid.of_mem chunk hchk
    exact ⟨before, part ++ behind, by rw [hgs, append_assoc], hpre, halw⟩

theorem partitions_nil : Partitions u maxWidth [] groups [⟨[], 0, 0⟩] := by
  refine ⟨cons_ne_nil _ _, ⟨rfl, le_rfl, rfl, rfl⟩, fun chunk hchk => ?_, fun hne => absurd rfl hne, fun chunk hchk => ?_⟩
  · rw [mem_singleton.mp hchk]
    exact Nat.zero_le _
  · rw [mem_singleton.mp hchk]
    exact ⟨[], u.graphemes [], rfl, rfl, Or.inl ⟨[], groups, rfl, rfl⟩⟩

/-! ### The cursor -/

/-- The number of layout lines that have the cursor. -/
def cursors (layout : List LayoutLine) : ℕ := (layout.filter (·.hasCursor)).length

theorem cursors_append (first rest : List LayoutLine) : cursors (first ++ rest) = cursors first + cursors rest := by
  unfold cursors
  rw [filter_append, length_append]

theorem cursors_layoutChunks_none (lineIndex : ℕ) (chunks : List TextChunk) :
    cursors (layoutChunks lineIndex none chunks) = 0 := by
  induction chunks with
  | nil => rfl
  | cons chunk chunks ih => exact ih

/-- The cursor is in one chunk, unless it is before the first. -/
theorem cursors_layoutChunks (lineIndex cursorPos : ℕ) {index : ℕ} (h : Consecutive line index chunks)
    (hne : chunks ≠ []) :
    cursors (layoutChunks lineIndex (some cursorPos) chunks) = if index ≤ cursorPos then 1 else 0 := by
  induction chunks generalizing index with
  | nil => exact absurd rfl hne
  | cons chunk chunks ih =>
    obtain ⟨rfl, hle, -, hrest⟩ := h
    rw [layoutChunks, ← singleton_append, cursors_append]
    cases chunks with
    | nil =>
      by_cases hcur : chunk.startIndex ≤ cursorPos
      · simp [cursors, layoutChunk, layoutChunks, hcur]
      · simp [cursors, layoutChunk, layoutChunks, hcur]
    | cons next chunks =>
      rw [ih hrest (cons_ne_nil _ _)]
      by_cases hend : chunk.endIndex ≤ cursorPos
      · have hlt : ¬ cursorPos < chunk.endIndex := by omega
        have hpre : chunk.startIndex ≤ cursorPos := by omega
        simp [cursors, layoutChunk, hend, hlt, hpre]
      · have hlt : cursorPos < chunk.endIndex := by omega
        by_cases hpre : chunk.startIndex ≤ cursorPos
        · simp [cursors, layoutChunk, hend, hlt, hpre]
        · simp [cursors, layoutChunk, hend, hpre]

theorem cursors_layoutLine (hu : u.LawfulGraphemes) (hmax : 1 ≤ maxWidth) {segment : Text → List Segment}
    (hseg : segment line = segmentsOf 0 groups) (h : Wrappable u maxWidth line groups) (fuel lineIndex : ℕ)
    (cursor : Option ℕ) : ∃ layout, layoutLine u (fuel + 2) maxWidth segment lineIndex cursor line = some layout ∧
      cursors layout = if cursor.isSome then 1 else 0 := by
  unfold layoutLine
  by_cases hfits : u.visibleWidth line ≤ maxWidth
  · rw [if_pos hfits]
    refine ⟨_, rfl, ?_⟩
    cases cursor <;> rfl
  · rw [if_neg hfits, hseg]
    have hpos : line ≠ [] := by
      rintro rfl
      exact hfits (Nat.zero_le _)
    obtain ⟨chunks, hchu, hlaid⟩ := wordWrapLine_partition hu hmax h hpos fuel
    have hpts := hlaid.partitions hu h hpos
    rw [hchu]
    refine ⟨_, rfl, ?_⟩
    cases cursor with
    | none => exact cursors_layoutChunks_none _ _
    | some cursorPos => exact cursors_layoutChunks _ _ hpts.consecutive hpts.ne_nil

theorem cursors_layoutLines (hu : u.LawfulGraphemes) (hmax : 1 ≤ maxWidth) {segment : Text → List Segment}
    (fuel cursorLine cursorCol i : ℕ) (lines : List Text)
    (h : ∀ line ∈ lines, ∃ groups, segment line = segmentsOf 0 groups ∧ Wrappable u maxWidth line groups) :
    ∃ layout, layoutLines u (fuel + 2) maxWidth segment cursorLine cursorCol i lines = some layout ∧
      cursors layout = if i ≤ cursorLine ∧ cursorLine < i + lines.length then 1 else 0 := by
  induction lines generalizing i with
  | nil =>
    refine ⟨[], rfl, ?_⟩
    rw [if_neg (by rw [length_nil]; omega)]
    rfl
  | cons line lines ih =>
    obtain ⟨⟨groups, hseg, hline⟩, hlns⟩ := forall_mem_cons.mp h
    obtain ⟨first, hfst, hcur⟩ :=
      cursors_layoutLine hu hmax hseg hline fuel i (if i = cursorLine then some cursorCol else none)
    obtain ⟨rest, hrest, hcurs⟩ := ih (i + 1) hlns
    refine ⟨first ++ rest, ?_, ?_⟩
    · rw [layoutLines, hfst, Option.bind_some, hrest]
      rfl
    · rw [cursors_append, hcur, hcurs, length_cons]
      by_cases hi : i = cursorLine
      · rw [if_pos (by simp [hi]), if_neg (by omega), if_pos (by omega)]
      · rw [if_neg (by simp [hi])]
        by_cases hin : i ≤ cursorLine ∧ cursorLine < i + (lines.length + 1)
        · rw [if_pos (by omega), if_pos hin]
        · rw [if_neg (by omega), if_neg hin]

/-- **Word wrap is a partition.** The chunks of a line follow each other over the line, fit the width, and break it at
the places for breaks; and one layout line of a document has the cursor. -/
theorem wordWrap_partition (u : Unicode) (hu : u.LawfulGraphemes) (maxWidth : ℕ) (hmax : 1 ≤ maxWidth) :
    (∀ line groups, Wrappable u maxWidth line groups → ∀ fuel, 2 ≤ fuel → ∃ chunks,
      wordWrapLine u fuel line maxWidth (some (segmentsOf 0 groups)) = some chunks ∧
        Partitions u maxWidth line groups chunks) ∧
    ∀ (state : EditorState) (validPasteIds : List ℤ) (attachmentMarkers : List Text),
      state.cursorLine < state.lines.length → (∀ line ∈ state.lines, ∃ groups,
        segmentWithMarkers u .grapheme line validPasteIds attachmentMarkers = segmentsOf 0 groups ∧
          Wrappable u maxWidth line groups) →
      ∀ fuel, 2 ≤ fuel → ∃ layout, layoutText u fuel validPasteIds attachmentMarkers state maxWidth = some layout ∧
        (layout.filter (·.hasCursor)).length = 1 := by
  refine ⟨fun line groups h fuel hfuel => ?_, fun state ids attachments hcur hlns fuel hfuel => ?_⟩
  · obtain ⟨fuel, rfl⟩ : ∃ k, fuel = k + 2 := ⟨fuel - 2, by omega⟩
    by_cases hpos : line = []
    · subst hpos
      exact ⟨_, by rw [wordWrapLine, if_pos (Or.inl rfl)], partitions_nil⟩
    · obtain ⟨chunks, hchu, hlaid⟩ := wordWrapLine_partition hu hmax h hpos fuel
      exact ⟨chunks, hchu, hlaid.partitions hu h hpos⟩
  · obtain ⟨fuel, rfl⟩ : ∃ k, fuel = k + 2 := ⟨fuel - 2, by omega⟩
    unfold layoutText
    by_cases hemp : state.lines = [] ∨ state.lines = [[]]
    · rw [if_pos hemp]
      exact ⟨_, rfl, rfl⟩
    · rw [if_neg hemp]
      obtain ⟨layout, hlay, hcnt⟩ := cursors_layoutLines hu hmax fuel state.cursorLine state.cursorCol 0 state.lines
        hlns
      refine ⟨layout, hlay, hcnt.trans (if_pos ?_)⟩
      omega

/-- A line of a letter, a paste marker and an ideograph. -/
def markedLine : Text := [0x61, 0x5B, 0x70, 0x61, 0x73, 0x74, 0x65, 0x20, 0x23, 0x31, 0x5D, 0x4E2D]

/-- Its graphemes; those of the marker are one segment. -/
def markedGroups : List (List Text) :=
  [[[0x61]], [[0x5B], [0x70], [0x61], [0x73], [0x74], [0x65], [0x20], [0x23], [0x31], [0x5D]], [[0x4E2D]]]

theorem markedLine_wrappable : Wrappable basicUnicode 4 markedLine markedGroups where
  graphemes := rfl
  ne_nil := by decide
  fits := by decide
  additive := basicUnicode_additive (by decide) (by decide)

/-- The marker is wider than four columns and is wrapped by itself. -/
theorem wordWrap_partition_marked :
    (∃ chunks, wordWrapLine basicUnicode 2 markedLine 4 (some (segmentsOf 0 markedGroups)) = some chunks ∧
      Partitions basicUnicode 4 markedLine markedGroups chunks) ∧
    ∃ layout, layoutText basicUnicode 2 [1] [] ⟨[markedLine], 0, 5⟩ 4 = some layout ∧
      (layout.filter (·.hasCursor)).length = 1 := by
  have hwrap := wordWrap_partition basicUnicode basicUnicode_lawful 4 (by decide)
  refine ⟨hwrap.1 _ _ markedLine_wrappable 2 le_rfl, hwrap.2 _ _ _ (by decide) (fun line hline => ?_) 2 le_rfl⟩
  rw [mem_singleton.mp hline]
  exact ⟨markedGroups, by decide, markedLine_wrappable⟩

end Editor
end EasyPi.Tui
