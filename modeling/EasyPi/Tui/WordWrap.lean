/-
# Wrapping the lines of the editor

`wordWrapLine` of `packages/tui/src/components/editor.ts`: a line is laid out as chunks that fit a width, broken at
word boundaries where that is possible. A segment wider than the width is wrapped by itself, with the same width; the
fuel of the model is the depth of these calls. A line can be laid out just when no grapheme of such a segment is
wider than the width.
-/
import EasyPi.Tui.Markers

namespace EasyPi.Tui
namespace Editor

structure TextChunk where
  text : Text
  startIndex : ℕ
  endIndex : ℕ
  deriving DecidableEq

def chunkOf (line : Text) (startIndex endIndex : ℕ) : TextChunk := ⟨slice line startIndex endIndex, startIndex, endIndex⟩

/-! ### The loop -/

/-- The variables of the loop; `wrapOpp` is the index and the width of the last wrap opportunity. -/
structure WrapState where
  chunks : List TextChunk := []
  currentWidth : ℕ := 0
  chunkStart : ℕ := 0
  wrapOpp : Option (ℕ × ℕ) := none

/-- The break before a segment that overflows the width. -/
def breakBefore (line : Text) (maxWidth gWidth charIndex : ℕ) (s : WrapState) : WrapState :=
  let forced :=
    if s.chunkStart < charIndex then
      ⟨s.chunks ++ [chunkOf line s.chunkStart charIndex], 0, charIndex, none⟩
    else { s with wrapOpp := none }
  if s.currentWidth + gWidth > maxWidth then
    match s.wrapOpp with
    | some (wrapOppIndex, wrapOppWidth) =>
      if s.currentWidth - wrapOppWidth + gWidth ≤ maxWidth then
        ⟨s.chunks ++ [chunkOf line s.chunkStart wrapOppIndex], s.currentWidth - wrapOppWidth, wrapOppIndex, none⟩
      else forced
    | none => forced
  else s

variable (u : Unicode)

/-- The chunks of a segment that was wrapped by itself. -/
def splice (charIndex : ℕ) (subChunks : List TextChunk) (s : WrapState) : WrapState :=
  match subChunks.getLast? with
  | some last =>
    { chunks := s.chunks ++ subChunks.dropLast.map fun sc =>
        ⟨sc.text, charIndex + sc.startIndex, charIndex + sc.endIndex⟩
      currentWidth := u.visibleWidth last.text
      chunkStart := charIndex + last.startIndex
      wrapOpp := none }
  | none => s

/-- White space, and not a marker. -/
def isWs (segment : Text) : Bool := !isAtomicMarker segment && isWhitespaceChar segment

/-- A text with CJK letters, and not a marker. -/
def isCjkText (segment : Text) : Bool := !isAtomicMarker segment && u.cjkBreak segment

/-- Whether a line may be broken between two segments. -/
def canWrap (grapheme next : Text) : Bool :=
  if isWs grapheme ∧ (isAtomicMarker next ∨ ¬ isWhitespaceChar next) then true
  else if ¬ isWs grapheme ∧ ¬ isWhitespaceChar next then isCjkText u grapheme || isCjkText u next
  else false

/-- A segment that fits is taken, and the wrap opportunity behind it is remembered. -/
def advance (grapheme : Text) (next : Option Segment) (s : WrapState) : WrapState :=
  let currentWidth := s.currentWidth + u.visibleWidth grapheme
  match next with
  | some next =>
    if canWrap u grapheme next.segment then
      { s with currentWidth := currentWidth, wrapOpp := some (next.index, currentWidth) }
    else { s with currentWidth := currentWidth }
  | none => { s with currentWidth := currentWidth }

/-- One turn of the loop; `rewrap` wraps a segment by itself. -/
def wrapStep (line : Text) (maxWidth : ℕ) (rewrap : Text → Option (List TextChunk)) (seg : Segment)
    (next : Option Segment) (s : WrapState) : Option WrapState :=
  let broken := breakBefore line maxWidth (u.visibleWidth seg.segment) seg.index s
  if u.visibleWidth seg.segment > maxWidth then
    (rewrap seg.segment).map fun subChunks => splice u seg.index subChunks broken
  else some (advance u seg.segment next broken)

def wrapLoop (u : Unicode) (line : Text) (maxWidth : ℕ) (rewrap : Text → Option (List TextChunk)) :
    List Segment → WrapState → Option WrapState
  | [], s => some s
  | seg :: segs, s => (wrapStep u line maxWidth rewrap seg segs.head? s).bind (wrapLoop u line maxWidth rewrap segs)

/-- `wordWrapLine`, with as many nested calls as there is fuel. -/
def wordWrapLine (u : Unicode) : ℕ → Text → ℕ → Option (List Segment) → Option (List TextChunk)
  | 0, _, _, _ => none
  | fuel + 1, line, maxWidth, preSegmented =>
    if line = [] ∨ maxWidth ≤ 0 then some [⟨[], 0, 0⟩]
    else if u.visibleWidth line ≤ maxWidth then some [⟨line, 0, line.length⟩]
    else
      let segments := preSegmented.getD (baseSegments u .grapheme line)
      (wrapLoop u line maxWidth (wordWrapLine u fuel · maxWidth none) segments {}).map fun s =>
        s.chunks ++ [⟨line.drop s.chunkStart, s.chunkStart, line.length⟩]

/-- The layout width of `render`. -/
def layoutWidth (width paddingX : ℕ) : ℕ :=
  let paddingX := min paddingX ((width - 1) / 2)
  let contentWidth := max 1 (width - paddingX * 2)
  max 1 (contentWidth - if paddingX = 0 then 1 else 0)

/-! ### Termination -/

section
variable {u : Unicode} {line : Text} {maxWidth : ℕ} {rewrap : Text → Option (List TextChunk)} {s : WrapState}

theorem wrapStep_isSome_iff (seg : Segment) (next : Option Segment) :
    (wrapStep u line maxWidth rewrap seg next s).isSome ↔
      (maxWidth < u.visibleWidth seg.segment → (rewrap seg.segment).isSome) := by
  unfold wrapStep
  by_cases hwide : u.visibleWidth seg.segment > maxWidth
  · simp only [if_pos hwide, Option.isSome_map]
    exact ⟨fun h _ => h, fun h => h hwide⟩
  · simp only [if_neg hwide, Option.isSome_some, true_iff]
    intro h
    omega

theorem wrapLoop_isSome_iff (segs : List Segment) : (wrapLoop u line maxWidth rewrap segs s).isSome ↔
      ∀ seg ∈ segs, maxWidth < u.visibleWidth seg.segment → (rewrap seg.segment).isSome := by
  induction segs generalizing s with
  | nil => simp [wrapLoop]
  | cons seg segs ih =>
    rw [wrapLoop, List.forall_mem_cons, ← wrapStep_isSome_iff (s := s) seg segs.head?]
    cases hstep : wrapStep u line maxWidth rewrap seg segs.head? s with
    | none => simp
    | some s₁ =>
      rw [Option.bind_some, ih]
      simp

theorem wordWrapLine_isSome_iff (hmax : 1 ≤ maxWidth) (fuel : ℕ) (preSegmented : Option (List Segment)) :
    (wordWrapLine u (fuel + 1) line maxWidth preSegmented).isSome ↔
      u.visibleWidth line ≤ maxWidth ∨ ∀ seg ∈ preSegmented.getD (baseSegments u .grapheme line),
        maxWidth < u.visibleWidth seg.segment → (wordWrapLine u fuel seg.segment maxWidth none).isSome := by
  rw [wordWrapLine]
  by_cases hnil : line = [] ∨ maxWidth ≤ 0
  · have hline : line = [] := hnil.resolve_right (by omega)
    subst hline
    simp
  rw [if_neg hnil]
  by_cases hfits : u.visibleWidth line ≤ maxWidth
  · rw [if_pos hfits]
    simp [hfits]
  · rw [if_neg hfits]
    dsimp only
    rw [Option.isSome_map, wrapLoop_isSome_iff]
    exact ⟨Or.inr, fun h => h.resolve_left hfits⟩

theorem map_segment_indexed (i : ℕ) (segments : List Text) :
    (indexed i (segments.map (·, false))).map Segment.segment = segments := by
  induction segments generalizing i with
  | nil => rfl
  | cons g segments ih => exact congrArg (g :: ·) (ih _)

theorem forall_graphemes_iff {motive : Text → Prop} {text : Text} :
    (∀ seg ∈ baseSegments u .grapheme text, motive seg.segment) ↔ ∀ g ∈ u.graphemes text, motive g := by
  have hmap : (baseSegments u .grapheme text).map Segment.segment = u.graphemes text := map_segment_indexed 0 _
  rw [← hmap, List.forall_mem_map]

theorem wordWrapLine_grapheme {g : Text} (hself : u.graphemes g = [g]) (hmax : 1 ≤ maxWidth)
    (hwide : maxWidth < u.visibleWidth g) (fuel : ℕ) : wordWrapLine u fuel g maxWidth none = none := by
  induction fuel with
  | zero => rfl
  | succ fuel ih =>
    rw [← Option.not_isSome_iff_eq_none, wordWrapLine_isSome_iff hmax]
    rintro (hfits | hsegs)
    · omega
    · have hcall := forall_graphemes_iff (motive := fun t =>
        maxWidth < u.visibleWidth t → (wordWrapLine u fuel t maxWidth none).isSome).mp hsegs g (by simp [hself]) hwide
      rw [ih] at hcall
      cases hcall

theorem wordWrapLine_segment (hu : u.LawfulGraphemes) (hmax : 1 ≤ maxWidth) {segment : Text}
    (hwide : maxWidth < u.visibleWidth segment) : (∃ fuel, (wordWrapLine u fuel segment maxWidth none).isSome) ↔
      ∀ g ∈ u.graphemes segment, u.visibleWidth g ≤ maxWidth := by
  constructor
  · rintro ⟨fuel, hfuel⟩ g hg
    by_contra hlar
    cases fuel with
    | zero => cases hfuel
    | succ fuel =>
      rcases (wordWrapLine_isSome_iff hmax fuel none).mp hfuel with hfits | hsegs
      · omega
      · have hcall := forall_graphemes_iff (motive := fun t =>
          maxWidth < u.visibleWidth t → (wordWrapLine u fuel t maxWidth none).isSome).mp hsegs g hg (by omega)
        rw [wordWrapLine_grapheme (hu.self hg) hmax (by omega)] at hcall
        cases hcall
  · intro hgra
    refine ⟨1, (wordWrapLine_isSome_iff hmax 0 none).mpr (Or.inr ?_)⟩
    refine forall_graphemes_iff (motive := fun t =>
      maxWidth < u.visibleWidth t → (wordWrapLine u 0 t maxWidth none).isSome).mpr fun g hg hlar => ?_
    have hle := hgra g hg
    omega

end

theorem one_le_layoutWidth (width paddingX : ℕ) : 1 ≤ layoutWidth width paddingX := le_max_left _ _

/-- **Layout ends.** A line can be laid out exactly when it fits or none of its segments that are wider than the
layout contains a grapheme that is. -/
theorem wordWrapLine_terminates_iff (hu : u.LawfulGraphemes) (line : Text) (segments : List Segment)
    (width paddingX : ℕ) : (∃ fuel, (wordWrapLine u fuel line (layoutWidth width paddingX) (some segments)).isSome) ↔
      u.visibleWidth line ≤ layoutWidth width paddingX ∨
        ∀ seg ∈ segments, layoutWidth width paddingX < u.visibleWidth seg.segment →
          ∀ g ∈ u.graphemes seg.segment, u.visibleWidth g ≤ layoutWidth width paddingX := by
  have hmax := one_le_layoutWidth width paddingX
  constructor
  · rintro ⟨fuel, hfuel⟩
    cases fuel with
    | zero => cases hfuel
    | succ fuel =>
      rcases (wordWrapLine_isSome_iff hmax fuel _).mp hfuel with hfits | hsegs
      · exact Or.inl hfits
      · exact Or.inr fun seg hseg hwide =>
          (wordWrapLine_segment hu hmax hwide).mp ⟨fuel, hsegs seg hseg hwide⟩
  · rintro (hfits | hsegs)
    · exact ⟨1, (wordWrapLine_isSome_iff hmax 0 _).mpr (Or.inl hfits)⟩
    · refine ⟨2, (wordWrapLine_isSome_iff hmax 1 _).mpr (Or.inr fun seg hseg hwide => ?_)⟩
      refine (wordWrapLine_isSome_iff hmax 0 none).mpr (Or.inr ?_)
      refine forall_graphemes_iff (motive := fun t =>
        layoutWidth width paddingX < u.visibleWidth t → (wordWrapLine u 0 t _ none).isSome).mpr fun g hg hlar => ?_
      have hle := hsegs seg hseg hwide g hg
      omega

/-- The ideograph for "middle", two columns wide. -/
def ideograph : Text := [0x4E2D]

/-- Two Latin words and an ideograph, in four columns. -/
theorem wordWrapLine_terminates_narrow :
    ∃ fuel, (wordWrapLine basicUnicode fuel [0x61, 0x62, 0x20, 0x4E2D] (layoutWidth 4 0)
      (some (segmentWithMarkers basicUnicode .grapheme [0x61, 0x62, 0x20, 0x4E2D] [] []))).isSome :=
  (wordWrapLine_terminates_iff basicUnicode basicUnicode_lawful _ _ 4 0).mpr (Or.inr (by decide))

/-- **Layout diverges.** An ideograph in a pane of one column is wrapped without an end. -/
theorem wordWrapLine_diverges : ¬ ∀ (u : Unicode) (line : Text) (width paddingX : ℕ), u.LawfulGraphemes → 1 ≤ width →
      ∃ fuel, (wordWrapLine u fuel line (layoutWidth width paddingX)
        (some (segmentWithMarkers u .grapheme line [] []))).isSome := by
  intro h
  obtain ⟨fuel, hfuel⟩ := h basicUnicode ideograph 1 0 basicUnicode_lawful le_rfl
  have hwide : layoutWidth 1 0 < basicUnicode.visibleWidth ideograph := by decide
  cases fuel with
  | zero => cases hfuel
  | succ fuel =>
    rcases (wordWrapLine_isSome_iff (one_le_layoutWidth 1 0) fuel _).mp hfuel with hfits | hsegs
    · omega
    · have hcall := hsegs ⟨ideograph, 0, false⟩ (by decide) hwide
      rw [wordWrapLine_grapheme rfl (one_le_layoutWidth 1 0) hwide] at hcall
      cases hcall

end Editor
end EasyPi.Tui
