/-
# Segments of the editor

`segmentWithMarkers` of `packages/tui/src/components/editor.ts` and `findSkillMentions` of
`packages/tui/src/skill-mentions.ts`: the graphemes or words of a text, in which the markers of pastes and
attachments and the mentions of skills are single segments.
-/
import Mathlib.Data.List.Sort
import EasyPi.Tui.Width

namespace EasyPi.Tui
namespace Editor

/-- Part of a text, from an index up to another. -/
structure Span where
  start : ℕ
  stop : ℕ
  deriving DecidableEq

/-- `text.matchAll`, for an expression that matches a text in one way: what it captures and its length. `skip` units
of a match are still to be passed over. -/
def matchAll {α : Type} (matchAt : Text → Option (α × ℕ)) : ℕ → ℕ → Text → List (α × Span)
  | _, _, [] => []
  | offset, skip + 1, _ :: rest => matchAll matchAt (offset + 1) skip rest
  | offset, 0, c :: rest =>
    match matchAt (c :: rest) with
    | some (captured, length) => (captured, ⟨offset, offset + length⟩) :: matchAll matchAt (offset + 1) (length - 1) rest
    | none => matchAll matchAt (offset + 1) 0 rest

/-- `[paste #`. -/
def pastePrefix : Text := [0x5B, 0x70, 0x61, 0x73, 0x74, 0x65, 0x20, 0x23]

/-- ` lines]`. -/
def linesEnd : Text := [0x20, 0x6C, 0x69, 0x6E, 0x65, 0x73, 0x5D]

/-- ` chars]`. -/
def charsEnd : Text := [0x20, 0x63, 0x68, 0x61, 0x72, 0x73, 0x5D]

/-- The length of `\d+` and a text behind it. -/
def digitsThen (behind text : Text) : Option ℕ :=
  let digits := text.takeWhile isDigit
  if digits ≠ [] ∧ behind <+: text.drop digits.length then some (digits.length + behind.length) else none

/-- The length of `( (\+\d+ lines|\d+ chars))?\]`. -/
def markerEndLength (text : Text) : Option ℕ :=
  if [closeBracket] <+: text then some 1
  else if [space, 0x2B] <+: text then (digitsThen linesEnd (text.drop 2)).map (· + 2)
  else if [space] <+: text then (digitsThen charsEnd (text.drop 1)).map (· + 1)
  else none

/-- `PASTE_MARKER_REGEX` at the start of a text: the identifier and the length. -/
def pasteMarkerAt (text : Text) : Option (ℕ × ℕ) :=
  let digits := (text.drop pastePrefix.length).takeWhile isDigit
  if pastePrefix <+: text ∧ digits ≠ [] then
    (markerEndLength (text.drop (pastePrefix.length + digits.length))).map fun length =>
      (parseInt digits, pastePrefix.length + digits.length + length)
  else none

/-- `PASTE_MARKER_SINGLE.test`. -/
def isPasteMarker (segment : Text) : Bool := (pasteMarkerAt segment).any fun found => found.2 = segment.length

def isLineTerminator (c : UInt16) : Bool := c = lf || c = cr || c = 0x2028 || c = 0x2029

/-- `/^\[.+ #\d+]$/`. -/
def isAttachmentMarker (segment : Text) : Bool :=
  let inner := (segment.drop 1).dropLast.reverse
  let label := inner.dropWhile isDigit
  2 ≤ segment.length && segment.head? = some openBracket && segment.getLast? = some closeBracket &&
    inner.length ≠ label.length && decide ([0x23, space] <+: label) && 2 < label.length &&
    (label.drop 2).all fun c => !isLineTerminator c

/-- The invisible separator of skill mentions. -/
def mentionMark : UInt16 := 0x2063

def isNameUnit (c : UInt16) : Bool := c ≠ mentionMark && c ≠ cr && c ≠ lf

/-- `SKILL_MENTION_PATTERN` at the start of a text: the length. -/
def skillMentionAt (text : Text) : Option (Unit × ℕ) :=
  let name := (text.drop 2).takeWhile isNameUnit
  if [mentionMark, mentionMark] <+: text ∧ name ≠ [] ∧ text[2 + name.length]? = some mentionMark then
    some ((), name.length + 3)
  else none

/-- `findSkillMentions`, the spans. -/
def findSkillMentions (text : Text) : List Span := (matchAll skillMentionAt 0 0 text).map (·.2)

def isSkillMention (text : Text) : Bool :=
  let name := (text.drop 2).dropLast
  decide ([mentionMark, mentionMark] <+: text) && text.getLast? = some mentionMark && name ≠ [] && name.all isNameUnit

def isAtomicMarker (segment : Text) : Bool :=
  (10 ≤ segment.length && isPasteMarker segment) || isAttachmentMarker segment || isSkillMention segment

/-! ### Segments -/

structure Segment where
  segment : Text
  index : ℕ
  isWordLike : Bool := false
  deriving DecidableEq

def indexed : ℕ → List (Text × Bool) → List Segment
  | _, [] => []
  | index, (segment, isWordLike) :: segments =>
    ⟨segment, index, isWordLike⟩ :: indexed (index + segment.length) segments

inductive Mode where
  | word | grapheme
  deriving DecidableEq

/-- `baseSegmenter.segment(text)`. -/
def baseSegments (u : Unicode) (mode : Mode) (text : Text) : List Segment :=
  indexed 0 (match mode with
    | .word => u.words text
    | .grapheme => (u.graphemes text).map (·, false))

/-- The loop of `segmentWithMarkers`. -/
def mergeMarkers (text : Text) : List Span → List Segment → List Segment
  | _, [] => []
  | markers, seg :: segs =>
    let markers := markers.dropWhile fun marker => marker.stop ≤ seg.index
    match markers.head? with
    | some marker =>
      if marker.start ≤ seg.index ∧ seg.index < marker.stop then
        -- the segments of a marker are merged into the first of them
        if seg.index = marker.start then
          ⟨slice text marker.start marker.stop, marker.start, false⟩ :: mergeMarkers text markers segs
        else mergeMarkers text markers segs
      else seg :: mergeMarkers text markers segs
    | none => seg :: mergeMarkers text markers segs

/-- The registered markers of a text, by their starts. -/
def markersOf (text : Text) (validPasteIds : List ℤ) (attachmentMarkers : List Text) : List Span :=
  let pasteMarkers := (matchAll pasteMarkerAt 0 0 text).filter fun found => validPasteIds.contains (found.1 : ℤ)
  let attachments := attachmentMarkers.flatMap fun marker =>
    (matchAll (fun t => if marker <+: t then some ((), marker.length) else none) 0 0 text).map (·.2)
  (findSkillMentions text ++ pasteMarkers.map (·.2) ++ attachments).insertionSort fun a b => a.start ≤ b.start

def segmentWithMarkers (u : Unicode) (mode : Mode) (text : Text) (validPasteIds : List ℤ)
    (attachmentMarkers : List Text) : List Segment :=
  let markers := markersOf text validPasteIds attachmentMarkers
  if markers = [] then baseSegments u mode text else mergeMarkers text markers (baseSegments u mode text)

/-- The lines of the document and the place of the cursor. -/
structure EditorState where
  lines : List Text
  cursorLine : ℕ
  cursorCol : ℕ
  deriving DecidableEq

end Editor
end EasyPi.Tui
