/-
# Words at the cursor

`findWordBackward` and `findWordForward` of `packages/tui/src/word-navigation.ts`: where the cursor stands after a move
over one word, with the white space before it.
-/
import EasyPi.Tui.Markers

namespace EasyPi.Tui
namespace Editor

/-- `PUNCTUATION_REGEX`, of one unit. -/
def isPunctuation (c : UInt16) : Bool :=
  (0x21 ≤ c && c ≤ 0x2F) || (0x3A ≤ c && c ≤ 0x40) || (0x5B ≤ c && c ≤ 0x5E) || c = 0x60 || (0x7B ≤ c && c ≤ 0x7E)

/-- White space that is not a marker. -/
def Segment.isBlank (seg : Segment) : Bool := !isAtomicMarker seg.segment && isWhitespaceChar seg.segment

def Segment.isOther (seg : Segment) : Bool :=
  !isAtomicMarker seg.segment && !seg.isWordLike && !isWhitespaceChar seg.segment

def lengths (segments : List Segment) : ℕ := (segments.map fun seg => seg.segment.length).sum

/-- `findWordBackward`, with the segmenter of the editor. -/
def findWordBackward (segment : Text → List Segment) (text : Text) (cursor : ℕ) : ℕ :=
  if cursor ≤ 0 then 0
  else
    let segments := (segment (text.take cursor)).reverse
    let blanks := segments.takeWhile Segment.isBlank
    let newCursor := cursor - lengths blanks
    match segments.drop blanks.length with
    | [] => newCursor
    | last :: rest =>
      if isAtomicMarker last.segment then newCursor - last.segment.length
      else if last.isWordLike then
        -- what stands behind the last punctuation of the word
        newCursor - (last.segment.reverse.takeWhile fun c => !isPunctuation c).length
      else newCursor - lengths ((last :: rest).takeWhile Segment.isOther)

/-- `findWordForward`, with the segmenter of the editor. -/
def findWordForward (segment : Text → List Segment) (text : Text) (cursor : ℕ) : ℕ :=
  if cursor ≥ text.length then text.length
  else
    let segments := segment (text.drop cursor)
    let blanks := segments.takeWhile Segment.isBlank
    let newCursor := cursor + lengths blanks
    match segments.drop blanks.length with
    | [] => newCursor
    | next :: rest =>
      if isAtomicMarker next.segment then newCursor + next.segment.length
      else if next.isWordLike then newCursor + (next.segment.takeWhile fun c => !isPunctuation c).length
      else newCursor + lengths ((next :: rest).takeWhile Segment.isOther)

variable (segment : Text → List Segment) (text : Text) (cursor : ℕ)

theorem findWordBackward_le : findWordBackward segment text cursor ≤ cursor := by
  unfold findWordBackward
  split
  · omega
  · dsimp only
    split
    · omega
    · split
      · omega
      · split
        · omega
        · omega

theorem le_findWordForward (h : cursor ≤ text.length) : cursor ≤ findWordForward segment text cursor := by
  unfold findWordForward
  split
  · exact h
  · dsimp only
    split
    · omega
    · split
      · omega
      · split
        · omega
        · omega

end Editor
end EasyPi.Tui
