/-
# Replacing text line by line

`applyReplacements` puts new texts in place of ranges, from the last range to the first. When the
ranges were found in a normalized copy of a file, `applyReplacementsPreservingUnchangedLines` takes
the lines they touch from the copy and all others from the file. Texts are sequences of UTF-16 code
units, and ranges count them.
-/
import EasyPi.Lib.CodeUnits
import EasyPi.Lib.TextLines

namespace EasyPi.CodingAgent
namespace EditDiff

export CodeUnits (Text lf cr isWhiteSpace)

/-- Why edits are not applied. -/
inductive EditError where
  | emptyOldText (editIndex totalEdits : ℕ)
  | ambiguousSimilar (editIndex totalEdits : ℕ) (lines : List ℕ)
  | incrementalMatch (editIndex totalEdits : ℕ)
  | notFound (editIndex totalEdits : ℕ)
  | duplicate (editIndex totalEdits occurrences : ℕ) (occurrenceLines : List ℕ)
  | overlap (previous current : ℕ)
  | noChange (totalEdits : ℕ)
  | lineCount
  | outsideBase
  deriving DecidableEq

/-- `splitLinesWithEndings`: the matches of `/[^\n]*\n|[^\n]+/g`. -/
def splitLinesWithEndings (content : Text) : List Text := endedLines lf content

structure LineSpan where
  start : ℕ
  stop : ℕ
  deriving DecidableEq

structure TextReplacement where
  matchIndex : ℕ
  matchLength : ℕ
  newText : Text
  deriving DecidableEq

/-- The spans of lines, the first of which starts at `offset`. -/
def spansFrom : ℕ → List Text → List LineSpan
  | _, [] => []
  | offset, line :: lines =>
    { start := offset, stop := offset + line.length } :: spansFrom (offset + line.length) lines

def getLineSpans (content : Text) : List LineSpan := spansFrom 0 (splitLinesWithEndings content)

/-- `getReplacementLineRange`: the first line a replacement touches, and the one after the last. -/
def getReplacementLineRange (lines : List LineSpan) (replacement : TextReplacement) : Except EditError (ℕ × ℕ) :=
  let replacementStart := replacement.matchIndex
  let replacementEnd := replacement.matchIndex + replacement.matchLength
  match lines.findIdx? fun line => line.start ≤ replacementStart && replacementStart < line.stop with
  | none => throw .outsideBase
  | some startLine =>
    match (lines.drop startLine).findIdx? fun line => !decide (line.stop < replacementEnd) with
    | none => throw .outsideBase
    | some more => return (startLine, startLine + more + 1)

/-- `applyReplacements`: from the last replacement to the first. -/
def applyReplacements (content : Text) (replacements : List TextReplacement) (offset : ℕ := 0) : Text :=
  replacements.foldr (fun replacement result =>
    let matchIndex := replacement.matchIndex - offset
    result.take matchIndex ++ replacement.newText ++ result.drop (matchIndex + replacement.matchLength)) content

/-- Lines that are rewritten together, and the replacements in them. -/
structure LineGroup where
  startLine : ℕ
  endLine : ℕ
  replacements : List TextReplacement

/-- A replacement joins the last group, if it starts in one of its lines. -/
def addToGroups (groups : List LineGroup) (range : ℕ × ℕ) (replacement : TextReplacement) : List LineGroup :=
  let new := { startLine := range.1, endLine := range.2, replacements := [replacement] }
  match groups.getLast? with
  | none => [new]
  | some current =>
    if range.1 < current.endLine then
      groups.dropLast ++ [{ current with
        endLine := max current.endLine range.2
        replacements := current.replacements ++ [replacement] }]
    else groups ++ [new]

def groupReplacements (lines : List LineSpan) (replacements : List TextReplacement) : Except EditError (List LineGroup) :=
  replacements.foldlM (fun groups replacement => do
    let range ← getReplacementLineRange lines replacement
    return addToGroups groups range replacement) []

/-- `[...replacements].sort((a, b) => a.matchIndex - b.matchIndex)`. -/
def sortByIndex (replacements : List TextReplacement) : List TextReplacement :=
  replacements.mergeSort fun a b => a.matchIndex ≤ b.matchIndex

/-- `xs.slice(start, end)`. -/
def slice {α : Type} (xs : List α) (start stop : ℕ) : List α := (xs.take stop).drop start

/-- A group of lines rewritten from the base. -/
def rewriteGroup (baseContent : Text) (baseLines : List LineSpan) (group : LineGroup) : Text :=
  let groupStartOffset := (baseLines[group.startLine]?.map (·.start)).getD 0
  let groupEndOffset := (baseLines[group.endLine - 1]?.map (·.stop)).getD 0
  applyReplacements (slice baseContent groupStartOffset groupEndOffset) group.replacements
    groupStartOffset

/-- The original lines from `originalLineIndex` on, with the groups in place of theirs. -/
def overlayGroups (originalLines : List Text) (baseContent : Text) (baseLines : List LineSpan) :
    ℕ → List LineGroup → Text
  | originalLineIndex, [] => (originalLines.drop originalLineIndex).flatten
  | originalLineIndex, group :: groups =>
    (slice originalLines originalLineIndex group.startLine).flatten ++ (rewriteGroup baseContent baseLines group ++
        overlayGroups originalLines baseContent baseLines group.endLine groups)

def applyReplacementsPreservingUnchangedLines (originalContent baseContent : Text)
    (replacements : List TextReplacement) : Except EditError Text := do
  let originalLines := splitLinesWithEndings originalContent
  let baseLines := getLineSpans baseContent
  if originalLines.length ≠ baseLines.length then
    throw .lineCount
  let groups ← groupReplacements baseLines (sortByIndex replacements)
  return overlayGroups originalLines baseContent baseLines 0 groups

end EditDiff
end EasyPi.CodingAgent
