/-
# A diff with line numbers

`generateDiffString` shows the parts of a diff line by line: removed and added lines, and unchanged
lines close to a change, each with its number in the old or the new file. The diff itself is a parameter
(`diffLines`): parts that are common to both files, or in one of them.
-/
import EasyPi.CodingAgent.Replacements

namespace EasyPi.CodingAgent
namespace EditDiff

/-- `part.added`, `part.removed`, or neither. -/
inductive PartKind where
  | common
  | added
  | removed
  deriving DecidableEq

structure Part where
  kind : PartKind
  value : Text

/-- `part.added || part.removed`. -/
def Part.isChange (part : Part) : Bool := part.kind ≠ .common

/-- A line of the output: its number and its text, or `...` for lines that are left out. -/
inductive DiffLine where
  | added (lineNum : ℕ) (line : Text)
  | removed (lineNum : ℕ) (line : Text)
  | context (lineNum : ℕ) (line : Text)
  | elided
  deriving DecidableEq

/-- The variables of the loop over the parts. -/
structure DiffState where
  output : List DiffLine := []
  oldLineNum : ℕ := 1
  newLineNum : ℕ := 1
  lastWasChange : Bool := false
  firstChangedLine : Option ℕ := none

/-- `part.value.split("\n")`, without an empty last line. -/
def rawLines (value : Text) : List Text :=
  let raw := value.splitOn lf
  if raw.getLast? = some [] then raw.dropLast else raw

variable (s : DiffState)

def showAdded (line : Text) : DiffState :=
  { s with output := s.output ++ [.added s.newLineNum line], newLineNum := s.newLineNum + 1 }

def showRemoved (line : Text) : DiffState :=
  { s with output := s.output ++ [.removed s.oldLineNum line], oldLineNum := s.oldLineNum + 1 }

def showContext (line : Text) : DiffState :=
  { s with
    output := s.output ++ [.context s.oldLineNum line]
    oldLineNum := s.oldLineNum + 1
    newLineNum := s.newLineNum + 1 }

def skipLines (skippedLines : ℕ) : DiffState :=
  { s with oldLineNum := s.oldLineNum + skippedLines, newLineNum := s.newLineNum + skippedLines }

def elide (skippedLines : ℕ) : DiffState :=
  skipLines { s with output := s.output ++ [.elided] } skippedLines

def showChange (kind : PartKind) (raw : List Text) : DiffState :=
  let s := { s with firstChangedLine := s.firstChangedLine.or (some s.newLineNum) }
  let s := if kind = .added then raw.foldl showAdded s else raw.foldl showRemoved s
  { s with lastWasChange := true }

/-- The lines of an unchanged part that are shown: those close to a change. -/
def showClose (contextLines : ℕ) (hasLeadingChange hasTrailingChange : Bool) (s : DiffState)
    (raw : List Text) : DiffState :=
  if hasLeadingChange && hasTrailingChange then
    if raw.length ≤ contextLines * 2 then raw.foldl showContext s
    else
      let leadingLines := raw.take contextLines
      let trailingLines := raw.drop (raw.length - contextLines)
      let skippedLines := raw.length - leadingLines.length - trailingLines.length
      trailingLines.foldl showContext (elide (leadingLines.foldl showContext s) skippedLines)
  else if hasLeadingChange then
    let shownLines := raw.take contextLines
    let skippedLines := raw.length - shownLines.length
    let s := shownLines.foldl showContext s
    if 0 < skippedLines then elide s skippedLines else s
  else if hasTrailingChange then
    let skippedLines := raw.length - contextLines
    let s := if 0 < skippedLines then elide s skippedLines else s
    (raw.drop skippedLines).foldl showContext s
  else skipLines s raw.length

/-- A part that is not changed. -/
def showUnchanged (contextLines : ℕ) (nextPartIsChange : Bool) (s : DiffState) (raw : List Text) : DiffState :=
  { showClose contextLines s.lastWasChange nextPartIsChange s raw with lastWasChange := false }

def nextIsChange (parts : List Part) : Bool := parts.head?.any Part.isChange

def showParts (contextLines : ℕ) : DiffState → List Part → DiffState
  | s, [] => s
  | s, part :: parts =>
    if part.isChange then showParts contextLines (showChange s part.kind (rawLines part.value)) parts
    else showParts contextLines
      (showUnchanged contextLines (nextIsChange parts) s (rawLines part.value)) parts

/-- `String(n)`. -/
def decimal (n : ℕ) : Text := (Nat.toDigits 10 n).map fun c => c.val.toUInt16

/-- `text.padStart(width, " ")`. -/
def padStart (width : ℕ) (text : Text) : Text := List.replicate (width - text.length) 0x20 ++ text

def renderLine (lineNumWidth : ℕ) : DiffLine → Text
  | .added n line => 0x2B :: padStart lineNumWidth (decimal n) ++ 0x20 :: line
  | .removed n line => 0x2D :: padStart lineNumWidth (decimal n) ++ 0x20 :: line
  | .context n line => 0x20 :: padStart lineNumWidth (decimal n) ++ 0x20 :: line
  | .elided => 0x20 :: padStart lineNumWidth [] ++ [0x20, 0x2E, 0x2E, 0x2E]

/-- The width of the line numbers of two files. -/
def lineNumWidth (oldContent newContent : Text) : ℕ :=
  (decimal (max (oldContent.splitOn lf).length (newContent.splitOn lf).length)).length

/-- The result of `generateDiffString`. -/
structure DiffString where
  diff : Text
  firstChangedLine : Option ℕ

def generateDiffString (diffLines : Text → Text → List Part) (oldContent newContent : Text)
    (contextLines : ℕ := 4) : DiffString :=
  let s := showParts contextLines {} (diffLines oldContent newContent)
  { diff := joinLines lf (s.output.map (renderLine (lineNumWidth oldContent newContent)))
    firstChangedLine := s.firstChangedLine }

end EditDiff
end EasyPi.CodingAgent
