/-
# Applying edits to a file

`applyEditsToNormalizedContent` matches every edit against the same content, refuses edits that match
nothing, more than once or in overlapping ranges, and applies the others together. When one edit
matches only in normalized space all of them are matched there, and the lines they do not touch are
kept. The texts of errors are left to the caller.
-/
import EasyPi.CodingAgent.EditMatching

namespace EasyPi.CodingAgent
namespace EditDiff

structure Edit where
  oldText : Text
  newText : Text
  deriving DecidableEq

structure MatchedEdit extends TextReplacement where
  editIndex : ℕ

structure AppliedEditsResult where
  baseContent : Text
  newContent : Text
  deriving DecidableEq

/-- A computation that may throw, or not return. -/
abbrev Applying := ExceptT EditError Option

def normalizeEdit (edit : Edit) : Edit := { oldText := normalizeToLF edit.oldText, newText := normalizeToLF edit.newText }

/-- The first edit with an empty `oldText` is refused. -/
def checkOldTexts (edits : List Edit) : Except EditError Unit :=
  match edits.findIdx? fun edit => edit.oldText = [] with
  | none => .ok ()
  | some i => .error (.emptyOldText i edits.length)

/-- An edit that is not found, after those that are. -/
def refuseNotFound (nfkc : Text → Text) (baseContent : Text) (totalEdits : ℕ)
    (matchedEdits : List MatchedEdit) (edit : Edit) : Applying MatchedEdit := do
  if !matchedEdits.isEmpty then
    let simulated := applyReplacements baseContent
      (sortByIndex (matchedEdits.map (·.toTextReplacement)))
    if let .found _ ← fuzzyFindText nfkc simulated edit.oldText then
      throw (.incrementalMatch matchedEdits.length totalEdits)
  throw (.notFound matchedEdits.length totalEdits)

/-- The new text of a match; a match of whole lines has no terminator at its end. -/
def newTextFor (matchTier : EditMatchTier) (newText : Text) : Text :=
  if (matchTier = .looseLines ∨ matchTier = .similarBlock) ∧ brokenAtEnd lf newText then
    newText.dropLast
  else newText

def matchEdit (nfkc : Text → Text) (baseContent : Text) (totalEdits : ℕ)
    (matchedEdits : List MatchedEdit) (edit : Edit) : Applying MatchedEdit := do
  match ← fuzzyFindText nfkc baseContent edit.oldText with
  | .notFound ambiguousLines =>
    if !ambiguousLines.isEmpty then
      throw (.ambiguousSimilar matchedEdits.length totalEdits ambiguousLines)
    refuseNotFound nfkc baseContent totalEdits matchedEdits edit
  | .found m =>
    if 1 < m.occurrenceCount then
      throw (.duplicate matchedEdits.length totalEdits m.occurrenceCount m.occurrenceLines)
    return {
      editIndex := matchedEdits.length
      matchIndex := m.index
      matchLength := m.matchLength
      newText := newTextFor m.matchTier edit.newText }

def matchEdits (nfkc : Text → Text) (baseContent : Text) (totalEdits : ℕ) :
    List MatchedEdit → List Edit → Applying (List MatchedEdit)
  | matchedEdits, [] => return matchedEdits
  | matchedEdits, edit :: edits => do
    let matched ← matchEdit nfkc baseContent totalEdits matchedEdits edit
    matchEdits nfkc baseContent totalEdits (matchedEdits ++ [matched]) edits

def checkOverlaps : List MatchedEdit → Except EditError Unit
  | previous :: current :: rest =>
    if current.matchIndex < previous.matchIndex + previous.matchLength then
      .error (.overlap previous.editIndex current.editIndex)
    else checkOverlaps (current :: rest)
  | _ => .ok ()

/-- The matched edits in place of their ranges. -/
def writeMatches (usedFuzzyMatch : Bool) (normalizedContent replacementBaseContent : Text)
    (replacements : List TextReplacement) : Except EditError Text :=
  if usedFuzzyMatch then
    applyReplacementsPreservingUnchangedLines normalizedContent replacementBaseContent replacements
  else .ok (applyReplacements replacementBaseContent replacements)

def findTexts (nfkc : Text → Text) (content : Text) (edits : List Edit) : Option (List FuzzyMatchResult) :=
  edits.mapM fun edit => fuzzyFindText nfkc content edit.oldText

def applyEditsToNormalizedContent (nfkc : Text → Text) (normalizedContent : Text) (edits : List Edit) :
    Applying AppliedEditsResult := do
  let normalizedEdits := edits.map normalizeEdit
  ExceptT.mk (some (checkOldTexts normalizedEdits))
  let initialMatches ← findTexts nfkc normalizedContent normalizedEdits
  let usedFuzzyMatch := initialMatches.any (·.usedFuzzyMatch)
  let replacementBaseContent :=
    if usedFuzzyMatch then normalizeForFuzzyMatch nfkc normalizedContent else normalizedContent
  let matchedEdits ← matchEdits nfkc replacementBaseContent edits.length [] normalizedEdits
  let sorted := matchedEdits.mergeSort fun a b => a.matchIndex ≤ b.matchIndex
  ExceptT.mk (some (checkOverlaps sorted))
  let newContent ← ExceptT.mk (some (writeMatches usedFuzzyMatch normalizedContent
    replacementBaseContent (sorted.map (·.toTextReplacement))))
  if normalizedContent = newContent then
    throw (.noChange edits.length)
  return { baseContent := normalizedContent, newContent }

end EditDiff
end EasyPi.CodingAgent
