/-
# The words of a shell script

`parseShellCommands` of `packages/permissions/src/permissions.ts`: one scan over the code units of a script,
which keeps the quote it is in, the word, the command, and the here-documents whose bodies are still to come.
Where the source moves its index, the step returns the text behind it.
-/
import Mathlib.Data.Nat.Basic
import Mathlib.Order.Basic
import EasyPi.Lib.CodeUnits

namespace EasyPi.Permissions

export CodeUnits (Text tab lf cr space semicolon less backslash isWhiteSpace)

/-- A part of a word, and whether it is expanded. -/
structure Part where
  text : Text
  expandable : Bool
  deriving DecidableEq

/-- `ParsedShellWord`. -/
structure Word where
  parts : List Part
  deriving DecidableEq

inductive Operator where
  | newline | semicolon | pipe | background | openParen | closeParen | or | and
  deriving DecidableEq

/-- `ParsedShellCommand`. -/
structure Command where
  words : List Word
  operatorBefore : Option Operator := none
  deriving DecidableEq

def shellWordText (word : Word) : Text := word.parts.flatMap (·.text)

def doubleQuote : UInt16 := 34
def hash : UInt16 := 35
def dollar : UInt16 := 36
def ampersand : UInt16 := 38
def singleQuote : UInt16 := 39
def leftParen : UInt16 := 40
def rightParen : UInt16 := 41
def dash : UInt16 := 45
def backquote : UInt16 := 96
def bar : UInt16 := 124

/-! ### Here-documents -/

/-- A here-document whose body is still to come. -/
structure Heredoc where
  delimiter : Text
  stripTabs : Bool
  deriving DecidableEq

/-- `line.replace(/\r$/, "")`. -/
def withoutCr (line : Text) : Text := if line.getLast? = some cr then line.dropLast else line

def candidate (stripTabs : Bool) (line : Text) : Text :=
  if stripTabs then (withoutCr line).dropWhile (· = tab) else withoutCr line

def lineOf (text : Text) : Text := text.takeWhile (· ≠ lf)

def afterLine (text : Text) : Text := (text.dropWhile (· ≠ lf)).tail

theorem length_afterLine_lt (c : UInt16) (text : Text) : (afterLine (c :: text)).length < (c :: text).length := by
  have hdrop := (List.dropWhile_suffix (p := fun d => decide (d ≠ lf)) (l := c :: text)).length_le
  rw [afterLine, List.length_tail]
  rw [List.length_cons] at hdrop ⊢
  omega

/-- The text behind the body of a here-document. -/
def skipHeredocBody (heredoc : Heredoc) : Text → Text
  | [] => []
  | c :: text =>
    if candidate heredoc.stripTabs (lineOf (c :: text)) = heredoc.delimiter then afterLine (c :: text)
    else skipHeredocBody heredoc (afterLine (c :: text))
termination_by text => text.length
decreasing_by exact length_afterLine_lt c text

def skipHeredocBodies (heredocs : List Heredoc) (text : Text) : Text :=
  heredocs.foldl (fun text heredoc => skipHeredocBody heredoc text) text

theorem length_skipHeredocBody_le (heredoc : Heredoc) (text : Text) :
    (skipHeredocBody heredoc text).length ≤ text.length := by
  induction text using skipHeredocBody.induct heredoc with
  | case1 => rw [skipHeredocBody]
  | case2 c text h =>
    rw [skipHeredocBody, if_pos h]
    exact (length_afterLine_lt c text).le
  | case3 c text h ih =>
    rw [skipHeredocBody, if_neg h]
    exact ih.trans (length_afterLine_lt c text).le

theorem length_skipHeredocBodies_le (heredocs : List Heredoc) (text : Text) :
    (skipHeredocBodies heredocs text).length ≤ text.length := by
  induction heredocs generalizing text with
  | nil => exact Nat.le_refl _
  | cons heredoc heredocs ih => exact (ih _).trans (length_skipHeredocBody_le heredoc text)

/-! ### The scan -/

inductive Quote where
  | single | double
  deriving DecidableEq

/-- What has been scanned up to the word of the scan. -/
structure Progress where
  commands : List Command := []
  words : List Word := []
  operatorBefore : Option Operator := none
  heredocTarget : Option Bool := none
  heredocs : List Heredoc := []
  deriving DecidableEq

structure Scan extends Progress where
  parts : List Part := []
  wordStarted : Bool := false
  quote : Option Quote := none
  deriving DecidableEq

def appendPart (parts : List Part) (text : Text) (expandable : Bool) : List Part :=
  match parts.getLast? with
  | some previous =>
    if previous.expandable = expandable then parts.dropLast ++ [{ previous with text := previous.text ++ text }]
    else parts ++ [⟨text, expandable⟩]
  | none => [⟨text, expandable⟩]

/-- A word is over: it is the delimiter of a here-document, or a word of the command. -/
def Progress.push (progress : Progress) (word : Word) : Progress :=
  match progress.heredocTarget with
  | some stripTabs =>
    { progress with heredocs := progress.heredocs ++ [⟨shellWordText word, stripTabs⟩], heredocTarget := none }
  | none => { progress with words := progress.words ++ [word] }

def Progress.finish (progress : Progress) (nextOperator : Option Operator) : Progress :=
  { progress with
    commands :=
      if progress.words = [] then progress.commands
      else progress.commands ++ [⟨progress.words, progress.operatorBefore⟩]
    words := []
    operatorBefore := nextOperator }

namespace Scan

def append (s : Scan) (text : Text) (expandable : Bool) : Scan :=
  { s with parts := appendPart s.parts text expandable, wordStarted := true }

def finishWord (s : Scan) : Scan :=
  if s.wordStarted then { s with toProgress := s.toProgress.push ⟨s.parts⟩, parts := [], wordStarted := false }
  else s

def finishCommand (s : Scan) (nextOperator : Option Operator) : Scan :=
  { s.finishWord with toProgress := s.finishWord.toProgress.finish nextOperator }

end Scan

/-- The operator that starts with a code unit. -/
def operatorOf (c : UInt16) (doubled : Bool) : Option Operator :=
  if c = semicolon then some .semicolon
  else if c = bar then some (if doubled then .or else .pipe)
  else if c = ampersand then some (if doubled then .and else .background)
  else if c = leftParen then some .openParen
  else if c = rightParen then some .closeParen
  else none

def stepUnquoted (s : Scan) (c : UInt16) (rest : Text) : Scan × Text :=
  if c = singleQuote then ({ s with wordStarted := true, quote := some .single }, rest)
  else if c = doubleQuote then ({ s with wordStarted := true, quote := some .double }, rest)
  else if c = backslash ∧ rest ≠ [] then
    if rest.head? = some lf then (s, rest.tail) else (s.append (rest.take 1) false, rest.tail)
  else if c = hash ∧ s.wordStarted = false then (s, rest.dropWhile (· ≠ lf))
  else if c = less ∧ rest.head? = some less then
    let stripTabs := rest.tail.head? = some dash
    ({ s.finishWord with heredocTarget := some stripTabs }, if stripTabs then rest.tail.tail else rest.tail)
  else if isWhiteSpace c then
    if c = lf then
      let finished := s.finishWord.finishCommand (some .newline)
      ({ finished with heredocs := [] }, skipHeredocBodies finished.heredocs rest)
    else (s.finishWord, rest)
  else
    let doubled := rest.head? = some c ∧ (c = bar ∨ c = ampersand)
    match operatorOf c doubled with
    | some operator => (s.finishCommand (some operator), if doubled then rest.tail else rest)
    | none => (s.append [c] true, rest)

/-- A turn of the loop: the state, and the text that is left. -/
def step (s : Scan) (c : UInt16) (rest : Text) : Scan × Text :=
  match s.quote with
  | some .single => if c = singleQuote then ({ s with quote := none }, rest) else (s.append [c] false, rest)
  | some .double =>
    if c = doubleQuote then ({ s with quote := none }, rest)
    else if c = backslash ∧ rest ≠ [] then (s.append (rest.take 1) false, rest.tail)
    else (s.append [c] true, rest)
  | none => stepUnquoted s c rest

theorem length_tail_le (text : Text) : text.tail.length ≤ text.length := (List.tail_suffix text).length_le

theorem length_stepUnquoted_le (s : Scan) (c : UInt16) (rest : Text) :
    (stepUnquoted s c rest).2.length ≤ rest.length := by
  have htail := length_tail_le rest
  rw [stepUnquoted]
  split
  · exact Nat.le_refl _
  split
  · exact Nat.le_refl _
  split
  · split
    · exact htail
    · exact htail
  split
  · exact (List.dropWhile_suffix _).length_le
  split
  · dsimp only
    split
    · exact (length_tail_le _).trans htail
    · exact htail
  split
  · split
    · exact length_skipHeredocBodies_le _ _
    · exact Nat.le_refl _
  · dsimp only
    split
    · dsimp only
      split
      · exact htail
      · exact Nat.le_refl _
    · exact Nat.le_refl _

theorem length_step_le (s : Scan) (c : UInt16) (rest : Text) : (step s c rest).2.length ≤ rest.length := by
  have htail := length_tail_le rest
  rw [step]
  split
  · split
    · exact Nat.le_refl _
    · exact Nat.le_refl _
  · split
    · exact Nat.le_refl _
    split
    · exact htail
    · exact Nat.le_refl _
  · exact length_stepUnquoted_le s c rest

def scan (s : Scan) : Text → Scan
  | [] => s
  | c :: rest => scan (step s c rest).1 (step s c rest).2
termination_by text => text.length
decreasing_by exact Nat.lt_succ_of_le (length_step_le s c rest)

def parseShellCommands (source : Text) : List Command := ((scan {} source).finishCommand none).commands

end EasyPi.Permissions
