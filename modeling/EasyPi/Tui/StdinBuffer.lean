/-
# The input buffer of the terminal

`StdinBuffer` of `packages/tui/src/stdin-buffer.ts`. Chunks of input are cut into complete sequences, which are
emitted; what is incomplete waits for more input or for the timeout, and the text between paste markers is
collected. The scan of the source moves an index and the end of a candidate; here the candidate and the text
behind it are the arguments.
-/
import EasyPi.Lib.Occurrences
import EasyPi.Tui.CodeUnits

namespace EasyPi.Tui

open List

namespace Stdin

/-- `BRACKETED_PASTE_START`, `ESC [ 2 0 0 ~`. -/
def bracketedPasteStart : Text := [esc, openBracket, 0x32, 0x30, 0x30, 0x7E]

/-- `BRACKETED_PASTE_END`, `ESC [ 2 0 1 ~`. -/
def bracketedPasteEnd : Text := [esc, openBracket, 0x32, 0x30, 0x31, 0x7E]

theorem bracketedPasteStart_ne_nil : bracketedPasteStart ≠ [] := cons_ne_nil _ _

theorem bracketedPasteEnd_ne_nil : bracketedPasteEnd ≠ [] := cons_ne_nil _ _

/-- The string terminator, `ESC \`. -/
def stringTerminator : Text := [esc, backslash]

def isFinal (c : UInt16) : Bool := 0x40 ≤ c && c ≤ 0x7E

/-- `/^\d+$/`. -/
def isNumber (text : Text) : Bool := text ≠ [] && text.all isDigit

/-! ### Complete sequences -/

inductive Status where
  | complete | incomplete | notEscape
  deriving DecidableEq

/-- `payload.slice(1, -1).split(";")` has three parts, and each is a number. -/
def hasThreeNumbers (payload : Text) : Bool :=
  let parts := (payload.drop 1).dropLast.splitOn semicolon
  parts.length = 3 && parts.all isNumber

/-- `/^<\d+;\d+;\d+[Mm]$/`. -/
def isMouseReport (payload : Text) : Bool :=
  payload.head? = some less && (payload.getLast? = some upperM || payload.getLast? = some lowerM) &&
    hasThreeNumbers payload

def isCompleteCsiSequence (data : Text) : Status :=
  if ¬ [esc, openBracket] <+: data then .complete
  else if data.length < 3 then .incomplete
  else
    let payload := data.drop 2
    let lastChar := payload.getLast?.getD 0
    if isFinal lastChar then
      if payload.head? = some less then
        if isMouseReport payload then .complete
        else if (lastChar = upperM ∨ lastChar = lowerM) ∧ hasThreeNumbers payload then .complete
        else .incomplete
      else .complete
    else .incomplete

def isCompleteOscSequence (data : Text) : Status :=
  if ¬ [esc, closeBracket] <+: data then .complete
  else if stringTerminator <:+ data ∨ [bel] <:+ data then .complete
  else .incomplete

/-- `isCompleteDcsSequence` and `isCompleteApcSequence`, which differ in the unit behind `ESC`. -/
def isCompleteString (introducer : UInt16) (data : Text) : Status :=
  if ¬ [esc, introducer] <+: data then .complete
  else if stringTerminator <:+ data then .complete
  else .incomplete

def isCompleteDcsSequence (data : Text) : Status := isCompleteString upperP data

def isCompleteApcSequence (data : Text) : Status := isCompleteString underscore data

def isCompleteSequence (data : Text) : Status :=
  if data.head? ≠ some esc then .notEscape
  else if data.length = 1 then .incomplete
  else
    let afterEsc := data.drop 1
    if afterEsc.head? = some openBracket then
      if [openBracket, upperM] <+: afterEsc then (if data.length ≥ 6 then .complete else .incomplete)
      else isCompleteCsiSequence data
    else if afterEsc.head? = some closeBracket then isCompleteOscSequence data
    else if afterEsc.head? = some upperP then isCompleteDcsSequence data
    else if afterEsc.head? = some underscore then isCompleteApcSequence data
    else if afterEsc.head? = some upperO then (if afterEsc.length ≥ 2 then .complete else .incomplete)
    else .complete

/-- The digits of a number, most significant first. -/
def ofDigits (digits : Text) : ℕ := digits.foldl (fun n c => 10 * n + (c.toNat - 0x30)) 0

/-- The groups of `/^\x1b\[(\d+)(?::\d*)?(?::\d+)?u$/`: the parts between colons. -/
def isPrintableKey (parts : List Text) : Bool :=
  match parts with
  | [codepoint] => isNumber codepoint
  | [codepoint, shifted] => isNumber codepoint && shifted.all isDigit
  | [codepoint, shifted, base] => isNumber codepoint && shifted.all isDigit && isNumber base
  | _ => false

def parseUnmodifiedKittyPrintableCodepoint (sequence : Text) : Option ℕ :=
  let parts := (sequence.drop 2).dropLast.splitOn colon
  if [esc, openBracket] <+: sequence ∧ sequence.getLast? = some lowerU ∧ isPrintableKey parts then
    let codepoint := ofDigits (parts.headD [])
    if codepoint ≥ 32 then some codepoint else none
  else none

/-- What begins a sequence behind `ESC`. -/
def startsSequence (next : Option UInt16) : Bool :=
  next = some openBracket || next = some closeBracket || next = some upperO || next = some upperP ||
    next = some underscore

/-- The loops of `extractCompleteSequences`, with a candidate that is not complete and the text behind it. -/
def extractFrom (candidate : Text) : Text → List Text × Text
  | [] => ([], candidate)
  | c :: rest =>
    if candidate = [] ∧ c ≠ esc then
      let (sequences, remainder) := extractFrom [] rest
      ([c] :: sequences, remainder)
    else match isCompleteSequence (candidate ++ [c]) with
      | .incomplete => extractFrom (candidate ++ [c]) rest
      | _ =>
        if candidate ++ [c] = [esc, esc] ∧ startsSequence rest.head? then
          -- only the first ESC is emitted, and the scan starts again at the second
          let (sequences, remainder) := extractFrom [esc] rest
          ([esc] :: sequences, remainder)
        else
          let (sequences, remainder) := extractFrom [] rest
          ((candidate ++ [c]) :: sequences, remainder)

/-- `extractCompleteSequences`: the sequences and the remainder. -/
def extractCompleteSequences (buffer : Text) : List Text × Text := extractFrom [] buffer

/-! ### The buffer -/

/-- What the buffer does with its input: the events it emits, and the characters it takes for the second report
of a key and does not emit. -/
inductive Event where
  | data (sequence : Text)
  | paste (content : Text)
  | suppressed (sequence : Text)
  deriving DecidableEq

structure StdinBuffer where
  buffer : Text := []
  pasteMode : Bool := false
  pasteBuffer : Text := []
  pendingKittyPrintableCodepoint : Option ℕ := none
  deriving DecidableEq

namespace StdinBuffer

/-- `sequence.codePointAt(0)`, of a sequence of one unit. -/
def rawCodepoint : Text → Option ℕ
  | [c] => some c.toNat
  | _ => none

variable (s : StdinBuffer)

def emitDataSequence (sequence : Text) : StdinBuffer × Event :=
  if rawCodepoint sequence ≠ none ∧ rawCodepoint sequence = s.pendingKittyPrintableCodepoint then
    ({ s with pendingKittyPrintableCodepoint := none }, .suppressed sequence)
  else
    ({ s with pendingKittyPrintableCodepoint := parseUnmodifiedKittyPrintableCodepoint sequence }, .data sequence)

/-- Sequences are emitted one after the other. -/
def emitAll (s : StdinBuffer) : List Text → StdinBuffer × List Event
  | [] => (s, [])
  | sequence :: sequences =>
    let (s₁, event) := s.emitDataSequence sequence
    let (s₂, events) := s₁.emitAll sequences
    (s₂, event :: events)

/-- `process`, up to the search for the end of a paste. -/
def collect (str : Text) : StdinBuffer × List Event :=
  let buffer := s.buffer ++ str
  if s.pasteMode then ({ s with buffer := [], pasteBuffer := s.pasteBuffer ++ buffer }, [])
  else
    match indexOf? buffer bracketedPasteStart with
    | some startIndex =>
      -- the remainder of the text before the paste is not kept
      let (s₁, events) := s.emitAll (extractCompleteSequences (buffer.take startIndex)).1
      ({ s₁ with
        buffer := []
        pasteMode := true
        pasteBuffer := buffer.drop (startIndex + bracketedPasteStart.length)
        pendingKittyPrintableCodepoint := none }, events)
    | none =>
      let (sequences, remainder) := extractCompleteSequences buffer
      { s with buffer := remainder }.emitAll sequences

theorem emitDataSequence_eq (sequence : Text) :
    ∃ codepoint, (s.emitDataSequence sequence).1 = { s with pendingKittyPrintableCodepoint := codepoint } := by
  unfold emitDataSequence
  split
  · exact ⟨_, rfl⟩
  · exact ⟨_, rfl⟩

theorem emitAll_eq (sequences : List Text) :
    ∃ codepoint, (s.emitAll sequences).1 = { s with pendingKittyPrintableCodepoint := codepoint } := by
  induction sequences generalizing s with
  | nil => exact ⟨_, rfl⟩
  | cons sequence sequences ih =>
    obtain ⟨codepoint, hone⟩ := s.emitDataSequence_eq sequence
    obtain ⟨last, hrest⟩ := ih (s.emitDataSequence sequence).1
    exact ⟨last, by rw [emitAll, hrest, hone]⟩

section
variable {s : StdinBuffer} {str : Text} {i : ℕ}

theorem collect_inside (h : s.pasteMode = true) :
    s.collect str = ({ s with buffer := [], pasteBuffer := s.pasteBuffer ++ (s.buffer ++ str) }, []) := by
  unfold collect
  rw [if_pos h]

theorem collect_start (h : s.pasteMode = false) (hpre : indexOf? (s.buffer ++ str) bracketedPasteStart = some i) :
    s.collect str = ({ pasteMode := true, pasteBuffer := (s.buffer ++ str).drop (i + bracketedPasteStart.length) },
        (s.emitAll (extractCompleteSequences ((s.buffer ++ str).take i)).1).2) := by
  unfold collect
  dsimp only
  rw [if_neg (by simp [h]), hpre]

theorem collect_plain (h : s.pasteMode = false) (hpre : indexOf? (s.buffer ++ str) bracketedPasteStart = none) :
    s.collect str = { s with buffer := (extractCompleteSequences (s.buffer ++ str)).2 }.emitAll
      (extractCompleteSequences (s.buffer ++ str)).1 := by
  unfold collect
  dsimp only
  rw [if_neg (by simp [h]), hpre]

end

theorem length_pasteBuffer_collect_le (str : Text) :
    (s.collect str).1.pasteBuffer.length ≤ s.buffer.length + s.pasteBuffer.length + str.length := by
  by_cases hmode : s.pasteMode = true
  · rw [collect_inside hmode]
    simp only [length_append]
    omega
  · have hout : s.pasteMode = false := by simpa using hmode
    cases hpre : indexOf? (s.buffer ++ str) bracketedPasteStart with
    | some i =>
      rw [collect_start hout hpre]
      simp only [length_drop, length_append]
      omega
    | none =>
      rw [collect_plain hout hpre]
      obtain ⟨codepoint, heq⟩ := emitAll_eq
        { s with buffer := (extractCompleteSequences (s.buffer ++ str)).2 } (extractCompleteSequences (s.buffer ++ str)).1
      rw [heq]
      dsimp only
      omega

def process (s : StdinBuffer) (str : Text) : StdinBuffer × List Event :=
  if str = [] ∧ s.buffer = [] then
    let (s₁, event) := s.emitDataSequence []
    (s₁, [event])
  else if (s.collect str).1.pasteMode then
    match indexOf? (s.collect str).1.pasteBuffer bracketedPasteEnd with
    | some endIndex =>
      let pastedContent := (s.collect str).1.pasteBuffer.take endIndex
      let remaining := (s.collect str).1.pasteBuffer.drop (endIndex + bracketedPasteEnd.length)
      if remaining ≠ [] then
        let (s₁, events) := process {} remaining
        (s₁, (s.collect str).2 ++ .paste pastedContent :: events)
      else ({}, (s.collect str).2 ++ [.paste pastedContent])
    | none => s.collect str
  else s.collect str
termination_by s.buffer.length + s.pasteBuffer.length + str.length
decreasing_by
  have hle := length_pasteBuffer_collect_le s str
  rename_i hrem
  have hpos := length_pos_iff.mpr hrem
  simp only [remaining, length_drop, bracketedPasteEnd, length_cons, length_nil] at hpos ⊢
  omega

/-- What is behind a paste is processed, if there is anything. -/
def processRest (remaining : Text) : StdinBuffer × List Event :=
  if remaining = [] then ({}, []) else process {} remaining

section
variable {s : StdinBuffer} {str : Text} {i : ℕ}

theorem process_empty (h : str = [] ∧ s.buffer = []) :
    s.process str = ((s.emitDataSequence []).1, [(s.emitDataSequence []).2]) := by
  rw [process, if_pos h]

theorem process_end (hne : ¬ (str = [] ∧ s.buffer = [])) (hmode : (s.collect str).1.pasteMode = true)
    (hend : indexOf? (s.collect str).1.pasteBuffer bracketedPasteEnd = some i) :
    s.process str = ((processRest ((s.collect str).1.pasteBuffer.drop (i + bracketedPasteEnd.length))).1,
        (s.collect str).2 ++ .paste ((s.collect str).1.pasteBuffer.take i) ::
          (processRest ((s.collect str).1.pasteBuffer.drop (i + bracketedPasteEnd.length))).2) := by
  rw [process, if_neg hne, if_pos hmode, hend]
  unfold processRest
  dsimp only
  by_cases hrem : (s.collect str).1.pasteBuffer.drop (i + bracketedPasteEnd.length) = []
  · rw [if_neg (not_not_intro hrem), if_pos hrem]
  · rw [if_pos hrem, if_neg hrem]

theorem process_unfinished (hne : ¬ (str = [] ∧ s.buffer = [])) (hopen : (s.collect str).1.pasteMode = true →
      indexOf? (s.collect str).1.pasteBuffer bracketedPasteEnd = none) : s.process str = s.collect str := by
  rw [process, if_neg hne]
  by_cases hmode : (s.collect str).1.pasteMode = true
  · rw [if_pos hmode, hopen hmode]
  · rw [if_neg hmode]

end

/-- `flush`: the state, and the sequences. -/
def flush : StdinBuffer × List Text :=
  if s.buffer = [] then (s, [])
  else ({ s with buffer := [], pendingKittyPrintableCodepoint := none }, [s.buffer])

def onTimeout : StdinBuffer × List Event :=
  let (s₁, flushed) := s.flush
  s₁.emitAll flushed

inductive Input where
  | chunk (str : Text)
  | timeout
  deriving DecidableEq

def receive : Input → StdinBuffer × List Event
  | .chunk str => s.process str
  | .timeout => s.onTimeout

/-- One input: the buffer, and what it has done so far. -/
def step (s : StdinBuffer × List Event) (input : Input) : StdinBuffer × List Event :=
  let (s₁, events) := s.1.receive input
  (s₁, s.2 ++ events)

def run (inputs : List Input) : StdinBuffer × List Event := inputs.foldl step ({}, [])

end StdinBuffer
end Stdin
end EasyPi.Tui
