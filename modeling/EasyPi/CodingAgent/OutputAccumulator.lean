/-
# The accumulator of tool output

`OutputAccumulator` (`packages/coding-agent/src/core/tools/output-accumulator.ts`): streaming output
is decoded, the tail of the text is kept, and the bytes are buffered until a log file is opened.
The decoder is a parameter. The creation of a log file may throw; its stream does not fail. The
file is not closed here.
-/
import EasyPi.CodingAgent.Truncate

namespace EasyPi.CodingAgent
namespace OutputAccumulator

open Truncate

/-- A streaming decoder: `decode(data, { stream: true })`, and `decode()` at the end. -/
structure TextDecoder (σ : Type*) where
  start : σ
  decode : σ → Bytes → σ × List Char
  flush : σ → List Char

structure OutputAccumulatorOptions where
  maxLines : Option ℕ := none
  maxBytes : Option ℕ := none
  maxPersistedBytes : Option ℕ := none

def defaultMaxPersistedBytes : ℕ := 64 * 1024 * 1024

/-- `OUTPUT_LOG_TRUNCATION_MARKER`. -/
def outputLogTruncationMarker : Bytes := utf8 (Text.ofChars
  "\n[pi] Full output log truncated at its byte budget; later output is kept only in the preview.\n".toList)

/-- A log file, and what has been written to its stream. -/
structure LogFile where
  path : String
  written : Bytes := []

structure Accumulator (σ : Type*) where
  maxLines : ℕ
  maxBytes : ℕ
  maxRollingBytes : ℕ
  maxPersistedBytes : ℕ
  persistedBytes : ℕ := 0
  logTruncated : Bool := false
  decoder : σ
  rawChunks : List Bytes := []
  tailText : Text := []
  tailBytes : ℕ := 0
  tailStartsAtLineBoundary : Bool := true
  totalRawBytes : ℕ := 0
  totalDecodedBytes : ℕ := 0
  completedLines : ℕ := 0
  totalLines : ℕ := 0
  currentLineBytes : ℕ := 0
  hasOpenLine : Bool := false
  finished : Bool := false
  file : Option LogFile := none

structure OutputSnapshot where
  content : Text
  truncation : TruncationResult
  fullOutputPath : Option String
  logTruncated : Bool

section
variable {σ : Type*} (decoder : TextDecoder σ)

def new (options : OutputAccumulatorOptions) : Accumulator σ where
  maxLines := options.maxLines.getD defaultMaxLines
  maxBytes := options.maxBytes.getD defaultMaxBytes
  maxRollingBytes := max (options.maxBytes.getD defaultMaxBytes * 2) 1
  maxPersistedBytes := options.maxPersistedBytes.getD defaultMaxPersistedBytes
  decoder := decoder.start

variable (s : Accumulator σ)

/-! ### The text -/

def trimTail : Accumulator σ :=
  let buffer := utf8 s.tailText
  if buffer.length ≤ s.maxRollingBytes then { s with tailBytes := buffer.length }
  else
    let start := nextBoundary buffer (buffer.length - s.maxRollingBytes)
    let tailText := textOfUtf8 (buffer.drop start)
    { s with
      tailStartsAtLineBoundary :=
        if start = 0 then s.tailStartsAtLineBoundary else buffer[start - 1]? == some 0x0a
      tailText := tailText
      tailBytes := byteLength tailText }

/-- What stands behind the last line break, if there is one. -/
def afterLastNewline (text : Text) : Text := (text.reverse.takeWhile (· ≠ newline)).reverse

/-- The first part of `appendDecodedText`: the tail. -/
def appendTail (text : Text) : Accumulator σ :=
  let bytes := byteLength text
  let s := { s with
    totalDecodedBytes := s.totalDecodedBytes + bytes
    tailText := s.tailText ++ text
    tailBytes := s.tailBytes + bytes }
  if s.tailBytes > s.maxRollingBytes * 2 then trimTail s else s

/-- The second part of `appendDecodedText`: the lines. -/
def countLines (text : Text) : Accumulator σ :=
  let newlines := text.count newline
  if newlines = 0 then
    { s with currentLineBytes := s.currentLineBytes + byteLength text, hasOpenLine := true }
  else
    let tail := afterLastNewline text
    { s with
      completedLines := s.completedLines + newlines
      currentLineBytes := byteLength tail
      hasOpenLine := tail.length > 0 }

def appendDecodedText (text : Text) : Accumulator σ :=
  if text.length = 0 then s
  else
    let s := countLines (appendTail s text) text
    { s with totalLines := s.completedLines + (if s.hasOpenLine then 1 else 0) }

def getSnapshotText : Text :=
  if s.tailStartsAtLineBoundary then s.tailText
  else
    match s.tailText.idxOf? newline with
    | none => s.tailText
    | some firstNewline => s.tailText.drop (firstNewline + 1)

def shouldUseTempFile : Bool :=
  s.totalRawBytes > s.maxBytes || s.totalDecodedBytes > s.maxBytes || s.totalLines > s.maxLines

def writePersisted (data : Bytes) : Accumulator σ :=
  match s.file with
  | none => s
  | some file =>
    if s.logTruncated then s
    else
      let remaining := if s.maxPersistedBytes = 0 then data.length else s.maxPersistedBytes - s.persistedBytes
      let bytes := min data.length remaining
      let s :=
        if bytes > 0 then
          { s with
            file := some { file with written := file.written ++ data.take bytes }
            persistedBytes := s.persistedBytes + bytes }
        else s
      if bytes < data.length then
        { s with
          logTruncated := true
          file := s.file.map fun file => { file with written := file.written ++ outputLogTruncationMarker } }
      else s

/-- `ensureTempFile`, where the creation of a log file yields a path or throws. -/
def ensureTempFile (creation : Option String) : Option (Accumulator σ) :=
  if s.file.isSome then some s
  else
    match creation with
    | none => none
    | some path =>
      let s := { s with file := some { path := path } }
      some { s.rawChunks.foldl writePersisted s with rawChunks := [] }

/-! ### The calls -/

/-- The end of `append`: `data` is written to the log file or buffered. -/
def storeRaw (data : Bytes) (creation : Option String) : Accumulator σ × Bool :=
  if s.file.isSome || shouldUseTempFile s then
    match ensureTempFile s creation with
    | none => (s, false)
    | some s => (writePersisted s data, true)
  else if data.length > 0 then ({ s with rawChunks := s.rawChunks ++ [data] }, true)
  else (s, true)

/-- `append`: the state, and whether it has returned. -/
def append (data : Bytes) (creation : Option String) : Accumulator σ × Bool :=
  if s.finished then (s, false)
  else
    let (state, text) := decoder.decode s.decoder data
    let s := { s with totalRawBytes := s.totalRawBytes + data.length, decoder := state }
    storeRaw (appendDecodedText s (Text.ofChars text)) data creation

def finish (creation : Option String) : Accumulator σ :=
  if s.finished then s
  else
    let s := appendDecodedText { s with finished := true } (Text.ofChars (decoder.flush s.decoder))
    if shouldUseTempFile s then (ensureTempFile s creation).getD s else s

/-- The truncation that `snapshot` reports. -/
def snapshotTruncation : TruncationResult :=
  let tailTruncation := truncateTail (getSnapshotText s) ⟨some s.maxLines, some s.maxBytes⟩
  let truncated := s.totalLines > s.maxLines || s.totalDecodedBytes > s.maxBytes
  { tailTruncation with
    truncated := truncated
    truncatedBy :=
      if truncated then
        some (tailTruncation.truncatedBy.getD (if s.totalDecodedBytes > s.maxBytes then .bytes else .lines))
      else none
    totalLines := s.totalLines
    totalBytes := s.totalDecodedBytes
    maxLines := s.maxLines
    maxBytes := s.maxBytes }

/-- `snapshot`: the state, and what it returns. -/
def snapshot (persistIfTruncated : Bool) (creation : Option String) : Accumulator σ × Option OutputSnapshot :=
  let truncation := snapshotTruncation s
  match if persistIfTruncated && truncation.truncated then ensureTempFile s creation else some s with
  | none => (s, none)
  | some s => (s, some {
      content := truncation.content
      truncation := truncation
      fullOutputPath := s.file.map (·.path)
      logTruncated := s.logTruncated })

/-- A call of a method; `creation` is what the creation of a log file would yield. -/
inductive Call where
  | append (data : Bytes) (creation : Option String)
  | snapshot (persistIfTruncated : Bool) (creation : Option String)
  | finish (creation : Option String)

def step : Call → Accumulator σ
  | .append data creation => (append decoder s data creation).1
  | .snapshot persistIfTruncated creation => (snapshot s persistIfTruncated creation).1
  | .finish creation => finish decoder s creation

def run (calls : List Call) : Accumulator σ := calls.foldl (step decoder) s

theorem storeRaw_returns (data : Bytes) (path : String) : (storeRaw s data (some path)).2 = true := by
  unfold storeRaw ensureTempFile
  by_cases hfile : s.file.isSome
  · simp [hfile]
  · simp only [hfile, Bool.false_or, Bool.false_eq_true, if_false]
    split_ifs <;> rfl

/-- Where a log file can be created, `append` throws only when it comes after `finish`. -/
theorem append_returns (data : Bytes) (path : String) : (append decoder s data (some path)).2 = !s.finished := by
  unfold append
  split
  · rename_i hfinished
    simp [hfinished]
  · rename_i hopen
    rw [Bool.not_eq_true] at hopen
    simpa [hopen] using storeRaw_returns _ data path

/-- The data that a call has appended: that of an `append` that has returned. -/
def appended : Call → Bytes
  | .append data creation => if (append decoder s data creation).2 then data else []
  | _ => []

/-- The data that a sequence of calls has appended. -/
def allAppended : Accumulator σ → List Call → Bytes
  | _, [] => []
  | s, call :: calls => appended decoder s call ++ allAppended (step decoder s call) calls

end

end OutputAccumulator
end EasyPi.CodingAgent
