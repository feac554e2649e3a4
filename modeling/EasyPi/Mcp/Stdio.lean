/-
# Messages on standard output

`handleStdout` of `packages/mcp/src/transports/stdio.ts`. Bytes are buffered up to the next line feed. A buffer that gets
too long is emptied, and what comes of its line afterwards is read as a line of its own: so the messages are those of the
stream exactly when no such rest is a message.
-/
import Mathlib.Data.List.Induction
import EasyPi.Lib.Bytes
import EasyPi.Lib.TextLines
import EasyPi.Mcp.Sse

namespace EasyPi.Mcp

open List

/-- What is emitted; the text of an error of `JSON.parse` is left open. -/
inductive StdioEvent where
  | message (message : JsonValue)
  | error (text : Option String)
  deriving DecidableEq

/-- `stdoutBuffer`, and what was emitted. -/
structure Stdout where
  buffer : Bytes := []
  events : List StdioEvent := []
  deriving DecidableEq

section
variable (decode : Bytes → List Char) (parse : String → Option JsonValue) (maxMessageBytes : ℕ)

def stdioTooLong : StdioEvent := .error (some ("MCP stdio message exceeds " ++ toString maxMessageBytes ++ " bytes"))

def handleLine (line : Bytes) : List StdioEvent :=
  if maxMessageBytes < line.length then [stdioTooLong maxMessageBytes]
  else
    let text := decode line
    let text := if text.getLast? = some '\r' then text.dropLast else text
    if text.all isSpace then []
    else
      match parse (String.ofList text) with
      | none => [.error none]
      | some value =>
        match parseJsonRpcMessage value with
        | none => [.error (some "Invalid JSON-RPC message")]
        | some rpc => [.message rpc]

/-- The loop over the buffer, behind a part without a line feed. -/
def stdoutLoop (part : Bytes) : Bytes → List StdioEvent × Bytes
  | [] => if maxMessageBytes < part.length then ([stdioTooLong maxMessageBytes], []) else ([], part)
  | byte :: bytes =>
    if byte = 0x0a then
      let (events, buffer) := stdoutLoop [] bytes
      (handleLine decode parse maxMessageBytes part ++ events, buffer)
    else stdoutLoop (part ++ [byte]) bytes

def handleStdout (s : Stdout) (chunk : Bytes) : Stdout :=
  let (events, buffer) := stdoutLoop decode parse maxMessageBytes [] (s.buffer ++ chunk)
  { buffer, events := s.events ++ events }

def StdioEvent.message? : StdioEvent → Option JsonValue
  | .message rpc => some rpc
  | .error _ => none

def Stdout.messages (s : Stdout) : List JsonValue := s.events.filterMap StdioEvent.message?

def stdoutOf (chunks : List Bytes) : Stdout := chunks.foldl (handleStdout decode parse maxMessageBytes) {}

/-- The message of a line of at most `maxMessageBytes` bytes. -/
def lineMessage (line : Bytes) : Option JsonValue :=
  if line.length ≤ maxMessageBytes then
    let text := decode line
    (parse (String.ofList (if text.getLast? = some '\r' then text.dropLast else text))).bind parseJsonRpcMessage
  else none

def doneLines (stream : Bytes) : List Bytes := (stream.splitOn 0x0a).dropLast

def lastLine (stream : Bytes) : Bytes := (stream.splitOn 0x0a).getLastD []

def streamMessages (stream : Bytes) : List JsonValue := (doneLines stream).filterMap (lineMessage decode parse maxMessageBytes)

/-- The first line that a chunk ends is the stream's, or what was kept of it is no message. -/
def Undivided (before : List Bytes) (chunk : Bytes) : Prop :=
  ∀ line rest, chunk = line ++ 0x0a :: rest → 0x0a ∉ line →
    let buffer := (stdoutOf decode parse maxMessageBytes before).buffer
    buffer = lastLine before.flatten ∨ lineMessage decode parse maxMessageBytes (buffer ++ line) = none
end

variable {decode : Bytes → List Char} {parse : String → Option JsonValue} {limit : ℕ}
  {stream bytes line part rest chunk : Bytes} {s : Stdout}

theorem doneLines_append_line (stream : Bytes) (h : 0x0a ∉ line) (rest : Bytes) :
    doneLines (stream ++ (line ++ 0x0a :: rest)) = doneLines stream ++ (lastLine stream ++ line) :: doneLines rest := by
  rw [doneLines, ← append_assoc, splitOn_append_cons_self, splitOn_append_of_notMem _ _ h,
    dropLast_append_of_ne_nil (splitOn_ne_nil _ _), append_assoc, singleton_append]
  rfl

theorem lastLine_append_line (stream line rest : Bytes) : lastLine (stream ++ (line ++ 0x0a :: rest)) = lastLine rest := by
  rw [lastLine, ← append_assoc, splitOn_append_cons_self, getLastD_eq_getLast?,
    List.getLast?_append_of_ne_nil _ (splitOn_ne_nil _ _), ← getLastD_eq_getLast?]
  rfl

theorem doneLines_append (stream : Bytes) (h : 0x0a ∉ part) : doneLines (stream ++ part) = doneLines stream := by
  rw [doneLines, splitOn_append_of_notMem _ _ h, dropLast_concat]
  rfl

theorem lastLine_append (stream : Bytes) (h : 0x0a ∉ part) : lastLine (stream ++ part) = lastLine stream ++ part := by
  rw [lastLine, splitOn_append_of_notMem _ _ h, getLastD_concat]
  rfl

theorem notMem_lastLine (stream : Bytes) : 0x0a ∉ lastLine stream := by
  induction stream using text_induction (0x0a : UInt8) with
  | hnil => exact not_mem_nil
  | hlast stream _ h =>
    have hlast := lastLine_append [] h
    rw [nil_append] at hlast
    rw [hlast]
    exact h
  | hline line rest _ ih =>
    have hlast := lastLine_append_line [] line rest
    rw [nil_append] at hlast
    rwa [hlast]

/-! ### One chunk -/

/-- A text that `trim` empties is no JSON. -/
def BlankFails (parse : String → Option JsonValue) : Prop :=
  ∀ text : List Char, text.all isSpace = true → parse (String.ofList text) = none

theorem messages_handleLine (hblank : BlankFails parse) (line : Bytes) :
    (handleLine decode parse limit line).filterMap StdioEvent.message? =
      (lineMessage decode parse limit line).toList := by
  unfold handleLine lineMessage
  by_cases hlong : limit < line.length
  · rw [if_pos hlong, if_neg (Nat.not_le.mpr hlong)]
    rfl
  rw [if_neg hlong, if_pos (Nat.le_of_not_lt hlong)]
  dsimp only
  generalize (if (decode line).getLast? = some '\r' then (decode line).dropLast else decode line) = text
  by_cases hall : text.all isSpace = true
  · rw [if_pos hall, hblank text hall]
    rfl
  rw [if_neg hall]
  cases parse (String.ofList text) with
  | none => rfl
  | some value =>
    dsimp only [Option.bind_some]
    cases parseJsonRpcMessage value with
    | none => rfl
    | some rpc => rfl

/-- The buffer that a chunk leaves of a line. -/
def kept (maxMessageBytes : ℕ) (line : Bytes) : Bytes := if maxMessageBytes < line.length then [] else line

/-- **The loop** handles the lines that are ended, and keeps the last one unless it is too long. -/
theorem stdoutLoop_eq (hblank : BlankFails parse) (part bytes : Bytes) (h : 0x0a ∉ part) :
    (stdoutLoop decode parse limit part bytes).1.filterMap StdioEvent.message? =
        streamMessages decode parse limit (part ++ bytes) ∧
      (stdoutLoop decode parse limit part bytes).2 = kept limit (lastLine (part ++ bytes)) := by
  induction bytes generalizing part with
  | nil =>
    have hdone := doneLines_append [] h
    have hlast := lastLine_append [] h
    rw [nil_append] at hdone hlast
    rw [append_nil, stdoutLoop, kept, streamMessages, hdone, hlast]
    change _ ∧ _ = if limit < part.length then [] else part
    by_cases hlong : limit < part.length
    · rw [if_pos hlong, if_pos hlong]
      exact ⟨rfl, rfl⟩
    · rw [if_neg hlong, if_neg hlong]
      exact ⟨rfl, rfl⟩
  | cons byte bytes ih =>
    rw [stdoutLoop]
    by_cases hbyte : byte = 0x0a
    · rw [if_pos hbyte, hbyte]
      obtain ⟨hmessages, hbuffer⟩ := ih [] not_mem_nil
      have hdone := doneLines_append_line [] h bytes
      have hlast := lastLine_append_line [] part bytes
      rw [nil_append] at hdone hlast hmessages hbuffer
      dsimp only
      rw [filterMap_append, messages_handleLine hblank, hmessages, hbuffer, streamMessages, streamMessages, hdone, hlast]
      refine ⟨?_, rfl⟩
      change _ = (part :: doneLines bytes).filterMap _
      cases hmessage : lineMessage decode parse limit part with
      | none => rw [filterMap_cons_none hmessage, Option.toList_none, nil_append]
      | some rpc => rw [filterMap_cons_some hmessage, Option.toList_some, singleton_append]
    · have hpart : 0x0a ∉ part ++ [byte] := by
        rw [mem_append, mem_singleton, not_or]
        exact ⟨h, Ne.symm hbyte⟩
      have hih := ih (part ++ [byte]) hpart
      rw [append_assoc, singleton_append] at hih
      rwa [if_neg hbyte]

/-- What is buffered is the last line of the stream, or what is left of one that is too long. -/
structure Kept (maxMessageBytes : ℕ) (s : Stdout) (stream : Bytes) : Prop where
  unbroken : 0x0a ∉ s.buffer
  last : s.buffer = lastLine stream ∨ maxMessageBytes < (lastLine stream).length

theorem doneLines_unbroken (h : 0x0a ∉ part) : doneLines part = [] := doneLines_append [] h

theorem streamMessages_append_line (stream : Bytes) (h : 0x0a ∉ line) (rest : Bytes) :
    streamMessages decode parse limit (stream ++ (line ++ 0x0a :: rest)) = streamMessages decode parse limit stream ++
        ((lineMessage decode parse limit (lastLine stream ++ line)).toList ++
          streamMessages decode parse limit rest) := by
  rw [streamMessages, doneLines_append_line stream h, filterMap_append, streamMessages, streamMessages]
  cases hmessage : lineMessage decode parse limit (lastLine stream ++ line) with
  | none => rw [filterMap_cons_none hmessage, Option.toList_none, nil_append]
  | some rpc => rw [filterMap_cons_some hmessage, Option.toList_some, singleton_append]

theorem handleStdout_spec (hblank : BlankFails parse) (s : Stdout) (chunk : Bytes) :
    (handleStdout decode parse limit s chunk).messages =
        s.messages ++ streamMessages decode parse limit (s.buffer ++ chunk) ∧
      (handleStdout decode parse limit s chunk).buffer = kept limit (lastLine (s.buffer ++ chunk)) := by
  obtain ⟨hmessages, hbuffer⟩ := @stdoutLoop_eq decode parse limit hblank [] (s.buffer ++ chunk) not_mem_nil
  rw [nil_append] at hmessages hbuffer
  refine ⟨?_, hbuffer⟩
  rw [← hmessages]
  exact filterMap_append

theorem chunk_cases (chunk : Bytes) : 0x0a ∉ chunk ∨ ∃ line rest, 0x0a ∉ line ∧ chunk = line ++ 0x0a :: rest := by
  by_cases h : 0x0a ∈ chunk
  · obtain ⟨line, rest, hchunk, hline⟩ := eq_append_cons_of_mem h
    exact .inr ⟨line, rest, hline, hchunk⟩
  · exact .inl h

theorem line_eq_of_cut {line' rest' : Bytes} (h : 0x0a ∉ line) (h' : 0x0a ∉ line')
    (heq : line ++ 0x0a :: rest = line' ++ 0x0a :: rest') : line = line' ∧ rest = rest' := by
  have hdone := congrArg doneLines heq
  have hlast := doneLines_append_line [] h rest
  have hlast' := doneLines_append_line [] h' rest'
  rw [nil_append] at hlast hlast'
  rw [hlast, hlast'] at hdone
  have hline : line = line' := (List.cons.inj hdone).1
  subst hline
  exact ⟨rfl, (List.cons.inj (append_cancel_left heq)).2⟩

theorem Kept.step (hblank : BlankFails parse) (h : Kept limit s stream) (chunk : Bytes) :
    Kept limit (handleStdout decode parse limit s chunk) (stream ++ chunk) := by
  have hbuffer := (@handleStdout_spec decode parse limit hblank s chunk).2
  constructor
  · rw [hbuffer, kept]
    split
    · exact not_mem_nil
    · exact notMem_lastLine _
  · rw [hbuffer]
    rcases chunk_cases chunk with hchunk | ⟨line, rest, hline, rfl⟩
    · have hunbroken : 0x0a ∉ s.buffer ++ chunk := fun hmem => (mem_append.mp hmem).elim h.unbroken hchunk
      have hlast := lastLine_append [] hunbroken
      rw [nil_append] at hlast
      rw [hlast, lastLine_append stream hchunk, length_append]
      change kept limit (s.buffer ++ chunk) = _ ∨ _
      rcases h.last with hsame | hlong
      · rw [hsame, kept]
        by_cases hlong : limit < (lastLine stream ++ chunk).length
        · rw [length_append] at hlong
          exact .inr hlong
        · exact .inl (if_neg hlong)
      · exact .inr (by omega)
    · rw [lastLine_append_line, lastLine_append_line, kept]
      by_cases hlong : limit < (lastLine rest).length
      · exact .inr hlong
      · exact .inl (if_neg hlong)

theorem messages_step (hblank : BlankFails parse) (h : Kept limit s stream) (chunk : Bytes) :
    ∃ extra more : List JsonValue, (handleStdout decode parse limit s chunk).messages = s.messages ++ (extra ++ more) ∧
      streamMessages decode parse limit (stream ++ chunk) = streamMessages decode parse limit stream ++ more ∧
      (extra = [] ↔ ∀ line rest, chunk = line ++ 0x0a :: rest → 0x0a ∉ line →
        s.buffer = lastLine stream ∨ lineMessage decode parse limit (s.buffer ++ line) = none) := by
  rw [(@handleStdout_spec decode parse limit hblank s chunk).1]
  rcases chunk_cases chunk with hchunk | ⟨line, rest, hline, rfl⟩
  · have hunbroken : 0x0a ∉ s.buffer ++ chunk := fun hmem => (mem_append.mp hmem).elim h.unbroken hchunk
    refine ⟨[], [], ?_, ?_, fun _ line rest hcut => ?_, fun _ => rfl⟩
    · rw [streamMessages, doneLines_unbroken hunbroken]
      rfl
    · rw [streamMessages, doneLines_append stream hchunk, append_nil]
      rfl
    · exact absurd (hcut ▸ mem_append_right _ (mem_cons_self ..)) hchunk
  have hlast := lastLine_append [] h.unbroken
  rw [nil_append] at hlast
  have hbuffer : lastLine s.buffer ++ line = s.buffer ++ line := congrArg (· ++ line) hlast
  have hnone : streamMessages decode parse limit s.buffer = [] := by
    rw [streamMessages, doneLines_unbroken h.unbroken]
    rfl
  rw [streamMessages_append_line s.buffer hline, streamMessages_append_line stream hline, hbuffer, hnone, nil_append]
  by_cases hsame : s.buffer = lastLine stream
  · refine ⟨[], _, ?_, rfl, fun _ _ _ _ _ => .inl hsame, fun _ => rfl⟩
    rw [hsame, nil_append]
  have hlong := h.last.resolve_left hsame
  have hnot : ¬ (lastLine stream ++ line).length ≤ limit := by
    rw [length_append]
    omega
  have htoo : lineMessage decode parse limit (lastLine stream ++ line) = none := if_neg hnot
  rw [htoo]
  refine ⟨_, _, rfl, rfl, fun hextra line' rest' hcut hline' => ?_, fun hall => ?_⟩
  · obtain ⟨rfl, -⟩ := line_eq_of_cut hline hline' hcut
    exact .inr (Option.toList_eq_nil_iff.mp hextra)
  · rw [(hall line rest rfl hline).resolve_left hsame]
    rfl

theorem stdoutOf_concat (chunks : List Bytes) (chunk : Bytes) : stdoutOf decode parse limit (chunks ++ [chunk]) =
    handleStdout decode parse limit (stdoutOf decode parse limit chunks) chunk :=
  foldl_concat ..

theorem kept_stdoutOf (hblank : BlankFails parse) (chunks : List Bytes) :
    Kept limit (stdoutOf decode parse limit chunks) chunks.flatten := by
  induction chunks using List.reverseRecOn with
  | nil => exact ⟨not_mem_nil, .inl rfl⟩
  | append_singleton chunks chunk ih =>
    rw [stdoutOf_concat, flatten_append, flatten_singleton]
    exact ih.step hblank chunk

/-- **The messages are those of the stream**, however it is cut, exactly when no chunk ends a line of which the buffer was
emptied, and what was kept of it is a message. -/
theorem messages_exact_iff (hblank : BlankFails parse) (chunks : List Bytes) :
    (stdoutOf decode parse maxMessageBytes chunks).messages = streamMessages decode parse maxMessageBytes chunks.flatten ↔
      ∀ before chunk after, chunks = before ++ chunk :: after → Undivided decode parse maxMessageBytes before chunk := by
  suffices hall : (streamMessages decode parse maxMessageBytes chunks.flatten).length ≤
      (stdoutOf decode parse maxMessageBytes chunks).messages.length ∧
      ((stdoutOf decode parse maxMessageBytes chunks).messages = streamMessages decode parse maxMessageBytes chunks.flatten ↔
        ∀ before chunk after, chunks = before ++ chunk :: after → Undivided decode parse maxMessageBytes before chunk) from
    hall.2
  induction chunks using List.reverseRecOn with
  | nil =>
    refine ⟨Nat.le_refl _, fun _ before chunk after hcut => ?_, fun _ => rfl⟩
    exact absurd hcut.symm (by simp)
  | append_singleton chunks chunk ih =>
    obtain ⟨hle, hiff⟩ := ih
    obtain ⟨extra, more, hmessages, hstream, hextra⟩ :=
      @messages_step decode parse maxMessageBytes _ _ hblank (kept_stdoutOf hblank chunks) chunk
    have hsplit : (∀ before c after, chunks ++ [chunk] = before ++ c :: after →
        Undivided decode parse maxMessageBytes before c) ↔ (∀ before c after, chunks = before ++ c :: after →
        Undivided decode parse maxMessageBytes before c) ∧ Undivided decode parse maxMessageBytes chunks chunk := by
      constructor
      · intro hall
        exact ⟨fun before c after hcut => hall before c (after ++ [chunk]) (by rw [hcut]; simp), hall chunks chunk [] rfl⟩
      · rintro ⟨hall, hlast⟩ before c after hcut
        rcases eq_nil_or_concat' after with rfl | ⟨after, d, rfl⟩
        · obtain ⟨rfl, hc⟩ := append_inj' hcut rfl
          rwa [← (List.cons.inj hc).1]
        · rw [← cons_append, ← append_assoc] at hcut
          exact hall before c after (append_inj' hcut rfl).1
    rw [hsplit, stdoutOf_concat, flatten_append, flatten_singleton, hmessages, hstream, ← append_assoc,
      append_cancel_right_eq, length_append, length_append, length_append]
    refine ⟨by omega, fun heq => ?_, fun ⟨hall, hundivided⟩ => ?_⟩
    · have hlength := congrArg List.length heq
      rw [length_append] at hlength
      have hnil : extra = [] := length_eq_zero_iff.mp (by omega)
      rw [hnil, append_nil] at heq
      exact ⟨hiff.mp heq, hextra.mp hnil⟩
    · rw [hextra.mpr hundivided, append_nil]
      exact hiff.mpr hall

def decodeAscii (bytes : Bytes) : List Char := bytes.map fun byte => Char.ofNat byte.toNat

def pingText : String := "\x7b\"jsonrpc\":\"2.0\",\"method\":\"m\"\x7d"

def ping : JsonValue := .obj [("jsonrpc", .str "2.0"), ("method", .str "m")]

def parsePing (text : String) : Option JsonValue := if text = pingText then some ping else none

def pingLine : Bytes := (pingText.toList.map fun c => UInt8.ofNat c.toNat) ++ [0x0a]

def cutLine : List Bytes := [List.replicate 31 0x61, pingLine]

theorem blankFails_parsePing : BlankFails parsePing := by
  intro text hall
  refine if_neg fun heq => ?_
  have htext : text = pingText.toList := by rw [← heq, String.toList_ofList]
  rw [htext] at hall
  exact absurd hall (by decide)

def halves : List Bytes := [pingLine.take 10, pingLine.drop 10]

theorem messages_exact_halves :
    (stdoutOf decodeAscii parsePing 30 halves).messages = streamMessages decodeAscii parsePing 30 halves.flatten := by
  refine (messages_exact_iff blankFails_parsePing halves).mpr fun before chunk after hcut line rest _ _ => .inl ?_
  obtain - | ⟨first, - | ⟨second, before⟩⟩ := before
  · rfl
  · obtain ⟨rfl, -⟩ := cons_eq_cons.mp hcut
    decide
  · have hlen := congrArg length hcut
    simp [halves] at hlen

theorem messages_inexact : ¬ ∀ chunks : List Bytes, (stdoutOf decodeAscii parsePing 30 chunks).messages =
    streamMessages decodeAscii parsePing 30 chunks.flatten :=
  fun hall => absurd (hall cutLine) (by decide +kernel)

end EasyPi.Mcp
