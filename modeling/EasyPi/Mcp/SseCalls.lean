/-
# The callbacks of an event stream

`consumeSseStream` of `packages/mcp/src/transports/streamable-http.ts` with its callbacks as a list of calls. What the
decoder makes of the chunks is read part by part; the callbacks are those of a reader that has the whole text, line by
line, as long as nothing is too large. What is behind the last line feed counts as a line, and the end as a blank one.
-/
import EasyPi.Lib.TextLines
import EasyPi.Mcp.SseServer

namespace EasyPi.Mcp

open List

/-- A callback; `onRetry` is called with the number of the digits. -/
inductive SseCall where
  | event (event : Option (List Char)) (data : List Char) (id : Option (List Char))
  | id (id : List Char)
  | retry (digits : List Char)
  deriving DecidableEq

/-- The digits of a `retry` field. -/
def retryOf (line : List Char) : Option (List Char) :=
  let field := line.takeWhile (· ≠ ':')
  let value := line.drop (field.length + 1)
  let value := if value.head? = some ' ' then value.tail else value
  if field = ['r', 'e', 't', 'r', 'y'] ∧ value ≠ [] ∧ value.all Char.isDigit = true then some value else none

/-- A line without the carriage return at its end. -/
def withoutCr (rawLine : List Char) : List Char := if rawLine.getLast? = some '\r' then rawLine.dropLast else rawLine

/-- The variables of `consumeSseStream`, its calls and whether it has thrown. -/
structure SseLoop where
  buffered : List Char := []
  eventName : Option (List Char) := none
  eventId : Option (List Char) := none
  dataLines : List (List Char) := []
  dataBytes : ℕ := 0
  calls : List SseCall := []
  failed : Bool := false
  deriving DecidableEq

namespace SseLoop

variable (maxEventBytes : ℕ) (r : SseLoop)

def dispatch : SseLoop :=
  if r.dataLines = [] then { r with eventName := none, eventId := none }
  else
    { r with
      eventName := none
      eventId := none
      dataLines := []
      dataBytes := 0
      calls := r.calls ++ [.event (r.eventName.filter (!·.isEmpty)) (joinLines '\n' r.dataLines)
        (r.eventId.filter (!·.isEmpty))] }

def processLine (rawLine : List Char) : SseLoop :=
  let line := withoutCr rawLine
  if r.failed then r
  else if line = [] then r.dispatch
  else
    match parseField line with
    | .data value =>
      let dataBytes := r.dataBytes + (byteLength value + if r.dataLines = [] then 0 else 1)
      if maxEventBytes < dataBytes then { r with dataBytes, failed := true }
      else { r with dataBytes, dataLines := r.dataLines ++ [value] }
    | .event value => { r with eventName := some value }
    | .id value => { r with eventId := some value, calls := r.calls ++ [.id value] }
    | .other => { r with calls := r.calls ++ (retryOf line).toList.map .retry }

def readChar (c : Char) : SseLoop :=
  if r.failed then r
  else if c = '\n' then { r with buffered := [] }.processLine maxEventBytes r.buffered
  else { r with buffered := r.buffered ++ [c] }

def readPart (part : List Char) : SseLoop :=
  let r := part.foldl (readChar maxEventBytes) r
  if r.failed = false ∧ maxEventBytes < byteLength r.buffered then { r with failed := true } else r

def finish : SseLoop :=
  let r := if r.buffered = [] then r else r.processLine maxEventBytes r.buffered
  if r.failed then r else r.dispatch

end SseLoop

/-- `consumeSseStream`, on what the decoder makes of each chunk. -/
def consumeSseStream (maxEventBytes : ℕ) (parts : List (List Char)) : SseLoop :=
  (parts.foldl (SseLoop.readPart maxEventBytes) {}).finish maxEventBytes

/-- What a kind of field says in the lines of an event. -/
def valuesOf (kind : SseField → Option (List Char)) (event : List (List Char)) : List (List Char) :=
  event.filterMap fun line => kind (parseField line)

/-- The call of an event with these lines, if one of them is a data line. -/
def eventCall (event : List (List Char)) : List SseCall :=
  if valuesOf SseField.data? event = [] then []
  else [.event ((valuesOf SseField.event? event).getLast?.filter (!·.isEmpty))
    (joinLines '\n' (valuesOf SseField.data? event)) ((valuesOf SseField.id? event).getLast?.filter (!·.isEmpty))]

def lineCalls (line : List Char) : List SseCall :=
  match parseField line with
  | .id value => [.id value]
  | .other => (retryOf line).toList.map .retry
  | _ => []

/-- The calls for lines, behind the lines of an event in progress. With `atEnd`, that event is dispatched at the end. -/
def referenceCalls (atEnd : Bool) : List (List Char) → List (List Char) → List SseCall
  | event, [] => if atEnd then eventCall event else []
  | event, line :: lines =>
    if line = [] then eventCall event ++ referenceCalls atEnd [] lines
    else lineCalls line ++ referenceCalls atEnd (event ++ [line]) lines

def sseLines (text : List Char) : List (List Char) := (linesOf '\n' text).map withoutCr

/-- Nothing is too large: no line with its carriage return, and no event's data. -/
structure WithinBytes (maxEventBytes : ℕ) (text : List Char) : Prop where
  lines : ∀ line ∈ linesOf '\n' text, byteLength line ≤ maxEventBytes
  data : ∀ event data id, SseCall.event event data id ∈ referenceCalls true [] (sseLines text) →
    byteLength data ≤ maxEventBytes

/-! ### Lines of an event -/

variable {limit : ℕ} {r : SseLoop} {event lines : List (List Char)} {line : List Char}

/-- The loop has read these lines of an event. -/
structure SseLoop.Reading (r : SseLoop) (event : List (List Char)) : Prop where
  eventName : r.eventName = (valuesOf SseField.event? event).getLast?
  eventId : r.eventId = (valuesOf SseField.id? event).getLast?
  dataLines : r.dataLines = valuesOf SseField.data? event
  dataBytes : r.dataBytes = byteLength (joinLines '\n' r.dataLines)
  failed : r.failed = false

theorem byteLength_joinLines_concat (data : List (List Char)) (value : List Char) :
    byteLength (joinLines '\n' (data ++ [value])) =
      byteLength (joinLines '\n' data) + (byteLength value + if data = [] then 0 else 1) := by
  by_cases hnil : data = []
  · subst hnil
    rw [nil_append, joinLines_singleton, if_pos rfl]
    exact (Nat.zero_add _).symm
  · have hnl : byteLength ('\n' :: value) = 1 + byteLength value := byteLength_append ['\n'] value
    rw [joinLines_append '\n' hnil (cons_ne_nil _ _), joinLines_singleton, byteLength_append, if_neg hnil, hnl]
    omega

theorem valuesOf_concat (kind : SseField → Option (List Char)) (event : List (List Char)) (line : List Char) :
    valuesOf kind (event ++ [line]) = valuesOf kind event ++ (kind (parseField line)).toList := by
  rw [valuesOf, filterMap_append, filterMap_cons]
  cases kind (parseField line) with
  | none => rfl
  | some value => rfl

namespace SseLoop

theorem Reading.dispatch (h : r.Reading event) :
    r.dispatch.Reading [] ∧ r.dispatch.calls = r.calls ++ eventCall event ∧ r.dispatch.buffered = r.buffered := by
  unfold SseLoop.dispatch eventCall
  rw [h.dataLines, h.eventName, h.eventId]
  by_cases hnil : valuesOf SseField.data? event = []
  · rw [if_pos hnil, if_pos hnil]
    refine ⟨⟨rfl, rfl, ?_, ?_, h.failed⟩, (append_nil _).symm, rfl⟩
    · rw [hnil]
      rfl
    · rw [h.dataBytes, h.dataLines]
  · rw [if_neg hnil, if_neg hnil]
    exact ⟨⟨rfl, rfl, rfl, rfl, h.failed⟩, rfl, rfl⟩

/-- **A line of an event** is read unless its data is too large. -/
theorem Reading.processLine (h : r.Reading event) (hline : withoutCr line ≠ [])
    (hdata : byteLength (joinLines '\n' (valuesOf SseField.data? (event ++ [withoutCr line]))) ≤ limit) :
    (r.processLine limit line).Reading (event ++ [withoutCr line]) ∧
      (r.processLine limit line).calls = r.calls ++ lineCalls (withoutCr line) ∧
      (r.processLine limit line).buffered = r.buffered := by
  have hfailed : ¬ r.failed = true := by simp [h.failed]
  unfold SseLoop.processLine lineCalls
  dsimp only
  rw [if_neg hfailed, if_neg hline]
  generalize withoutCr line = line at hdata ⊢
  rw [valuesOf_concat] at hdata
  cases hfield : parseField line with
  | data value =>
    rw [hfield] at hdata
    change byteLength (joinLines '\n' (_ ++ [value])) ≤ _ at hdata
    rw [byteLength_joinLines_concat, ← h.dataLines, ← h.dataBytes] at hdata
    dsimp only
    rw [if_neg (Nat.not_lt.mpr hdata)]
    refine ⟨⟨?_, ?_, ?_, ?_, h.failed⟩, (append_nil _).symm, rfl⟩
    · rw [valuesOf_concat, hfield, h.eventName]
      exact congrArg List.getLast? (append_nil _).symm
    · rw [valuesOf_concat, hfield, h.eventId]
      exact congrArg List.getLast? (append_nil _).symm
    · rw [valuesOf_concat, hfield, h.dataLines]
      rfl
    · rw [byteLength_joinLines_concat, h.dataBytes]
  | event value =>
    refine ⟨⟨?_, ?_, ?_, h.dataBytes, h.failed⟩, (append_nil _).symm, rfl⟩
    · rw [valuesOf_concat, hfield]
      exact List.getLast?_concat.symm
    · rw [valuesOf_concat, hfield, h.eventId]
      exact congrArg List.getLast? (append_nil _).symm
    · rw [valuesOf_concat, hfield, h.dataLines]
      exact (append_nil _).symm
  | id value =>
    refine ⟨⟨?_, ?_, ?_, h.dataBytes, h.failed⟩, rfl, rfl⟩
    · rw [valuesOf_concat, hfield, h.eventName]
      exact congrArg List.getLast? (append_nil _).symm
    · rw [valuesOf_concat, hfield]
      exact List.getLast?_concat.symm
    · rw [valuesOf_concat, hfield, h.dataLines]
      exact (append_nil _).symm
  | other =>
    refine ⟨⟨?_, ?_, ?_, h.dataBytes, h.failed⟩, rfl, rfl⟩
    · rw [valuesOf_concat, hfield, h.eventName]
      exact congrArg List.getLast? (append_nil _).symm
    · rw [valuesOf_concat, hfield, h.eventId]
      exact congrArg List.getLast? (append_nil _).symm
    · rw [valuesOf_concat, hfield, h.dataLines]
      exact (append_nil _).symm

end SseLoop

theorem data_dispatched (lines : List (List Char)) {event : List (List Char)} (h : valuesOf SseField.data? event ≠ []) :
    ∃ name data id, SseCall.event name data id ∈ referenceCalls true event lines ∧
      byteLength (joinLines '\n' (valuesOf SseField.data? event)) ≤ byteLength data := by
  induction lines generalizing event with
  | nil =>
    rw [referenceCalls, if_pos rfl, eventCall, if_neg h]
    exact ⟨_, _, _, mem_singleton_self _, Nat.le_refl _⟩
  | cons line lines ih =>
    rw [referenceCalls]
    by_cases hline : line = []
    · rw [if_pos hline, eventCall, if_neg h]
      exact ⟨_, _, _, mem_append_left _ (mem_singleton_self _), Nat.le_refl _⟩
    · have hmore := valuesOf_concat SseField.data? event line
      obtain ⟨name, data, id, hmem, hle⟩ := ih (by rw [hmore]; exact append_ne_nil_of_left_ne_nil h _)
      rw [if_neg hline]
      refine ⟨name, data, id, mem_append_right _ hmem, Nat.le_trans ?_ hle⟩
      rw [hmore]
      cases SseField.data? (parseField line) with
      | none => rw [Option.toList_none, append_nil]
      | some value =>
        rw [Option.toList_some, byteLength_joinLines_concat]
        exact Nat.le_add_right _ _

theorem data_within {lines : List (List Char)} (hdata : ∀ name data id, SseCall.event name data id ∈
    referenceCalls true event lines → byteLength data ≤ limit) :
    byteLength (joinLines '\n' (valuesOf SseField.data? event)) ≤ limit := by
  by_cases hnil : valuesOf SseField.data? event = []
  · rw [hnil]
    exact Nat.zero_le _
  · obtain ⟨name, data, id, hmem, hle⟩ := data_dispatched lines hnil
    exact Nat.le_trans hle (hdata name data id hmem)

/-- **A line** makes the calls of the reference, as far as it has come. -/
theorem SseLoop.Reading.step {more : List (List Char)} (h : r.Reading event)
    (hdata : ∀ name data id, SseCall.event name data id ∈ referenceCalls true event (withoutCr line :: more) →
      byteLength data ≤ limit) : ∃ event', (r.processLine limit line).Reading event' ∧
      (r.processLine limit line).buffered = r.buffered ∧
      (r.processLine limit line).calls ++ referenceCalls true event' more =
        r.calls ++ referenceCalls true event (withoutCr line :: more) ∧
      ∀ name data id, SseCall.event name data id ∈ referenceCalls true event' more → byteLength data ≤ limit := by
  rw [referenceCalls] at hdata ⊢
  by_cases hline : withoutCr line = []
  · have hfailed : ¬ r.failed = true := by simp [h.failed]
    have hstep : r.processLine limit line = r.dispatch := by
      unfold SseLoop.processLine
      dsimp only
      rw [if_neg hfailed, if_pos hline]
    rw [if_pos hline] at hdata ⊢
    obtain ⟨hreading, hcalls, hbuffered⟩ := h.dispatch
    rw [hstep]
    refine ⟨[], hreading, hbuffered, ?_, fun name data id hmem => hdata name data id (mem_append_right _ hmem)⟩
    rw [hcalls, append_assoc]
  · rw [if_neg hline] at hdata ⊢
    have hmore := fun name data id hmem => hdata name data id (mem_append_right _ hmem)
    obtain ⟨hreading, hcalls, hbuffered⟩ := h.processLine hline (data_within hmore)
    refine ⟨_, hreading, hbuffered, ?_, hmore⟩
    rw [hcalls, append_assoc]

/-! ### Parts of a text -/

/-- The loop stands before the rest of a text, whose calls are still to come. -/
structure Before (maxEventBytes : ℕ) (calls : List SseCall) (r : SseLoop) (event : List (List Char)) (rest : List Char) :
    Prop where
  reading : r.Reading event
  unbroken : '\n' ∉ r.buffered
  calls : r.calls ++ referenceCalls true event (sseLines (r.buffered ++ rest)) = calls
  lines : ∀ line ∈ linesOf '\n' (r.buffered ++ rest), byteLength line ≤ maxEventBytes
  data : ∀ name data id, SseCall.event name data id ∈ referenceCalls true event (sseLines (r.buffered ++ rest)) →
    byteLength data ≤ maxEventBytes

variable {calls : List SseCall} {rest : List Char}

theorem Before.readChar {c : Char} (h : Before limit calls r event (c :: rest)) :
    ∃ event', Before limit calls (r.readChar limit c) event' rest := by
  obtain ⟨hreading, hunbroken, hcalls, hlines, hdata⟩ := h
  have hfailed : ¬ r.failed = true := by simp [hreading.failed]
  unfold SseLoop.readChar
  rw [if_neg hfailed]
  by_cases hc : c = '\n'
  · subst hc
    have hsplit : sseLines (r.buffered ++ '\n' :: rest) = withoutCr r.buffered :: sseLines rest := by
      rw [sseLines, linesOf_line_cons '\n' hunbroken, map_cons]
      rfl
    rw [hsplit] at hcalls hdata
    rw [linesOf_line_cons '\n' hunbroken, forall_mem_cons] at hlines
    have hempty : ({ r with buffered := [] } : SseLoop).Reading event :=
      ⟨hreading.eventName, hreading.eventId, hreading.dataLines, hreading.dataBytes, hreading.failed⟩
    obtain ⟨event', hread, hbuffered, hsame, hnext⟩ := hempty.step hdata
    have hnil : (({ r with buffered := [] } : SseLoop).processLine limit r.buffered).buffered ++ rest = rest :=
      congrArg (· ++ rest) hbuffered
    rw [if_pos rfl]
    refine ⟨event', hread, ?_, ?_, ?_, ?_⟩
    · rw [hbuffered]
      exact not_mem_nil
    · rw [hnil, hsame]
      exact hcalls
    · rw [hnil]
      exact hlines.2
    · rw [hnil]
      exact hnext
  · rw [if_neg hc]
    have hrest : r.buffered ++ [c] ++ rest = r.buffered ++ c :: rest := by simp
    refine ⟨event, ⟨hreading.eventName, hreading.eventId, hreading.dataLines, hreading.dataBytes, hreading.failed⟩, ?_, ?_,
      ?_, ?_⟩
    · intro hmem
      rcases mem_append.mp hmem with hmem | hmem
      · exact hunbroken hmem
      · exact hc (mem_singleton.mp hmem).symm
    · rw [hrest]
      exact hcalls
    · rw [hrest]
      exact hlines
    · rw [hrest]
      exact hdata

theorem Before.readChars {part : List Char} (h : Before limit calls r event (part ++ rest)) :
    ∃ event', Before limit calls (part.foldl (SseLoop.readChar limit) r) event' rest := by
  induction part generalizing r event with
  | nil => exact ⟨event, h⟩
  | cons c part ih =>
    obtain ⟨event', h'⟩ := h.readChar
    exact ih h'

theorem Before.buffered_le (h : Before limit calls r event rest) : byteLength r.buffered ≤ limit := by
  by_cases hnil : r.buffered = []
  · rw [hnil]
    exact Nat.zero_le _
  obtain ⟨more, hmem⟩ : ∃ more, r.buffered ++ more ∈ linesOf '\n' (r.buffered ++ rest) := by
    by_cases hrest : '\n' ∈ rest
    · obtain ⟨line, behind, rfl, hline⟩ := eq_append_cons_of_mem hrest
      have hunbroken : '\n' ∉ r.buffered ++ line := fun hmem => (mem_append.mp hmem).elim h.unbroken hline
      rw [← append_assoc, linesOf_line_cons '\n' hunbroken]
      exact ⟨line, mem_cons_self ..⟩
    · have hunbroken : '\n' ∉ r.buffered ++ rest := fun hmem => (mem_append.mp hmem).elim h.unbroken hrest
      rw [linesOf_of_notMem '\n' (append_ne_nil_of_left_ne_nil hnil _) hunbroken]
      exact ⟨rest, mem_singleton_self _⟩
  have hle := h.lines _ hmem
  rw [byteLength_append] at hle
  omega

theorem Before.readParts {parts : List (List Char)} (h : Before limit calls r event parts.flatten) :
    ∃ event', Before limit calls (parts.foldl (SseLoop.readPart limit) r) event' [] := by
  induction parts generalizing r event with
  | nil => exact ⟨event, h⟩
  | cons part parts ih =>
    rw [flatten_cons] at h
    obtain ⟨event', h'⟩ := h.readChars
    have hpart : r.readPart limit part = part.foldl (SseLoop.readChar limit) r :=
      if_neg fun hlarge => Nat.not_lt.mpr h'.buffered_le hlarge.2
    rw [foldl_cons, hpart]
    exact ih h'

theorem Before.finish (h : Before limit calls r event []) :
    (r.finish limit).calls = calls ∧ (r.finish limit).failed = false := by
  obtain ⟨hreading, hunbroken, hcalls, -, hdata⟩ := h
  rw [append_nil] at hcalls hdata
  have hend : ∀ {r' : SseLoop} {event'}, r'.Reading event' → r'.calls ++ referenceCalls true event' [] = calls →
      (if r'.failed then r' else r'.dispatch).calls = calls ∧ (if r'.failed then r' else r'.dispatch).failed = false := by
    intro r' event' hread hsame
    have hfailed : ¬ r'.failed = true := by simp [hread.failed]
    obtain ⟨hdispatched, hdispatch, -⟩ := hread.dispatch
    rw [if_neg hfailed, hdispatch]
    exact ⟨hsame, hdispatched.failed⟩
  unfold SseLoop.finish
  dsimp only
  by_cases hnil : r.buffered = []
  · rw [if_pos hnil]
    rw [hnil] at hcalls
    exact hend hreading hcalls
  · have hlines : sseLines r.buffered = [withoutCr r.buffered] := by
      rw [sseLines, linesOf_of_notMem '\n' hnil hunbroken, map_singleton]
    rw [hlines] at hcalls hdata
    rw [if_neg hnil]
    obtain ⟨event', hread, -, hsame, -⟩ := hreading.step hdata
    exact hend hread (hsame.trans hcalls)

/-- **The calls do not depend on the parts**: they are those of the reference on the whole text. -/
theorem consumeSseStream_exact (maxEventBytes : ℕ) (parts : List (List Char)) (h : WithinBytes maxEventBytes parts.flatten) :
    (consumeSseStream maxEventBytes parts).calls = referenceCalls true [] (sseLines parts.flatten) ∧
      (consumeSseStream maxEventBytes parts).failed = false := by
  have hstart : Before maxEventBytes (referenceCalls true [] (sseLines parts.flatten)) {} [] parts.flatten :=
    ⟨⟨rfl, rfl, rfl, rfl, rfl⟩, not_mem_nil, rfl, h.lines, h.data⟩
  obtain ⟨event, hend⟩ := hstart.readParts
  exact hend.finish

def dataText : List Char := ['d', 'a', 't', 'a', ':', ' ', 'x', '\n']

theorem withinBytes_dataText : WithinBytes 8 dataText where
  lines := by decide
  data := by
    have hcalls : referenceCalls true [] (sseLines dataText) = [.event none ['x'] none] := by decide
    rw [hcalls]
    intro event data id hmem
    cases mem_singleton.mp hmem
    decide

theorem consumeSseStream_exact_dataText : (consumeSseStream 8 [['d', 'a'], dataText.drop 2]).calls =
    referenceCalls true [] (sseLines dataText) :=
  (consumeSseStream_exact 8 [['d', 'a'], dataText.drop 2] withinBytes_dataText).1

theorem consumeSseStream_inexact : ¬ ∀ maxEventBytes (parts : List (List Char)), WithinBytes maxEventBytes parts.flatten →
    (consumeSseStream maxEventBytes parts).calls = referenceCalls false [] (sseLines parts.flatten) :=
  fun hall => absurd (hall 8 [dataText] withinBytes_dataText) (by decide)

end EasyPi.Mcp
