/-
# Reading a stream of events

What the reader makes of the beginning of a server's text: the events whose blank line
it has read are delivered, and of the event in progress the id is already the cursor.
An error of the reader leaves the stream as it was before the line that caused it.
-/
import EasyPi.Mcp.SseServer

namespace EasyPi.Mcp

open List

variable {parse : String → Option JsonValue} {rid : JsonValue} {bound : ℕ}

/-- The stream after fields whose event ends here. -/
def ResponseStream.afterEvent (parse : String → Option JsonValue) (requestId : JsonValue)
    (s : ResponseStream) (fields : List SseField) : ResponseStream :=
  let s := { s with lastEventId := (idOf fields).or s.lastEventId }
  match eventOf fields with
  | none => s
  | some event => s.onEvent parse requestId event

namespace ResponseStream

variable (s : ResponseStream) (fields : List SseField)

@[simp] theorem afterEvent_emitted : (s.afterEvent parse rid fields).emitted =
    s.emitted ++ (fieldsMessage parse fields).toList := by
  unfold afterEvent fieldsMessage
  cases eventOf fields with
  | none => simp
  | some event =>
    simp only [onEvent, Option.bind_some]
    cases messageOf parse event <;> simp

@[simp] theorem afterEvent_answered : (s.afterEvent parse rid fields).answered =
    (s.answered || (fieldsMessage parse fields).any (isResponseTo rid)) := by
  unfold afterEvent fieldsMessage
  cases eventOf fields with
  | none => simp
  | some event =>
    simp only [onEvent, Option.bind_some]
    cases messageOf parse event <;> simp

@[simp] theorem afterEvent_lastEventId : (s.afterEvent parse rid fields).lastEventId =
    (idOf fields).or s.lastEventId := by
  unfold afterEvent
  cases eventOf fields with
  | none => rfl
  | some event =>
    simp only [onEvent]
    cases messageOf parse event <;> rfl

/-- The stream after whole events of the server. -/
def afterEvents (parse : String → Option JsonValue) (requestId : JsonValue) (s : ResponseStream)
    (events : List ServerEvent) : ResponseStream :=
  events.foldl (fun s e => s.afterEvent parse requestId e.fields) s

end ResponseStream

namespace SseReader

/-! ### The event in progress -/

structure Open (r : SseReader) (fields : List SseField) (s : ResponseStream) : Prop where
  eventName : r.eventName = (fields.filterMap SseField.event?).getLast?
  eventId : r.eventId = idOf fields
  dataLines : r.dataLines = fields.filterMap SseField.data?
  stream : r.stream = { s with lastEventId := (idOf fields).or s.lastEventId }
  failure : r.failure = none

theorem Open.start (s : ResponseStream) : Open { stream := s } [] s := by
  constructor <;> simp [idOf]

variable {r : SseReader} {fields : List SseField} {s : ResponseStream}

theorem Open.onField (h : r.Open fields s) (f : SseField) (hok : (r.onField bound f).failure = none) :
    (r.onField bound f).Open (fields ++ [f]) s := by
  cases f with
  | data value =>
    by_cases hbig : r.dataBytes + byteLength value + (if r.dataLines.isEmpty then 0 else 1) >
        bound
    · simp only [SseReader.onField, hbig, if_true] at hok
      cases hok
    · simp only [SseReader.onField, hbig, if_false] at hok ⊢
      exact ⟨by simpa [SseField.event?] using h.eventName, by simpa [idOf, SseField.id?] using h.eventId,
        by simp [SseField.data?, h.dataLines], by simpa [idOf, SseField.id?] using h.stream, h.failure⟩
  | event value =>
    exact ⟨by simp [SseReader.onField, SseField.event?], by simpa [SseReader.onField, idOf, SseField.id?] using h.eventId,
      by simp [SseReader.onField, filterMap_cons, SseField.data?, h.dataLines],
      by simpa [SseReader.onField, idOf, SseField.id?] using h.stream, h.failure⟩
  | id value =>
    refine ⟨by simpa [SseReader.onField, SseField.event?] using h.eventName,
      by simp [SseReader.onField, idOf, SseField.id?],
      by simp [SseReader.onField, filterMap_cons, SseField.data?, h.dataLines], ?_, h.failure⟩
    simp [SseReader.onField, ResponseStream.onId, h.stream, idOf, SseField.id?]
  | other =>
    exact ⟨by simpa [SseReader.onField, SseField.event?] using h.eventName,
      by simpa [SseReader.onField, idOf, SseField.id?] using h.eventId,
      by simp [SseReader.onField, filterMap_cons, SseField.data?, h.dataLines],
      by simpa [SseReader.onField, idOf, SseField.id?] using h.stream, h.failure⟩

theorem Open.dispatch (h : r.Open fields s) :
    (r.dispatch parse rid).Open [] (s.afterEvent parse rid fields) := by
  have hdata := h.dataLines
  unfold SseReader.dispatch ResponseStream.afterEvent eventOf
  cases hfds : fields.filterMap SseField.data? with
  | nil =>
    rw [hfds] at hdata
    simp only [hdata]
    exact ⟨rfl, rfl, by simp, by simpa [idOf] using h.stream, h.failure⟩
  | cons value values =>
    rw [hfds] at hdata
    simp only [hdata]
    refine ⟨rfl, rfl, rfl, ?_, h.failure⟩
    simp only [h.stream, h.eventName, h.eventId, idOf, filterMap_nil, List.getLast?_nil, Option.none_or]

theorem processLine_line (hr : r.failure = none) {f : SseField} (hf : f.Valid) :
    r.processLine parse rid bound f.line = r.onField bound f := by
  simp [processLine, hr, line_getLast hf, line_ne_nil hf, parseField_line hf]

theorem processLine_blank (hr : r.failure = none) :
    r.processLine parse rid bound [] = r.dispatch parse rid := by
  simp [processLine, hr]

theorem processLine_failure (hr : r.failure ≠ none) (line : List Char) :
    r.processLine parse rid bound line = r := by
  have : r.failure.isSome := Option.isSome_iff_ne_none.mpr hr
  simp [processLine, this]

theorem foldl_processLine_failure (hr : r.failure ≠ none) (lines : List (List Char)) :
    lines.foldl (processLine parse rid bound) r = r := by
  induction lines with
  | nil => rfl
  | cons line lines ih => rw [foldl_cons, processLine_failure hr, ih]

theorem failure_of_foldl {lines : List (List Char)}
    (h : (lines.foldl (processLine parse rid bound) r).failure = none) : r.failure = none := by
  by_contra hr
  rw [foldl_processLine_failure hr] at h
  exact hr h

theorem Open.foldl_fields (h : r.Open fields s) {more : List SseField} (hv : ∀ f ∈ more, f.Valid)
    (hok : ((more.map SseField.line).foldl (processLine parse rid bound) r).failure = none) :
    ((more.map SseField.line).foldl (processLine parse rid bound) r).Open (fields ++ more) s := by
  induction more generalizing r fields with
  | nil => simpa using h
  | cons f more ih =>
    obtain ⟨hf, hv⟩ := forall_mem_cons.mp hv
    rw [map_cons, foldl_cons, processLine_line h.failure hf] at hok ⊢
    have hopen := h.onField f (failure_of_foldl hok)
    simpa using ih hopen hv hok

/-- **The lines of whole events, and of fields of the next one.** -/
theorem Open.foldl_lines {events : List ServerEvent} {more : List SseField} (h : r.Open [] s) (hv : ∀ f ∈ more, f.Valid)
    (hok : ((events.flatMap ServerEvent.lines ++ more.map SseField.line).foldl
      (processLine parse rid bound) r).failure = none) :
    ((events.flatMap ServerEvent.lines ++ more.map SseField.line).foldl
      (processLine parse rid bound) r).Open more (s.afterEvents parse rid events) := by
  induction events generalizing r s with
  | nil => simpa [ResponseStream.afterEvents] using h.foldl_fields hv (by simpa using hok)
  | cons e events ih =>
    simp only [flatMap_cons, ServerEvent.lines, append_assoc, foldl_append, foldl_cons, foldl_nil] at hok ⊢
    simp only [← foldl_append] at hok ⊢
    have hok' := failure_of_foldl hok
    have hfds : ((e.fields.map SseField.line).foldl
        (processLine parse rid bound) r).failure = none := by
      by_contra hne
      rw [processLine_failure hne] at hok'
      exact hne hok'
    have hopen := h.foldl_fields e.valid hfds
    rw [processLine_blank hopen.failure] at hok ⊢
    exact ih hopen.dispatch hok

/-! ### Characters and chunks -/

theorem readChar_failure (hr : r.failure ≠ none) (c : Char) : r.readChar parse rid bound c = r := by
  have : r.failure.isSome := Option.isSome_iff_ne_none.mpr hr
  simp [readChar, this]

theorem foldl_readChar_failure (hr : r.failure ≠ none) (text : List Char) :
    text.foldl (readChar parse rid bound) r = r := by
  induction text with
  | nil => rfl
  | cons c text ih => rw [foldl_cons, readChar_failure hr, ih]

theorem foldl_readChar_plain (hr : r.failure = none) {text : List Char} (ht : '\n' ∉ text) :
    text.foldl (readChar parse rid bound) r = { r with buffered := r.buffered ++ text } := by
  induction text generalizing r with
  | nil => simp
  | cons c text ih =>
    simp only [mem_cons, not_or] at ht
    obtain ⟨hc, ht⟩ := ht
    have hstep : r.readChar parse rid bound c = { r with buffered := r.buffered ++ [c] } := by
      simp [readChar, hr, Ne.symm hc]
    rw [foldl_cons, hstep]
    refine (ih (r := { r with buffered := r.buffered ++ [c] }) hr ht).trans ?_
    simp

theorem byteLength_le_of_infix {a b : List Char} (h : a <:+: b) : byteLength a ≤ byteLength b := by
  obtain ⟨before, after, rfl⟩ := h
  rw [byteLength_append, byteLength_append]
  omega

theorem byteLength_cons (c : Char) (text : List Char) : byteLength (c :: text) = c.utf8Size + byteLength text := by
  simp [byteLength]

theorem byteLength_value_lt {line value : List Char} (hline : line ≠ []) (h : parseField line = .data value) :
    byteLength value < byteLength line := by
  obtain ⟨c, text, rfl⟩ := exists_cons_of_ne_nil hline
  have hsize := c.utf8Size_pos
  have hdrop (n : ℕ) : (c :: text).drop (n + 1) <:+: text := (drop_suffix n text).isInfix
  have hsuf : value <:+: text := by
    unfold parseField at h
    simp only at h
    split_ifs at h <;> obtain rfl := SseField.data.inj h
    · exact (tail_suffix _).isInfix.trans (hdrop _)
    · exact hdrop _
  have hle := byteLength_le_of_infix hsuf
  rw [byteLength_cons]
  omega

theorem dispatch_spec : (r.dispatch parse rid).buffered = r.buffered ∧
    (r.dispatch parse rid).dataBytes ≤ r.dataBytes ∧ (r.dispatch parse rid).failure = r.failure := by
  unfold SseReader.dispatch
  cases r.dataLines with
  | nil => exact ⟨rfl, le_rfl, rfl⟩
  | cons value values => exact ⟨rfl, Nat.zero_le _, rfl⟩

theorem onField_spec {line : List Char} (hline : line ≠ []) :
    let r' := r.onField bound (parseField line)
    r'.buffered = r.buffered ∧ r'.dataBytes ≤ r.dataBytes + byteLength line ∧ (r'.failure = r.failure ∨
      (r'.failure = some (tooLarge bound) ∧ r'.stream = r.stream) ∧ bound < r.dataBytes + byteLength line) := by
  cases hf : parseField line with
  | data value =>
    have hval := byteLength_value_lt hline hf
    have hsep : (if r.dataLines.isEmpty then 0 else 1) ≤ 1 := by split_ifs <;> omega
    unfold SseReader.onField
    simp only
    generalize (if r.dataLines.isEmpty then 0 else 1) = sep at hsep ⊢
    have hdata : r.dataBytes + byteLength value + sep ≤ r.dataBytes + byteLength line := by omega
    by_cases hbig : r.dataBytes + byteLength value + sep > bound
    · rw [if_pos hbig]
      exact ⟨rfl, hdata, .inr ⟨⟨rfl, rfl⟩, by omega⟩⟩
    · rw [if_neg hbig]
      exact ⟨rfl, hdata, .inl rfl⟩
  | event value | id value | other => exact ⟨rfl, Nat.le_add_right _ _, .inl rfl⟩

theorem processLine_spec (hr : r.failure = none) (line : List Char) :
    let r' := r.processLine parse rid bound line
    r'.buffered = r.buffered ∧ r'.dataBytes ≤ r.dataBytes + byteLength line ∧ (r'.failure = none ∨
      (r'.failure = some (tooLarge bound) ∧ r'.stream = r.stream) ∧ bound < r.dataBytes + byteLength line) := by
  have hcut : byteLength (if line.getLast? = some '\r' then line.dropLast else line) ≤ byteLength line := by
    split_ifs
    · exact byteLength_le_of_infix <| IsPrefix.isInfix <| dropLast_prefix line
    · exact le_rfl
  unfold processLine
  simp only [hr, Option.isSome_none, Bool.false_eq_true, if_false]
  generalize (if line.getLast? = some '\r' then line.dropLast else line) = stripped at hcut ⊢
  by_cases hbl : stripped = []
  · rw [if_pos hbl]
    obtain ⟨hb, hd, hf⟩ := @dispatch_spec parse rid r
    exact ⟨hb, hd.trans (Nat.le_add_right _ _), .inl (hf.trans hr)⟩
  · rw [if_neg hbl]
    obtain ⟨hb, hd, hf⟩ := @onField_spec bound r _ hbl
    exact ⟨hb, by omega, (hr ▸ hf).imp_right (And.imp_right (by omega))⟩

theorem foldl_processLine_buffered (lines : List (List Char)) :
    (lines.foldl (processLine parse rid bound) r).buffered = r.buffered := by
  induction lines generalizing r with
  | nil => rfl
  | cons line lines ih =>
    rw [foldl_cons, ih]
    by_cases hr : r.failure = none
    · exact (processLine_spec hr line).1
    · rw [processLine_failure hr]

theorem readChar_newline (hr : r.failure = none) (line : List Char) (hline : '\n' ∉ line) (hb : r.buffered = []) :
    (line ++ ['\n']).foldl (readChar parse rid bound) r = r.processLine parse rid bound line := by
  rw [foldl_append, foldl_readChar_plain hr hline, hb, nil_append]
  simp only [foldl_cons, foldl_nil, readChar, hr, Option.isSome_none, Bool.false_eq_true, if_false, if_true]
  congr 1
  cases r
  simp_all

/-- **Lines that are ended are processed one by one.** -/
theorem foldl_endedLines {lines : List (List Char)} (hlns : ∀ line ∈ lines, '\n' ∉ line) (hb : r.buffered = []) :
    (endedLines lines).foldl (readChar parse rid bound) r =
      lines.foldl (processLine parse rid bound) r := by
  induction lines generalizing r with
  | nil => rfl
  | cons line lines ih =>
    obtain ⟨hline, hlns⟩ := forall_mem_cons.mp hlns
    rw [endedLines, flatMap_cons, foldl_append, foldl_cons]
    by_cases hr : r.failure = none
    · rw [readChar_newline hr line hline hb]
      exact ih hlns ((processLine_spec hr line).1.trans hb)
    · rw [foldl_readChar_failure hr, processLine_failure hr]
      exact ih hlns hb

theorem foldl_readChar_stream (hr : r.failure = none) (text : List Char) :
    ∃ read, read <+: text ∧ (text.foldl (readChar parse rid bound) r).stream =
        (read.foldl (readChar parse rid bound) r).stream ∧
      (read.foldl (readChar parse rid bound) r).failure = none ∧
      (read = text ∨ (text.foldl (readChar parse rid bound) r).failure = some (tooLarge bound)) := by
  induction text generalizing r with
  | nil => exact ⟨[], prefix_rfl, rfl, hr, .inl rfl⟩
  | cons c text ih =>
    rw [foldl_cons]
    have hchar : (r.readChar parse rid bound c).failure = none ∨
        (r.readChar parse rid bound c).failure = some (tooLarge bound) ∧
          (r.readChar parse rid bound c).stream = r.stream := by
      by_cases hc : c = '\n'
      · obtain ⟨-, -, hspec⟩ := @processLine_spec parse rid bound { r with buffered := [] } hr r.buffered
        simpa [readChar, hr, hc] using hspec.imp_right And.left
      · simp [readChar, hr, hc]
    obtain hok | ⟨hfail, hstr⟩ := hchar
    · obtain ⟨read, hpre, hs, hf, hall⟩ := ih hok
      refine ⟨c :: read, cons_prefix_cons.mpr ⟨rfl, hpre⟩, hs, hf, ?_⟩
      obtain rfl | hall := hall
      · exact .inl rfl
      · exact .inr hall
    · rw [foldl_readChar_failure (by simp [hfail])]
      exact ⟨[], nil_prefix, hstr, hr, .inr hfail⟩

theorem foldl_readChunk_failure (hr : r.failure ≠ none) (chunks : List (List Char)) :
    chunks.foldl (readChunk parse rid bound) r = r := by
  induction chunks with
  | nil => rfl
  | cons chunk chunks ih =>
    have hnone : r.failure.isNone = false := by
      simpa using Option.isSome_iff_ne_none.mpr hr
    have hstep : r.readChunk parse rid bound chunk = r := by
      simp [readChunk, foldl_readChar_failure hr, hnone]
    rw [foldl_cons, hstep, ih]

theorem readChunk_stream (hr : r.failure = none) (chunk : List Char) :
    ∃ read, read <+: chunk ∧ (r.readChunk parse rid bound chunk).stream =
        (read.foldl (readChar parse rid bound) r).stream ∧
      (read.foldl (readChar parse rid bound) r).failure = none ∧
      (read = chunk ∧ r.readChunk parse rid bound chunk = read.foldl (readChar parse rid bound) r ∨
        (r.readChunk parse rid bound chunk).failure = some (tooLarge bound)) := by
  obtain ⟨read, hpre, hs, hf, hall⟩ := @foldl_readChar_stream parse rid bound r hr chunk
  refine ⟨read, hpre, ?_, hf, ?_⟩
  · rw [← hs]
    unfold readChunk
    simp only
    split <;> rfl
  · obtain rfl | hfail := hall
    · by_cases hbig : byteLength (read.foldl (readChar parse rid bound) r).buffered >
          bound
      · exact .inr (by simp [readChunk, hf, hbig])
      · exact .inl ⟨rfl, by simp [readChunk, hf, hbig]⟩
    · exact .inr (by simp [readChunk, hfail])

/-- **The chunks of a connection**: the stream afterwards is the one after some of the characters,
and after all of them if the reader has not failed. -/
theorem readChunks_stream (hr : r.failure = none) (chunks : List (List Char)) :
    ∃ read, read <+: chunks.flatten ∧ (chunks.foldl (readChunk parse rid bound) r).stream =
        (read.foldl (readChar parse rid bound) r).stream ∧
      (read.foldl (readChar parse rid bound) r).failure = none ∧
      (read = chunks.flatten ∧ chunks.foldl (readChunk parse rid bound) r =
          read.foldl (readChar parse rid bound) r ∨
        (chunks.foldl (readChunk parse rid bound) r).failure = some (tooLarge bound)) := by
  induction chunks generalizing r with
  | nil => exact ⟨[], prefix_rfl, rfl, hr, .inl ⟨rfl, rfl⟩⟩
  | cons chunk chunks ih =>
    rw [foldl_cons, flatten_cons]
    obtain ⟨read, hpre, hs, hf, ⟨rfl, heq⟩ | hfail⟩ := @readChunk_stream parse rid bound r hr chunk
    · rw [heq]
      obtain ⟨more, hpre', hs', hf', hall⟩ := ih hf
      rw [← foldl_append] at hs' hf'
      refine ⟨read ++ more, (prefix_append_right_inj read).mpr hpre', hs', hf', ?_⟩
      obtain ⟨rfl, heq⟩ | hfail := hall
      · exact .inl ⟨rfl, by rw [heq, foldl_append]⟩
      · exact .inr hfail
    · rw [foldl_readChunk_failure (by simp [hfail])]
      exact ⟨read, hpre.trans (prefix_append _ _), hs, hf, .inr hfail⟩

/-! ### The size limit -/

/-- The reader holds no more than these bytes, and has failed only if they are more than the limit. -/
structure Counted (maxEventBytes bytes : ℕ) (r : SseReader) : Prop where
  held : r.dataBytes + byteLength r.buffered ≤ bytes
  failed : r.failure = none ∨ maxEventBytes < bytes

variable {bytes : ℕ}

theorem Counted.readChar (h : r.Counted bound bytes) (c : Char) :
    (r.readChar parse rid bound c).Counted bound (bytes + c.utf8Size) := by
  have hheld := h.held
  have hfailed : r.failure = none ∨ bound < bytes + c.utf8Size := h.failed.imp_right (by omega)
  unfold SseReader.readChar
  split_ifs with hr hc
  · exact ⟨by omega, hfailed⟩
  · obtain ⟨hbuf, hdata, hfail⟩ := @processLine_spec parse rid bound { r with buffered := [] }
      (by simpa using hr) r.buffered
    have hnil : byteLength [] = 0 := rfl
    simp only at hbuf hdata hfail
    exact ⟨by rw [hbuf, hnil]; omega, hfail.imp_right fun hbig => by omega⟩
  · have hone : byteLength [c] = c.utf8Size := byteLength_cons c []
    exact ⟨by simp only [byteLength_append, hone]; omega, hfailed⟩

theorem Counted.foldl_readChar (h : r.Counted bound bytes) (text : List Char) :
    (text.foldl (SseReader.readChar parse rid bound) r).Counted bound (bytes + byteLength text) := by
  induction text generalizing r bytes with
  | nil => exact h
  | cons c text ih =>
    rw [foldl_cons, byteLength_cons, ← Nat.add_assoc]
    exact ih (h.readChar c)

/-- **The size limit**: a reader that fails on chunks has been given more bytes than an event may have. -/
theorem Counted.readChunks (h : r.Counted bound bytes) (chunks : List (List Char)) :
    (chunks.foldl (readChunk parse rid bound) r).Counted bound (bytes + byteLength chunks.flatten) := by
  induction chunks generalizing r bytes with
  | nil => exact h
  | cons chunk chunks ih =>
    rw [foldl_cons, flatten_cons, byteLength_append, ← Nat.add_assoc]
    refine ih ?_
    have hcou := @Counted.foldl_readChar parse rid bound r bytes h chunk
    have hheld := hcou.held
    unfold readChunk
    simp only
    split_ifs with hbig
    · simp only [Bool.and_eq_true, decide_eq_true_eq] at hbig
      exact ⟨hheld, .inr (by omega)⟩
    · exact hcou

theorem Counted.finish (h : r.Counted bound bytes) (hr : r.failure = none) (unfinished : Bool) :
    (r.finish parse rid bound unfinished).failure = none ∨
      (r.finish parse rid bound unfinished).failure = some (tooLarge bound) ∧
        bound < bytes + byteLength (if unfinished then ['\ufffd'] else []) := by
  have hheld := h.held
  have hline : (if unfinished then r.buffered ++ ['\ufffd'] else r.buffered) =
      r.buffered ++ if unfinished then ['\ufffd'] else [] := by
    cases unfinished <;> simp
  unfold SseReader.finish
  simp only [hline]
  generalize (if unfinished then ['\ufffd'] else []) = more
  obtain ⟨-, -, hfail⟩ := @processLine_spec parse rid bound r hr (r.buffered ++ more)
  rw [byteLength_append] at hfail
  by_cases hemp : r.buffered ++ more = []
  · simp only [hemp, if_true, hr, Option.isSome_none, Bool.false_eq_true, if_false]
    exact .inl (dispatch_spec.2.2.trans hr)
  simp only [hemp, if_false]
  obtain hok | ⟨⟨hlarge, -⟩, hbig⟩ := hfail
  · simp only [hok, Option.isSome_none, Bool.false_eq_true, if_false]
    exact .inl (dispatch_spec.2.2.trans hok)
  · simp only [hlarge, Option.isSome_some, if_true]
    exact .inr ⟨trivial, by omega⟩

end SseReader
end EasyPi.Mcp
