/-
# One connection of a stream

A connection stops somewhere in the text of its events: after whole events, some lines
of the next one and a part of a line. The cursor moves on at the id line of an event and
the event is delivered at its blank line, or at the end of the stream. So a connection
that breaks between the two loses the event when the stream is resumed, and one that ends
there delivers what it has of the event, which is then wrong, or delivered again when the
id has not been read.
-/
import Mathlib.Data.List.Induction
import EasyPi.Mcp.SseReading

namespace EasyPi.Mcp

open List

variable {parse : String → Option JsonValue} {rid : JsonValue} {limit : ℕ}

/-! ### Where a text is cut -/

/-- The fields of a line; a blank line has none. -/
def lineFields (rawLine : List Char) : List SseField :=
  let line := if rawLine.getLast? = some '\r' then rawLine.dropLast else rawLine
  if line = [] then [] else [parseField line]

def openLines (lines : List (List Char)) : List (List Char) := (lines.reverse.takeWhile (· ≠ [])).reverse

namespace Connection

def lines (c : Connection) : List (List Char) := (c.text.splitOn '\n').dropLast

def lastLine (c : Connection) : List Char :=
  (c.text.splitOn '\n').getLast?.getD [] ++ if c.unfinished then ['\ufffd'] else []

/-- The connection leaves no event half read. If it breaks, the id of the next event has not been
read, or that event has no message. If it ends, what has been read of the next event amounts to
nothing or to all of it. -/
def Clean (parse : String → Option JsonValue) (c : Connection) (events : List ServerEvent) : Prop :=
  ∀ e ∈ events[c.lines.count []]?, match c.failure with
    | some _ => c.aborted = true ∨ fieldsMessage parse e.fields = none ∨
        idOf ((openLines c.lines).flatMap lineFields) = none
    | none =>
      let left := (openLines c.lines ++ [c.lastLine]).flatMap lineFields
      (fieldsMessage parse left = none ∧ idOf left = none) ∨
        (fieldsMessage parse left = fieldsMessage parse e.fields ∧ idOf left = some e.id)

/-- The fields that are left of an event half read. -/
def left (c : Connection) : List SseField :=
  (openLines c.lines ++ if c.failure.isSome then [] else [c.lastLine]).flatMap lineFields

/-- The events that have come of those a connection sends: all that are sent whole, and one more if its
id is among the fields left. -/
def arrived (c : Connection) (events : List ServerEvent) : List ServerEvent :=
  events.take (c.lines.count [] + if (idOf c.left).isSome then 1 else 0)

/-- What the decoder makes of a connection, in bytes. -/
def bytes (c : Connection) : ℕ := byteLength c.text + byteLength (if c.unfinished then ['\ufffd'] else [])

end Connection

theorem isPrefix_append_cases {α : Type} {q a b : List α} (h : q <+: a ++ b) :
    q <+: a ∨ ∃ q', q = a ++ q' ∧ q' <+: b := by
  obtain hq | ⟨q', rfl⟩ := prefix_or_prefix_of_prefix h (prefix_append a b)
  · exact .inl hq
  · exact .inr ⟨q', rfl, (prefix_append_right_inj a).mp h⟩

theorem isPrefix_endedLines {lines : List (List Char)} (hlns : ∀ line ∈ lines, '\n' ∉ line)
    {q : List Char} (hq : q <+: endedLines lines) :
    ∃ read rest, read <+: lines ∧ q = endedLines read ++ rest ∧ '\n' ∉ rest ∧ (read = lines → rest = []) := by
  induction lines generalizing q with
  | nil =>
    obtain rfl : q = [] := prefix_nil.mp hq
    exact ⟨[], [], prefix_rfl, rfl, by simp, fun _ => rfl⟩
  | cons line lines ih =>
    obtain ⟨hline, hlns⟩ := forall_mem_cons.mp hlns
    obtain hq | ⟨q', rfl, hq'⟩ := isPrefix_append_cases hq
    · obtain rfl | hq := prefix_concat_iff.mp hq
      · refine ⟨[line], [], by simp, by simp [endedLines], by simp, fun _ => rfl⟩
      · refine ⟨[], q, nil_prefix, rfl, fun hmem => hline (hq.subset hmem), fun h => by simp at h⟩
    · obtain ⟨read, rest, hread, rfl, hrest, hall⟩ := ih hlns hq'
      refine ⟨line :: read, rest, cons_prefix_cons.mpr ⟨rfl, hread⟩, ?_, hrest, ?_⟩
      · simp [endedLines]
      · exact fun h => hall (List.cons.inj h).2

variable {events : List ServerEvent}

theorem isPrefix_lines {read : List (List Char)} (h : read <+: events.flatMap ServerEvent.lines) :
    ∃ done todo fields, events = done ++ todo ∧ read = done.flatMap ServerEvent.lines ++ fields.map SseField.line ∧
      (fields = [] ∨ ∃ e ∈ todo.head?, fields <+: e.fields) := by
  induction events generalizing read with
  | nil =>
    obtain rfl : read = [] := prefix_nil.mp h
    exact ⟨[], [], [], rfl, rfl, .inl rfl⟩
  | cons e events ih =>
    rw [flatMap_cons] at h
    obtain h | ⟨read', rfl, h'⟩ := isPrefix_append_cases h
    · obtain rfl | h := prefix_concat_iff.mp h
      · exact ⟨[e], events, [], rfl, by simp [ServerEvent.lines], .inl rfl⟩
      · obtain ⟨k, rfl⟩ : ∃ k, read = (e.fields.take k).map SseField.line :=
          ⟨read.length, by rw [map_take]; exact prefix_iff_eq_take.mp h⟩
        exact ⟨[], e :: events, e.fields.take k, rfl, rfl, .inr ⟨e, rfl, take_prefix k _⟩⟩
    · obtain ⟨done, todo, fields, rfl, rfl, hfds⟩ := ih h'
      exact ⟨e :: done, todo, fields, rfl, by simp, hfds⟩

theorem newline_notMem_lines (events : List ServerEvent) : ∀ line ∈ events.flatMap ServerEvent.lines, '\n' ∉ line := by
  intro line hline
  obtain ⟨e, -, hline⟩ := mem_flatMap.mp hline
  simp only [ServerEvent.lines, mem_append, mem_map, mem_singleton] at hline
  obtain ⟨f, hf, rfl⟩ | rfl := hline
  · exact newline_notMem_line (e.valid f hf)
  · simp

theorem splitOn_endedLines {lines : List (List Char)} {rest : List Char}
    (hlns : ∀ line ∈ lines, '\n' ∉ line) (hrest : '\n' ∉ rest) :
    (endedLines lines ++ rest).splitOn '\n' = lines ++ [rest] := by
  induction lines with
  | nil => simpa [endedLines] using splitOn_eq_singleton hrest
  | cons line lines ih =>
    obtain ⟨hline, hlns⟩ := forall_mem_cons.mp hlns
    have htext : endedLines (line :: lines) ++ rest = line ++ '\n' :: (endedLines lines ++ rest) := by
      simp [endedLines]
    rw [htext, splitOn_append_cons_self_of_not_mem hline, ih hlns, cons_append]

theorem lineFields_line {f : SseField} (hf : f.Valid) : lineFields f.line = [f] := by
  simp [lineFields, line_getLast hf, line_ne_nil hf, parseField_line hf]

theorem flatMap_lineFields {fields : List SseField} (hf : ∀ f ∈ fields, f.Valid) :
    (fields.map SseField.line).flatMap lineFields = fields := by
  induction fields with
  | nil => rfl
  | cons f fields ih =>
    obtain ⟨h, hf⟩ := forall_mem_cons.mp hf
    simp [lineFields_line h, ih hf]

section Lines

variable {done : List ServerEvent} {fields : List SseField} (hf : ∀ f ∈ fields, f.Valid)
include hf

theorem count_blank : (done.flatMap ServerEvent.lines ++ fields.map SseField.line).count [] = done.length := by
  have hfds : ∀ fs : List SseField, (∀ f ∈ fs, f.Valid) → (fs.map SseField.line).count [] = 0 := by
    intro fs hfs
    refine count_eq_zero.mpr fun hmem => ?_
    obtain ⟨f, hf, hline⟩ := mem_map.mp hmem
    exact line_ne_nil (hfs f hf) hline
  rw [count_append, hfds fields hf, Nat.add_zero]
  clear hf
  induction done with
  | nil => rfl
  | cons e done ih =>
    rw [flatMap_cons, count_append, ih, ServerEvent.lines, count_append, hfds _ e.valid]
    simp
    omega

theorem openLines_eq : openLines (done.flatMap ServerEvent.lines ++ fields.map SseField.line) =
    fields.map SseField.line := by
  have hfds : ∀ line ∈ (fields.map SseField.line).reverse, decide (line ≠ []) = true := by
    intro line hline
    obtain ⟨f, hmem, rfl⟩ := mem_map.mp (mem_reverse.mp hline)
    simpa using line_ne_nil (hf f hmem)
  rw [openLines, reverse_append, takeWhile_append_of_pos hfds]
  have hnone : (done.flatMap ServerEvent.lines).reverse.takeWhile (· ≠ []) = [] := by
    cases done using List.reverseRec with
    | nil => rfl
    | append_singleton done e => simp [ServerEvent.lines]
  rw [hnone, append_nil, reverse_reverse]

end Lines

/-! ### One connection -/

namespace ResponseStream

variable (s : ResponseStream) (events : List ServerEvent)

theorem idOf_fields (e : ServerEvent) : idOf e.fields = some e.id := by
  rw [idOf, e.id_eq]
  rfl

theorem messages_append (a b : List ServerEvent) : messages parse (a ++ b) = messages parse a ++ messages parse b :=
  filterMap_append

theorem messages_singleton (e : ServerEvent) : messages parse [e] = (fieldsMessage parse e.fields).toList := by
  cases h : fieldsMessage parse e.fields <;> simp [messages, h]

theorem afterEvents_emitted : (s.afterEvents parse rid events).emitted = s.emitted ++ messages parse events := by
  induction events generalizing s with
  | nil => simp [afterEvents, messages]
  | cons e events ih =>
    have hcons : messages parse (e :: events) = messages parse [e] ++ messages parse events := messages_append [e] events
    rw [hcons, messages_singleton, ← append_assoc, ← afterEvent_emitted s e.fields]
    exact ih _

theorem afterEvents_answered : (s.afterEvents parse rid events).answered =
    (s.answered || (messages parse events).any (isResponseTo rid)) := by
  induction events generalizing s with
  | nil => simp [afterEvents, messages]
  | cons e events ih =>
    have hcons : messages parse (e :: events) = messages parse [e] ++ messages parse events := messages_append [e] events
    refine (ih _).trans ?_
    rw [hcons, messages_singleton, any_append, afterEvent_answered]
    cases fieldsMessage parse e.fields <;> simp [Bool.or_assoc]

theorem afterEvent_quiet (fields : List SseField) (h : (s.afterEvent parse rid fields).received = false) :
    s.received = false ∧ fieldsMessage parse fields = none := by
  unfold afterEvent at h
  unfold fieldsMessage
  cases heve : eventOf fields with
  | none =>
    rw [heve] at h
    exact ⟨h, rfl⟩
  | some event =>
    rw [heve] at h
    simp only [onEvent] at h
    split at h <;> cases h

theorem afterEvents_quiet (h : (s.afterEvents parse rid events).received = false) :
    s.received = false ∧ messages parse events = [] := by
  induction events generalizing s with
  | nil => exact ⟨h, rfl⟩
  | cons e events ih =>
    obtain ⟨hrec, hmsgs⟩ := ih _ h
    obtain ⟨hrec, hnone⟩ := afterEvent_quiet s e.fields hrec
    have hcons : messages parse (e :: events) = messages parse [e] ++ messages parse events := messages_append [e] events
    rw [hcons, messages_singleton, hnone, hmsgs]
    exact ⟨hrec, rfl⟩

theorem afterEvents_lastEventId : (s.afterEvents parse rid events).lastEventId =
    ((events.getLast?).map ServerEvent.id).or s.lastEventId := by
  induction events generalizing s with
  | nil => simp [afterEvents]
  | cons e events ih =>
    refine (ih _).trans ?_
    rw [afterEvent_lastEventId, idOf_fields]
    cases events using List.reverseRecOn with
    | nil => simp
    | append_singleton events e' => simp [List.getLast?_cons]

end ResponseStream

theorem foldl_readChar_render {text : List Char} (htext : text <+: render events) (s : ResponseStream)
    (hok : (text.foldl (SseReader.readChar parse rid limit) { stream := s }).failure = none) :
    ∃ done todo fields rest, events = done ++ todo ∧
      text = endedLines (done.flatMap ServerEvent.lines ++ fields.map SseField.line) ++ rest ∧
      '\n' ∉ rest ∧ (fields = [] ∨ ∃ e ∈ todo.head?, fields <+: e.fields) ∧ (todo = [] → rest = []) ∧ ∃ r : SseReader,
        text.foldl (SseReader.readChar parse rid limit) { stream := s } = { r with buffered := rest } ∧
        r.Open fields (s.afterEvents parse rid done) := by
  obtain ⟨read, rest, hread, rfl, hrest, hall⟩ := isPrefix_endedLines (newline_notMem_lines events) htext
  have hlns : ∀ line ∈ read, '\n' ∉ line := fun line hline =>
    newline_notMem_lines events line (hread.subset hline)
  obtain ⟨done, todo, fields, rfl, rfl, hfds⟩ := isPrefix_lines hread
  have hval : ∀ f ∈ fields, f.Valid := by
    intro f hf
    obtain rfl | ⟨e, -, hpre⟩ := hfds
    · cases hf
    · exact e.valid f (hpre.subset hf)
  rw [foldl_append, SseReader.foldl_endedLines hlns rfl] at hok
  have hread : ((done.flatMap ServerEvent.lines ++ fields.map SseField.line).foldl
      (SseReader.processLine parse rid limit) { stream := s }).failure = none := by
    by_contra hne
    rw [SseReader.foldl_readChar_failure hne] at hok
    exact hne hok
  have hopen := (SseReader.Open.start s).foldl_lines hval hread
  refine ⟨done, todo, fields, rest, rfl, rfl, hrest, hfds, ?_, _, ?_, hopen⟩
  · rintro rfl
    obtain rfl | ⟨e, he, -⟩ := hfds
    · exact hall (by simp)
    · cases he
  · rw [foldl_append, SseReader.foldl_endedLines hlns rfl,
      SseReader.foldl_readChar_plain hread hrest, SseReader.foldl_processLine_buffered, nil_append]

theorem SseReader.Open.stream_nil {r : SseReader} {s : ResponseStream} (h : r.Open [] s) : r.stream = s := by
  rw [h.stream]
  simp [idOf]

section Finish

variable {r : SseReader} {fields : List SseField} {s : ResponseStream}

theorem SseReader.Open.processLine (h : r.Open fields s) {rawLine : List Char}
    (hok : (r.processLine parse rid limit rawLine).failure = none) :
    ((r.processLine parse rid limit rawLine).dispatch parse rid).stream =
      s.afterEvent parse rid (fields ++ lineFields rawLine) := by
  unfold SseReader.processLine at hok ⊢
  unfold lineFields
  simp only [h.failure, Option.isSome_none, Bool.false_eq_true, if_false] at hok ⊢
  generalize (if rawLine.getLast? = some '\r' then rawLine.dropLast else rawLine) = line at hok ⊢
  by_cases hline : line = []
  · -- the line is blank: the event is over, and there is nothing to deliver at the end
    simp only [hline, if_true, append_nil]
    have hopen := @SseReader.Open.dispatch parse rid _ _ _
      (@SseReader.Open.dispatch parse rid _ _ _ h)
    refine hopen.stream_nil.trans ?_
    simp [ResponseStream.afterEvent, eventOf, idOf]
  · simp only [hline, if_false] at hok ⊢
    exact (h.onField _ hok).dispatch.stream_nil

theorem finish_spec (h : r.Open fields s) (unfinished : Bool) :
    (r.finish parse rid limit unfinished).failure = none ∧
        (r.finish parse rid limit unfinished).stream = s.afterEvent parse rid
          (fields ++ lineFields (r.buffered ++ if unfinished then ['\ufffd'] else [])) ∨
      (r.finish parse rid limit unfinished).failure = some (SseReader.tooLarge limit) ∧
        (r.finish parse rid limit unfinished).stream = r.stream := by
  have hline : (if unfinished then r.buffered ++ ['\ufffd'] else r.buffered) =
      r.buffered ++ if unfinished then ['\ufffd'] else [] := by
    cases unfinished <;> simp
  unfold SseReader.finish
  simp only [hline]
  generalize (r.buffered ++ if unfinished then ['\ufffd'] else []) = line
  by_cases hemp : line = []
  · subst hemp
    have hfds : lineFields [] = [] := rfl
    simp only [if_true, h.failure, Option.isSome_none, Bool.false_eq_true, if_false, hfds, append_nil]
    exact .inl ⟨SseReader.dispatch_spec.2.2.trans h.failure, h.dispatch.stream_nil⟩
  · simp only [hemp, if_false]
    obtain ⟨-, -, hok | ⟨⟨hfail, hstr⟩, -⟩⟩ := @SseReader.processLine_spec parse rid limit r h.failure line
    · simp only [hok, Option.isSome_none, Bool.false_eq_true, if_false]
      exact .inl ⟨SseReader.dispatch_spec.2.2.trans hok, h.processLine hok⟩
    · simp only [hfail, Option.isSome_some, if_true]
      exact .inr ⟨trivial, hstr⟩

end Finish

/-- What a connection has delivered: the messages of the first events, in order. -/
structure Delivered (parse : String → Option JsonValue) (requestId : JsonValue)
    (s s' : ResponseStream) (done : List ServerEvent) : Prop where
  emitted : s'.emitted = s.emitted ++ messages parse done
  answered : s'.answered = (s.answered || (messages parse done).any (isResponseTo requestId))
  quiet : s'.received = false → messages parse done = []

/-- The cursor stands at the last event delivered. -/
def AtCursor (s s' : ResponseStream) (done : List ServerEvent) : Prop :=
  s'.lastEventId = ((done.getLast?).map ServerEvent.id).or s.lastEventId

theorem idOf_isPrefix {fields : List SseField} {e : ServerEvent} (h : fields <+: e.fields) :
    idOf fields = none ∨ idOf fields = some e.id := by
  have hpre := h.filterMap SseField.id?
  rw [e.id_eq, prefix_cons_iff] at hpre
  obtain hnil | ⟨more, hone, hmore⟩ := hpre
  · exact .inl (by simp [idOf, hnil])
  · obtain rfl := prefix_nil.mp hmore
    exact .inr (by simp [idOf, hone])

section Deliveries

variable {s : ResponseStream} {done : List ServerEvent} {e : ServerEvent}

theorem afterEvents_delivered (s : ResponseStream) (done : List ServerEvent) (lastEventId : Option (List Char)) :
    Delivered parse rid s { s.afterEvents parse rid done with lastEventId } done :=
  ⟨s.afterEvents_emitted done, s.afterEvents_answered done, fun h => (s.afterEvents_quiet done h).2⟩

theorem afterEvent_delivered {fields : List SseField} (hm : fieldsMessage parse fields = fieldsMessage parse e.fields)
    (hid : idOf fields = some e.id) : Delivered parse rid s
        ((s.afterEvents parse rid done).afterEvent parse rid fields) (done ++ [e]) ∧
      AtCursor s ((s.afterEvents parse rid done).afterEvent parse rid fields) (done ++ [e]) := by
  refine ⟨⟨?_, ?_, fun h => ?_⟩, ?_⟩
  · rw [ResponseStream.afterEvent_emitted, ResponseStream.afterEvents_emitted, hm,
      ResponseStream.messages_append, ResponseStream.messages_singleton, append_assoc]
  · rw [ResponseStream.afterEvent_answered, ResponseStream.afterEvents_answered, hm,
      ResponseStream.messages_append, ResponseStream.messages_singleton, any_append, Bool.or_assoc]
    cases fieldsMessage parse e.fields <;> simp
  · obtain ⟨hrec, hnone⟩ := ResponseStream.afterEvent_quiet _ _ h
    rw [ResponseStream.messages_append, (s.afterEvents_quiet done hrec).2, ResponseStream.messages_singleton, ← hm, hnone]
    rfl
  · simp [AtCursor, hid]

theorem afterEvent_nothing {fields : List SseField} (hm : fieldsMessage parse fields = none) (hid : idOf fields = none) :
    Delivered parse rid s ((s.afterEvents parse rid done).afterEvent parse rid fields) done ∧
      AtCursor s ((s.afterEvents parse rid done).afterEvent parse rid fields) done := by
  refine ⟨⟨?_, ?_, fun h => ?_⟩, ?_⟩
  · simp [hm, ResponseStream.afterEvents_emitted]
  · simp [hm, ResponseStream.afterEvents_answered]
  · exact (s.afterEvents_quiet done (ResponseStream.afterEvent_quiet _ _ h).1).2
  · simp [AtCursor, hid, ResponseStream.afterEvents_lastEventId]

end Deliveries

theorem Connection.cut_eq {c : Connection} {done : List ServerEvent} {fields : List SseField}
    {rest : List Char} (hf : ∀ f ∈ fields, f.Valid) (hrest : '\n' ∉ rest)
    (htext : c.text = endedLines (done.flatMap ServerEvent.lines ++ fields.map SseField.line) ++ rest) :
    c.lines.count [] = done.length ∧ (openLines c.lines).flatMap lineFields = fields ∧
      c.lastLine = rest ++ if c.unfinished then ['\ufffd'] else [] := by
  have hlns : ∀ line ∈ done.flatMap ServerEvent.lines ++ fields.map SseField.line, '\n' ∉ line := by
    intro line hline
    obtain hline | hline := mem_append.mp hline
    · exact newline_notMem_lines done line hline
    · obtain ⟨f, hmem, rfl⟩ := mem_map.mp hline
      exact newline_notMem_line (hf f hmem)
  have hspl := splitOn_endedLines hlns hrest
  rw [← htext] at hspl
  have hc : c.lines = done.flatMap ServerEvent.lines ++ fields.map SseField.line := by
    rw [Connection.lines, hspl, dropLast_concat]
  refine ⟨?_, ?_, ?_⟩
  · rw [hc, count_blank hf]
  · rw [hc, openLines_eq hf, flatMap_lineFields hf]
  · rw [Connection.lastLine, hspl]
    simp

/-- **One connection** that leaves no event half read delivers the messages of the first events it
serves: of those that have come, unless an event is too large, and the cursor stands at the last of them. -/
theorem consumeSse_spec {c : Connection} (hser : c.Serves events) (hcle : c.Clean parse events) (s : ResponseStream) :
    ∃ done todo, events = done ++ todo ∧
      Delivered parse rid s (consumeSse parse rid limit s c).1 done ∧ (c.aborted = false →
        (consumeSse parse rid limit s c).2 ≠ some (SseReader.tooLarge limit) →
        AtCursor s (consumeSse parse rid limit s c).1 done ∧ done = c.arrived events) := by
  obtain ⟨read, hread, hstr, hok, hall⟩ := @SseReader.readChunks_stream parse rid
    limit { stream := s } rfl c.chunks
  have htext : read <+: render events := hread.trans hser.text_isPrefix
  obtain ⟨done, todo, fields, rest, rfl, hcut, hrest, hfds, hend, r, hr, hopen⟩ := foldl_readChar_render htext s hok
  have hval : ∀ f ∈ fields, f.Valid := by
    intro f hf
    obtain rfl | ⟨e, -, hpre⟩ := hfds
    · cases hf
    · exact e.valid f (hpre.subset hf)
  have hpar := @afterEvents_delivered parse rid s done
    ((idOf fields).or (s.afterEvents parse rid done).lastEventId)
  rw [← hopen.stream] at hpar
  obtain ⟨rfl, heq⟩ | hfail := hall
  · obtain ⟨hcnt, hleft, hlast⟩ := Connection.cut_eq hval hrest hcut
    rw [hr] at heq
    have hnext : (done ++ todo)[c.lines.count []]? = todo.head? := by
      rw [hcnt, List.getElem?_append_right (Nat.le_refl _), Nat.sub_self, List.head?_eq_getElem?]
    rw [Connection.Clean, hnext] at hcle
    have hall : idOf c.left = none → done = c.arrived (done ++ todo) := by
      intro hid
      simp [Connection.arrived, hcnt, hid]
    have hmore (e : ServerEvent) (rest : List ServerEvent) (htodo : todo = e :: rest) (hid : idOf c.left = some e.id) :
        done ++ [e] = c.arrived (done ++ todo) := by
      rw [Connection.arrived, hcnt, hid, htodo]
      exact (@take_length_add_append _ done (e :: rest) 1).symm
    cases hbroke : c.failure with
    | some failure =>
      have hres : consumeSse parse rid limit s c = (r.stream, some failure) := by
        simp only [consumeSse, heq, hopen.failure, hbroke]
      rw [hres]
      have hleft' : c.left = fields := by simp [Connection.left, hbroke, hleft]
      have hkeep : idOf fields = none → AtCursor s r.stream done ∧ done = c.arrived (done ++ todo) := by
        intro hid
        refine ⟨?_, hall (hleft' ▸ hid)⟩
        rw [hopen.stream]
        simp [AtCursor, hid, ResponseStream.afterEvents_lastEventId]
      cases todo with
      | nil =>
        obtain rfl | ⟨e, he, -⟩ := hfds
        · exact ⟨done, [], rfl, hpar, fun _ _ => hkeep rfl⟩
        · cases he
      | cons e todo =>
        have hcase := hcle e rfl
        simp only [hbroke, hleft] at hcase
        obtain habo | hnone | hid := hcase
        · exact ⟨done, e :: todo, rfl, hpar, fun hnot => by simp [habo] at hnot⟩
        · -- the event carries no message: it may be passed over
          have hids : idOf fields = none ∨ idOf fields = some e.id := by
            obtain rfl | ⟨e', he', hpre⟩ := hfds
            · exact .inl rfl
            · cases he'
              exact idOf_isPrefix hpre
          obtain hid | hid := hids
          · exact ⟨done, e :: todo, rfl, hpar, fun _ _ => hkeep hid⟩
          · have hskip : messages parse (done ++ [e]) = messages parse done := by
              rw [ResponseStream.messages_append, ResponseStream.messages_singleton, hnone]
              simp
            refine ⟨done ++ [e], todo, by simp, ⟨hskip ▸ hpar.emitted, hskip ▸ hpar.answered, hskip ▸ hpar.quiet⟩,
              fun _ _ => ⟨?_, hmore e todo rfl (hleft' ▸ hid)⟩⟩
            rw [hopen.stream]
            simp [AtCursor, hid]
        · exact ⟨done, e :: todo, rfl, hpar, fun _ _ => hkeep hid⟩
    | none =>
      have hopen' : SseReader.Open { r with buffered := rest } fields
          (s.afterEvents parse rid done) :=
        ⟨hopen.eventName, hopen.eventId, hopen.dataLines, hopen.stream, hopen.failure⟩
      have hres : consumeSse parse rid limit s c =
          (({ r with buffered := rest }.finish parse rid limit c.unfinished).stream,
            ({ r with buffered := rest }.finish parse rid limit c.unfinished).failure) := by
        simp only [consumeSse, heq, hopen.failure, hbroke]
      have hleft' : c.left = fields ++ lineFields c.lastLine := by simp [Connection.left, hbroke, hleft]
      rw [hres]
      obtain ⟨-, hfin⟩ | ⟨hfail, hfin⟩ := @finish_spec parse rid limit _ _ _ hopen' c.unfinished
      · simp only [hfin, ← hlast]
        cases todo with
        | nil =>
          obtain rfl | ⟨e, he, -⟩ := hfds
          · have hemp : fieldsMessage parse ([] ++ lineFields c.lastLine) = none ∧
                idOf ([] ++ lineFields c.lastLine) = none := by
              rw [hlast, hend rfl]
              cases c.unfinished <;> exact ⟨rfl, rfl⟩
            obtain ⟨hd, hc⟩ := @afterEvent_nothing parse rid s done _ hemp.1 hemp.2
            exact ⟨done, [], rfl, hd, fun _ _ => ⟨hc, hall (hleft' ▸ hemp.2)⟩⟩
          · cases he
        | cons e todo =>
          have hcase := hcle e rfl
          simp only [hbroke, flatMap_append, hleft, flatMap_singleton] at hcase
          obtain ⟨hm, hid⟩ | ⟨hm, hid⟩ := hcase
          · obtain ⟨hd, hc⟩ := @afterEvent_nothing parse rid s done _ hm hid
            exact ⟨done, e :: todo, rfl, hd, fun _ _ => ⟨hc, hall (hleft' ▸ hid)⟩⟩
          · obtain ⟨hd, hc⟩ := @afterEvent_delivered parse rid s done e _ hm hid
            exact ⟨done ++ [e], todo, by simp, hd, fun _ _ => ⟨hc, hmore e todo rfl (hleft' ▸ hid)⟩⟩
      · simp only [hfin, hfail]
        exact ⟨done, todo, rfl, hpar, fun _ hne => absurd rfl hne⟩
  · have hres : consumeSse parse rid limit s c = (r.stream, some (SseReader.tooLarge limit)) := by
      simp only [consumeSse, hfail, hstr, hr]
    rw [hres]
    exact ⟨done, todo, rfl, hpar, fun _ hne => absurd rfl hne⟩

/-- What a connection fails with: its own error, or more bytes than an event may have. -/
theorem consumeSse_failure {c : Connection} (s : ResponseStream) {failure : StreamFailure}
    (h : (consumeSse parse rid limit s c).2 = some failure) :
    c.failure = some failure ∨ failure = SseReader.tooLarge limit ∧ limit < c.bytes := by
  have hstart : SseReader.Counted limit 0 { stream := s } := ⟨le_rfl, .inl rfl⟩
  have hcou := @SseReader.Counted.readChunks parse rid limit _ 0 hstart c.chunks
  rw [Nat.zero_add] at hcou
  obtain ⟨read, -, -, hok, hall⟩ := @SseReader.readChunks_stream parse rid limit { stream := s } rfl c.chunks
  have hbytes : byteLength c.chunks.flatten ≤ c.bytes := Nat.le_add_right _ _
  unfold consumeSse at h
  simp only at h
  split at h
  · next hfail =>
    -- the reader has failed on a chunk
    obtain rfl := Option.some.inj h
    obtain ⟨-, heq⟩ | hlarge := hall
    · rw [heq, hok] at hfail
      cases hfail
    · have hbig := hcou.failed.resolve_left (by rw [hfail]; exact Option.some_ne_none _)
      exact .inr ⟨Option.some.inj (hfail.symm.trans hlarge), by omega⟩
  · next hbroke =>
    exact .inl (hbroke.trans h)
  · next hnone hbroke =>
    obtain hok | ⟨hlarge, hbig⟩ := @SseReader.Counted.finish parse rid limit _ _ hcou hnone c.unfinished
    · rw [hok] at h
      cases h
    · exact .inr ⟨Option.some.inj (h.symm.trans hlarge), hbig⟩

end EasyPi.Mcp
