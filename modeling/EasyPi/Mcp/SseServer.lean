/-
# A server that resumes its streams

The server of one request: a list of events with distinct ids, each sent as its lines
and a blank line, from the beginning or after an id that is asked for. A connection may
stop at any byte. Reading a line back gives the field it was made of.
-/
import EasyPi.Mcp.Sse

namespace EasyPi.Mcp

open List

/-! ### Fields as lines -/

namespace SseField

def line : SseField → List Char
  | .data value => ['d', 'a', 't', 'a'] ++ ':' :: ' ' :: value
  | .event value => ['e', 'v', 'e', 'n', 't'] ++ ':' :: ' ' :: value
  | .id value => ['i', 'd'] ++ ':' :: ' ' :: value
  | .other => []

/-- The values a server can send on one line; an id holds no null character. -/
def Valid : SseField → Prop
  | .data value | .event value => '\n' ∉ value ∧ value.getLast? ≠ some '\r'
  | .id value => ('\n' ∉ value ∧ value.getLast? ≠ some '\r') ∧ '\x00' ∉ value
  | .other => False

instance : DecidablePred Valid
  | .data value | .event value =>
    inferInstanceAs (Decidable ('\n' ∉ value ∧ value.getLast? ≠ some '\r'))
  | .id value =>
    inferInstanceAs (Decidable (('\n' ∉ value ∧ value.getLast? ≠ some '\r') ∧ '\x00' ∉ value))
  | .other => .isFalse fun h => h

def data? : SseField → Option (List Char)
  | .data value => some value
  | _ => none

def event? : SseField → Option (List Char)
  | .event value => some value
  | _ => none

def id? : SseField → Option (List Char)
  | .id value => some value
  | _ => none

end SseField

theorem parseField_append {name value : List Char} (hname : ':' ∉ name) (hne : name ≠ []) :
    parseField (name ++ ':' :: ' ' :: value) = if name = ['d', 'a', 't', 'a'] then .data value
      else if name = ['e', 'v', 'e', 'n', 't'] then .event value
      else if name = ['i', 'd'] && !value.contains '\x00' then .id value else .other := by
  have htake : (name ++ ':' :: ' ' :: value).takeWhile (· ≠ ':') = name := by
    rw [takeWhile_append_of_pos]
    · simp
    · intro c hc
      simpa using ne_of_mem_of_not_mem hc hname
  have hhead : (name ++ ':' :: ' ' :: value).head? ≠ some ':' := by
    cases name with
    | nil => exact absurd rfl hne
    | cons c name =>
      simp only [cons_append, List.head?_cons, ne_eq, Option.some.injEq]
      rintro rfl
      exact hname mem_cons_self
  have hdrop : (name ++ ':' :: ' ' :: value).drop (name.length + 1) = ' ' :: value := by
    simp
  unfold parseField
  simp only [htake, hdrop, hhead, if_false, List.head?_cons, if_true, tail_cons]

variable {f : SseField}

/-- **A line reads back as the field it was made of.** -/
theorem parseField_line (h : f.Valid) : parseField f.line = f := by
  cases f with
  | data value | event value =>
    rw [SseField.line, parseField_append (by decide) (by decide)]
    rfl
  | id value =>
    rw [SseField.line, parseField_append (by decide) (by decide)]
    simpa using h.2
  | other => exact h.elim

theorem line_ne_nil (h : f.Valid) : f.line ≠ [] := by
  cases f with
  | other => exact h.elim
  | _ => simp [SseField.line]

theorem newline_notMem_line (h : f.Valid) : '\n' ∉ f.line := by
  cases f with
  | other => exact h.elim
  | data value | event value => simpa [SseField.line] using h.1
  | id value => simpa [SseField.line] using h.1.1

theorem line_getLast (h : f.Valid) : f.line.getLast? ≠ some '\r' := by
  have hvl : ∀ name value : List Char, value.getLast? ≠ some '\r' →
      (name ++ ':' :: ' ' :: value).getLast? ≠ some '\r' := by
    intro name value hvl
    cases value with
    | nil => simp
    | cons c value =>
      rw [List.getLast?_append_of_ne_nil _ (by simp), List.getLast?_cons_cons, List.getLast?_cons_cons]
      exact hvl
  cases f with
  | other => exact h.elim
  | data value | event value => exact hvl _ value h.2
  | id value => exact hvl _ value h.1.2

section Fields

variable (parse : String → Option JsonValue)

def idOf (fields : List SseField) : Option (List Char) := (fields.filterMap SseField.id?).getLast?

/-- The event that fields make up, if they have data. -/
def eventOf (fields : List SseField) : Option SseEvent :=
  match fields.filterMap SseField.data? with
  | [] => none
  | data => some
    { event := ((fields.filterMap SseField.event?).getLast?).filter (!·.isEmpty)
      data := (['\n'] : List Char).intercalate data
      id := (idOf fields).filter (!·.isEmpty) }

def fieldsMessage (fields : List SseField) : Option JsonValue := (eventOf fields).bind (messageOf parse)

/-- An event of the server: its fields in the order they are sent, one of them the id. -/
structure ServerEvent where
  fields : List SseField
  id : List Char
  id_eq : fields.filterMap SseField.id? = [id]
  valid : ∀ f ∈ fields, f.Valid

/-- The lines of an event, the blank line included. -/
def ServerEvent.lines (e : ServerEvent) : List (List Char) := e.fields.map SseField.line ++ [[]]

def messages (events : List ServerEvent) : List JsonValue := events.filterMap fun e => fieldsMessage parse e.fields

def endedLines (lines : List (List Char)) : List Char := lines.flatMap (· ++ ['\n'])

def render (events : List ServerEvent) : List Char := endedLines (events.flatMap ServerEvent.lines)

end Fields

theorem byteLength_append (a b : List Char) : byteLength (a ++ b) = byteLength a + byteLength b := by
  simp [byteLength]

/-- What the decoder makes of the first bytes of a text: the characters they hold, and whether they
hold a part of one more. -/
def cutBytes : List Char → ℕ → List Char × Bool
  | [], _ => ([], false)
  | c :: text, bytes =>
    if c.utf8Size ≤ bytes then
      let (chars, unfinished) := cutBytes text (bytes - c.utf8Size)
      (c :: chars, unfinished)
    else ([], decide (0 < bytes))

def replay (events : List ServerEvent) (id : List Char) : List ServerEvent := (events.dropWhile (·.id ≠ id)).tail

def Connection.text (c : Connection) : List Char := c.chunks.flatten

/-- A connection that sends events and stops at some byte. -/
def Connection.Serves (c : Connection) (events : List ServerEvent) : Prop :=
  ∃ bytes, (c.text, c.unfinished) = cutBytes (render events) bytes

theorem cutBytes_isPrefix (text : List Char) (bytes : ℕ) : (cutBytes text bytes).1 <+: text := by
  induction text generalizing bytes with
  | nil => exact prefix_rfl
  | cons c text ih =>
    rw [cutBytes]
    split
    · exact cons_prefix_cons.mpr ⟨rfl, ih _⟩
    · exact nil_prefix

theorem Connection.Serves.text_isPrefix {c : Connection} {events : List ServerEvent}
    (h : c.Serves events) : c.text <+: render events := by
  obtain ⟨bytes, h⟩ := h
  rw [show c.text = (cutBytes (render events) bytes).1 from congrArg Prod.fst h]
  exact cutBytes_isPrefix _ _

end EasyPi.Mcp
