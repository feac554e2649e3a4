/-
# Event streams

The reader of server-sent events and the response stream of
`packages/mcp/src/transports/streamable-http.ts`. A connection delivers what the
decoder makes of the bytes read so far, in chunks: whole characters, and bytes of an
unfinished character held back. Reconnecting is given by a script of what became of each
attempt; what a new stream delivers depends on the event id that was sent with it. The
delays between the attempts and the `retry` fields that set them are left out.
-/
import Mathlib.Algebra.GroupWithZero.Nat
import EasyPi.Lib.CodeUnits
import EasyPi.Mcp.JsonRpc

namespace EasyPi.Mcp

export CodeUnits (isSpace)

/-- An error: its message, and whether `isRetryable` holds of it. -/
structure StreamFailure where
  message : String
  retryable : Bool
  deriving DecidableEq

inductive SseField where
  | data (value : List Char)
  | event (value : List Char)
  | id (value : List Char)
  | other
  deriving DecidableEq

structure SseEvent where
  event : Option (List Char)
  data : List Char
  id : Option (List Char)

/-- The field of a line that is not empty. -/
def parseField (line : List Char) : SseField :=
  let field := line.takeWhile (· ≠ ':')
  let value := line.drop (field.length + 1)
  let value := if value.head? = some ' ' then value.tail else value
  if line.head? = some ':' then .other
  else if field = ['d', 'a', 't', 'a'] then .data value
  else if field = ['e', 'v', 'e', 'n', 't'] then .event value
  else if field = ['i', 'd'] && !value.contains '\x00' then .id value
  else .other

def byteLength (text : List Char) : ℕ := (text.map Char.utf8Size).sum

/-! ### The stream of one request -/

/-- `StreamCursor` and the variables of `consumeResponseStream` that a stream changes, with the
messages emitted so far. -/
structure ResponseStream where
  lastEventId : Option (List Char) := none
  received : Bool := false
  answered : Bool := false
  emitted : List JsonValue := []
  deriving DecidableEq

section Reading

variable (parse : String → Option JsonValue) (requestId : JsonValue) (maxEventBytes : ℕ)

/-- The message of an event, if it has one. -/
def messageOf (event : SseEvent) : Option JsonValue :=
  if event.data.all isSpace ||
    event.event.any (· ≠ ['m', 'e', 's', 's', 'a', 'g', 'e']) then none
  else (parse (String.ofList event.data)).bind parseJsonRpcMessage

variable (s : ResponseStream)

/-- `onEvent` of `consumeSse`. -/
def ResponseStream.onEvent (event : SseEvent) : ResponseStream :=
  match messageOf parse event with
  | none => { s with received := true }
  | some message =>
    { s with
      received := true
      answered := s.answered || isResponseTo requestId message
      emitted := s.emitted ++ [message] }

/-- `onId` of `consumeSse`. -/
def ResponseStream.onId (id : List Char) : ResponseStream := { s with lastEventId := some id }

/-- The variables of `consumeSseStream`, and the error it threw. -/
structure SseReader where
  buffered : List Char := []
  eventName : Option (List Char) := none
  eventId : Option (List Char) := none
  dataLines : List (List Char) := []
  dataBytes : ℕ := 0
  stream : ResponseStream
  failure : Option StreamFailure := none

namespace SseReader

def tooLarge : StreamFailure := ⟨"MCP SSE event exceeds " ++ toString maxEventBytes ++ " bytes", false⟩

variable (r : SseReader)

def dispatch : SseReader :=
  match r.dataLines with
  | [] => { r with eventName := none, eventId := none }
  | _ :: _ =>
    let event : SseEvent :=
      { event := r.eventName.filter (!·.isEmpty)
        data := (['\n'] : List Char).intercalate r.dataLines
        id := r.eventId.filter (!·.isEmpty) }
    { r with
      eventName := none
      eventId := none
      dataLines := []
      dataBytes := 0
      stream := r.stream.onEvent parse requestId event }

/-- What a field of the event in progress does. -/
def onField : SseField → SseReader
  | .data value =>
    let dataBytes := r.dataBytes + byteLength value + if r.dataLines.isEmpty then 0 else 1
    if dataBytes > maxEventBytes then { r with dataBytes, failure := some (tooLarge maxEventBytes) }
    else { r with dataBytes, dataLines := r.dataLines ++ [value] }
  | .event value => { r with eventName := some value }
  | .id value => { r with eventId := some value, stream := r.stream.onId value }
  | .other => r

/-- `processLine`. Nothing is read after an error. -/
def processLine (rawLine : List Char) : SseReader :=
  let line := if rawLine.getLast? = some '\r' then rawLine.dropLast else rawLine
  if r.failure.isSome then r
  else if line = [] then r.dispatch parse requestId
  else r.onField maxEventBytes (parseField line)

/-- One character of a chunk: a line break ends the line that is buffered. -/
def readChar (c : Char) : SseReader :=
  if r.failure.isSome then r
  else if c = '\n' then
    { r with buffered := [] }.processLine parse requestId maxEventBytes r.buffered
  else { r with buffered := r.buffered ++ [c] }

/-- One turn of the loop of `consumeSseStream`. -/
def readChunk (chunk : List Char) : SseReader :=
  let r := chunk.foldl (readChar parse requestId maxEventBytes) r
  if r.failure.isNone && byteLength r.buffered > maxEventBytes then
    { r with failure := some (tooLarge maxEventBytes) }
  else r

/-- The end of `consumeSseStream`: an unfinished character is replaced, and what is left is read as
a line and an event. -/
def finish (unfinished : Bool) : SseReader :=
  let buffered := if unfinished then r.buffered ++ ['\ufffd'] else r.buffered
  let r := if buffered = [] then r else r.processLine parse requestId maxEventBytes buffered
  if r.failure.isSome then r else r.dispatch parse requestId

end SseReader

/-- What a stream delivers: the characters of its chunks, bytes of one more character, and the error
it breaks with if it does not end. `aborted` says that the request is aborted by then. -/
structure Connection where
  chunks : List (List Char)
  unfinished : Bool
  failure : Option StreamFailure
  aborted : Bool

/-- `consumeSse`: the stream afterwards and the error thrown. -/
def consumeSse (connection : Connection) : ResponseStream × Option StreamFailure :=
  let r := connection.chunks.foldl (SseReader.readChunk parse requestId maxEventBytes) { stream := s }
  match r.failure, connection.failure with
  | some failure, _ => (r.stream, some failure)
  | none, some failure => (r.stream, some failure)
  | none, none =>
    let r := r.finish parse requestId maxEventBytes connection.unfinished
    (r.stream, r.failure)

/-! ### Reconnecting -/

/-- What becomes of an attempt to reconnect: the request is aborted before, the server has no such
stream, the attempt fails, or a stream opens. -/
inductive Reopening where
  | aborted
  | unavailable
  | failed (failure : StreamFailure)
  | opened (stream : List Char → Connection)

/-- How `consumeResponseStream` stands. -/
inductive StreamStatus where
  | waiting
  | returned
  | failed (failure : Option StreamFailure)
  deriving DecidableEq

/-- The text of the response that stands in for the server's. -/
def failureMessage (failure : Option StreamFailure) : String :=
  "MCP response stream failed: " ++ (failure.map (·.message)).getD "stream ended without a response"

variable (maxRetries : ℕ)

/-- The loop of `consumeResponseStream` after a stream has been read, or when there was none. -/
def resumeLoop (s : ResponseStream) (aborted : Bool) (attempt : ℕ) (failure : Option StreamFailure)
    (script : List Reopening) : ResponseStream × StreamStatus :=
  if s.answered || aborted then (s, .returned)
  else if failure.any (!·.retryable) then (s, .failed failure)
  else
    match s.lastEventId with
    | none => (s, .failed failure)
    | some lastEventId =>
      if attempt ≥ maxRetries then (s, .failed failure)
      else
        let attempt := (if s.received then 0 else attempt) + 1
        let s := { s with received := false }
        match script with
        | [] => (s, .waiting)
        | .aborted :: _ => (s, .returned)
        | .unavailable :: script => resumeLoop s false attempt failure script
        | .failed failure :: script =>
          if failure.retryable then resumeLoop s false attempt (some failure) script
          else (s, .failed (some failure))
        | .opened stream :: script =>
          let connection := stream lastEventId
          let (s, failure) := consumeSse parse requestId maxEventBytes s connection
          resumeLoop s connection.aborted attempt failure script

/-- `consumeResponseStream`: the messages emitted, and how it stands when the script is over. -/
def consumeResponseStream (body : Connection) (script : List Reopening) : List JsonValue × StreamStatus :=
  let (s, failure) := consumeSse parse requestId maxEventBytes {} body
  let (s, status) := resumeLoop parse requestId maxEventBytes maxRetries s body.aborted 0 failure script
  match status with
  | .failed failure =>
    (s.emitted ++ [errorResponse requestId internalError (failureMessage failure)], status)
  | _ => (s.emitted, status)

end Reading
end EasyPi.Mcp
