/-
# One codemode execution

The class `Execution` (`packages/codemode/src/runtime/execution.ts`): the host side of a script
that runs in a VM. Its inputs are the messages of the VM, which need not be what the protocol
says, the settling of tool calls, the launcher, the deadline, and aborts. A tool is code of the
caller: it may throw or abort the execution before it returns its promise, and its result may
abort while it is serialized.

What is posted to the VM and every call of `resolveResult` is recorded, and so is, in `log`, when
calls start and complete and when `finish` is called. The result of the execution holds the
arrays `output` and `calls` themselves, so whoever has it sees them as they are.
-/
import EasyPi.Ai.JsonText

namespace EasyPi.Codemode

/-- A field of a message, of whatever type the VM has sent: the text that a value other than a
string converts to, and its `length` if that is a number. -/
inductive Raw where
  | undefined
  | null
  | text (s : String)
  | other (s : Option String) (length : Option ℚ)
  deriving DecidableEq

/-- `CodemodeErrorKind`. -/
inductive ErrorKind where
  | script
  | timeout
  | aborted
  | sandbox
  deriving DecidableEq

/-- `CodemodeError`. The message of a crash is what the VM has sent. -/
structure CodemodeError where
  kind : ErrorKind
  name : Option String := none
  message : Raw
  stack : Option String := none
  deriving DecidableEq

/-- `CodemodeCallStatus`. -/
inductive CallStatus where
  | ok
  | error
  | cancelled
  deriving DecidableEq

/-- `CodemodeCall`: the record of a tool call. -/
structure CodemodeCall (Name : Type*) where
  name : Name
  status : CallStatus
  durationMs : ℚ
  deriving DecidableEq

/-- `CodemodeStoreWrites`. -/
structure StoreWrites where
  set : OrdMap String JsonValue := ∅
  delete : List String := []
  deriving DecidableEq

/-- What `finish` is called with: an error, or the value and the store writes of the script. -/
inductive Outcome where
  | failed (error : CodemodeError)
  | succeeded (value : Option JsonValue) (storeWrites : StoreWrites)
  deriving DecidableEq

/-- `WorkerToHostMessage`, and any other value. A call whose `target` is not `"tool"` is one of a
global; `ok` is whether that field is truthy. -/
inductive WorkerMessage (Id Name Item : Type*) where
  | unknown
  | call (id : Id) (target : Raw) (name : Name) (args : Raw)
  | output (item : Item)
  | done (ok : Bool) (value writes error : Raw)
  | crash (message : Raw)

/-- `HostToWorkerMessage`: the reply to a call. -/
structure Reply (Id : Type*) where
  id : Id
  ok : Bool
  payload : Option String
  deriving DecidableEq

/-- What decoding a message throws: a `BridgeError`, or an error of the engine. -/
inductive HostError where
  | bridge (message : String)
  | host (message : String)
  deriving DecidableEq

/-- What an execution is given: `JSON.parse`, which of the tools and globals exist, and the
deadline. -/
structure ExecutionOptions (Name : Type*) where
  parse : String → Except String JsonValue
  tools : Name → Bool
  globals : Name → Bool
  timeoutMs : ℕ

def ExecutionOptions.has {Name : Type*} (o : ExecutionOptions Name) (isTool : Bool) (name : Name) : Bool :=
  if isTool then o.tools name else o.globals name

/-! ### Decoding -/

/-- `MAX_HOST_CALLS`. -/
def maxHostCalls : ℕ := 1024

/-- `MAX_STORE_VALUE_CHARS`. -/
def maxStoreValueChars : ℕ := 256 * 1024

/-- `MAX_STORE_TOTAL_CHARS`. -/
def maxStoreTotalChars : ℕ := 1024 * 1024

/-- `length` of a string: its UTF-16 code units. -/
def jsLength (s : String) : ℕ := (s.toList.map fun c => if c.toNat < 0x10000 then 1 else 2).sum

namespace Raw

def toText : Raw → Except String String
  | .undefined => .ok "undefined"
  | .null => .ok "null"
  | .text s => .ok s
  | .other (some s) _ => .ok s
  | .other none _ => .error "Cannot convert object to primitive value"

/-- `value.length`, if it is a number. -/
def length? : Raw → Except String (Option ℚ)
  | .undefined => .error "Cannot read properties of undefined (reading 'length')"
  | .null => .error "Cannot read properties of null (reading 'length')"
  | .text s => .ok (some (jsLength s))
  | .other _ length => .ok length

end Raw

section Decoding
variable {Name : Type*} (o : ExecutionOptions Name)

/-- `JSON.parse(value)`. -/
def parseJson (value : Raw) : Except String JsonValue := do o.parse (← value.toText)

def parseBridgeJson (json : Raw) (what : String) : Except HostError JsonValue :=
  match parseJson o json with
  | .ok value => .ok value
  | .error _ => .error (.bridge s!"{what} is not valid JSON")

/-- The key of an entry of the store writes, and its value unless the entry is a deletion. -/
def storeEntry : JsonValue → Except HostError (String × Option String)
  | .arr [.str key] => .ok (key, none)
  | .arr [.str key, .str value] => .ok (key, some value)
  | _ => .error (.bridge "store writes contain a malformed entry")

/-- One round of the loop of `parseStoreWrites`. -/
def addStoreWrite (writes : StoreWrites) (entry : JsonValue) : Except HostError StoreWrites := do
  match ← storeEntry entry with
  | (key, none) => .ok { writes with delete := writes.delete ++ [key] }
  | (key, some value) =>
    if maxStoreValueChars < jsLength value then .error (.bridge "store value exceeds the size limit")
    else
      let what := s!"store value for {Standard.stringify (.str key)}"
      .ok { writes with set := writes.set.set key (← parseBridgeJson o (.text value) what) }

def parseStoreWrites (json : Raw) : Except HostError StoreWrites :=
  match json.length? with
  | .error message => .error (.host message)
  | .ok length =>
    if length.any fun n => decide ((maxStoreTotalChars : ℚ) < n) then
      .error (.bridge "store writes exceed the serialized size limit")
    else do
      match ← parseBridgeJson o json "store writes" with
      | .arr entries => entries.foldlM (addStoreWrite o) {}
      | _ => .error (.bridge "store writes are not an array")

/-- A field of the error of a script that is `undefined` or a string. -/
def optionalString : Option JsonValue → Except HostError (Option String)
  | none => .ok none
  | some (.str s) => .ok (some s)
  | some _ => .error (.bridge "script error is malformed")

def parseScriptError (json : Raw) : Except HostError CodemodeError := do
  match ← parseBridgeJson o json "script error" with
  | .obj fields =>
    match fields.lookup "message" with
    | some (.str message) =>
      let name ← optionalString (fields.lookup "name")
      let stack ← optionalString (fields.lookup "stack")
      .ok { kind := .script, name := name, message := .text message, stack := stack }
    | _ => .error (.bridge "script error is malformed")
  | .arr _ => .error (.bridge "script error is malformed")
  | _ => .error (.bridge "script error is not an object")

def parseReturnValue (value : Raw) : Except HostError (Option JsonValue) :=
  if value = .undefined then .ok none else some <$> parseBridgeJson o value "return value"

/-- `handleDone`: what `finish` is called with. -/
def decodeDone (ok : Bool) (value writes error : Raw) : Except HostError Outcome :=
  if ok then do
    let value ← parseReturnValue o value
    .ok (.succeeded value (← parseStoreWrites o writes))
  else do .ok (.failed (← parseScriptError o error))

end Decoding

/-- What `receive` reports for an error of `handleMessage`. -/
def HostError.toError : HostError → CodemodeError
  | .bridge message => {
      kind := .sandbox
      message := .text (s!"Sandbox bridge broken: {message}. The script may have modified " ++
        "built-ins such as a prototype's toJSON.") }
  | .host message => { kind := .sandbox, message := .text s!"Sandbox host failed: {message}" }

/-! ### The execution -/

/-- `PendingCall`: the position of the record in `calls`, for a tool, and when the call started. -/
structure PendingCall where
  record : Option ℕ
  startedAt : ℚ
  deriving DecidableEq

/-- A call of `handleCall` that has not returned. Calls are numbered from 1. -/
structure Frame (Id : Type*) where
  number : ℕ
  id : Id
  pending : PendingCall
  deriving DecidableEq

structure StartedCall (Id Name : Type*) where
  number : ℕ
  id : Id
  isTool : Bool
  name : Name
  deriving DecidableEq

/-- An entry of the log: a call is started, the tool of a call is done and the reply is made, or
`finish` is called. -/
inductive Entry (Id Name : Type*) where
  | started (call : StartedCall Id Name)
  | completed (number : ℕ) (status : CallStatus) (reply : Reply Id)
  | terminal (outcome : Outcome)

/-- The fields of `Execution`, its calls of `handleCall`, and what it has done: the messages posted
to the channel, the outcome that waits for the channel to stop, the calls of `resolveResult`, and
the log, which nothing in the code reads. -/
structure Execution (Id Name Item : Type*) where
  channel : Bool := false
  unsent : List (Reply Id) := []
  output : List Item := []
  calls : List (CodemodeCall Name) := []
  callCount : ℕ := 0
  pending : OrdMap Id PendingCall := ⟨[], by simp⟩
  finished : Bool := false
  frames : List (Frame Id) := []
  posted : List (Reply Id) := []
  stopping : Option Outcome := none
  resolutions : List Outcome := []
  log : List (Entry Id Name) := []

/-- What the caller does to end the execution: its signal fires, with the message of the reason if
that is an error, or the sandbox is closed. -/
inductive Cancel where
  | abort (reason : Option String)
  | close

/-- The error of `onAbort` and of `close`. -/
def Cancel.toError : Cancel → CodemodeError
  | .abort reason => { kind := .aborted, message := .text (reason.getD "Execution aborted") }
  | .close => { kind := .aborted, message := .text "Sandbox closed" }

/-- What a tool does until `execute` returns or throws: it may cancel the execution. -/
structure ToolStart where
  cancel : Option Cancel := none
  thrown : Option String := none
  endedAt : ℚ := 0

/-- The inputs, with the time at which they come. The result of a settled call is the text of its
value, or the message of what the tool or the serialization has thrown. -/
inductive Event (Id Name Item : Type*) where
  | message (m : WorkerMessage Id Name Item) (now : ℚ) (start : ToolStart)
  | settle (number : ℕ) (result : Except String (Option String)) (cancel : Option Cancel) (now : ℚ)
  | launched
  | launchFailed (message : String) (now : ℚ)
  | failure (error : CodemodeError) (now : ℚ)
  | deadline (now : ℚ)
  | cancel (c : Cancel) (now : ℚ)
  | stopped

namespace Execution

variable {Id Name Item : Type*} [DecidableEq Id] (s : Execution Id Name Item)

def post (reply : Reply Id) : Execution Id Name Item :=
  if s.channel then { s with posted := s.posted ++ [reply] }
  else { s with unsent := s.unsent ++ [reply] }

/-- The record of a call is changed, if it has one. -/
def updateRecord (calls : List (CodemodeCall Name)) (record : Option ℕ)
    (f : CodemodeCall Name → CodemodeCall Name) : List (CodemodeCall Name) :=
  match record with
  | some i => calls.modify i f
  | none => calls

/-- The loop of `finish`: the records of the pending calls get their durations. -/
def closeRecords (calls : List (CodemodeCall Name)) (now : ℚ) (pending : List PendingCall) : List (CodemodeCall Name) :=
  pending.foldl (fun calls p =>
    updateRecord calls p.record fun c => { c with durationMs := now - p.startedAt }) calls

def finish (now : ℚ) (outcome : Outcome) : Execution Id Name Item :=
  let s := { s with log := s.log ++ [.terminal outcome] }
  if s.finished then s
  else
    let s := { s with
      finished := true
      calls := closeRecords s.calls now s.pending.values
      pending := ⟨[], by simp⟩
      unsent := [] }
    if s.channel then { s with stopping := some outcome }
    else { s with resolutions := s.resolutions ++ [outcome] }

/-- The execution is cancelled, if it is. -/
def cancelled (now : ℚ) : Option Cancel → Execution Id Name Item
  | some c => s.finish now (.failed c.toError)
  | none => s

/-- The status of a call, by what its `try` block ends with. -/
def statusOf : Except String (Option String) → CallStatus
  | .ok _ => .ok
  | .error _ => .error

/-- The reply to a call, by what its `try` block ends with. -/
def replyTo (id : Id) : Except String (Option String) → Reply Id
  | .ok payload => ⟨id, true, payload⟩
  | .error message => ⟨id, false, some message⟩

/-- The end of `handleCall`. -/
def complete (now : ℚ) (frame : Frame Id)
    (result : Except String (Option String)) : Execution Id Name Item :=
  let s := { s with
    frames := s.frames.filter (·.number ≠ frame.number)
    log := s.log ++ [Entry.completed frame.number (statusOf result) (replyTo frame.id result)] }
  if s.pending.has frame.id then
    { s with
      pending := s.pending.erase frame.id
      calls := updateRecord s.calls frame.pending.record fun c =>
        { c with status := statusOf result, durationMs := now - frame.pending.startedAt } }.post (replyTo frame.id result)
  else s

/-- The frame of the call that `handleCall` is started with. -/
def newFrame (now : ℚ) (id : Id) (isTool : Bool) : Frame Id :=
  ⟨s.callCount, id, if isTool then some s.calls.length else none, now⟩

/-- The start of `handleCall`: the record and the pending call. -/
def startCall (now : ℚ) (id : Id) (isTool : Bool) (name : Name) : Execution Id Name Item :=
  { s with
    calls := if isTool then s.calls ++ [⟨name, .cancelled, 0⟩] else s.calls
    pending := s.pending.set id (s.newFrame now id isTool).pending
    frames := s.frames ++ [s.newFrame now id isTool]
    log := s.log ++ [.started ⟨s.callCount, id, isTool, name⟩] }

section
variable [ToString Id] [ToString Name] (o : ExecutionOptions Name)

/-- The arguments of a call: `undefined`, or the value of their text. -/
def parseArgs (args : Raw) : Except String (Option JsonValue) :=
  if args = .undefined then .ok none else some <$> parseJson o args

variable (s : Execution Id Name Item)

/-- `handleCall`, until it returns or waits for the tool. -/
def handleCall (now : ℚ) (id : Id) (target : Raw) (name : Name)
    (args : Raw) (start : ToolStart) : Execution Id Name Item :=
  let isTool : Bool := target = .text "tool"
  let frame := s.newFrame now id isTool
  let s := s.startCall now id isTool name
  if !o.has isTool name then
    let kind := if isTool then "tool" else "global"
    s.complete start.endedAt frame (.error s!"Unknown {kind} \"{name}\"")
  else
    match parseArgs o args with
    | .error message => s.complete start.endedAt frame (.error message)
    | .ok _ =>
      let s := s.cancelled start.endedAt start.cancel
      match start.thrown with
      | some message => s.complete start.endedAt frame (.error message)
      | none => s

/-- The error for a script that makes too many calls. -/
def tooManyCalls : CodemodeError := {
  kind := .script
  name := some "RangeError"
  message := .text (s!"Script exceeded {maxHostCalls} host calls (tools and globals). " ++
    "No further calls were dispatched; earlier effects are not undone.") }

/-- `handleMessage`. It throws before it has changed anything. -/
def handleMessage (m : WorkerMessage Id Name Item) (now : ℚ)
    (start : ToolStart) : Except HostError (Execution Id Name Item) :=
  if s.finished then .ok s
  else
    match m with
    | .unknown => .error (.bridge "unknown message from the worker")
    | .output item => .ok { s with output := s.output ++ [item] }
    | .call id target name args =>
      if s.pending.has id then .error (.bridge s!"duplicate call id {id}")
      else if maxHostCalls ≤ s.callCount then .ok (s.finish now (.failed tooManyCalls))
      else .ok ({ s with callCount := s.callCount + 1 }.handleCall o now id target name args start)
    | .done ok value writes error =>
      match decodeDone o ok value writes error with
      | .ok outcome => .ok (s.finish now outcome)
      | .error e => .error e
    | .crash message => .ok (s.finish now (.failed { kind := .sandbox, message := message }))

def receive (m : WorkerMessage Id Name Item) (now : ℚ)
    (start : ToolStart) : Execution Id Name Item :=
  match s.handleMessage o m now start with
  | .ok s' => s'
  | .error e => s.finish now (.failed e.toError)

def step : Event Id Name Item → Execution Id Name Item
  | .message m now start => s.receive o m now start
  | .settle number result cancel now =>
    -- Serializing the value may run code of the tool, which may cancel.
    match s.frames.find? (·.number = number) with
    | some frame => (s.cancelled now cancel).complete now frame result
    | none => s
  | .launched =>
    -- The channel of an execution that is finished is only stopped.
    if s.finished then s
    else { s with channel := true, posted := s.posted ++ s.unsent, unsent := [] }
  | .launchFailed message now =>
    s.finish now (.failed { kind := .sandbox, message := .text message })
  | .failure error now => s.finish now (.failed error)
  | .deadline now =>
    s.finish now (.failed
      { kind := .timeout, message := .text s!"Execution timed out after {o.timeoutMs} ms" })
  | .cancel c now => s.cancelled now (some c)
  | .stopped =>
    match s.stopping with
    | some outcome => { s with stopping := none, resolutions := s.resolutions ++ [outcome] }
    | none => s

end

/-- The constructor, with a signal that may have fired before. -/
def start (aborted : Option Cancel) (now : ℚ) : Execution Id Name Item :=
  ({} : Execution Id Name Item).cancelled now aborted

end Execution

end EasyPi.Codemode
