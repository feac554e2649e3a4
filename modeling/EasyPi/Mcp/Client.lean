/-
# The MCP client

The connection of `McpClient` (`packages/mcp/src/client.ts`). A step is a call of the
interface, an event of the transport, or the continuation of `connect` after one of its
awaits. A promise is what has been called on it: every `resolve` and `reject` of a request
is kept in a log, and so is every message sent. Timers fire at any moment while they are
armed; the listeners and handlers of the application do not appear, but that the close
listeners are run is counted.
-/
import EasyPi.Mcp.JsonRpc
import EasyPi.Lib.Runs

namespace EasyPi.Mcp

inductive ClientState where
  | idle
  | connecting
  | connected
  | closed
  deriving DecidableEq

inductive Settlement where
  | result (value : JsonValue)
  | error (error : JsonValue)
  | aborted
  | timedOut (timeoutMs : ℚ)
  | sendFailed (reason : String)
  | closed
  deriving DecidableEq

/-- `PendingRequest`. A `timeoutMs` that is not finite is `none`. -/
structure PendingRequest where
  id : ℕ
  timeoutMs : Option ℚ
  signal : Bool
  cancellable : Bool
  progressToken : Option ℕ
  deriving DecidableEq

inductive Outgoing where
  | request (id : ℕ) (method : String)
  | notification (method : String)
  | cancelled (requestId : ℕ) (reason : Option String)
  | reply (id : JsonValue)
  deriving DecidableEq

/-- How far `connect` has come. -/
inductive ConnectPhase where
  | idle
  | starting
  | initializing (id : ℕ)
  | notifying
  | resolved
  | rejected
  deriving DecidableEq

/-- The fields of `McpClient`, the phase of its `connect`, and the logs. -/
structure McpClient where
  state : ClientState := .idle
  transport : Bool := false
  listening : Bool := false
  closePromise : Bool := false
  nextRequestId : ℕ := 1
  pending : List PendingRequest := []
  progressRequests : List (ℕ × ℕ) := []
  incoming : List JsonValue := []
  phase : ConnectPhase := .idle
  settled : List (ℕ × Settlement) := []
  sent : List Outgoing := []
  closeRuns : ℕ := 0
  deriving DecidableEq

/-- `McpRequestOptions`: whether there is a signal and whether it is aborted, the timeout if one is
given, and whether there is a progress callback. -/
structure RequestOptions where
  signal : Option Bool := none
  timeoutMs : Option (Option ℚ) := none
  onProgress : Bool := false

/-- What the client does not change: `options.requestTimeoutMs`, and the methods that have a request
handler. -/
structure ClientConfig where
  requestTimeoutMs : Option (Option ℚ) := none
  handles : String → Bool := fun method => method = "ping"

namespace McpClient

/-- `DEFAULT_REQUEST_TIMEOUT_MS`. -/
def defaultRequestTimeoutMs : ℚ := 30000

variable (s : McpClient)

/-- `pending.get(id)`. -/
def pendingOf (id : ℕ) : Option PendingRequest := s.pending.find? (·.id = id)

/-- `removePending`, and the promise is settled. -/
def settle (entry : PendingRequest) (settlement : Settlement) : McpClient :=
  { s with
    pending := s.pending.filter (·.id ≠ entry.id)
    progressRequests := match entry.progressToken with
      | some token => s.progressRequests.filter (·.1 ≠ token)
      | none => s.progressRequests
    settled := s.settled ++ [(entry.id, settlement)] }

def cancelPending (id : ℕ) (settlement : Settlement) (notifyServer : Bool)
    (reason : String) : McpClient :=
  match s.pendingOf id with
  | none => s
  | some entry =>
    let s := s.settle entry settlement
    if notifyServer && s.transport then
      { s with sent := s.sent ++ [.cancelled id (if reason = "" then none else some reason)] }
    else s

def rejectPending (settlement : Settlement) : McpClient :=
  s.pending.foldl (fun s entry => s.settle entry settlement) s

def markClosed : McpClient :=
  let wasClosed := s.state = .closed
  let s := { s with state := .closed }.rejectPending .closed
  { s with
    incoming := []
    closeRuns := if wasClosed then s.closeRuns else s.closeRuns + 1 }

def close : McpClient :=
  if s.closePromise then s
  else { s with transport := false, listening := false, closePromise := true }.markClosed

def requireTransport (allowConnecting : Bool) : Bool :=
  s.transport && (s.state = .connected || (allowConnecting && s.state = .connecting))

variable (config : ClientConfig) (s : McpClient)

/-- `requestInternal` once there is a transport to send with. -/
def sendRequest (method : String) (options : RequestOptions) : McpClient :=
  let id := s.nextRequestId
  let progressToken := if options.onProgress then some id else none
  let entry : PendingRequest :=
    { id, progressToken
      timeoutMs := (options.timeoutMs.or config.requestTimeoutMs).getD (some defaultRequestTimeoutMs)
      signal := options.signal.isSome
      cancellable := method ≠ "initialize" }
  { s with
    nextRequestId := id + 1
    pending := s.pending ++ [entry]
    progressRequests := match progressToken with
      | some token => s.progressRequests ++ [(token, id)]
      | none => s.progressRequests
    sent := s.sent ++ [.request id method] }

/-- `requestInternal`. A promise that is rejected before there is a request changes nothing. -/
def requestInternal (method : String)
    (options : RequestOptions) (allowConnecting : Bool) : McpClient :=
  if !s.requireTransport allowConnecting then s
  else if options.signal = some true then s
  else s.sendRequest config method options

def notify (method : String) : McpClient :=
  if s.requireTransport false then { s with sent := s.sent ++ [.notification method] } else s

/-! ### Connecting -/

/-- `connect` up to its first await. -/
def connect : McpClient :=
  if s.state = .idle then
    { s with state := .connecting, transport := true, listening := true, phase := .starting }
  else s

/-- The `catch` of `connect`. -/
def failConnect : McpClient := { s.close with phase := .rejected }

/-- `await transport.start()` is over. -/
def started (ok : Bool) : McpClient :=
  if s.phase ≠ .starting then s
  else if !ok || !s.requireTransport true then s.failConnect
  else { s.requestInternal config "initialize" {} true with phase := .initializing s.nextRequestId }

def validateInitializeResult (value : JsonValue) : Bool :=
  value.isObject && value.hasField "protocolVersion" JsonValue.isString &&
    value.hasField "capabilities" JsonValue.isObject &&
    value.hasField "serverInfo" (fun info => info.isObject && info.hasField "name" JsonValue.isString &&
      info.hasField "version" JsonValue.isString) &&
    value.optionalField "instructions" JsonValue.isString

/-- `SUPPORTED_PROTOCOL_VERSIONS`. -/
def supportedProtocolVersions : List String := ["2025-11-25", "2025-06-18", "2025-03-26", "2024-11-05"]

/-- The initialize request is settled with a result the client accepts. -/
def accepted (settlement : Settlement) : Bool :=
  match settlement with
  | .result value => validateInitializeResult value &&
      supportedProtocolVersions.any fun version => value.field? "protocolVersion" = some (.str version)
  | _ => false

/-- The await of the initialize request is over, when it is settled. -/
def initialized (s : McpClient) : McpClient :=
  match s.phase with
  | .initializing id =>
    match s.settled.lookup id with
    | none => s
    | some settlement =>
      if accepted settlement && s.requireTransport true then
        { s with
          phase := .notifying
          sent := s.sent ++ [.notification "notifications/initialized"] }
      else s.failConnect
  | _ => s

def notified (ok : Bool) : McpClient :=
  if s.phase ≠ .notifying then s
  else if ok then { s with state := .connected, phase := .resolved }
  else s.failConnect

/-! ### Messages -/

def requestOf (id : Option JsonValue) : Option PendingRequest :=
  s.pending.find? fun entry => id = some (.num entry.id)

def handleResponse (message : JsonValue) : McpClient :=
  match s.requestOf (message.field? "id") with
  | none => s
  | some entry =>
    match message.field? "error" with
    | some error => s.settle entry (.error error)
    | none => s.settle entry (.result ((message.field? "result").getD .null))

/-- `handleMessage`. Progress only arms a timer again, and a notification that cancels a request of
the server only reaches its handler. -/
def handleMessage (message : JsonValue) : McpClient :=
  if !s.listening then s
  else if isJsonRpcResponse message then s.handleResponse message
  else if isJsonRpcRequest message && s.transport then
    let id := (message.field? "id").getD .null
    if (message.field? "method").any (fun method => match method with
      | .str method => config.handles method
      | _ => false) then { s with incoming := s.incoming.insert id }
    else { s with sent := s.sent ++ [.reply id] }
  else s

/-- A request of the server has been handled. -/
def handled (id : JsonValue) : McpClient :=
  { s with sent := s.sent ++ [.reply id], incoming := s.incoming.erase id }

def handleTransportClose : McpClient := if s.listening then s.markClosed else s

end McpClient

inductive ClientEvent where
  | connect
  | started (ok : Bool)
  | initialized
  | notified (ok : Bool)
  | request (method : String) (options : RequestOptions)
  | notify (method : String)
  | close
  | abort (id : ℕ) (reason : String)
  | timeout (id : ℕ)
  | sendFailed (id : ℕ) (reason : String)
  | message (message : JsonValue)
  | handled (id : JsonValue)
  | transportClose

def McpClient.step (config : ClientConfig) (s : McpClient) : ClientEvent → McpClient
  | .connect => s.connect
  | .started ok => s.started config ok
  | .initialized => s.initialized
  | .notified ok => s.notified ok
  | .request method options => s.requestInternal config method options false
  | .notify method => s.notify method
  | .close => s.close
  | .abort id reason =>
    match s.pendingOf id with
    | some entry =>
      if entry.signal then s.cancelPending id .aborted entry.cancellable reason else s
    | none => s
  | .timeout id =>
    match s.pendingOf id with
    | some entry =>
      match entry.timeoutMs.filter (0 < ·) with
      | some timeoutMs =>
        s.cancelPending id (.timedOut timeoutMs) entry.cancellable "Request timed out"
      | none => s
    | none => s
  | .sendFailed id reason => s.cancelPending id (.sendFailed reason) false ""
  | .message message => s.handleMessage config message
  | .handled id => s.handled id
  | .transportClose => s.handleTransportClose

end EasyPi.Mcp
