/-
# Live sessions

`LiveSessionManager` (`packages/server/src/sessions.ts`). A step is what runs between two
awaits: the start of a command, the continuation of a flow that waits, or an event of a
connection or a runtime. The runtimes the service hands over are numbered, and a live
session has the number of its runtime. What a runtime does is open: its calls succeed or
fail, its phase changes and its events come at any moment. The snapshots that are sent do
not appear, but waiting for them does. On closing, sessions are disposed of one by one, in
any order, once every connection is gone.
-/
import Mathlib.Logic.Function.Basic
import EasyPi.Server.Snapshots

namespace EasyPi.Server

/-- A runtime the service has handed over for a session: whether `getPhase` is idle, and whether
`dispose` has succeeded. -/
structure SessionRuntime where
  id : String
  idle : Bool := true
  disposed : Bool := false
  deriving DecidableEq

/-- `live.disposing`: not set, set and not yet begun, begun, or fulfilled. -/
inductive Disposing where
  | unset
  | scheduled
  | started
  | fulfilled
  deriving DecidableEq

/-- `LiveSession`. `subscribed` ends with `unsubscribe`, `failures` counts the disposals that have
failed. `ready` is set before the first await, so it is left out. -/
structure LiveSession where
  id : String
  connections : List ℕ := []
  operationCount : ℕ := 0
  terminal : Bool := false
  subscribed : Bool := true
  disposing : Disposing := .unset
  disposeFailed : Bool := false
  failures : ℕ := 0
  deriving DecidableEq

/-- How far `create` has come: it waits for the runtime, for its snapshot, or for the disposal of a
runtime it refuses, or its promise is settled. -/
inductive OpeningState where
  | acquiring
  | snapshot (r : ℕ)
  | refusing (r : ℕ)
  | settled (live : Option ℕ)
  deriving DecidableEq

/-- A promise of `openingSessions`. -/
structure Opening where
  id : String
  state : OpeningState := .acquiring
  deriving DecidableEq

/-- `ConnectionState`, as far as sessions go. `closed` is that of the transport. -/
structure SessionConnection where
  stage : Stage := .awaitingHello
  closed : Bool := false
  sessionIds : List String := []
  deriving DecidableEq

/-- A flow that waits: `create` or `attach` for a disposal, for an opening (its own or another's),
for `acquire` to return and for the last snapshot; `detach` for the snapshot; an operation for
the runtime and for the snapshot; and `terminate` for its connections. -/
inductive Flow where
  | awaitingDispose (c : ℕ) (id : String) (l failures : ℕ)
  | awaitingOpening (c : ℕ) (id : String) (o : ℕ) (owner : Bool)
  | acquired (c l : ℕ)
  | attached (c l : ℕ)
  | detached (l : ℕ)
  | operating (c l : ℕ)
  | operated (c l : ℕ)
  | closingConnections (l : ℕ) (connections : List ℕ)
  | disconnecting (l : ℕ)
  deriving DecidableEq

def Flow.isOperation (l : ℕ) : Flow → Bool
  | .operating _ l' | .operated _ l' => l' = l
  | _ => false

/-- A call of `runtime.dispose`, with what was the case at that moment. `refused` is a runtime that
`create` gives back, `retry` a disposal after one that failed. -/
structure DisposeCall where
  r : ℕ
  closing : Bool
  refused : Bool
  retry : Bool
  connections : List ℕ
  operations : ℕ
  terminal : Bool
  idle : Bool
  deriving DecidableEq

/-- The manager, its connections and the runtimes. -/
structure Manager where
  closing : Bool := false
  next : ℕ := 0
  connectionCount : ℕ := 0
  connections : ℕ → SessionConnection := fun _ => {}
  runtimes : ℕ → Option SessionRuntime := fun _ => none
  lives : ℕ → Option LiveSession := fun _ => none
  openings : ℕ → Option Opening := fun _ => none
  liveSessions : String → Option ℕ := fun _ => none
  openingSessions : String → Option ℕ := fun _ => none
  flows : List Flow := []
  disposals : List DisposeCall := []

namespace Manager

variable (s : Manager)

def updateLive (l : ℕ) (f : LiveSession → LiveSession) : Manager :=
  { s with lives := Function.update s.lives l ((s.lives l).map f) }

def updateConnection (c : ℕ) (f : SessionConnection → SessionConnection) : Manager :=
  { s with connections := Function.update s.connections c (f (s.connections c)) }

def updateRuntime (r : ℕ) (f : SessionRuntime → SessionRuntime) : Manager :=
  { s with runtimes := Function.update s.runtimes r ((s.runtimes r).map f) }

def setOpening (o : ℕ) (opening : Opening) : Manager :=
  { s with openings := Function.update s.openings o (some opening) }

def wait (flow : Flow) : Manager := { s with flows := flow :: s.flows }

/-- `dispose`: the runtime is disposed of in a later step. -/
def dispose (l : ℕ) : Manager :=
  s.updateLive l fun live =>
    if live.disposing = .unset then { live with disposing := .scheduled } else live

/-- `getPhase` of the runtime of a session is `"idle"`. -/
def isIdle (l : ℕ) : Bool := (s.runtimes l).any (·.idle)

def maybeDispose (l : ℕ) : Manager :=
  match s.lives l with
  | none => s
  | some live =>
    if s.closing || live.disposing ≠ .unset || live.connections ≠ [] || 0 < live.operationCount ||
        (!live.terminal && !s.isIdle l) then s
    else s.dispose l

/-- The first continuation of `dispose` calls `runtime.dispose`. -/
def startDispose (l : ℕ) : Manager :=
  match s.lives l with
  | none => s
  | some live =>
    if live.disposing = .scheduled then
      { s.updateLive l fun live => { live with disposing := .started, subscribed := false } with
        disposals := ⟨l, s.closing, false, live.disposeFailed, live.connections,
          s.flows.countP (·.isOperation l), live.terminal, s.isIdle l⟩ :: s.disposals }
    else s

/-- `runtime.dispose` has returned. -/
def disposeReturned (l : ℕ) (ok : Bool) : Manager :=
  match s.lives l with
  | none => s
  | some live =>
    if live.disposing = .started then
      if ok then
        let s := s.updateLive l fun live => { live with disposing := .fulfilled }
        let s := s.updateRuntime l fun runtime => { runtime with disposed := true }
        if s.liveSessions live.id = some l then
          { s with liveSessions := Function.update s.liveSessions live.id none }
        else s
      else
        s.updateLive l fun live =>
          { live with disposing := .unset, disposeFailed := true, failures := live.failures + 1 }
    else s

/-! ### Acquisition -/

/-- One turn of the loop of `acquire`, for a `create` or an `attach` of a connection. -/
def acquire (c : ℕ) (id : String) : Manager :=
  match s.liveSessions id with
  | some l =>
    match s.lives l with
    | none => s
    | some existing =>
      if existing.disposing ≠ .unset || existing.disposeFailed then
        (s.dispose l).wait (.awaitingDispose c id l existing.failures)
      else if existing.terminal then s
      else s.wait (.acquired c l)
  | none =>
    match s.openingSessions id with
    | some o => s.wait (.awaitingOpening c id o false)
    | none =>
      { (s.setOpening s.next { id }).wait (.awaitingOpening c id s.next true) with
        next := s.next + 1
        openingSessions := Function.update s.openingSessions id (some s.next) }

/-- `create` gives a runtime back. -/
def refuse (o : ℕ) (id : String) (r : ℕ) : Manager :=
  { s.setOpening o { id, state := .refusing r } with
    disposals := ⟨r, s.closing, true, false, [], 0, false, s.isIdle r⟩ :: s.disposals }

/-- `create` goes on. Its runtime is taken when the snapshot has the id of the session and the
subscription succeeds. -/
def openingReturned (o : ℕ) (ok : Bool) : Manager :=
  match s.openings o with
  | none => s
  | some opening =>
    match opening.state with
    | .acquiring =>
      if ok then
        let r := s.next
        let s := { s with
          next := s.next + 1
          runtimes := Function.update s.runtimes r (some { id := opening.id }) }
        if s.closing then s.refuse o opening.id r
        else s.setOpening o { opening with state := .snapshot r }
      else s.setOpening o { opening with state := .settled none }
    | .snapshot r =>
      if ok then
        { s.setOpening o { opening with state := .settled (some r) } with
          lives := Function.update s.lives r (some { id := opening.id })
          liveSessions := Function.update s.liveSessions opening.id (some r) }
      else s.refuse o opening.id r
    | .refusing r =>
      let s := s.setOpening o { opening with state := .settled none }
      if ok then s.updateRuntime r fun runtime => { runtime with disposed := true } else s
    | .settled _ => s

/-- The `finally` of `acquire`. -/
def forgetOpening (id : String) (o : ℕ) : Manager :=
  if s.openingSessions id = some o then
    { s with openingSessions := Function.update s.openingSessions id none }
  else s

def attach (c l : ℕ) : Manager :=
  let connection := s.connections c
  if connection.stage ≠ .ready || connection.closed then s.maybeDispose l
  else
    match s.lives l with
    | none => s
    | some live =>
      let s := s.updateConnection c fun connection =>
        { connection with sessionIds := connection.sessionIds.insert live.id }
      let s := s.updateLive l fun live =>
        { live with connections := live.connections.insert c }
      s.wait (.attached c l)

/-- `live.connections.delete`. -/
def deleteConnection (c l : ℕ) : Manager :=
  s.updateLive l fun live => { live with connections := live.connections.filter (· ≠ c) }

def detach (c : ℕ) (id : String) : Manager :=
  if id ∈ (s.connections c).sessionIds then
    let s := s.updateConnection c fun connection =>
      { connection with sessionIds := connection.sessionIds.filter (· ≠ id) }
    match s.liveSessions id with
    | none => s
    | some l =>
      let s := s.deleteConnection c l
      match s.lives l with
      | none => s
      | some live =>
        if live.connections ≠ [] && !live.terminal && live.disposing = .unset then
          s.wait (.detached l)
        else s.maybeDispose l
  else
    match s.liveSessions id with
    | none => s
    | some l =>
      if (s.lives l).any fun live => live.disposing ≠ .unset || live.disposeFailed then
        s.maybeDispose l
      else s

/-- `disconnect`, of the server and of the manager. -/
def disconnect (c : ℕ) : Manager :=
  let sessions := (s.connections c).sessionIds.filterMap s.liveSessions
  let s := s.updateConnection c fun connection =>
    { connection with stage := .closed, closed := true, sessionIds := [] }
  let s := sessions.foldl (fun s l => s.deleteConnection c l) s
  sessions.foldl maybeDispose s

def requireAttached (c : ℕ) (id : String) : Option ℕ :=
  if id ∈ (s.connections c).sessionIds then
    (s.liveSessions id).filter fun l => (s.lives l).any fun live =>
      !live.terminal && live.disposing = .unset && !live.disposeFailed
  else none

/-- The start of `runOperation`. -/
def operate (c : ℕ) (id : String) : Manager :=
  match s.requireAttached c id with
  | none => s
  | some l =>
    (s.updateLive l fun live => { live with operationCount := live.operationCount + 1 }).wait
      (.operating c l)

/-- The `finally` of `runOperation`. -/
def endOperation (l : ℕ) : Manager :=
  (s.updateLive l fun live =>
    { live with operationCount := live.operationCount - 1 }).maybeDispose l

/-- `handleRuntimeEvent`, for progress and snapshots. -/
def runtimeEvent (l : ℕ) : Manager :=
  if (s.lives l).any (·.subscribed) then s.maybeDispose l else s

/-- `handleRuntimeEvent` of an error: `terminate` up to its first await. -/
def runtimeError (l : ℕ) : Manager :=
  match s.lives l with
  | none => s
  | some live =>
    if live.subscribed && !live.terminal then
      (s.updateLive l fun live => { live with terminal := true, subscribed := false }).wait
        (.closingConnections l live.connections)
    else s

/-! ### Steps -/

/-- What a flow does when what it waits for has happened, if it has. The flow has been taken from
those that wait. -/
def resume (flow : Flow) (ok : Bool) : Manager :=
  match flow with
  | .awaitingDispose c id l failures =>
    match s.lives l with
    | none => s
    | some live =>
      if live.disposing = .fulfilled then s.acquire c id
      else if failures < live.failures then s
      else s.wait flow
  | .awaitingOpening c id o owner =>
    match s.openings o with
    | some ⟨_, .settled result⟩ =>
      let s := if owner then s.forgetOpening id o else s
      match result with
      | some l => s.wait (.acquired c l)
      | none => s
    | _ => s.wait flow
  | .acquired c l => s.attach c l
  | .attached _ _ => s
  | .detached l => if ok then s.maybeDispose l else s
  | .operating c l => if ok then s.wait (.operated c l) else s.endOperation l
  | .operated _ l => s.endOperation l
  | .closingConnections l connections =>
    (connections.foldl disconnect s).wait (.disconnecting l)
  | .disconnecting l => s.maybeDispose l

end Manager

inductive SessionStep where
  | connect
  | connectionClosed (c : ℕ)
  | disconnect (c : ℕ)
  | acquire (c : ℕ) (id : String)
  | detach (c : ℕ) (id : String)
  | operate (c : ℕ) (id : String)
  | openingReturned (o : ℕ) (ok : Bool)
  | resume (flow : Flow) (ok : Bool)
  | runtimeEvent (l : ℕ)
  | runtimeError (l : ℕ)
  | phase (r : ℕ) (idle : Bool)
  | startDispose (l : ℕ)
  | disposeReturned (l : ℕ) (ok : Bool)
  | close
  | closeSession (id : String)
  deriving DecidableEq

def Manager.step (s : Manager) : SessionStep → Manager
  | .connect =>
    if s.closing then s
    else
      { s.updateConnection s.connectionCount fun connection => { connection with stage := .ready } with
        connectionCount := s.connectionCount + 1 }
  | .connectionClosed c => s.updateConnection c fun connection => { connection with closed := true }
  | .disconnect c => s.disconnect c
  | .acquire c id => if (s.connections c).stage = .ready then s.acquire c id else s
  | .detach c id => if (s.connections c).stage = .ready then s.detach c id else s
  | .operate c id => if (s.connections c).stage = .ready then s.operate c id else s
  | .openingReturned o ok => s.openingReturned o ok
  | .resume flow ok =>
    if flow ∈ s.flows then { s with flows := s.flows.erase flow }.resume flow ok else s
  | .runtimeEvent l => s.runtimeEvent l
  | .runtimeError l => s.runtimeError l
  | .phase r idle => s.updateRuntime r fun runtime => { runtime with idle }
  | .startDispose l => s.startDispose l
  | .disposeReturned l ok => s.disposeReturned l ok
  | .close => { s with closing := true }
  | .closeSession id =>
    if s.closing && (List.range s.connectionCount).all fun c => (s.connections c).stage = .closed then
      match s.liveSessions id with
      | some l => s.dispose l
      | none => s
    else s

end EasyPi.Server
