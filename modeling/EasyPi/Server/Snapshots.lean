/-
# Server snapshots

`ServerSnapshotPublisher` (`packages/server/src/snapshots.ts`), the handshake of
`PiServer` that hands out the first snapshot (`packages/server/src/server.ts`), and
what `ClientState` keeps of the snapshots it receives (`packages/client/src/state.ts`).
A step is what runs between two awaits, and each step has its moment. Of a snapshot
the model keeps its revision and the moment `get` called `listSessions`: the list is
read over several awaits, and holds no update for certain that came later. Messages
arrive in the order they are sent, so a connection is also what its client has received.
-/
import EasyPi.Lib.Runs

namespace EasyPi.Server

/-- `ServerSnapshot`: its revision and the moment from which its session list is read. -/
structure Snapshot where
  revision : ℕ
  readAt : ℕ
  deriving DecidableEq

/-- `stage` of a connection. A connection that is disconnected is `closed`. -/
inductive Stage where
  | awaitingHello
  | handshaking
  | ready
  | closed
  deriving DecidableEq

/-- Where `finishHandshake` of a connection waits: for a session list; for the models; or for a
message to be sent. -/
inductive Handshake where
  | idle
  | listing (snapshot : Snapshot)
  | listed (snapshot : Snapshot)
  | sendingHello (snapshot : Snapshot)
  | relisting (snapshot : Snapshot)
  | relisted (snapshot : Snapshot)
  deriving DecidableEq

/-- `ConnectionState`, with the snapshots sent on the connection. -/
structure Connection where
  stage : Stage := .awaitingHello
  handshake : Handshake := .idle
  received : List Snapshot := []
  deriving DecidableEq

/-- `sendMessage` of a snapshot: nothing is sent to a connection that is gone. -/
def Connection.receive (connection : Connection) (snapshot : Snapshot) : Connection :=
  if connection.stage = .closed then connection
  else { connection with received := connection.received ++ [snapshot] }

/-- `performBroadcast` after it has taken its revision: the connections still to be served, the
snapshot once `get` is called, and whether its session list is read. -/
structure Broadcast where
  calledAt : ℕ
  revision : ℕ
  readyConnections : List ℕ
  snapshot : Option Snapshot := none
  listed : Bool := false
  deriving DecidableEq

/-- The publisher and the connections. `queue` holds the moments of the broadcasts that wait in
`broadcastQueue`, `calls` those of all calls of `broadcast`. -/
structure Publisher where
  now : ℕ := 0
  revision : ℕ := 0
  queue : List ℕ := []
  broadcast : Option Broadcast := none
  connections : List Connection := []
  calls : List ℕ := []
  deriving DecidableEq

/-- `applyServerSnapshot` of the client. -/
def applyServerSnapshot (held : Option Snapshot) (snapshot : Snapshot) : Option Snapshot :=
  match held with
  | none => some snapshot
  | some current => if snapshot.revision < current.revision then some current else some snapshot

/-- The snapshot a client holds after those it has received. -/
def heldSnapshot (received : List Snapshot) : Option Snapshot := received.foldl applyServerSnapshot none

/-- The snapshots a client accepts of those it receives. -/
def acceptedSnapshots : Option Snapshot → List Snapshot → List Snapshot
  | _, [] => []
  | held, snapshot :: received =>
    if held.any (snapshot.revision < ·.revision) then acceptedSnapshots held received
    else snapshot :: acceptedSnapshots (some snapshot) received

namespace Publisher

variable (s : Publisher)

def update (c : ℕ) (f : Connection → Connection) : Publisher :=
  { s with connections := s.connections.modify c f }

/-- The ready connections, as `performBroadcast` samples them. -/
def readyConnections : List ℕ :=
  (List.range s.connections.length).filter fun c =>
    s.connections[c]?.any fun connection => connection.stage = .ready

/-- A client says hello: `finishHandshake` calls `get`, which takes the revision and calls
`listSessions`. -/
def hello (c : ℕ) : Publisher :=
  s.update c fun connection =>
    if connection.stage = .awaitingHello then
      { connection with stage := .handshaking, handshake := .listing ⟨s.revision, s.now⟩ }
    else connection

/-- The session list of a connection's snapshot is read. -/
def listed (s : Publisher) (c : ℕ) : Publisher :=
  s.update c fun connection =>
    match connection.handshake with
    | .listing snapshot => { connection with handshake := .listed snapshot }
    | .relisting snapshot => { connection with handshake := .relisted snapshot }
    | _ => connection

/-- The snapshot of a connection is complete and is sent, in the hello or as an event. -/
def send (c : ℕ) : Publisher :=
  s.update c fun connection =>
    match connection.handshake with
    | .listed snapshot =>
      if connection.stage = .handshaking then
        { connection with
          handshake := .sendingHello snapshot
          received := connection.received ++ [snapshot] }
      else { connection with handshake := .idle }
    | .relisted snapshot => { connection.receive snapshot with handshake := .idle }
    | _ => connection

/-- The hello has been sent. The connection is ready, and if there has been a broadcast since its
snapshot took its revision, it gets another one. -/
def helloSent (c : ℕ) : Publisher :=
  s.update c fun connection =>
    match connection.handshake with
    | .sendingHello snapshot =>
      if connection.stage = .handshaking then
        { connection with
          stage := .ready
          handshake := if snapshot.revision ≠ s.revision then .relisting ⟨s.revision, s.now⟩ else .idle }
      else { connection with handshake := .idle }
    | _ => connection

def disconnect (c : ℕ) : Publisher := s.update c fun connection => { connection with stage := .closed }

/-- `broadcast`. -/
def callBroadcast : Publisher := { s with queue := s.queue ++ [s.now], calls := s.calls ++ [s.now] }

/-- The next `performBroadcast` of the queue begins. -/
def performBroadcast : Publisher :=
  match s.broadcast, s.queue with
  | none, calledAt :: queue =>
    if s.readyConnections = [] then { s with queue }
    else
      { s with
        queue
        revision := s.revision + 1
        broadcast := some { calledAt, revision := s.revision + 1, readyConnections := s.readyConnections } }
  | _, _ => s

/-- The models of the broadcast are read, and `get` calls `listSessions`. -/
def broadcastModels : Publisher :=
  match s.broadcast with
  | some broadcast =>
    if broadcast.snapshot.isNone then
      { s with broadcast := some { broadcast with snapshot := some ⟨broadcast.revision, s.now⟩ } }
    else s
  | none => s

/-- The session list of the broadcast is read. -/
def broadcastListed : Publisher :=
  { s with broadcast := s.broadcast.map fun broadcast => { broadcast with listed := broadcast.snapshot.isSome } }

/-- The broadcast sends its snapshot to the next connection, or is over. -/
def broadcastSend : Publisher :=
  match s.broadcast with
  | some ⟨calledAt, revision, c :: readyConnections, some snapshot, true⟩ =>
    { s.update c (·.receive snapshot) with
      broadcast := some ⟨calledAt, revision, readyConnections, some snapshot, true⟩ }
  | some ⟨_, _, [], some _, true⟩ => { s with broadcast := none }
  | _ => s

/-- A list the broadcast waits for cannot be read: it is given up. -/
def broadcastFailed : Publisher :=
  if s.broadcast.any (!·.listed) then { s with broadcast := none } else s

end Publisher

inductive PublisherStep where
  | connect
  | hello (c : ℕ)
  | listed (c : ℕ)
  | send (c : ℕ)
  | helloSent (c : ℕ)
  | disconnect (c : ℕ)
  | callBroadcast
  | performBroadcast
  | broadcastModels
  | broadcastListed
  | broadcastSend
  | broadcastFailed
  deriving DecidableEq

def Publisher.step (s : Publisher) (step : PublisherStep) : Publisher :=
  let s := { s with now := s.now + 1 }
  match step with
  | .connect => { s with connections := s.connections ++ [({} : Connection)] }
  | .hello c => s.hello c
  | .listed c => s.listed c
  | .send c => s.send c
  | .helloSent c => s.helloSent c
  | .disconnect c => s.disconnect c
  | .callBroadcast => s.callBroadcast
  | .performBroadcast => s.performBroadcast
  | .broadcastModels => s.broadcastModels
  | .broadcastListed => s.broadcastListed
  | .broadcastSend => s.broadcastSend
  | .broadcastFailed => s.broadcastFailed

/-- No step is pending: no broadcast waits or runs, and no handshake is under way. -/
def Publisher.Quiet (s : Publisher) : Prop :=
  s.queue = [] ∧ s.broadcast = none ∧ ∀ connection ∈ s.connections, connection.handshake = .idle

end EasyPi.Server
