/-
# Session leases

The leases of `PiClient` (`packages/client/src/client.ts`). A step is a call of the
interface, a message of the server, a change of the connection, or the continuation of a
flow after one of its awaits. Promises are those of the requests, and are numbered; a
promise made from another by `then` settles with it. A lease is numbered by its token.
What the client reads of a session snapshot is whether the session is attached, and a
snapshot that is too old is one that says nothing. A request that cannot be encoded is
one that is rejected.
-/
import Mathlib.Logic.Function.Basic
import EasyPi.Lib.Runs

namespace EasyPi.Client

/-- `SessionLeaseMode`. -/
inductive LeaseMode where
  | shared
  | exclusive
  deriving DecidableEq

/-- `SessionLeaseState`. -/
inductive LeaseState where
  | active
  | releasing
  | released
  | invalidated
  deriving DecidableEq

/-- The token is reserved; what `acquireSession` waits for; that it has failed; or the state of the
handle. -/
inductive LeasePhase where
  | reserved
  | awaitingDetachment (n : ℕ)
  | reconciling (n : ℕ)
  | attaching (n : ℕ)
  | failed
  | handle (state : LeaseState)
  deriving DecidableEq

/-- A token, with the generation of its session when it was reserved, and its handle, whose
generation is that of its creation. `releasing` is the `detach` that `release` waits for, and
`relinquishOnFailure`. -/
structure Lease where
  sessionId : String
  mode : LeaseMode
  generation : ℕ
  phase : LeasePhase
  releasing : Option (ℕ × Bool) := none
  deriving DecidableEq

inductive RequestStatus where
  | pending
  | resolved
  | rejected
  deriving DecidableEq

/-- The fields of `PiClient`, the leases, the calls of `createSession` that wait for their
response, and the tokens of the handles that have sent a command. -/
structure PiClient where
  connected : Bool := false
  disposed : Bool := false
  attached : String → Bool := fun _ => false
  counts : String → ℕ := fun _ => 0
  exclusive : String → Option ℕ := fun _ => none
  generations : String → ℕ := fun _ => 0
  attachments : String → Option ℕ := fun _ => none
  detachments : String → Option ℕ := fun _ => none
  reconciliations : String → Option ℕ := fun _ => none
  cleanupRequired : String → Bool := fun _ => false
  requests : List RequestStatus := []
  creations : List ℕ := []
  leases : List Lease := []
  sent : List ℕ := []

namespace PiClient

variable (s : PiClient)

/-- `#request`: its promise has the next number. -/
def request : PiClient :=
  { s with requests := s.requests ++ [if s.disposed || !s.connected then .rejected else .pending] }

def nextRequest : ℕ := s.requests.length

def setLease (t : ℕ) (lease : Lease) : PiClient := { s with leases := s.leases.set t lease }

/-- `#reserveSessionLease`, if it does not throw. The token is the next one. -/
def reserveSessionLease (id : String) (mode : LeaseMode) (phase : LeasePhase) : Option PiClient :=
  if (mode = .exclusive && 0 < s.counts id) || (mode = .shared && (s.exclusive id).isSome) then none
  else
    some { s with
      counts := Function.update s.counts id (s.counts id + 1)
      exclusive := if mode = .exclusive then
          Function.update s.exclusive id (some s.leases.length)
        else s.exclusive
      leases := s.leases ++ [{ sessionId := id, mode, generation := s.generations id, phase }] }

/-- `#releaseSessionLease`. -/
def releaseSessionLease (id : String) (t : ℕ) : PiClient :=
  { s with
    counts := Function.update s.counts id (s.counts id - 1)
    exclusive := if s.exclusive id = some t then Function.update s.exclusive id none
      else s.exclusive }

/-- `#invalidateSessionLeases`. -/
def invalidateSessionLeases (id : String) : PiClient :=
  { s with
    counts := Function.update s.counts id 0
    exclusive := Function.update s.exclusive id none
    cleanupRequired := Function.update s.cleanupRequired id false
    generations := Function.update s.generations id (s.generations id + 1) }

/-- `#invalidateAllSessionLeases`: the sessions that have a count. -/
def invalidateAllSessionLeases : PiClient :=
  { s with
    counts := fun _ => 0
    exclusive := fun id => if 0 < s.counts id then none else s.exclusive id
    cleanupRequired := fun _ => false
    generations := fun id => if 0 < s.counts id then s.generations id + 1 else s.generations id }

/-! ### Acquisition -/

/-- `#createSessionLease`. -/
def createSessionLease (t : ℕ) (lease : Lease) : PiClient :=
  s.setLease t { lease with generation := s.generations lease.sessionId, phase := .handle .active }

/-- `acquireSession` fails. -/
def failAcquisition (t : ℕ) (lease : Lease) : PiClient :=
  (s.releaseSessionLease lease.sessionId t).setLease t { lease with phase := .failed }

/-- `acquireSession` from the check of the attachment on. -/
def attachIfNeeded (t : ℕ) (lease : Lease) (reconciled : Bool) : PiClient :=
  if reconciled || !s.attached lease.sessionId then
    match s.attachments lease.sessionId with
    | some n => s.setLease t { lease with phase := .attaching n }
    | none =>
      let n := s.nextRequest
      { s.request.setLease t { lease with phase := .attaching n } with
        attachments := Function.update s.attachments lease.sessionId (some n) }
  else s.createSessionLease t lease

/-- `acquireSession` after the detachment, with the start of `#reconcileSessionCleanup`. -/
def afterDetachment (t : ℕ) (lease : Lease) : PiClient :=
  if s.cleanupRequired lease.sessionId then
    match s.reconciliations lease.sessionId with
    | some n => s.setLease t { lease with phase := .reconciling n }
    | none =>
      let n := s.nextRequest
      { s.request.setLease t { lease with phase := .reconciling n } with
        reconciliations := Function.update s.reconciliations lease.sessionId (some n) }
  else s.attachIfNeeded t lease false

/-- `acquireSession` up to its first await. -/
def acquireSession (id : String) (mode : LeaseMode) : PiClient :=
  if s.disposed then s
  else
    let t := s.leases.length
    match s.reserveSessionLease id mode .reserved with
    | none => s
    | some s' =>
      let lease : Lease := { sessionId := id, mode, generation := s.generations id, phase := .reserved }
      match s'.detachments id with
      | some n => s'.setLease t { lease with phase := .awaitingDetachment n }
      | none => s'.afterDetachment t lease

/-- `acquireSession` goes on, if what it waits for is settled. -/
def resumeAcquisition (t : ℕ) : PiClient :=
  match s.leases[t]? with
  | none => s
  | some lease =>
    match lease.phase with
    | .awaitingDetachment n =>
      if s.requests[n]? = some .pending then s else s.afterDetachment t lease
    | .reconciling n =>
      if s.reconciliations lease.sessionId = some n then s
      else if s.requests[n]? = some .resolved then s.attachIfNeeded t lease true
      else s.failAcquisition t lease
    | .attaching n =>
      if s.requests[n]? = some .pending then s
      else
        let s := { s with
          attachments := if s.attachments lease.sessionId = some n then
              Function.update s.attachments lease.sessionId none
            else s.attachments }
        if s.requests[n]? = some .resolved then s.createSessionLease t lease
        else s.failAcquisition t lease
    | _ => s

/-- The reconciliation of a session is settled: its callbacks run. -/
def reconciled (id : String) : PiClient :=
  match s.reconciliations id with
  | none => s
  | some n =>
    if s.requests[n]? = some .pending then s
    else
      { s with
        cleanupRequired := if s.requests[n]? = some .resolved then
            Function.update s.cleanupRequired id false
          else s.cleanupRequired
        reconciliations := Function.update s.reconciliations id none }

/-- `createSession` goes on with the session of its response. -/
def created (n : ℕ) (id : String) : PiClient :=
  if n ∈ s.creations && s.requests[n]? ≠ some .pending then
    let s := { s with creations := s.creations.filter (· ≠ n) }
    if s.requests[n]? = some .resolved then
      (s.reserveSessionLease id .exclusive (.handle .active)).getD s
    else s
  else s

/-! ### Handles -/

def refreshState (lease : Lease) : Lease :=
  if (lease.phase = .handle .active || lease.phase = .handle .releasing) &&
      s.generations lease.sessionId ≠ lease.generation then
    { lease with phase := .handle .invalidated }
  else lease

/-- `assertActive` after `refreshState` passes. -/
def isActive (lease : Lease) : Bool :=
  !s.disposed && s.connected && lease.phase = .handle .active && s.attached lease.sessionId

/-- `request` of a handle. -/
def handleRequest (t : ℕ) : PiClient :=
  match s.leases[t]? with
  | none => s
  | some lease =>
    let lease := s.refreshState lease
    let s := s.setLease t lease
    if s.isActive lease then { s.request with sent := t :: s.sent } else s

/-- `release`, up to its await. -/
def release (t : ℕ) (relinquishOnFailure : Bool) : PiClient :=
  match s.leases[t]? with
  | none => s
  | some lease =>
    let lease := s.refreshState lease
    let s := s.setLease t lease
    if s.isActive lease then
      if s.counts lease.sessionId ≤ 1 then
        let n := s.nextRequest
        { s.request.setLease t { lease with
            phase := .handle .releasing
            releasing := some (n, relinquishOnFailure) } with
          detachments := Function.update s.detachments lease.sessionId (some n)
          sent := t :: s.sent }
      else
        (s.releaseSessionLease lease.sessionId t).setLease t
          { lease with phase := .handle .released }
    else s

/-- The `detach` of `release` is settled. -/
def releaseReturned (t : ℕ) : PiClient :=
  match s.leases[t]? with
  | none => s
  | some lease =>
    match lease.releasing with
    | none => s
    | some (n, relinquishOnFailure) =>
      if s.requests[n]? = some .pending then s
      else
        let s := { s with
          detachments := if s.detachments lease.sessionId = some n then
              Function.update s.detachments lease.sessionId none
            else s.detachments }
        if s.requests[n]? = some .resolved then
          (s.releaseSessionLease lease.sessionId t).setLease t
            { lease with phase := .handle .released, releasing := none }
        else
          let lease : Lease := { s.refreshState lease with releasing := none }
          if lease.phase = .handle .invalidated then s.setLease t lease
          else if relinquishOnFailure then
            { (s.releaseSessionLease lease.sessionId t).setLease t
                { lease with phase := .handle .released } with
              cleanupRequired := Function.update s.cleanupRequired lease.sessionId true }
          else s.setLease t { lease with phase := .handle .active }

/-! ### Connection and messages -/

/-- `#rejectPendingRequests`. -/
def rejectPendingRequests : PiClient :=
  { s with requests := s.requests.map fun status => if status = .pending then .rejected else status }

def disconnect : PiClient :=
  { s with connected := false, attached := fun _ => false }.invalidateAllSessionLeases.rejectPendingRequests

def dispose : PiClient :=
  if s.disposed then s
  else { s with disposed := true }.rejectPendingRequests.disconnect.invalidateAllSessionLeases

def applySessionSnapshot (snapshot : Option (String × Bool)) : PiClient :=
  match snapshot with
  | none => s
  | some (id, attached) => { s with attached := Function.update s.attached id attached }

def response (n : ℕ) (ok : Bool) (snapshot : Option (String × Bool)) : PiClient :=
  if s.requests[n]? = some .pending then
    if ok then
      { s.applySessionSnapshot snapshot with requests := s.requests.set n .resolved }
    else { s with requests := s.requests.set n .rejected }
  else s

end PiClient

inductive ClientStep where
  | connect
  | disconnect
  | dispose
  | createSession
  | created (n : ℕ) (id : String)
  | acquireSession (id : String) (mode : LeaseMode)
  | resumeAcquisition (t : ℕ)
  | reconciled (id : String)
  | handleRequest (t : ℕ)
  | release (t : ℕ) (relinquishOnFailure : Bool)
  | releaseReturned (t : ℕ)
  | response (n : ℕ) (ok : Bool) (snapshot : Option (String × Bool))
  | sessionSnapshot (id : String) (attached : Bool)
  | sessionRemoved (id : String)
  deriving DecidableEq

def PiClient.step (s : PiClient) : ClientStep → PiClient
  | .connect => if s.disposed || s.connected then s
    else { s with connected := true, attached := fun _ => false }
  | .disconnect => s.disconnect
  | .dispose => s.dispose
  | .createSession => { s.request with creations := s.nextRequest :: s.creations }
  | .created n id => s.created n id
  | .acquireSession id mode => s.acquireSession id mode
  | .resumeAcquisition t => s.resumeAcquisition t
  | .reconciled id => s.reconciled id
  | .handleRequest t => s.handleRequest t
  | .release t relinquishOnFailure => s.release t relinquishOnFailure
  | .releaseReturned t => s.releaseReturned t
  | .response n ok snapshot => s.response n ok snapshot
  | .sessionSnapshot id attached => s.applySessionSnapshot (some (id, attached))
  | .sessionRemoved id =>
    { s.invalidateSessionLeases id with attached := Function.update s.attached id false }

end EasyPi.Client
