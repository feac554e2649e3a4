/-
# The run ledger

`RunLedger` of `packages/subagent/src/ledger.ts`. The rows of `dag_runs`,
`dag_tasks`, `dag_dependencies` and `dag_attempts` are nested along their
foreign keys: a run has its tasks in task order and its dependency rows, a task
has its attempts. `task_id`, `role` and `max_attempts` are copies of fields of
the contract that nothing updates, so they are read from it. The event table is
kept with what is read back from it, the type and the reason of an event.

Every operation is one transaction: it fails and changes nothing, or returns a
value and the next ledger. An `UPDATE` that has to change one row fails when it
would not. `now` is the clock reading of the call, and `freshIds` gives the
random identifiers it draws.
-/
import Mathlib.Algebra.GroupWithZero.Nat
import EasyPi.Lib.Except
import EasyPi.Subagent.Quality

namespace EasyPi.Subagent

/-! ### Rows -/

/-- `DagAttemptRow`. -/
structure Attempt where
  attemptId : String
  attemptNumber : ℕ
  ownerId : String
  status : AttemptStatus := .running
  leaseExpiresAt : ℤ
  checkpoint : Option JsonValue := none
  terminalReason : Option TerminalReason := none
  error : Option String := none
  usage : Usage := 0
  turns : ℕ := 0
  deriving DecidableEq

/-- `DagTaskRow`, with its attempts in the order of their numbers. -/
structure Task where
  taskOrder : ℕ
  contract : Contract
  status : TaskStatus := .pending
  attemptCount : ℕ := 0
  currentAttemptId : Option String := none
  ownerId : Option String := none
  leaseExpiresAt : Option ℤ := none
  checkpoint : Option JsonValue := none
  terminalReason : Option TerminalReason := none
  error : Option String := none
  artifact : Option TaskArtifact := none
  usage : Usage := 0
  turns : ℕ := 0
  retryNotBefore : Option ℤ := none
  attempts : List Attempt := []
  deriving DecidableEq

namespace Task

def taskId (t : Task) : String := t.contract.id

def role (t : Task) : Role := t.contract.role

def maxAttempts (t : Task) : ℤ := t.contract.maxAttempts

/-- The last checkpoint lets a controller go on with the attempt. -/
def resumable (t : Task) : Bool := Checkpoint.isControllerResumable t.checkpoint t.role

end Task

/-- A row of `dag_events`. -/
structure Event where
  type : String
  taskId : Option String := none
  reason : Option String := none
  deriving DecidableEq, Repr

/-- `DagRunRow` with its tasks, dependency rows and events. -/
structure Run where
  runId : String
  request : Request
  status : RunStatus := .created
  usage : Usage := 0
  turns : ℕ := 0
  ownerId : Option String := none
  ownerEpoch : ℕ := 0
  runLeaseExpiresAt : Option ℤ := none
  integration : Option IntegrationArtifact := none
  integrationFailure : Option IntegrationFailure := none
  pausedAt : Option ℤ := none
  pausedDurationMs : ℤ := 0
  graphVersion : ℕ := 1
  graphSealed : Bool
  tasks : List Task
  dependencies : List (String × String)
  events : List Event := []
  deriving DecidableEq

structure Ledger where
  runs : OrdMap String Run := ∅
  deriving DecidableEq

abbrev LedgerM (α : Type) := Ledger → Except String (α × Ledger)

/-- What a transaction does to the rows of one run. -/
abbrev RunM (α : Type) := Run → Except String (α × Run)

def require (condition : Prop) [Decidable condition] (message : String) : Except String Unit :=
  if condition then .ok () else .error message

/-- What a message says of the first task with `p`. -/
def Run.firstTask (run : Run) (p : Task → Bool) (describe : Task → String) : String :=
  (run.tasks.find? p).elim "" describe

def transaction {α : Type} (runId : String) (operation : RunM α) : LedgerM α := fun ledger =>
  match ledger.runs.get? runId with
  | none => .error ("Unknown DAG run: " ++ runId)
  | some run => do
    let (a, run) ← operation run
    return (a, { ledger with runs := ledger.runs.set runId run })

namespace Run

def attempts (run : Run) : List Attempt := run.tasks.flatMap (·.attempts)

/-- `insertDagEvent`. -/
def event (run : Run) (event : Event) : Run := { run with events := run.events ++ [event] }

end Run

/-! ### Leases -/

variable (run : Run)

def assertDagRunMutationLease (now : ℤ) (lease : Option DagRunLease)
    (terminal : Bool := false) : Except String Unit :=
  if terminal ∧ lease = none then
    .error ("DAG run lease is required for terminal transition: " ++ run.runId)
  else
    match run.ownerId with
    | none =>
      match lease with
      | none => .ok ()
      | some _ => .error ("Stale DAG run lease: " ++ run.runId)
    | some ownerId =>
      match lease, run.runLeaseExpiresAt with
      | some lease, some leaseExpiresAt =>
        if lease.ownerId ≠ ownerId ∨ lease.epoch ≠ run.ownerEpoch ∨
            lease.leaseExpiresAt ≠ leaseExpiresAt ∨ leaseExpiresAt ≤ now then
          .error ("Stale DAG run lease: " ++ run.runId)
        else .ok ()
      | _, _ => .error ("Stale DAG run lease: " ++ run.runId)

/-- The expiry of a lease taken now, when the timestamps are valid. -/
def leaseExpiry (now leaseDurationMs : ℤ) : Except String ℤ := do
  require (isSafeInteger now) "now must be a safe integer timestamp"
  require (isSafeInteger leaseDurationMs ∧ 1 ≤ leaseDurationMs)
    "leaseDurationMs must be a positive safe integer"
  require (isSafeInteger (now + leaseDurationMs)) "lease expiry exceeds the safe integer range"
  return now + leaseDurationMs

/-- A lease that has not expired. -/
def Run.liveLease (now : ℤ) : Prop :=
  run.ownerId ≠ none ∧ ∃ leaseExpiresAt ∈ run.runLeaseExpiresAt, now < leaseExpiresAt

instance (run : Run) (now : ℤ) : Decidable (run.liveLease now) := inferInstanceAs (Decidable (_ ∧ _))

def Run.unfinished : Prop := run.status = .created ∨ run.status = .running

instance (run : Run) : Decidable run.unfinished := inferInstanceAs (Decidable (_ ∨ _))

def acquireDagRunLease (runId ownerId : String) (now leaseDurationMs : ℤ) :
    LedgerM (Option DagRunLease) := fun ledger => do
  require (ownerId ≠ "") "ownerId is required"
  let leaseExpiresAt ← leaseExpiry now leaseDurationMs
  transaction runId (fun run =>
    if ¬ run.unfinished ∨ run.liveLease now then .ok (none, run)
    else do
      let epoch := run.ownerEpoch + 1
      require (isSafeInteger epoch) "DAG run lease epoch exceeds the safe integer range"
      return (some ⟨ownerId, epoch, leaseExpiresAt⟩, { run with
        ownerId := some ownerId
        ownerEpoch := epoch
        runLeaseExpiresAt := some leaseExpiresAt }.event { type := "run.lease.acquired" })) ledger

def Run.holds (lease : DagRunLease) : Prop :=
  run.ownerId = some lease.ownerId ∧ run.ownerEpoch = lease.epoch ∧ run.runLeaseExpiresAt = some lease.leaseExpiresAt

instance (run : Run) (lease : DagRunLease) : Decidable (run.holds lease) := inferInstanceAs (Decidable (_ ∧ _ ∧ _))

def heartbeatDagRunLease (runId : String) (lease : DagRunLease) (now leaseDurationMs : ℤ) :
    LedgerM (Option DagRunLease) := fun ledger => do
  let leaseExpiresAt ← leaseExpiry now leaseDurationMs
  match ledger.runs.get? runId with
  | none => .ok (none, ledger)
  | some _ => transaction runId (fun run =>
    if run.holds lease ∧ now < lease.leaseExpiresAt ∧ run.unfinished then
      .ok (some { lease with leaseExpiresAt }, { run with
        runLeaseExpiresAt := some leaseExpiresAt }.event { type := "run.lease.heartbeat" })
    else .ok (none, run)) ledger

def releaseDagRunLease (runId : String) (lease : DagRunLease) (now : ℤ) : LedgerM Bool :=
  fun ledger => do
  require (isSafeInteger now) "now must be a safe integer timestamp"
  match ledger.runs.get? runId with
  | none => .ok (false, ledger)
  | some _ => transaction runId (fun run =>
    if run.holds lease ∧ run.unfinished then
      .ok (true, { run with ownerId := none, runLeaseExpiresAt := none }.event
        { type := "run.lease.released" })
    else .ok (false, run)) ledger

/-- An `UPDATE` of one attempt of a task. -/
def Task.updateAttempt (t : Task) (which : Attempt → Bool) (change : Attempt → Attempt)
    (message : String) : Except String Task :=
  if (t.attempts.filter which).length = 1 then
    .ok { t with attempts := t.attempts.map fun a => if which a then change a else a }
  else .error message

/-- The attempt `attemptId` of `ownerId`, while it runs. -/
def isActive (attemptId ownerId : String) (a : Attempt) : Bool :=
  a.attemptId = attemptId && a.ownerId = ownerId && a.status = .running

/-- The task runs the attempt, and its lease has not expired. -/
def Task.holdsAttempt (t : Task) (attemptId ownerId : String) (now : ℤ) : Prop :=
  t.status = .running ∧ t.currentAttemptId = some attemptId ∧ t.ownerId = some ownerId ∧
    ∃ leaseExpiresAt ∈ t.leaseExpiresAt, now < leaseExpiresAt

instance (t : Task) (attemptId ownerId : String) (now : ℤ) : Decidable (t.holdsAttempt attemptId ownerId now) :=
  inferInstanceAs (Decidable (_ ∧ _ ∧ _ ∧ _))

/-- An `UPDATE` of the task `taskId`. -/
def Run.updateTask (taskId : String) (change : Task → Except String Task)
    (message : String) : Except String Run :=
  if ∃ t ∈ run.tasks, t.taskId = taskId then do
    let tasks ← run.tasks.mapM fun t => if t.taskId = taskId then change t else .ok t
    return { run with tasks }
  else .error message

def staleAttempt (runId taskId attemptId : String) : String :=
  "Stale DAG attempt: " ++ runId ++ "/" ++ taskId ++ "/" ++ attemptId

/-- `reconcileDagRunAccountingInTransaction`. -/
def reconcile : Except String Run := do
  let usage := (run.attempts.map (·.usage)).sum
  let turns : ℕ := (run.attempts.map (·.turns)).sum
  require (isSafeInteger turns) ("DAG run turns exceed the safe integer range: " ++ run.runId)
  if usage ≠ run.usage ∨ turns ≠ run.turns then
    return { run with usage, turns }.event { type := "run.usage" }
  else return run

def Task.negative (t : Task) : Bool :=
  t.status = .failed || t.status = .cancelled || t.status = .blocked ||
    t.status = .succeeded && t.artifact.any fun artifact =>
      artifact.quality.semanticOutcome = .rejected || artifact.quality.semanticOutcome = .inconclusive

/-- A pending task with a negative prerequisite. -/
def Run.blockable (t : Task) : Bool :=
  t.status = .pending && run.dependencies.any fun dependency => dependency.1 = t.taskId &&
    run.tasks.any fun prerequisite => prerequisite.taskId = dependency.2 && prerequisite.negative

def Task.blocked (t : Task) : Task :=
  { t with
    status := .blocked
    terminalReason := some .dependencyFailed
    error := some "A task dependency did not succeed" }

/-- One turn of the loop of `blockDagDescendants`. -/
def Run.blockRound : Run :=
  { run with
    tasks := run.tasks.map fun t => if run.blockable t then t.blocked else t
    events := run.events ++ (run.tasks.filter run.blockable).map fun t =>
      { type := "task.blocked", taskId := some t.taskId } }

/-- The loop of `blockDagDescendants`, if it ends within the given number of turns. -/
def blockLoop : ℕ → Run → Option Run
  | 0, _ => none
  | fuel + 1, run => if run.tasks.any run.blockable then blockLoop fuel run.blockRound else some run

/-- `blockDagDescendants`. Each turn but the last blocks a task. -/
def blockDagDescendants : Run := (blockLoop (run.tasks.length + 1) run).getD run

/-! ### Pausing -/

def pauseTask (runId : String) (t : Task) : Except String Task :=
  if t.status = .running then
    match t.currentAttemptId, t.ownerId with
    | some attemptId, some ownerId => do
      let t ← t.updateAttempt (isActive attemptId ownerId) (fun a => { a with
          status := .expired
          terminalReason := some .interrupted
          error := some "Attempt interrupted by DAG pause" })
        ("Concurrent DAG attempt pause detected: " ++ runId ++ "/" ++ t.taskId)
      return { t with
        status := .pending, currentAttemptId := none, ownerId := none, leaseExpiresAt := none
        terminalReason := none, error := none }
    | _, _ => .error ("Running DAG task has no active attempt: " ++ runId ++ "/" ++ t.taskId)
  else .ok t

def markDagRunPaused (runId : String) (now : ℤ) : LedgerM Bool := fun ledger => do
  require (isSafeInteger now) "now must be a safe integer timestamp"
  transaction runId (fun run =>
    if ¬ run.unfinished then .ok (false, run)
    else if run.pausedAt ≠ none then .ok (true, run)
    else do
      require (¬ run.liveLease now) ("DAG run has a live controller lease: " ++ run.runId)
      require (∀ t ∈ run.tasks, t.status = .running → t.resumable)
        ("DAG run cannot pause with non-resumable task: " ++ run.runId ++ "/" ++
          run.firstTask (fun t => t.status = .running ∧ ¬ t.resumable) (·.taskId))
      let tasks ← run.tasks.mapM (pauseTask run.runId)
      let requeued := (run.tasks.filter (·.status = .running)).map fun t =>
        ({ type := "task.requeued", taskId := some t.taskId, reason := some "paused" } : Event)
      return (true, { run with
        tasks
        events := run.events ++ requeued
        pausedAt := some now
        ownerId := none
        runLeaseExpiresAt := none }.event { type := "run.paused" })) ledger

def clearDagRunPause (runId : String) (now : ℤ) (lease : DagRunLease) : LedgerM Bool :=
  fun ledger => do
  require (isSafeInteger now) "now must be a safe integer timestamp"
  transaction runId (fun run => do
    assertDagRunMutationLease run now (some lease)
    match run.pausedAt with
    | none => .ok (false, run)
    | some pausedAt =>
      let total := run.pausedDurationMs + max 0 (now - pausedAt)
      require (isSafeInteger total) "Paused duration exceeds the safe integer range"
      return (true, { run with pausedAt := none, pausedDurationMs := total }.event
        { type := "run.resumed" })) ledger

/-! ### Graphs -/

variable (request : Request)

def decodeCompiledDagRequest : Except String Request := do
  require (request.version = 2 ∧ request.handoffProtocolVersion = 2)
    "Persisted Subagent DAG request uses an unsupported protocol version"
  return request

/-- The loop of `stableTopologicalTaskIds`: one task a turn, as many turns as there are tasks. -/
def topologicalLoop (tasks : List Contract) : ℕ → List String → Except String (List String)
  | 0, ordered => .ok ordered
  | fuel + 1, ordered =>
    match tasks.find? fun task => task.id ∉ ordered ∧ ∀ dependency ∈ task.dependsOn, dependency ∈ ordered with
    | none => .error "Persisted DAG request is cyclic or has an unknown dependency"
    | some next => topologicalLoop tasks fuel (ordered ++ [next.id])

def stableTopologicalTaskIds : Except String (List String) :=
  topologicalLoop request.tasks request.tasks.length []

/-- `visit` of `createDagRun`, with the tasks visited in the order they were finished. The
tasks being visited are distinct, so it is not nested deeper than there are tasks. -/
def visit (tasks : List Contract) :
    ℕ → List String → List String → String → Except String (List String)
  | 0, _, _, taskId => .error ("DAG task dependency cycle includes " ++ taskId)
  | fuel + 1, visiting, visited, taskId =>
    if taskId ∈ visited then .ok visited
    else if taskId ∈ visiting then .error ("DAG task dependency cycle includes " ++ taskId)
    else do
      let dependencies := ((tasks.find? (·.id = taskId)).map (·.dependsOn)).getD []
      let visited ← dependencies.foldlM (visit tasks fuel (taskId :: visiting)) visited
      return visited ++ [taskId]

/-- The rows of new tasks, from a task order on. -/
def newTasks (taskOrder : ℕ) (contracts : List Contract) : List Task :=
  contracts.mapIdx fun offset contract => { taskOrder := taskOrder + offset, contract }

def dependencyRows (contracts : List Contract) : List (String × String) :=
  contracts.flatMap fun task => task.dependsOn.map fun dependency => (task.id, dependency)

def createdEvents (contracts : List Contract) : List Event :=
  contracts.map fun task => { type := "task.created", taskId := some task.id }

/-- The checks of `createDagRun` on a request. -/
def validateRequest : Except String Unit := do
  require (request.version = 2) "DAG request version must be 2"
  require (request.tasks.map (·.id)).Nodup "DAG task ids must be unique"
  require (request.tasks ≠ []) "DAG run requires at least one task"
  request.tasks.forM fun task => do
    require (isSafeInteger task.maxAttempts ∧ 1 ≤ task.maxAttempts)
      ("Task " ++ task.id ++ " maxAttempts must be a positive safe integer")
    task.dependsOn.forM fun dependency =>
      require (dependency ≠ task.id ∧ dependency ∈ request.tasks.map (·.id))
        ("Task " ++ task.id ++ " has invalid dependency " ++ dependency)
  let _ ← request.tasks.foldlM (fun visited task =>
    visit request.tasks (request.tasks.length + 1) [] visited task.id) []

def createDagRun (runId : String) (request : Request) (usage : Usage) : LedgerM Unit :=
  fun ledger => do
  require (runId ≠ "") "runId is required"
  validateRequest request
  let request ← decodeCompiledDagRequest request
  require (ledger.runs.get? runId = none) "UNIQUE constraint failed: dag_runs.run_id"
  require (dependencyRows request.tasks).Nodup "UNIQUE constraint failed: dag_dependencies"
  let run : Run :=
    { runId, request, usage, graphSealed := request.sealed
      tasks := newTasks 0 request.tasks
      dependencies := dependencyRows request.tasks
      events := { type := "run.created" } :: createdEvents request.tasks }
  return ((), { ledger with runs := ledger.runs.set runId run })

/-- Two owned paths of which one contains the other. -/
def pathsOverlap (path claimed : String) : Bool :=
  path = claimed || (claimed ++ "/").toList.isPrefixOf path.toList ||
    (path ++ "/").toList.isPrefixOf claimed.toList

/-- The ownership check of `expandDagRun`, with the paths claimed so far. -/
def claimOwnership (task : Contract) (ownership : List (String × String)) : Except String (List (String × String)) :=
  if task.role ≠ .writer then .ok ownership
  else task.ownedPaths.foldlM (fun ownership path =>
    match ownership.find? fun claimed => pathsOverlap path claimed.2 with
    | some overlap =>
      .error ("Expanded writer ownership overlaps: " ++ task.id ++ "/" ++ overlap.1)
    | none => .ok (ownership ++ [(task.id, path)])) ownership

/-- The checks of `expandDagRun` on a request, against the persisted one. -/
def validateExpansion (current expanded : Request) : Except String Unit := do
  require (current.tasks.length ≤ expanded.tasks.length) "Expanded DAG cannot remove tasks"
  require (expanded.tasks.take current.tasks.length = current.tasks)
    "Expanded DAG cannot modify persisted tasks"
  require (expanded.version = current.version ∧ expanded.handoffProtocolVersion = current.handoffProtocolVersion ∧
      expanded.mergeEnabled = current.mergeEnabled ∧ expanded.policy = current.policy)
    "Expanded DAG cannot modify run policy"
  let _ ← stableTopologicalTaskIds expanded
  require (expanded.tasks.map (·.id)).Nodup "Expanded DAG task ids must be unique"
  let _ ← expanded.tasks.foldlM (fun ownership task => do
    require (isSafeInteger task.maxAttempts ∧ 1 ≤ task.maxAttempts)
      ("Expanded task " ++ task.id ++ " has invalid maxAttempts")
    claimOwnership task ownership) []

def expandDagRun (runId : String) (expectedGraphVersion : ℕ) (expanded : Request) (now : ℤ)
    (lease : Option DagRunLease) : LedgerM Unit := fun ledger => do
  require (isSafeInteger expectedGraphVersion ∧ 1 ≤ expectedGraphVersion)
    "expectedGraphVersion must be a positive safe integer"
  transaction runId (fun run => do
    assertDagRunMutationLease run now lease
    require run.unfinished ("DAG run is " ++ run.status.text ++ ": " ++ run.runId)
    require (run.pausedAt ≠ none) ("DAG run is not awaiting expansion: " ++ run.runId)
    require (run.integration = none ∧ run.integrationFailure = none)
      ("DAG run already has integration state: " ++ run.runId)
    require (run.graphSealed = false) ("DAG graph is sealed: " ++ run.runId)
    require (run.graphVersion = expectedGraphVersion) ("Stale DAG graph version: expected " ++
      toString expectedGraphVersion ++ ", current " ++ toString run.graphVersion)
    let current ← decodeCompiledDagRequest run.request
    validateExpansion current expanded
    require (∀ t ∈ run.tasks, t.status = .succeeded) ("Cannot expand before task " ++
      run.firstTask (·.status ≠ .succeeded) fun t => t.taskId ++ " is succeeded (" ++ t.status.text ++ ")")
    let added := expanded.tasks.drop current.tasks.length
    require (dependencyRows added).Nodup "UNIQUE constraint failed: dag_dependencies"
    return ((), { run with
      tasks := run.tasks ++ newTasks current.tasks.length added
      dependencies := run.dependencies ++ dependencyRows added
      request := expanded
      graphVersion := run.graphVersion + 1
      graphSealed := expanded.sealed
      events := run.events ++ createdEvents added }.event { type := "run.graph_expanded" })) ledger

/-! ### Run status -/

/-- An open task of a run that ends: its running attempt is added to it. -/
def fenceTask (runId : String) (status : TaskStatus) (reason : TerminalReason) (error : String)
    (t : Task) : Except String Task := do
  let current := if t.status = .running then
    t.attempts.find? fun a => some a.attemptId = t.currentAttemptId else none
  let usage := current.elim t.usage fun a => addUsageValues t.usage a.usage
  let turns := current.elim t.turns fun a => t.turns + a.turns
  require (current = none ∨ isSafeInteger turns)
    ("DAG task turns exceed the safe integer range: " ++ runId ++ "/" ++ t.taskId)
  let t : Task := { t with attempts := t.attempts.map fun a => if a.status = .running then
    { a with status := .failed, terminalReason := some reason, error := some error } else a }
  if t.status = .pending ∨ t.status = .running then
    return { t with
      usage, turns, status, currentAttemptId := none, ownerId := none, leaseExpiresAt := none
      retryNotBefore := none, terminalReason := some reason, error := some error, artifact := none }
  else return t

/-- The checks of `setDagRunStatus` for success. -/
def assertCanSucceed : Except String Unit := do
  require (run.pausedAt = none) ("Paused DAG run cannot succeed: " ++ run.runId)
  require run.graphSealed ("Unsealed DAG run cannot succeed: " ++ run.runId)
  require (run.integrationFailure = none) ("DAG run " ++ run.runId ++ " has an integration failure")
  require (∀ t ∈ run.tasks, t.status = .succeeded)
    ("DAG run cannot succeed while task " ++ run.firstTask (·.status ≠ .succeeded) (·.taskId) ++ " is not succeeded")
  let request ← decodeCompiledDagRequest run.request
  require (request.mergeEnabled = false ∨ run.integration ≠ none)
    ("DAG run " ++ run.runId ++ " requires an integration artifact before succeeding")
  require (∀ integration ∈ run.integration,
      integration.provenance = none ∧ ∃ quality ∈ integration.quality, quality.gatePassed)
    ("DAG run " ++ run.runId ++ " cannot succeed with a Partial Candidate")

/-- The tasks of a run that fails or is cancelled, and its accounting. -/
def fenceRun (status : TaskStatus) (reason : TerminalReason) (error type : String) :
    Except String Run := do
  let fenced := run.tasks.filter fun t => t.status = .pending ∨ t.status = .running
  let tasks ← run.tasks.mapM (fenceTask run.runId status reason error)
  reconcile { run with
    tasks
    events := run.events ++ fenced.map fun t =>
      { type := type, taskId := some t.taskId, reason := some "run_terminal" } }

def invalidTransition (from_ to_ : RunStatus) : String :=
  "Invalid DAG run transition: " ++ from_.text ++ " -> " ++ to_.text

def setDagRunStatus (runId : String) (nextStatus : RunStatus) (now : ℤ)
    (lease : Option DagRunLease) : LedgerM Unit := fun ledger =>
  transaction runId (fun run => do
    if run.status.Terminal then
      require (run.status = nextStatus) (invalidTransition run.status nextStatus)
      return ((), run)
    else
      assertDagRunMutationLease run now lease nextStatus.Terminal
      if run.status = nextStatus then return ((), run)
      else
        require (nextStatus ∈ run.status.transitions) (invalidTransition run.status nextStatus)
        if nextStatus = .succeeded then assertCanSucceed run
        let run ← match nextStatus with
          | .failed => fenceRun run .failed .interrupted "DAG run failed" "task.failed"
          | .cancelled => fenceRun run .cancelled .cancelled "DAG run cancelled" "task.cancelled"
          | _ => .ok run
        let pausedDurationMs := run.pausedAt.elim run.pausedDurationMs fun pausedAt =>
          run.pausedDurationMs + max 0 (now - pausedAt)
        require (isSafeInteger pausedDurationMs) ("Paused duration exceeds the safe integer range: " ++ run.runId)
        let run := if nextStatus.Terminal then
          { run with
            ownerId := none, runLeaseExpiresAt := none, pausedAt := none, pausedDurationMs }
          else run
        return ((), { run with status := nextStatus }.event { type := "run.transition" })) ledger

def setDagRunUsage (runId : String) (usage : Usage) (now : ℤ) (lease : Option DagRunLease)
    (turns : ℕ) : LedgerM Unit := fun ledger => do
  require (isSafeInteger turns) "DAG run turns must be a non-negative safe integer"
  transaction runId (fun run => do
    assertDagRunMutationLease run now lease
    return ((), { run with usage, turns }.event { type := "run.usage" })) ledger

def reconcileDagRunAccounting (runId : String) (now : ℤ) (lease : Option DagRunLease) :
    LedgerM (Usage × ℕ) := fun ledger => do
  require (isSafeInteger now) "now must be a safe integer timestamp"
  transaction runId (fun run => do
    assertDagRunMutationLease run now lease
    let run ← reconcile run
    return ((run.usage, run.turns), run)) ledger

/-! ### Attempts -/

/-- `DagTaskClaim`, without the runtime it continues. -/
structure Claim where
  taskId : String
  attemptId : String
  attemptNumber : ℕ
  ownerId : String
  leaseExpiresAt : ℤ
  checkpoint : Option JsonValue
  deriving DecidableEq

/-- A row `claimRunnableTasks` selects. -/
def Run.ready (now : ℤ) (t : Task) : Bool :=
  t.status = .pending && (t.retryNotBefore.all (· ≤ now)) &&
    (run.dependencies.all fun dependency => dependency.1 ≠ t.taskId ||
      run.tasks.all fun prerequisite => prerequisite.taskId ≠ dependency.2 ||
        prerequisite.status = .succeeded) &&
    (t.attemptCount < t.maxAttempts || t.resumable)

/-- The attempt a resumed claim goes on with. -/
def Task.expiredAttempt? (t : Task) : Option Attempt :=
  t.attempts.find? fun a => a.attemptNumber = t.attemptCount && a.status = .expired

def Task.claimed (t : Task) (attemptNumber : ℕ) (attemptId ownerId : String) (leaseExpiresAt : ℤ) : Task :=
  { t with
    status := .running, attemptCount := attemptNumber, currentAttemptId := some attemptId
    ownerId := some ownerId, leaseExpiresAt := some leaseExpiresAt, retryNotBefore := none
    terminalReason := none, error := none }

/-- One claim: the task goes on with its expired attempt, or starts a new one under `freshId`.
`used` are the attempt ids the table has. -/
def claimTask (runId ownerId : String) (leaseExpiresAt : ℤ) (used : List String) (freshId : String)
    (t : Task) : Except String (Task × Claim) := do
  if t.resumable ∧ 0 < t.attemptCount then
    match t.expiredAttempt? with
    | none => .error ("Interrupted DAG attempt is not recoverable: " ++ runId ++ "/" ++ t.taskId)
    | some prior =>
      let task ← (t.claimed t.attemptCount prior.attemptId ownerId leaseExpiresAt).updateAttempt
        (fun a => a.attemptId = prior.attemptId && a.attemptNumber = t.attemptCount &&
          a.status = .expired)
        (fun a => { a with
          ownerId, status := .running, leaseExpiresAt, terminalReason := none, error := none })
        ("Concurrent DAG attempt resume detected: " ++ runId ++ "/" ++ t.taskId)
      return (task, ⟨t.taskId, prior.attemptId, t.attemptCount, ownerId, leaseExpiresAt, t.checkpoint⟩)
  else
    let attemptNumber := t.attemptCount + 1
    require (attemptNumber ≤ t.maxAttempts) "CHECK constraint failed: dag_tasks"
    require (freshId ∉ used) "UNIQUE constraint failed: dag_attempts.attempt_id"
    require (attemptNumber ∉ t.attempts.map (·.attemptNumber))
      "UNIQUE constraint failed: dag_attempts.attempt_number"
    let attempt : Attempt := { attemptId := freshId, attemptNumber, ownerId, leaseExpiresAt, checkpoint := t.checkpoint }
    let task := t.claimed attemptNumber freshId ownerId leaseExpiresAt
    return ({ task with attempts := task.attempts ++ [attempt] },
      ⟨t.taskId, freshId, attemptNumber, ownerId, leaseExpiresAt, t.checkpoint⟩)

/-- The first `limit` tasks that are ready, in task order, are claimed. -/
def claimTasks (runId ownerId : String) (leaseExpiresAt : ℤ) (freshIds : ℕ → String)
    (ready : Task → Bool) : ℕ → List String → List Task → Except String (List Task × List Claim)
  | _, _, [] => .ok ([], [])
  | limit, used, t :: tasks =>
    if 0 < limit ∧ ready t then do
      let (t, claim) ← claimTask runId ownerId leaseExpiresAt used (freshIds limit) t
      let (tasks, claims) ← claimTasks runId ownerId leaseExpiresAt freshIds ready (limit - 1)
        (claim.attemptId :: used) tasks
      return (t :: tasks, claim :: claims)
    else do
      let (tasks, claims) ← claimTasks runId ownerId leaseExpiresAt freshIds ready limit used tasks
      return (t :: tasks, claims)

def Ledger.attemptIds (ledger : Ledger) : List String :=
  ledger.runs.values.flatMap fun run => run.attempts.map (·.attemptId)

def claimRunnableTasks (runId ownerId : String) (now leaseDurationMs limit : ℤ)
    (lease : Option DagRunLease) (freshIds : ℕ → String) : LedgerM (List Claim) := fun ledger => do
  require (ownerId ≠ "") "ownerId is required"
  let leaseExpiresAt ← leaseExpiry now leaseDurationMs
  require (isSafeInteger limit ∧ 1 ≤ limit) "claim limit must be a positive safe integer"
  transaction runId (fun run => do
    assertDagRunMutationLease run now lease
    if run.status ≠ .running ∨ run.pausedAt ≠ none then return ([], run)
    else
      let (tasks, claims) ← claimTasks run.runId ownerId leaseExpiresAt freshIds (run.ready now)
        limit.toNat ledger.attemptIds run.tasks
      let claimed := claims.map fun claim =>
        ({ type := "task.claimed", taskId := some claim.taskId } : Event)
      return (claims, { run with tasks, events := run.events ++ claimed })) ledger

/-- The two `UPDATE`s of an operation on the attempt a controller runs: the task, then its
attempt. The run has to be running. -/
def updateActive (taskId attemptId ownerId : String) (now : ℤ) (task : Task → Task)
    (attempt : Attempt → Attempt) : Except String Run := do
  let stale := staleAttempt run.runId taskId attemptId
  require (run.status = .running) stale
  run.updateTask taskId (fun t => do
    require (t.holdsAttempt attemptId ownerId now) stale
    (task t).updateAttempt (isActive attemptId ownerId) attempt stale) stale

def heartbeatAttempt (runId taskId attemptId ownerId : String) (now leaseDurationMs : ℤ)
    (lease : Option DagRunLease) : LedgerM ℤ := fun ledger => do
  require (isSafeInteger leaseDurationMs ∧ 1 ≤ leaseDurationMs)
    "leaseDurationMs must be a positive safe integer"
  let leaseExpiresAt := now + leaseDurationMs
  require (isSafeInteger now ∧ isSafeInteger leaseExpiresAt)
    "heartbeat timestamps must be safe integers"
  transaction runId (fun run => do
    assertDagRunMutationLease run now lease
    let run ← updateActive run taskId attemptId ownerId now
      (fun t => { t with leaseExpiresAt := some leaseExpiresAt })
      (fun a => { a with leaseExpiresAt })
    return (leaseExpiresAt, run.event { type := "attempt.heartbeat", taskId := some taskId })) ledger

def checkpointAttempt (runId taskId attemptId ownerId : String) (checkpoint : JsonValue) (now : ℤ)
    (lease : Option DagRunLease) : LedgerM Unit := fun ledger => do
  require (isSafeInteger now) "now must be a safe integer timestamp"
  transaction runId (fun run => do
    assertDagRunMutationLease run now lease
    let run ← updateActive run taskId attemptId ownerId now
      (fun t => { t with checkpoint := some checkpoint })
      (fun a => { a with checkpoint := some checkpoint })
    return ((), run.event { type := "attempt.checkpoint", taskId := some taskId })) ledger

def activeAttempt (taskId attemptId ownerId : String) : Except String Attempt :=
  match (run.tasks.find? (·.taskId = taskId)).bind fun t =>
      t.attempts.find? (isActive attemptId ownerId) with
  | none => .error (staleAttempt run.runId taskId attemptId)
  | some current => .ok current

/-- Accounting that does not go back. -/
def requireProgress (taskId : String) (current : Attempt) (usage : Usage) (turns : ℕ) : Except String Unit :=
  require (usageAtLeast usage current.usage ∧ current.turns ≤ turns)
    ("DAG attempt accounting regressed: " ++ run.runId ++ "/" ++ taskId ++ "/" ++ current.attemptId)

/-- `ProviderCircuitOpenSignal`. -/
structure CircuitSignal where
  autoRetryAttempt : ℕ
  consecutiveUnlimitedRetries : ℕ
  retryDelayMs : ℤ
  deriving DecidableEq

/-- `Usage` as a JSON value. -/
def usageValue (usage : Usage) : JsonValue :=
  .obj ([("input", .num usage.input), ("output", .num usage.output),
      ("cacheRead", .num usage.cacheRead), ("cacheWrite", .num usage.cacheWrite), ("totalTokens", .num usage.totalTokens),
      ("cost", .obj [("input", .num usage.costInput), ("output", .num usage.costOutput),
        ("cacheRead", .num usage.costCacheRead), ("cacheWrite", .num usage.costCacheWrite),
        ("total", .num usage.costTotal)])] ++
    (usage.cacheWrite1h.map fun n => ("cacheWrite1h", JsonValue.num n)).toList ++
    (usage.reasoning.map fun n => ("reasoning", JsonValue.num n)).toList)

/-- The checkpoint of an open provider circuit. -/
def circuitCheckpoint (signal : CircuitSignal) (retryNotBefore : ℤ) (usage : Usage) (turns : ℕ) : JsonValue :=
  .obj [("version", .num 1), ("phase", .str "provider_circuit_open"),
    ("providerCircuitOpen", .obj [("version", .num 1), ("reason", .str "unlimited_auto_retry"),
      ("autoRetryAttempt", .num signal.autoRetryAttempt),
      ("consecutiveUnlimitedRetries", .num signal.consecutiveUnlimitedRetries),
      ("retryDelayMs", .num signal.retryDelayMs)]),
    ("retryNotBefore", .num retryNotBefore), ("attemptUsage", usageValue usage), ("attemptTurns", .num turns)]

def openDagProviderCircuit (runId taskId attemptId ownerId : String) (signal : CircuitSignal)
    (usage : Usage) (turns : ℕ) (retryNotBefore now : ℤ) (lease : Option DagRunLease) :
    LedgerM Unit := fun ledger => do
  require (isSafeInteger now ∧ isSafeInteger retryNotBefore ∧ now ≤ retryNotBefore)
    "Provider circuit timestamps are invalid"
  require (isSafeInteger turns) "Provider circuit turns must be a non-negative safe integer"
  require (1 ≤ signal.autoRetryAttempt ∧ isSafeInteger signal.autoRetryAttempt ∧
      1 ≤ signal.consecutiveUnlimitedRetries ∧ isSafeInteger signal.consecutiveUnlimitedRetries ∧
      0 ≤ signal.retryDelayMs ∧ isSafeInteger signal.retryDelayMs)
    "Provider circuit signal is invalid"
  require (retryNotBefore - now = signal.retryDelayMs)
    "Provider circuit retry delay does not match its eligibility"
  let checkpoint := circuitCheckpoint signal retryNotBefore usage turns
  transaction runId (fun run => do
    assertDagRunMutationLease run now lease
    let current ← activeAttempt run taskId attemptId ownerId
    require (∀ t ∈ run.tasks, t.taskId = taskId → t.role ≠ .externalWriter)
      "Provider circuit pause is unsafe for an external-writer attempt"
    requireProgress run taskId current usage turns
    let run ← updateActive run taskId attemptId ownerId now
      (fun t => { t with checkpoint := some checkpoint, retryNotBefore := some retryNotBefore })
      (fun a => { a with checkpoint := some checkpoint, usage, turns })
    let run ← reconcile run
    return ((), run.event { type := "provider.circuit_open", taskId := some taskId })) ledger

def recordDagAttemptAccounting (runId taskId attemptId ownerId : String) (usage : Usage)
    (turns : ℕ) (now : ℤ) (lease : Option DagRunLease) : LedgerM Bool := fun ledger => do
  require (isSafeInteger now) "now must be a safe integer timestamp"
  require (isSafeInteger turns) "DAG attempt turns must be a non-negative safe integer"
  transaction runId (fun run => do
    assertDagRunMutationLease run now lease
    let current ← activeAttempt run taskId attemptId ownerId
    requireProgress run taskId current usage turns
    if usage = current.usage ∧ turns = current.turns then return (false, run)
    else
      let stale := staleAttempt run.runId taskId attemptId
      let run ← run.updateTask taskId (fun t => t.updateAttempt (isActive attemptId ownerId)
        (fun a => { a with usage, turns }) stale) stale
      return (true, run.event { type := "attempt.accounting", taskId := some taskId })) ledger

/-! ### Completion -/

/-- `DagTaskCompletion`. -/
inductive Completion where
  | success (artifact : TaskArtifact) (usage : Option Usage) (turns : Option ℕ)
  | failure (reason : TerminalReason) (error : Option String) (usage : Option Usage) (turns : Option ℕ)
  deriving DecidableEq

namespace Completion

def usage : Completion → Option Usage
  | success _ usage _ => usage
  | failure _ _ usage _ => usage

def turns : Completion → Option ℕ
  | success _ _ turns => turns
  | failure _ _ _ turns => turns

/-- `terminalReason` of a failure. -/
def failureReason : Completion → Option TerminalReason
  | success .. => none
  | failure reason _ _ _ => some reason

/-- The retry of a failed attempt; a live writer is never run again. -/
def decision (P : RetryPolicy) (role : Role) : Completion → RetryDecision
  | success .. => { disposition := .terminal, shouldRetry := false }
  | failure reason error _ _ =>
    if role = .externalWriter then { disposition := .terminal, shouldRetry := false }
    else decideRetry P reason error

/-- The attempt goes on when the provider is back. -/
def availabilityRetry (P : RetryPolicy) (role : Role) (completion : Completion) : Bool :=
  (completion.decision P role).shouldRetry && (completion.decision P role).unlimited

/-- The completion was recorded before: the same arguments on an attempt that has them. -/
def replays (completion : Completion) (attempt : Attempt) : Prop :=
  (∀ usage ∈ completion.usage, attempt.usage = usage) ∧ (∀ turns ∈ completion.turns, attempt.turns = turns)

instance (completion : Completion) (attempt : Attempt) : Decidable (completion.replays attempt) :=
  inferInstanceAs (Decidable (_ ∧ _))

end Completion

/-- How often a task was requeued because the provider was not available. -/
def Run.availabilityRetries (taskId : String) : ℕ :=
  (run.events.filter fun event => event.type = "task.requeued" ∧ event.taskId = some taskId ∧
    event.reason = some "availability_failure").length

/-- The checkpoint of an attempt that waits for its provider. -/
def availabilityCheckpoint (usage : Usage) (turns : ℕ) : JsonValue :=
  .obj [("version", .num 1), ("phase", .str "availability_retry"),
    ("attemptUsage", usageValue usage), ("attemptTurns", .num turns)]

variable (P : RetryPolicy)

def retryTime (runId : String) (decision : RetryDecision) (number : ℕ) (now : ℤ)
    (taskId : String) : Except String (Option ℤ) := do
  let delay := retryDelayMs P decision number (runId ++ "\x00" ++ taskId)
  if delay = 0 then return none
  else
    require (isSafeInteger (now + delay))
      ("DAG retry eligibility exceeds the safe integer range: " ++ runId ++ "/" ++ taskId)
    return some (now + delay)

/-- What `completeDagTask` sets on the task and on its attempt. -/
structure Settlement where
  status : TaskStatus
  attemptStatus : AttemptStatus
  checkpoint : Option JsonValue
  retryNotBefore : Option ℤ := none
  terminalReason : Option TerminalReason
  attemptReason : Option TerminalReason
  error : Option String
  attemptError : Option String
  artifact : Option TaskArtifact := none
  deriving DecidableEq

def Settlement.event (s : Settlement) (taskId : String) : Event :=
  if s.status = .pending then
    { type := "task.requeued", taskId := some taskId
      reason := some (if s.attemptStatus = .expired then "availability_failure"
        else "attempt_failed") }
  else { type := "task.completed", taskId := some taskId }

/-- The dependents of the task cannot run any more. -/
def Settlement.negative (s : Settlement) : Prop :=
  s.status = .failed ∨ s.status = .cancelled ∨ ∃ artifact ∈ s.artifact,
    artifact.quality.semanticOutcome = .rejected ∨ artifact.quality.semanticOutcome = .inconclusive

instance (s : Settlement) : Decidable s.negative := inferInstanceAs (Decidable (_ ∨ _ ∨ _))

/-- The outcome of a completion that is not a replay. -/
def settle (run : Run) (t : Task) (usage : Usage) (turns : ℕ) (now : ℤ)
    (completion : Completion) : Except String Settlement := do
  match completion with
  | .success artifact _ _ =>
    require (artifact.artifactVersion = 2) "Task artifactVersion must be 2"
    require (artifact.taskId = t.taskId) "Task artifact taskId does not match the task"
    require (artifact.contractHash = t.contract.contractHash)
      "Task artifact contractHash does not match the task contract"
    return { status := .succeeded, attemptStatus := .succeeded, checkpoint := t.checkpoint
             terminalReason := some .completed, attemptReason := some .completed
             error := none, attemptError := none, artifact := some artifact }
  | .failure reason error _ _ =>
    let decision := completion.decision P t.role
    if completion.availabilityRetry P t.role then
      let number := run.availabilityRetries t.taskId + 1
      require (isSafeInteger number)
        ("DAG availability retry count exceeds the safe integer range: " ++ run.runId ++ "/" ++ t.taskId)
      let retryNotBefore ← retryTime P run.runId decision number now t.taskId
      return { status := .pending, attemptStatus := .expired
               checkpoint := some (availabilityCheckpoint usage turns), retryNotBefore
               terminalReason := none, attemptReason := none, error := none, attemptError := none }
    else if decision.shouldRetry ∧ t.attemptCount < t.maxAttempts then
      let retryNotBefore ← retryTime P run.runId decision t.attemptCount now t.taskId
      return { status := .pending, attemptStatus := .failed, checkpoint := t.checkpoint
               retryNotBefore, terminalReason := none, attemptReason := some reason
               error := none, attemptError := error }
    else
      return { status := if reason = .cancelled then .cancelled else .failed
               attemptStatus := .failed, checkpoint := t.checkpoint
               terminalReason := some reason, attemptReason := some reason, error
               attemptError := error }

/-- The task and its attempt after a settlement. The attempt is added to the task unless it waits
for its provider. -/
def settleTask (attemptId ownerId : String) (usage : Usage) (turns : ℕ) (s : Settlement)
    (stale : String) (t : Task) : Except String Task :=
  let task : Task := { t with
    status := s.status
    currentAttemptId := if s.status = .pending then none else some attemptId
    ownerId := if s.status = .pending then none else some ownerId
    leaseExpiresAt := none
    checkpoint := s.checkpoint
    retryNotBefore := s.retryNotBefore
    terminalReason := s.terminalReason
    error := s.error
    artifact := s.artifact
    usage := if s.attemptStatus = .expired then t.usage else addUsageValues t.usage usage
    turns := if s.attemptStatus = .expired then t.turns else t.turns + turns }
  task.updateAttempt (isActive attemptId ownerId) (fun a => { a with
      status := s.attemptStatus, checkpoint := s.checkpoint, terminalReason := s.attemptReason
      error := s.attemptError, usage, turns }) stale

def isReplay (t : Task) (attemptId ownerId : String) (prior : Attempt)
    (completion : Completion) : Prop :=
  match completion with
  | .success artifact _ _ => t.status = .succeeded ∧ t.currentAttemptId = some attemptId ∧
      t.ownerId = some ownerId ∧ t.artifact = some artifact ∧ completion.replays prior
  | .failure reason error _ _ => t.status ≠ .succeeded ∧
      ((prior.status = .failed ∧ prior.terminalReason = some reason ∧ prior.error = error ∧ completion.replays prior) ∨
      (completion.availabilityRetry P t.role ∧ t.status = .pending ∧ prior.status = .expired ∧
        Checkpoint.isAvailabilityRetry t.checkpoint))

instance (P : RetryPolicy) (t : Task) (attemptId ownerId : String) (prior : Attempt)
    (completion : Completion) : Decidable (isReplay P t attemptId ownerId prior completion) := by
  unfold isReplay
  cases completion <;> infer_instance

def completeDagTask (runId taskId attemptId ownerId : String)
    (completion : Completion) (now : ℤ) (lease : Option DagRunLease) : LedgerM Unit :=
  fun ledger => do
  require (isSafeInteger now) "now must be a safe integer timestamp"
  require (completion.failureReason ≠ some .completed)
    "A failed DAG task requires a non-completed terminalReason"
  match ledger.runs.get? runId with
  | none => .error ("Unknown DAG task: " ++ runId ++ "/" ++ taskId)
  | some _ => transaction runId (fun run => do
    let stale := staleAttempt run.runId taskId attemptId
    match run.tasks.find? (·.taskId = taskId) with
    | none => .error ("Unknown DAG task: " ++ run.runId ++ "/" ++ taskId)
    | some t =>
      assertDagRunMutationLease run now lease
      match t.attempts.find? fun a => a.attemptId = attemptId && a.ownerId = ownerId with
      | none => .error ("Unknown DAG attempt: " ++ run.runId ++ "/" ++ taskId ++ "/" ++ attemptId)
      | some prior =>
        if isReplay P t attemptId ownerId prior completion then return ((), run)
        else
          require (t.status ≠ .succeeded) ("Succeeded DAG task is immutable: " ++ run.runId ++ "/" ++ taskId)
          require (run.status = .running ∧ t.holdsAttempt attemptId ownerId now) stale
          let usage := completion.usage.getD prior.usage
          let turns := completion.turns.getD prior.turns
          require (isSafeInteger turns ∧ prior.turns ≤ turns)
            ("DAG attempt turns regressed: " ++ run.runId ++ "/" ++ taskId ++ "/" ++ attemptId)
          require (usageAtLeast usage prior.usage)
            ("DAG attempt usage regressed: " ++ run.runId ++ "/" ++ taskId ++ "/" ++ attemptId)
          let s ← settle P run t usage turns now completion
          let run ← run.updateTask taskId (settleTask attemptId ownerId usage turns s stale) stale
          let run ← reconcile run
          let run := run.event (s.event taskId)
          return ((), if s.negative then blockDagDescendants run else run)) ledger

/-! ### Recovery -/

def Task.leaseExpired (t : Task) (now : ℤ) : Prop :=
  t.status = .running ∧ ∃ leaseExpiresAt ∈ t.leaseExpiresAt, leaseExpiresAt ≤ now

instance (t : Task) (now : ℤ) : Decidable (t.leaseExpired now) := inferInstanceAs (Decidable (_ ∧ _))

/-- A task that is started again, or goes on with its attempt. -/
def Task.recoverable (t : Task) : Prop := (t.role ≠ .externalWriter ∧ t.attemptCount < t.maxAttempts) ∨ t.resumable

instance (t : Task) : Decidable t.recoverable := inferInstanceAs (Decidable (_ ∨ _))

/-- The event of a task whose lease has expired. -/
def Task.recoveryEvent (t : Task) : Event :=
  if t.recoverable then
    { type := "task.requeued", taskId := some t.taskId
      reason := some (if t.resumable then "resumable_interruption" else "lease_expired") }
  else { type := "task.failed", taskId := some t.taskId }

/-- A task whose lease has expired: resumed later, started again, or failed. -/
def expireTask (runId : String) (now : ℤ) (t : Task) : Except String Task := do
  if t.leaseExpired now then
    match t.currentAttemptId, t.ownerId with
    | some attemptId, some ownerId =>
      match t.attempts.find? (isActive attemptId ownerId) with
      | none => .error ("Running DAG task has no active attempt: " ++ runId ++ "/" ++ t.taskId)
      | some attempt =>
        let expired ← t.updateAttempt (isActive attemptId ownerId) (fun a => { a with
            status := .expired
            terminalReason := some .interrupted
            error := some "Attempt lease expired" })
          ("Concurrent DAG attempt recovery detected: " ++ runId ++ "/" ++ t.taskId)
        let usage := if t.resumable then t.usage else addUsageValues t.usage attempt.usage
        let turns := if t.resumable then t.turns else t.turns + attempt.turns
        require (isSafeInteger turns) ("DAG task turns exceed the safe integer range: " ++ runId ++ "/" ++ t.taskId)
        if t.recoverable then
          let decision := decideRetry P .interrupted (some "Attempt lease expired")
          let retryNotBefore ←
            if t.resumable then .ok (Checkpoint.retryNotBefore t.checkpoint)
            else retryTime P runId decision t.attemptCount now t.taskId
          return { expired with
            status := .pending, currentAttemptId := none, ownerId := none, leaseExpiresAt := none
            retryNotBefore, terminalReason := none, error := none, usage, turns }
        else
          return { expired with
            status := .failed, leaseExpiresAt := none, terminalReason := some .retryExhausted
            error := some "Task attempts exhausted after lease expiry", usage, turns }
    | _, _ => .error ("Running DAG task has no active attempt: " ++ runId ++ "/" ++ t.taskId)
  else return t

def recoverDagRun (runId : String) (now : ℤ) (lease : Option DagRunLease) :
    LedgerM Unit := fun ledger => do
  require (isSafeInteger now) "now must be a safe integer timestamp"
  transaction runId (fun run => do
    assertDagRunMutationLease run now lease
    if run.status ≠ .running then return ((), run)
    else
      let expired := run.tasks.filter (·.leaseExpired now)
      let tasks ← run.tasks.mapM (expireTask P run.runId now)
      let run := blockDagDescendants { run with
        tasks
        events := run.events ++ expired.map (·.recoveryEvent) }
      if expired = [] then return ((), run)
      else do
        let run ← reconcile run
        return ((), run)) ledger

end EasyPi.Subagent
