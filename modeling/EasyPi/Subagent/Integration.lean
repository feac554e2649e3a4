/-
# Recording a candidate

`recordDagIntegration` and `recordDagIntegrationFailure` of
`packages/subagent/src/ledger.ts`. The ledger accepts a candidate only when it
is the one its own rows give: a complete candidate has the commits of all tasks
in topological order and the quality of all artifacts, a partial one names for
every writer why it is in or out.
-/
import EasyPi.Subagent.Ledger

namespace EasyPi.Subagent

def normalizedIntegrationArtifact (candidate : IntegrationArtifact) :
    Except String IntegrationArtifact := do
  require (candidate.artifactVersion = 1) "Persisted integration artifact version is unsupported"
  require (candidate.provenance = none ∨ ∃ quality ∈ candidate.quality,
      quality.gatePassed = false ∧ GateFailure.dagIncomplete ∈ quality.gateFailures)
    "Partial integration artifact requires non-accepted quality and provenance"
  return candidate

/-- The contract and the row of each task, in the given order. A run has both for every id of its
request. -/
def Run.rowsOf (run : Run) (request : Request) (taskIds : List String) : List (Contract × Task) :=
  taskIds.filterMap fun taskId =>
    (request.tasks.find? (·.id = taskId)).bind fun contract =>
      (run.tasks.find? (·.taskId = taskId)).map fun task => (contract, task)

/-- A writer all of whose registered commands passed. -/
def allValidationsPassed (contract : Contract) (artifact : TaskArtifact) : Bool :=
  contract.validationCommandIds ≠ [] && artifact.quality.validationStatus = .passed &&
    contract.validationCommandIds.all fun commandId => artifact.validations.any fun result =>
      result.commandId = commandId && result.status = .passed

/-- Why the commit of a writer cannot be in a partial candidate. -/
def writerOmission (contract : Contract) (status : TaskStatus) (artifact : Option TaskArtifact) : Option OmissionReason :=
  match artifact with
  | none => some .taskNotSucceeded
  | some artifact =>
    if status ≠ .succeeded then some .taskNotSucceeded
    else if artifact.quality.semanticOutcome ≠ .accepted then some .semanticNotAccepted
    else if artifact.quality.pathAudit ≠ .passed then some .pathAuditNotPassed
    else if allValidationsPassed contract artifact = false then some .validationNotPassed
    else if artifact.commit? = none then some .commitMissing
    else none

/-- An outcome that is not an acceptance. -/
def negativeOutcome (artifact : Option TaskArtifact) : Option TaskOutcome :=
  (artifact.map (·.quality.semanticOutcome)).filter fun outcome =>
    outcome = .rejected ∨ outcome = .inconclusive

/-- The entry of a task among the negative ones. -/
def negativeTask (taskId : String) (task : Task) : List NegativeTask :=
  if task.status = .failed ∨ task.status = .cancelled ∨ task.status = .blocked then
    [⟨taskId, task.status, task.terminalReason, negativeOutcome task.artifact⟩]
  else
    match negativeOutcome task.artifact with
    | some outcome => [⟨taskId, task.status, none, some outcome⟩]
    | none => []

/-- The id of the first row with `p`, for a message. -/
def firstRow (rows : List (Contract × Task)) (p : Contract × Task → Bool) : String := (rows.find? p).elim "" (·.1.id)

/-- The checks of `recordDagIntegration` on a complete candidate. -/
def validateComplete (run : Run) (request : Request) (topologicalTaskIds : List String)
    (candidate : IntegrationArtifact) : Except String Unit :=
  match candidate.quality with
  | none => .error "Complete DAG integration requires a passed candidate quality gate"
  | some quality => do
    require (quality.gatePassed)
      "Complete DAG integration requires a passed candidate quality gate"
    require (∀ t ∈ run.tasks, t.status = .succeeded)
      ("DAG integration requires succeeded task " ++ run.firstTask (·.status ≠ .succeeded) (·.taskId))
    let rows := run.rowsOf request (request.tasks.map (·.id))
    require (∀ row ∈ rows, row.2.artifact ≠ none)
      ("Succeeded task " ++ firstRow rows (·.2.artifact = none) ++ " has no artifact")
    let expected := (run.rowsOf request topologicalTaskIds).filterMap fun row =>
      (row.2.artifact.bind (·.commit)).map fun commit => (row.1.id, commit)
    require (candidate.orderedTaskIds = expected.map (·.1) ∧ candidate.orderedCommits = expected.map (·.2))
      "DAG integration does not match persisted task artifacts"
    let tasks := rows.filterMap fun row => row.2.artifact.map fun artifact =>
      (⟨row.1, artifact⟩ : QualityTask)
    require (evaluateCandidateQuality tasks quality.pinnedWriterTaskIds = quality)
      "DAG integration quality does not match persisted task artifacts"

/-- What is said of the first gate failure that a partial candidate does not show. -/
def unreflected (failures : List GateFailure) (omitted : List (String × OmissionReason)) (quality : CandidateQuality) : String :=
  match failures.find? fun failure =>
    if failure = .commitPin then omitted.all (·.2 ≠ .commitPinFailed) else failure ∉ quality.gateFailures with
  | none => ""
  | some .commitPin => "Complete commit-pin failure is not reflected in Partial Candidate provenance"
  | some failure => "Complete gate failure " ++ failure.text ++ " is not reflected in Partial Candidate quality"

/-- The checks of `recordDagIntegration` on a partial candidate. -/
def validatePartial (run : Run) (request : Request) (topologicalTaskIds : List String)
    (candidate : IntegrationArtifact) (given : PartialProvenance) : Except String Unit := do
  require (∀ t ∈ run.tasks, t.status ≠ .pending ∧ t.status ≠ .running)
    "Partial DAG integration requires every task branch to be settled"
  let included := given.includedWriterTaskIds
  require (included ≠ []) "Partial DAG integration requires a Writer commit"
  require (candidate.orderedTaskIds = included)
    "Partial DAG integration task order does not match its provenance"
  require included.Nodup "Partial DAG integration contains duplicate Writer tasks"
  require (included = topologicalTaskIds.filter (· ∈ included))
    "Partial DAG integration Writer order is not topological"
  let rows := run.rowsOf request topologicalTaskIds
  let writers := rows.filter (·.1.role = .writer)
  require (∀ row ∈ writers, row.1.id ∈ included → writerOmission row.1 row.2.status row.2.artifact = none)
    ("Partial DAG integration includes ineligible Writer " ++ firstRow writers fun row =>
      row.1.id ∈ included ∧ writerOmission row.1 row.2.status row.2.artifact ≠ none)
  let expectedCommits := (writers.filter (·.1.id ∈ included)).filterMap fun row =>
    row.2.artifact.bind (·.commit)
  let omitted := (writers.filter (·.1.id ∉ included)).map fun row =>
    (row.1.id, (writerOmission row.1 row.2.status row.2.artifact).getD .commitPinFailed)
  require (candidate.orderedCommits = expectedCommits)
    "Partial DAG integration commits do not match persisted Writer artifacts"
  let negativeTasks := rows.flatMap fun row => negativeTask row.1.id row.2
  let failures := given.completeGateFailures
  require (failures.Nodup ∧ GateFailure.dagIncomplete ∉ failures)
    "Partial DAG integration has invalid Complete Candidate gate failures"
  require (given.omittedWriterTasks = omitted ∧ given.negativeTasks = negativeTasks)
    "Partial DAG integration provenance does not match persisted tasks"
  require (given.reason = .taskFailure → negativeTasks ≠ [] ∧ failures = [])
    "Task-failure Partial Candidate requires terminal negatives and no complete-gate fallback"
  let tasks := (rows.filter fun row => row.2.status = .succeeded &&
      (row.1.role ≠ .writer || row.1.id ∈ included)).filterMap fun row =>
    row.2.artifact.map fun artifact => (⟨row.1, artifact⟩ : QualityTask)
  let expectedQuality := evaluatePartialCandidateQuality tasks included
  require (candidate.quality = some expectedQuality)
    "Partial DAG integration quality does not match persisted task artifacts"
  require (given.reason = .candidateQualityFailure → failures ≠ [])
    "Candidate-quality Partial Candidate requires an observed complete-gate failure"
  require (given.reason = .candidateQualityFailure → GateFailure.commitPin ∈ failures →
      ∃ task ∈ omitted, task.2 = .commitPinFailed) (unreflected failures omitted expectedQuality)
  require (given.reason = .candidateQualityFailure →
      ∀ failure ∈ failures, failure ≠ .commitPin → failure ∈ expectedQuality.gateFailures)
    (unreflected failures omitted expectedQuality)

def recordDagIntegration (runId : String) (integration : IntegrationArtifact) (now : ℤ)
    (lease : Option DagRunLease) : LedgerM Unit := fun ledger => do
  require (isSafeInteger now) "now must be a safe integer timestamp"
  let candidate ← normalizedIntegrationArtifact integration
  transaction runId (fun run => do
    assertDagRunMutationLease run now lease
    require (run.status = .running) ("DAG run is not running: " ++ run.runId)
    require (run.integrationFailure = none) ("DAG run " ++ run.runId ++ " has an integration failure")
    match run.integration with
    | some recorded =>
      require (recorded = candidate) ("DAG integration is immutable: " ++ run.runId)
      return ((), run)
    | none =>
      let request ← decodeCompiledDagRequest run.request
      require request.mergeEnabled
        ("DAG run did not request an integration candidate: " ++ run.runId)
      let topologicalTaskIds ← stableTopologicalTaskIds request
      match candidate.provenance with
      | none => validateComplete run request topologicalTaskIds candidate
      | some given => validatePartial run request topologicalTaskIds candidate given
      return ((), { run with integration := some candidate }.event
        { type := "run.integration" })) ledger

/-- The characters of a text that fit into a number of bytes, and whether they fill it. -/
def takeBytes : ℕ → List Char → List Char × Bool
  | room, [] => ([], room = 0)
  | room, c :: cs =>
    if c.utf8Size ≤ room then
      let (kept, exact) := takeBytes (room - c.utf8Size) cs
      (c :: kept, exact)
    else ([], room = 0)

/-- `boundedDiagnostic`. A character cut in the middle is decoded to one replacement character,
and one at the end is dropped. -/
def boundedDiagnostic (value : String) : String :=
  if value.utf8ByteSize ≤ 32 * 1024 then value
  else
    let (kept, exact) := takeBytes (32 * 1024) value.toList
    if exact ∧ kept.getLast? = some '\uFFFD' then String.ofList kept.dropLast
    else String.ofList kept

def recordDagIntegrationFailure (runId : String) (failure : IntegrationFailure) (now : ℤ)
    (lease : Option DagRunLease) : LedgerM Unit := fun ledger => do
  require (isSafeInteger now) "now must be a safe integer timestamp"
  require (isSafeInteger failure.createdAt) "Integration failure createdAt must be a safe integer"
  require (failure.taskId ≠ some "") "Integration failure taskId cannot be empty"
  require (failure.reason = .qualityGate → ∃ quality ∈ failure.quality, quality.gatePassed = false)
    "Quality-gate integration failure requires failed candidate quality"
  require (failure.reason ≠ .qualityGate → failure.quality = none)
    "Candidate quality applies only to quality-gate integration failures"
  let persisted := { failure with diagnostics := boundedDiagnostic failure.diagnostics }
  transaction runId (fun run => do
    assertDagRunMutationLease run now lease
    require (run.status = .running) ("DAG run is not running: " ++ run.runId)
    require (run.integration = none) ("DAG run " ++ run.runId ++ " already has an integration artifact")
    match run.integrationFailure with
    | some recorded =>
      require (recorded = persisted) ("DAG integration failure is immutable: " ++ run.runId)
      return ((), run)
    | none =>
      return ((), { run with integrationFailure := some persisted }.event
        { type := "run.integration_failed" })) ledger

end EasyPi.Subagent
