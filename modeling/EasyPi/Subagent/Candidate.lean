/-
# The candidate of a settled run

When all tasks of a run are settled, the orchestrator
(`packages/subagent/src/dag-orchestrator.ts`) builds a candidate from the run
record and hands it to `recordDagIntegration`: a complete one when every task
succeeded and was accepted and no gate fails, a partial one of the writers whose
work is good otherwise.

Pinning a commit and merging are git's: any pins may fail, and a merge returns
the commits it was asked for.
-/
import EasyPi.Subagent.Gates
import EasyPi.Subagent.Lifecycle

namespace EasyPi.Subagent

open List

/-! ### The orchestrator -/

/-- The loop of `stableTopologicalTasks` of `dag-scheduler.ts`. -/
def topologicalTasksLoop (tasks : List Contract) :
    ℕ → List Contract → Except String (List Contract)
  | 0, ordered => .ok ordered
  | fuel + 1, ordered =>
    match tasks.find? fun task => task.id ∉ ordered.map (·.id) ∧ ∀ dependency ∈ task.dependsOn,
        dependency ∈ ordered.map (·.id) with
    | none => .error "DAG request contains a dependency cycle or unknown dependency"
    | some next => do
      require (∀ dependency ∈ next.dependsOn, dependency ∈ tasks.map (·.id))
        ("Task " ++ next.id ++ " depends on unknown task")
      topologicalTasksLoop tasks fuel (ordered ++ [next])

def stableTopologicalTasks (tasks : List Contract) : Except String (List Contract) :=
  topologicalTasksLoop tasks tasks.length []

/-- Which commits can be pinned, by the tasks they are of, when `finishSuccessfulRun` and when
`finishFailedRun` tries. -/
structure Pins where
  complete : String → Bool
  fallback : String → Bool

/-- `mergeTaskCommits`: the artifact of a merge of the given tasks and commits. -/
structure Merger where
  mergeTaskCommits : List (String × String) → IntegrationArtifact
  version : ∀ commits, (mergeTaskCommits commits).artifactVersion = 1
  kind : ∀ commits, (mergeTaskCommits commits).provenance = none
  orderedTaskIds : ∀ commits, (mergeTaskCommits commits).orderedTaskIds = commits.map (·.1)
  orderedCommits : ∀ commits, (mergeTaskCommits commits).orderedCommits = commits.map (·.2)

variable (run : Run)

def Run.taskOf (taskId : String) : Option Task := run.tasks.find? (·.taskId = taskId)

/-- One turn of the loop of `finishFailedRun` over the writers: the writer is included, or omitted
for a reason. -/
def chooseWriter (failedPinTaskIds : List String) (pin : String → Bool)
    (contract : Contract) : Except OmissionReason QualityTask :=
  match run.taskOf contract.id with
  | none => .error .taskNotSucceeded
  | some task =>
    match writerOmission contract task.status task.artifact, task.artifact with
    | some omission, _ => .error omission
    | none, none => .error .taskNotSucceeded
    | none, some artifact =>
      if contract.id ∈ failedPinTaskIds ∨ pin contract.id = false then .error .commitPinFailed
      else .ok ⟨contract, artifact⟩

/-- `finishFailedRun`: the partial candidate it hands over, if any. -/
def finishFailedRun (topologicalTasks : List Contract) (reason : PartialReason)
    (completeGateFailures : List GateFailure) (failedPinTaskIds : List String)
    (pin : String → Bool) (merger : Merger) : Option IntegrationArtifact :=
  if run.request.mergeEnabled ∧ run.integration = none ∧ run.integrationFailure = none then
    let writers := topologicalTasks.filter (·.role = .writer)
    let choose := chooseWriter run failedPinTaskIds pin
    let included := writers.filterMap fun contract => (choose contract).toOption
    let omittedWriterTasks := writers.filterMap fun contract =>
      match choose contract with
      | .ok _ => none
      | .error omission => some (contract.id, omission)
    if included.length = 0 then none
    else
      let includedWriterTaskIds := included.map (·.contract.id)
      let qualityTasks := topologicalTasks.filterMap fun contract =>
        (run.taskOf contract.id).bind fun task =>
          task.artifact.bind fun artifact =>
            if task.status ≠ .succeeded then none
            else if contract.role = .writer ∧ contract.id ∉ includedWriterTaskIds then none
            else some (⟨contract, artifact⟩ : QualityTask)
      let negativeTasks := topologicalTasks.flatMap fun contract =>
        match run.taskOf contract.id with
        | none => []
        | some task => negativeTask task.taskId task
      let quality := evaluatePartialCandidateQuality qualityTasks includedWriterTaskIds
      let merged := merger.mergeTaskCommits (included.map fun item =>
        (item.contract.id, item.artifact.commit.getD ""))
      some { merged with
        quality := some quality
        provenance := some { reason, completeGateFailures, includedWriterTaskIds, omittedWriterTasks, negativeTasks } }
  else none

/-- `finishSuccessfulRun`: the candidate it, or `finishFailedRun` for it, hands over. -/
def finishSuccessfulRun (topologicalTasks : List Contract) (pins : Pins)
    (merger : Merger) : Except String (Option IntegrationArtifact) :=
  if run.request.mergeEnabled ∧ run.integration = none then do
    let qualityTasks ← topologicalTasks.mapM fun contract =>
      match (run.taskOf contract.id).bind (·.artifact) with
      | none => .error ("Succeeded task " ++ contract.id ++ " has no durable artifact")
      | some artifact => .ok (⟨contract, artifact⟩ : QualityTask)
    let commits := qualityTasks.filterMap fun item =>
      item.artifact.commit?.map fun commit => (item.contract.id, commit)
    let tried := qualityTasks.filter fun item =>
      item.contract.role = .writer && item.artifact.commit?.isSome
    let pinnedWriterTaskIds := (tried.map (·.contract.id)).filter pins.complete
    let pinErrors := (tried.map (·.contract.id)).filter fun taskId => !pins.complete taskId
    let quality := evaluateCandidateQuality qualityTasks pinnedWriterTaskIds
    if quality.gatePassed then
      return some { merger.mergeTaskCommits commits with quality := some quality }
    else
      return finishFailedRun run topologicalTasks .candidateQualityFailure quality.gateFailures
        pinErrors pins.fallback merger
  else .ok none

/-- A task that failed, or that succeeded without an accepted outcome. -/
def Task.unaccepted (t : Task) : Prop :=
  t.status = .failed ∨ t.status = .cancelled ∨ t.status = .blocked ∨
    (t.status = .succeeded ∧ t.artifact.map (·.quality.semanticOutcome) ≠ some .accepted)

instance (t : Task) : Decidable t.unaccepted := inferInstanceAs (Decidable (_ ∨ _ ∨ _ ∨ _))

/-- The end of the main loop, for a running run whose tasks are all settled: the candidate that is
handed to `recordDagIntegration`. -/
def settledCandidate (pins : Pins) (merger : Merger) :
    Except String (Option IntegrationArtifact) := do
  let request ← decodeCompiledDagRequest run.request
  let topologicalTasks ← stableTopologicalTasks request.tasks
  if run.graphSealed = false then return none
  else if ∃ t ∈ run.tasks, t.unaccepted then
    return finishFailedRun run topologicalTasks .taskFailure [] [] pins.fallback merger
  else finishSuccessfulRun run topologicalTasks pins merger

/-! ### The rows in topological order -/

theorem topologicalTasksLoop_ids {tasks : List Contract} : ∀ {fuel : ℕ}
    {ordered order : List Contract}, topologicalTasksLoop tasks fuel ordered = .ok order →
    ordered ⊆ tasks → topologicalLoop tasks fuel (ordered.map (·.id)) = .ok (order.map (·.id)) ∧ order ⊆ tasks
  | 0, _, _, h, hsub => by
    cases h
    exact ⟨rfl, hsub⟩
  | fuel + 1, ordered, order, h, hsub => by
    rw [topologicalTasksLoop] at h
    rw [topologicalLoop]
    cases hf : tasks.find? fun task => task.id ∉ ordered.map (·.id) ∧ ∀ dependency ∈ task.dependsOn,
        dependency ∈ ordered.map (·.id) with
    | none =>
      rw [hf] at h
      cases h
    | some next =>
      rw [hf] at h
      obtain ⟨-, -, h⟩ := bind_ok_iff.mp h
      have hsub' : ordered ++ [next] ⊆ tasks := by
        rw [append_subset]
        exact ⟨hsub, by simpa using mem_of_find?_eq_some hf⟩
      have hrest := topologicalTasksLoop_ids h hsub'
      rw [map_append] at hrest
      exact hrest

/-- The tasks of a run in the order of its graph. -/
structure Ordered (run : Run) (rows : List Task) : Prop where
  perm : rows.Perm run.tasks
  ids : stableTopologicalTaskIds run.request = .ok (rows.map (·.taskId))

variable {t : Task}

theorem Run.taskOf_eq {run : Run} (hi : RunInv run) (ht : t ∈ run.tasks) : run.taskOf t.taskId = some t :=
  find?_key_eq hi.taskIds ht

theorem ordered_of_stableTopologicalTasks {run : Run} (hi : RunInv run) {order : List Contract}
    (h : stableTopologicalTasks run.request.tasks = .ok order) :
    ∃ rows, Ordered run rows ∧ order = rows.map (·.contract) := by
  obtain ⟨hids, hsub⟩ := topologicalTasksLoop_ids h (by simp)
  obtain ⟨-, hnd, -, hlen⟩ := topologicalLoop_ordered hi.graph.ids .nil nodup_nil (by simp) hids
  have hperm : order.Perm run.request.tasks := by
    refine (subperm_of_subset hnd.of_map hsub).perm_of_length_le ?_
    simpa using hlen.ge
  have hrow : ∀ contract ∈ order, ∃ t, run.taskOf contract.id = some t ∧ t.contract = contract := by
    intro contract hc
    have hmem := hsub hc
    rw [← hi.graph.contracts, mem_map] at hmem
    obtain ⟨t, ht, rfl⟩ := hmem
    exact ⟨t, Run.taskOf_eq hi ht, rfl⟩
  have hord : order = (order.filterMap fun contract => run.taskOf contract.id).map
      (·.contract) := by
    rw [map_filterMap]
    refine (filterMap_some.symm.trans (filterMap_congr fun contract hc => ?_))
    obtain ⟨t, ht, hcon⟩ := hrow contract hc
    rw [ht, Option.map_some, hcon]
  refine ⟨order.filterMap fun contract => run.taskOf contract.id, ⟨?_, ?_⟩, hord⟩
  · have hall : run.request.tasks.filterMap (fun contract => run.taskOf contract.id) = run.tasks := by
      rw [← hi.graph.contracts, filterMap_map]
      exact (filterMap_congr fun t ht => Run.taskOf_eq hi ht).trans filterMap_some
    rw [← hall]
    exact hperm.filterMap _
  · have hid : ∀ rows : List Task, rows.map (·.taskId) = (rows.map (·.contract)).map (·.id) := by
      intro rows
      rw [map_map]
      rfl
    rw [hid, ← hord]
    exact hids

def Task.quality? (t : Task) : Option QualityTask := t.artifact.map fun artifact => ⟨t.contract, artifact⟩

/-- A writer whose work can be in a partial candidate. -/
def Task.eligible (t : Task) : Bool := t.role = .writer && writerOmission t.contract t.status t.artifact = none

def Task.chosen (failedPinTaskIds : List String) (pin : String → Bool) (t : Task) : Bool :=
  t.eligible && t.taskId ∉ failedPinTaskIds && pin t.taskId

theorem writerOmission_eq_none {contract : Contract} {status : TaskStatus}
    {artifact : Option TaskArtifact} : writerOmission contract status artifact = none ↔
      status = .succeeded ∧ ∃ a, artifact = some a ∧ a.quality.semanticOutcome = .accepted ∧
        a.quality.pathAudit = .passed ∧ allValidationsPassed contract a = true ∧ ∃ commit, a.commit? = some commit := by
  cases artifact with
  | none => simp [writerOmission]
  | some a =>
    cases hc : a.commit? with
    | none =>
      simp only [writerOmission, hc, ne_eq]
      split_ifs <;> simp [hc]
    | some commit =>
      simp only [writerOmission, ne_eq, ite_not, hc, reduceCtorEq, if_false, Option.some.injEq,
        exists_eq_left', exists_eq', and_true]
      by_cases h1 : status = .succeeded <;> by_cases h2 : a.quality.semanticOutcome = .accepted <;>
        by_cases h3 : a.quality.pathAudit = .passed <;>
        by_cases h4 : allValidationsPassed contract a = true <;> simp [h1, h2, h3, h4]

theorem writerOmission_ne_commitPinFailed {contract : Contract} {status : TaskStatus}
    {artifact : Option TaskArtifact} {omission : OmissionReason}
    (h : writerOmission contract status artifact = some omission) : omission ≠ .commitPinFailed := by
  unfold writerOmission at h
  split at h
  · cases h
    simp
  · split_ifs at h <;> cases h <;> simp

theorem commit?_eq_some {artifact : TaskArtifact} {commit : String}
    (h : artifact.commit? = some commit) : artifact.commit = some commit ∧ commit ≠ "" := by
  simpa [TaskArtifact.commit?, Option.filter_eq_some_iff] using h

/-- **What the loop does with a writer.** -/
theorem chooseWriter_eq {run : Run} (hi : RunInv run) (ht : t ∈ run.tasks)
    (hw : t.role = .writer) (failed : List String) (pin : String → Bool) :
    (t.chosen failed pin = true ∧ ∃ item, t.quality? = some item ∧ chooseWriter run failed pin t.contract = .ok item) ∨
    (t.chosen failed pin = false ∧ chooseWriter run failed pin t.contract =
      .error ((writerOmission t.contract t.status t.artifact).getD .commitPinFailed)) := by
  have hrow : run.taskOf t.contract.id = some t := Run.taskOf_eq hi ht
  unfold chooseWriter
  rw [hrow]
  cases ho : writerOmission t.contract t.status t.artifact with
  | some omission => exact .inr ⟨by simp [Task.chosen, Task.eligible, ho], by simp [ho]⟩
  | none =>
    obtain ⟨-, a, ha, -⟩ := writerOmission_eq_none.mp ho
    by_cases hp : t.contract.id ∈ failed ∨ pin t.contract.id = false
    · refine .inr ⟨?_, ?_⟩
      · rcases hp with hp | hp <;> simp [Task.chosen, Task.taskId, hp]
      · rw [ha] at ho
        simp only [ho, ha]
        rw [if_pos hp]
        rfl
    · refine .inl ⟨?_, ⟨t.contract, a⟩, by simp [Task.quality?, ha], ?_⟩
      · simp only [not_or, Bool.not_eq_false] at hp
        simp [Task.chosen, Task.eligible, Task.taskId, hw, ho, hp]
      · rw [ha] at ho
        simp only [ho, ha]
        rw [if_neg hp]

/-! ### The partial candidate -/

variable (chosen : Task → Bool)

/-- The tasks of a partial candidate: all that succeeded, but for the writers left out. -/
def partialTasks (rows : List Task) : List QualityTask :=
  (rows.filter fun t => t.status = .succeeded && (t.role ≠ .writer || chosen t)).filterMap
    Task.quality?

/-- Which writers a partial candidate has, and why not the others. -/
def partialProvenance (rows : List Task) (reason : PartialReason)
    (failures : List GateFailure) : PartialProvenance where
  reason := reason
  completeGateFailures := failures
  includedWriterTaskIds := (rows.filter chosen).map (·.taskId)
  omittedWriterTasks := (rows.filter fun t => t.role = .writer && !chosen t).map fun t =>
    (t.taskId, (writerOmission t.contract t.status t.artifact).getD .commitPinFailed)
  negativeTasks := rows.flatMap fun t => negativeTask t.taskId t

/-- The quality of the partial candidate of the chosen writers. -/
def partialQuality (rows : List Task) : CandidateQuality :=
  evaluatePartialCandidateQuality (partialTasks chosen rows) ((rows.filter chosen).map (·.taskId))

/-- The partial candidate of the chosen writers. -/
def partialCandidate (rows : List Task) (reason : PartialReason)
    (failures : List GateFailure) (merger : Merger) : IntegrationArtifact :=
  { merger.mergeTaskCommits ((rows.filter chosen).filterMap fun t =>
      (t.artifact.bind (·.commit)).map fun commit => (t.taskId, commit)) with
    quality := some (partialQuality chosen rows)
    provenance := some (partialProvenance chosen rows reason failures) }

theorem Task.chosen_eligible {failed : List String} {pin : String → Bool} (h : t.chosen failed pin) : t.eligible := by
  simp only [Task.chosen, Bool.and_eq_true] at h
  exact h.1.1

theorem Task.eligible_iff : t.eligible ↔ t.role = .writer ∧ t.status = .succeeded ∧
    ∃ a, t.artifact = some a ∧ a.quality.semanticOutcome = .accepted ∧
      a.quality.pathAudit = .passed ∧ allValidationsPassed t.contract a = true ∧ ∃ commit, a.commit? = some commit := by
  unfold Task.eligible
  rw [Bool.and_eq_true, decide_eq_true_eq, decide_eq_true_eq, writerOmission_eq_none]

section Rows

variable {run : Run} {rows : List Task}

theorem Ordered.mem (ho : Ordered run rows) (ht : t ∈ rows) : t ∈ run.tasks := ho.perm.mem_iff.mp ht

theorem Ordered.nodup (hi : RunInv run) (ho : Ordered run rows) : (rows.map (·.taskId)).Nodup :=
  (ho.perm.map _).nodup_iff.mpr hi.taskIds

theorem Ordered.taskOf (hi : RunInv run) (ho : Ordered run rows) (ht : t ∈ rows) : run.taskOf t.contract.id = some t :=
  Run.taskOf_eq hi (ho.mem ht)

theorem included_eq (hi : RunInv run) (ho : Ordered run rows) (failed : List String) (pin : String → Bool) :
    ((rows.map (·.contract)).filter (·.role = .writer)).filterMap
      (fun contract => (chooseWriter run failed pin contract).toOption) =
      (rows.filter (Task.chosen failed pin)).filterMap Task.quality? := by
  rw [filter_map, filterMap_map, filterMap_filter, filterMap_filter]
  refine filterMap_congr fun t ht => ?_
  simp only [Function.comp_apply]
  by_cases hw : t.role = .writer
  · obtain ⟨hc, item, hitem, h⟩ | ⟨hc, h⟩ := chooseWriter_eq hi (ho.mem ht) hw failed pin
    · rw [h, hc, hitem]
      simp [show t.contract.role = .writer from hw, Except.toOption]
    · rw [h, hc]
      simp [Except.toOption]
  · have hc : t.chosen failed pin = false := by
      rw [Bool.eq_false_iff]
      exact fun h => hw (Task.eligible_iff.mp (Task.chosen_eligible h)).1
    rw [hc]
    simp [show t.contract.role ≠ .writer from hw]

theorem omitted_eq (hi : RunInv run) (ho : Ordered run rows) (failed : List String) (pin : String → Bool) :
    ((rows.map (·.contract)).filter (·.role = .writer)).filterMap
      (fun contract => match chooseWriter run failed pin contract with
        | .ok _ => none
        | .error omission => some (contract.id, omission)) =
      (rows.filter fun t => t.role = .writer && !t.chosen failed pin).map fun t =>
        (t.taskId, (writerOmission t.contract t.status t.artifact).getD .commitPinFailed) := by
  rw [filter_map, filterMap_map, ← filterMap_eq_map, filterMap_filter, filterMap_filter]
  refine filterMap_congr fun t ht => ?_
  simp only [Function.comp_apply]
  by_cases hw : t.role = .writer
  · obtain ⟨hc, item, -, h⟩ | ⟨hc, h⟩ := chooseWriter_eq hi (ho.mem ht) hw failed pin
    · rw [h, hc]
      simp
    · rw [h, hc]
      simp [hw, show t.contract.role = .writer from hw, Task.taskId]
  · simp [hw, show t.contract.role ≠ .writer from hw]

theorem chosen_quality {failed : List String} {pin : String → Bool}
    (h : t.chosen failed pin) : ∃ a commit, t.artifact = some a ∧ a.commit = some commit := by
  obtain ⟨-, -, a, ha, -, -, -, commit, hcom⟩ := Task.eligible_iff.mp (Task.chosen_eligible h)
  exact ⟨a, commit, ha, (commit?_eq_some hcom).1⟩

theorem included_map {β : Type} (f : QualityTask → β) (g : Task → Option β) {failed : List String}
    {pin : String → Bool} (hfg : ∀ t a commit, t.artifact = some a → a.commit = some commit →
      g t = some (f ⟨t.contract, a⟩)) :
    ((rows.filter (Task.chosen failed pin)).filterMap Task.quality?).map f =
      (rows.filter (Task.chosen failed pin)).filterMap g := by
  rw [map_filterMap]
  refine filterMap_congr fun t ht => ?_
  obtain ⟨a, commit, ha, hcom⟩ := chosen_quality (mem_filter.mp ht).2
  rw [hfg t a commit ha hcom, Task.quality?, ha]
  rfl

theorem Ordered.mem_ids (hi : RunInv run) (ho : Ordered run rows) (p : Task → Bool)
    (ht : t ∈ rows) : t.taskId ∈ (rows.filter p).map (·.taskId) ↔ p t := by
  simp only [mem_map, mem_filter]
  constructor
  · rintro ⟨u, ⟨hu, hp⟩, hid⟩
    rwa [← inj_on_of_nodup_map (ho.nodup hi) hu ht hid]
  · exact fun hp => ⟨t, ⟨ht, hp⟩, rfl⟩

theorem partialTasks_eq (hi : RunInv run) (ho : Ordered run rows) (chosen : Task → Bool) :
    (rows.map (·.contract)).filterMap (fun contract =>
      (run.taskOf contract.id).bind fun task => task.artifact.bind fun artifact =>
        if task.status ≠ .succeeded then none
        else if contract.role = .writer ∧ contract.id ∉ (rows.filter chosen).map (·.taskId) then none
        else some (⟨contract, artifact⟩ : QualityTask)) = partialTasks chosen rows := by
  unfold partialTasks
  rw [filterMap_map, filterMap_filter]
  refine filterMap_congr fun t ht => ?_
  have hmem : t.contract.id ∈ (rows.filter chosen).map (·.taskId) ↔ chosen t := ho.mem_ids hi _ ht
  simp only [Function.comp_apply, ho.taskOf hi ht, Option.bind_some, hmem, Task.quality?]
  cases t.artifact with
  | none => simp
  | some a =>
    by_cases hs : t.status = .succeeded <;> by_cases hw : t.contract.role = .writer <;>
      cases chosen t <;> simp [hs, hw, Task.role]

/-- **The candidate of a failed run.** -/
theorem finishFailedRun_eq (hi : RunInv run) (ho : Ordered run rows) (reason : PartialReason)
    (failures : List GateFailure) (failed : List String) (pin : String → Bool) (merger : Merger) :
    finishFailedRun run (rows.map (·.contract)) reason failures failed pin merger =
      if run.request.mergeEnabled ∧ run.integration = none ∧ run.integrationFailure = none ∧
          rows.filter (Task.chosen failed pin) ≠ [] then
        some (partialCandidate (Task.chosen failed pin) rows reason failures merger)
      else none := by
  have hids : ((rows.filter (Task.chosen failed pin)).filterMap Task.quality?).map
      (·.contract.id) = (rows.filter (Task.chosen failed pin)).map (·.taskId) := by
    rw [included_map (·.contract.id) (fun t => some t.taskId) (fun _ _ _ _ _ => rfl), filterMap_eq_map']
  have hlen : ((rows.filter (Task.chosen failed pin)).filterMap Task.quality?).length = 0 ↔
      rows.filter (Task.chosen failed pin) = [] := by
    rw [← length_map (·.contract.id), hids, length_map, length_eq_zero_iff]
  have hcoms := @included_map rows _
    (fun item => (item.contract.id, item.artifact.commit.getD ""))
    (fun t => (t.artifact.bind (·.commit)).map fun commit => (t.taskId, commit)) failed pin
    (fun t a commit ha hcom => by simp [ha, hcom, Task.taskId])
  have hnega : (rows.map (·.contract)).flatMap (fun contract =>
      match run.taskOf contract.id with
      | none => []
      | some task => negativeTask task.taskId task) = rows.flatMap fun t => negativeTask t.taskId t := by
    rw [flatMap_map]
    refine flatMap_congr fun t ht => ?_
    rw [ho.taskOf hi ht]
  unfold finishFailedRun
  by_cases hc : run.request.mergeEnabled ∧ run.integration = none ∧ run.integrationFailure = none
  · rw [if_pos hc]
    simp only [included_eq hi ho, omitted_eq hi ho]
    by_cases hnil : rows.filter (Task.chosen failed pin) = []
    · rw [if_pos (hlen.mpr hnil), if_neg (by tauto)]
    · rw [if_neg (fun h => hnil (hlen.mp h)), if_pos ⟨hc.1, hc.2.1, hc.2.2, hnil⟩]
      simp only [hids, hcoms, hnega, partialTasks_eq hi ho]
      rfl
  · rw [if_neg hc, if_neg (by tauto)]

/-! ### The complete candidate -/

/-- The contracts and artifacts of all tasks. -/
def allTasks (rows : List Task) : List QualityTask := rows.filterMap Task.quality?

variable (pins : Pins)

/-- The writers whose commits are pinned for a complete candidate. -/
def pinnedIds (tasks : List QualityTask) : List String :=
  ((tasks.filter fun item => item.contract.role = .writer && item.artifact.commit?.isSome).map
    (·.contract.id)).filter pins.complete

def unpinnedIds (tasks : List QualityTask) : List String :=
  ((tasks.filter fun item => item.contract.role = .writer && item.artifact.commit?.isSome).map
    (·.contract.id)).filter fun taskId => !pins.complete taskId

def completeCandidate (rows : List Task) (merger : Merger) : IntegrationArtifact :=
  { merger.mergeTaskCommits ((allTasks rows).filterMap fun item =>
      item.artifact.commit?.map fun commit => (item.contract.id, commit)) with
    quality := some (evaluateCandidateQuality (allTasks rows) (pinnedIds pins (allTasks rows))) }

theorem allTasks_perm (ho : Ordered run rows) : (allTasks rows).Perm (allTasks run.tasks) := ho.perm.filterMap _

theorem mem_allTasks {item : QualityTask} :
    item ∈ allTasks rows ↔ ∃ t ∈ rows, t.contract = item.contract ∧ t.artifact = some item.artifact := by
  simp only [allTasks, mem_filterMap, Task.quality?, Option.map_eq_some_iff]
  constructor
  · rintro ⟨t, ht, a, ha, rfl⟩
    exact ⟨t, ht, rfl, ha⟩
  · rintro ⟨t, ht, hc, ha⟩
    exact ⟨t, ht, item.artifact, ha, by rw [hc]⟩

theorem quality_nodup (hi : RunInv run) (ho : Ordered run rows) {tasks : List Task}
    (hsub : tasks.Sublist rows) : ((tasks.filterMap Task.quality?).map (·.contract.id)).Nodup := by
  have hids : (tasks.filterMap Task.quality?).map (·.contract.id) =
      (tasks.filter (·.artifact.isSome)).map (·.taskId) := by
    rw [map_filterMap, ← filterMap_eq_map, filterMap_filter]
    refine filterMap_congr fun t _ => ?_
    cases ha : t.artifact <;> simp [Task.quality?, ha, Task.taskId]
  rw [hids]
  exact ((filter_sublist.trans hsub).map _).nodup (ho.nodup hi)

theorem allTasks_nodup (hi : RunInv run) (ho : Ordered run rows) : ((allTasks rows).map (·.contract.id)).Nodup :=
  quality_nodup hi ho (List.Sublist.refl rows)

/-- **The candidate of a run all of whose tasks delivered.** -/
theorem finishSuccessfulRun_eq (hi : RunInv run) (ho : Ordered run rows)
    (hall : ∀ t ∈ run.tasks, ∃ a, t.artifact = some a) (pins : Pins) (merger : Merger) :
    finishSuccessfulRun run (rows.map (·.contract)) pins merger =
      if run.request.mergeEnabled ∧ run.integration = none then
        if (evaluateCandidateQuality (allTasks rows) (pinnedIds pins (allTasks rows))).gatePassed then
          .ok (some (completeCandidate pins rows merger))
        else .ok (finishFailedRun run (rows.map (·.contract)) .candidateQualityFailure
          (evaluateCandidateQuality (allTasks rows) (pinnedIds pins (allTasks rows))).gateFailures
          (unpinnedIds pins (allTasks rows)) pins.fallback merger)
      else .ok none := by
  have hmap : ∀ l ⊆ rows, (l.map (·.contract)).mapM (fun contract =>
      match (run.taskOf contract.id).bind (·.artifact) with
      | none => Except.error ("Succeeded task " ++ contract.id ++ " has no durable artifact")
      | some artifact => .ok (⟨contract, artifact⟩ : QualityTask)) = .ok (allTasks l) := by
    intro l hl
    induction l with
    | nil => rfl
    | cons t l ih =>
      obtain ⟨a, ha⟩ := hall t (ho.mem (hl mem_cons_self))
      rw [map_cons, mapM_cons, ih fun u hu => hl (mem_cons_of_mem t hu), ho.taskOf hi (hl mem_cons_self)]
      simp only [Option.bind_some, ha, allTasks, filterMap_cons, Task.quality?]
      rfl
  unfold finishSuccessfulRun
  rw [hmap rows (List.Subset.refl rows)]
  rfl

theorem accepted_of_not_unaccepted (hs : t.status.Terminal) (h : ¬ t.unaccepted) :
    t.status = .succeeded ∧ ∃ a, t.artifact = some a ∧ a.quality.semanticOutcome = .accepted := by
  simp only [Task.unaccepted, not_or, not_and, not_not] at h
  obtain ⟨hf, hc, hb, hsuc⟩ := h
  have hsts : t.status = .succeeded := by
    cases hst : t.status with
    | pending => exact absurd hst hs.1
    | running => exact absurd hst hs.2
    | succeeded => rfl
    | failed => exact absurd hst hf
    | cancelled => exact absurd hst hc
    | blocked => exact absurd hst hb
  obtain ⟨a, ha, ho⟩ := Option.map_eq_some_iff.mp (hsuc hsts)
  exact ⟨hsts, a, ha, ho⟩

/-- The writers `finishFailedRun` includes after a failed gate. -/
def fallbackChosen (rows : List Task) : Task → Bool :=
  Task.chosen (unpinnedIds pins (allTasks rows)) pins.fallback

def completeQuality (rows : List Task) : CandidateQuality :=
  evaluateCandidateQuality (allTasks rows) (pinnedIds pins (allTasks rows))

/-- **The candidate of a settled run**: of a run with a task that is not accepted, a complete one,
or what is left after a failed gate. -/
theorem settledCandidate_eq_some (hi : RunInv run) (hstl : ∀ t ∈ run.tasks, t.status.Terminal)
    {pins : Pins} {merger : Merger} {candidate : IntegrationArtifact} :
    settledCandidate run pins merger = .ok (some candidate) ↔
      decodeCompiledDagRequest run.request = .ok run.request ∧ run.graphSealed = true ∧
      run.request.mergeEnabled = true ∧ run.integration = none ∧ ∃ rows, Ordered run rows ∧
      stableTopologicalTasks run.request.tasks = .ok (rows.map (·.contract)) ∧
      (((∃ t ∈ run.tasks, t.unaccepted) ∧ run.integrationFailure = none ∧
          rows.filter (Task.chosen [] pins.fallback) ≠ [] ∧
          candidate = partialCandidate (Task.chosen [] pins.fallback) rows .taskFailure [] merger) ∨
        ((¬ ∃ t ∈ run.tasks, t.unaccepted) ∧ (completeQuality pins rows).gatePassed = true ∧
          candidate = completeCandidate pins rows merger) ∨
        ((¬ ∃ t ∈ run.tasks, t.unaccepted) ∧ ¬ (completeQuality pins rows).gatePassed = true ∧
          run.integrationFailure = none ∧ rows.filter (fallbackChosen pins rows) ≠ [] ∧
          candidate = partialCandidate (fallbackChosen pins rows) rows .candidateQualityFailure
            (completeQuality pins rows).gateFailures merger)) := by
  have hart : (¬ ∃ t ∈ run.tasks, t.unaccepted) → ∀ t ∈ run.tasks, ∃ a, t.artifact = some a := by
    intro h t ht
    obtain ⟨-, a, ha, -⟩ := accepted_of_not_unaccepted (hstl t ht) fun hu => h ⟨t, ht, hu⟩
    exact ⟨a, ha⟩
  simp only [settledCandidate, bind_ok_iff]
  constructor
  · rintro ⟨request, hdec, order, hord, h⟩
    obtain rfl : run.request = request := by
      obtain ⟨-, -, hreq⟩ := bind_ok_iff.mp hdec
      exact pure_ok_iff.mp hreq
    obtain ⟨rows, ho, rfl⟩ := ordered_of_stableTopologicalTasks hi hord
    split at h
    · cases h
    rename_i hsea
    split at h
    · rename_i hneg
      rw [finishFailedRun_eq hi ho] at h
      split at h
      · rename_i hc
        cases h
        exact ⟨hdec, by simpa using hsea, hc.1, hc.2.1, rows, ho, hord, .inl ⟨hneg, hc.2.2.1, hc.2.2.2, rfl⟩⟩
      · cases h
    · rename_i hpos
      rw [finishSuccessfulRun_eq hi ho (hart hpos)] at h
      split at h
      · rename_i hc
        split at h
        · rename_i hgate
          cases h
          exact ⟨hdec, by simpa using hsea, hc.1, hc.2, rows, ho, hord, .inr (.inl ⟨hpos, hgate, rfl⟩)⟩
        · rename_i hgate
          rw [finishFailedRun_eq hi ho] at h
          split at h
          · rename_i hc
            cases h
            exact ⟨hdec, by simpa using hsea, hc.1, hc.2.1, rows, ho, hord,
              .inr (.inr ⟨hpos, hgate, hc.2.2.1, hc.2.2.2, rfl⟩)⟩
          · cases h
      · cases h
  · rintro ⟨hdec, hsea, hmer, hinte, rows, ho, hord, h⟩
    refine ⟨run.request, hdec, _, hord, ?_⟩
    rw [if_neg (by simp [hsea])]
    obtain ⟨hneg, hfai, hne, rfl⟩ | ⟨hpos, hgate, rfl⟩ | ⟨hpos, hgate, hfai, hne, rfl⟩ := h
    · rw [if_pos hneg, finishFailedRun_eq hi ho, if_pos ⟨hmer, hinte, hfai, hne⟩]
      rfl
    · rw [if_neg hpos, finishSuccessfulRun_eq hi ho (hart hpos), if_pos ⟨hmer, hinte⟩]
      exact if_pos hgate
    · rw [if_neg hpos, finishSuccessfulRun_eq hi ho (hart hpos), if_pos ⟨hmer, hinte⟩]
      refine (if_neg hgate).trans ?_
      rw [finishFailedRun_eq hi ho, if_pos ⟨hmer, hinte, hfai, hne⟩]
      rfl

end Rows

end EasyPi.Subagent
