/-
# The ledger and the candidate it is given

`recordDagIntegration` (`packages/subagent/src/ledger.ts`) computes the candidate
of a run from its own rows and accepts no other. It agrees with the orchestrator
on complete candidates and on those of runs with failed tasks. After a failed
gate it wants every failure of the complete candidate to show in the partial one;
what failed may be a writer that the partial candidate leaves out, and then the
candidate is refused and its work is lost to the run.
-/
import EasyPi.Subagent.Candidate

namespace EasyPi.Subagent

open List

section Rows

variable {run : Run} {rows : List Task}

/-! ### A partial candidate -/

theorem rowsOf_eq (hi : RunInv run) {tasks : List Task} (htks : ∀ t ∈ tasks, t ∈ run.tasks) :
    run.rowsOf run.request (tasks.map (·.taskId)) = tasks.map fun t => (t.contract, t) := by
  unfold Run.rowsOf
  rw [filterMap_map, ← filterMap_eq_map]
  refine filterMap_congr fun t ht => ?_
  have hcon : t.contract ∈ run.request.tasks := by
    rw [← hi.graph.contracts]
    exact mem_map_of_mem (htks t ht)
  have hfind : run.request.tasks.find? (·.id = t.taskId) = some t.contract := find?_key_eq hi.graph.ids hcon
  have hrow : run.tasks.find? (·.taskId = t.taskId) = some t := Run.taskOf_eq hi (htks t ht)
  simp only [Function.comp_apply, hfind, hrow, Option.bind_some, Option.map_some]

variable {chosen : Task → Bool}

theorem writers_included (hi : RunInv run) (ho : Ordered run rows) (hcho : ∀ t, chosen t → t.eligible) :
    (((rows.map fun t => (t.contract, t)).filter (·.1.role = .writer)).filter
      (·.1.id ∈ (rows.filter chosen).map (·.taskId))) = (rows.filter chosen).map fun t => (t.contract, t) := by
  rw [filter_map, filter_map, filter_filter]
  refine congrArg _ (filter_congr fun t ht => ?_)
  have hmem : t.contract.id ∈ (rows.filter chosen).map (·.taskId) ↔ chosen t := ho.mem_ids hi _ ht
  simp only [Function.comp_apply, hmem]
  cases hc : chosen t with
  | false => simp
  | true =>
    have hw : t.contract.role = .writer := (Task.eligible_iff.mp (hcho t hc)).1
    simp [hw]

theorem writers_omitted (hi : RunInv run) (ho : Ordered run rows) (chosen : Task → Bool) :
    (((rows.map fun t => (t.contract, t)).filter (·.1.role = .writer)).filter
      (·.1.id ∉ (rows.filter chosen).map (·.taskId))) =
        (rows.filter fun t => t.role = .writer && !chosen t).map fun t => (t.contract, t) := by
  rw [filter_map, filter_map, filter_filter]
  refine congrArg _ (filter_congr fun t ht => ?_)
  have hmem : t.contract.id ∈ (rows.filter chosen).map (·.taskId) ↔ chosen t := ho.mem_ids hi _ ht
  simp only [Function.comp_apply, hmem, Task.role]
  by_cases hw : t.contract.role = .writer <;> cases chosen t <;> simp [hw]

theorem tasks_included (hi : RunInv run) (ho : Ordered run rows) (chosen : Task → Bool) :
    (((rows.map fun t => (t.contract, t)).filter fun row => row.2.status = .succeeded &&
      (row.1.role ≠ .writer || row.1.id ∈ (rows.filter chosen).map (·.taskId))).filterMap fun row =>
        row.2.artifact.map fun artifact => (⟨row.1, artifact⟩ : QualityTask)) = partialTasks chosen rows := by
  unfold partialTasks
  rw [filter_map, filterMap_map]
  refine congrArg (List.filterMap Task.quality?) (filter_congr fun t ht => ?_)
  have hmem : t.contract.id ∈ (rows.filter chosen).map (·.taskId) ↔ chosen t := ho.mem_ids hi _ ht
  simp only [Function.comp_apply, hmem, Task.role]
  by_cases hw : t.contract.role = .writer <;> simp [hw]

theorem ids_included (hi : RunInv run) (ho : Ordered run rows) (chosen : Task → Bool) :
    (rows.map (·.taskId)).filter (· ∈ (rows.filter chosen).map (·.taskId)) = (rows.filter chosen).map (·.taskId) := by
  rw [filter_map]
  refine congrArg _ (filter_congr fun t ht => ?_)
  simp [Function.comp_apply, ho.mem_ids hi chosen ht]

theorem commits_unzip {tasks : List Task} (h : ∀ t ∈ tasks, ∃ commit, t.artifact.bind (·.commit) = some commit) :
    (tasks.filterMap fun t => (t.artifact.bind (·.commit)).map fun commit =>
      (t.taskId, commit)).map (·.1) = tasks.map (·.taskId) ∧
    (tasks.filterMap fun t => (t.artifact.bind (·.commit)).map fun commit =>
      (t.taskId, commit)).map (·.2) = tasks.filterMap fun t => t.artifact.bind (·.commit) := by
  rw [map_filterMap, map_filterMap, ← filterMap_eq_map]
  constructor <;> refine filterMap_congr fun t ht => ?_ <;> obtain ⟨commit, hc⟩ := h t ht <;>
    simp [hc]

theorem pinFailed_iff {reason : PartialReason} {failures : List GateFailure} :
    (∃ task ∈ (partialProvenance chosen rows reason failures).omittedWriterTasks,
      task.2 = .commitPinFailed) ↔ ∃ t ∈ rows, t.eligible ∧ chosen t = false := by
  simp only [partialProvenance, mem_map, mem_filter, Bool.and_eq_true, decide_eq_true_eq, Bool.not_eq_true']
  constructor
  · rintro ⟨_, ⟨t, ⟨ht, hw, hc⟩, rfl⟩, hrsn⟩
    refine ⟨t, ht, ?_, hc⟩
    simp only [Task.eligible, hw, decide_true, Bool.true_and, decide_eq_true_eq]
    cases ho : writerOmission t.contract t.status t.artifact with
    | none => rfl
    | some omission =>
      rw [ho] at hrsn
      have hne : omission ≠ .commitPinFailed := writerOmission_ne_commitPinFailed ho
      exact absurd hrsn hne
  · rintro ⟨t, ht, helig, hc⟩
    simp only [Task.eligible, Bool.and_eq_true, decide_eq_true_eq] at helig
    exact ⟨_, ⟨t, ⟨ht, helig.1, hc⟩, rfl⟩, by simp [helig.2]⟩

/-- **What the ledger asks of the partial candidate of a run, beyond what it is by its making.** -/
theorem validatePartial_eq_ok (hi : RunInv run) (ho : Ordered run rows) (hsettled : ∀ t ∈ run.tasks, t.status.Terminal)
    (hcho : ∀ t, chosen t → t.eligible) (hne : rows.filter chosen ≠ []) (reason : PartialReason)
    {failures : List GateFailure} (hnd : failures.Nodup)
    (hdag : GateFailure.dagIncomplete ∉ failures) (merger : Merger) :
    validatePartial run run.request (rows.map (·.taskId)) (partialCandidate chosen rows reason failures merger)
      (partialProvenance chosen rows reason failures) = .ok () ↔ (reason = .taskFailure →
        (rows.flatMap fun t => negativeTask t.taskId t) ≠ [] ∧ failures = []) ∧
      (reason = .candidateQualityFailure → failures ≠ []) ∧
      (reason = .candidateQualityFailure → .commitPin ∈ failures → ∃ t ∈ rows, t.eligible ∧ chosen t = false) ∧
      (reason = .candidateQualityFailure → ∀ failure ∈ failures, failure ≠ .commitPin →
        failure ∈ (partialQuality chosen rows).gateFailures) := by
  have hcoms : ∀ t ∈ rows.filter chosen, ∃ commit, t.artifact.bind (·.commit) = some commit := by
    intro t ht
    obtain ⟨-, -, a, ha, -, -, -, commit, hcom⟩ := Task.eligible_iff.mp (hcho t (mem_filter.mp ht).2)
    exact ⟨commit, by rw [ha]; exact (commit?_eq_some hcom).1⟩
  obtain ⟨hfst, hsnd⟩ := commits_unzip hcoms
  have homis : ∀ row ∈ (rows.map fun t => (t.contract, t)).filter (·.1.role = .writer),
      row.1.id ∈ (rows.filter chosen).map (·.taskId) → writerOmission row.1 row.2.status row.2.artifact = none := by
    intro row hrow hid
    have hin : row ∈ (rows.filter chosen).map fun t => (t.contract, t) := by
      rw [← writers_included hi ho hcho]
      exact mem_filter.mpr ⟨hrow, by simpa using hid⟩
    obtain ⟨t, ht, rfl⟩ := mem_map.mp hin
    have helig := hcho t (mem_filter.mp ht).2
    simp only [Task.eligible, Bool.and_eq_true, decide_eq_true_eq] at helig
    exact helig.2
  have homi : (((rows.map fun t => (t.contract, t)).filter (·.1.role = .writer)).filter
      (·.1.id ∉ (rows.filter chosen).map (·.taskId))).map (fun row =>
        (row.1.id, (writerOmission row.1 row.2.status row.2.artifact).getD .commitPinFailed)) =
      (partialProvenance chosen rows reason failures).omittedWriterTasks := by
    rw [writers_omitted hi ho, map_map]
    rfl
  have hexp : (((rows.map fun t => (t.contract, t)).filter (·.1.role = .writer)).filter
      (·.1.id ∈ (rows.filter chosen).map (·.taskId))).filterMap (fun row =>
        row.2.artifact.bind (·.commit)) = (rows.filter chosen).filterMap fun t => t.artifact.bind (·.commit) := by
    rw [writers_included hi ho hcho, filterMap_map]
    rfl
  have hnega : (rows.map fun t => (t.contract, t)).flatMap (fun row => negativeTask row.1.id row.2) =
      rows.flatMap fun t => negativeTask t.taskId t := by
    rw [flatMap_map]
    rfl
  have hqua : evaluatePartialCandidateQuality (((rows.map fun t => (t.contract, t)).filter
      fun row => row.2.status = .succeeded && (row.1.role ≠ .writer ||
        row.1.id ∈ (rows.filter chosen).map (·.taskId))).filterMap fun row =>
          row.2.artifact.map fun artifact => (⟨row.1, artifact⟩ : QualityTask))
      ((rows.filter chosen).map (·.taskId)) = partialQuality chosen rows := by
    rw [tasks_included hi ho]
    rfl
  simp only [validatePartial, bind_ok_iff, require_eq_ok, exists_const]
  rw [@rowsOf_eq run hi rows fun t ht => ho.mem ht]
  constructor
  · rintro ⟨-, -, -, -, -, -, -, -, -, htask, -, hfail, hpin, hrest⟩
    refine ⟨hnega ▸ htask, hfail, fun hr hc => ?_, hqua ▸ hrest⟩
    exact pinFailed_iff.mp (homi ▸ hpin hr hc)
  · rintro ⟨htask, hfail, hpin, hrest⟩
    refine ⟨hsettled, by simpa [partialProvenance] using hne, ?_, ?_, (ids_included hi ho chosen).symm,
      homis, ?_, ⟨hnd, hdag⟩, ⟨homi.symm, hnega.symm⟩, hnega ▸ htask,
      congrArg some hqua.symm, hfail, fun hr hc => ?_, hqua ▸ hrest⟩
    · exact (merger.orderedTaskIds _).trans hfst
    · exact ((filter_sublist.map _).nodup (ho.nodup hi))
    · exact ((merger.orderedCommits _).trans hsnd).trans hexp.symm
    · exact homi ▸ pinFailed_iff.mpr (hpin hr hc)

/-! ### A complete candidate -/

theorem commits_eq_filter : ((allTasks rows).filterMap fun item =>
      item.artifact.commit?.map fun commit => (item.contract.id, commit)) =
    ((rows.map fun t => (t.contract, t)).filterMap fun row =>
      (row.2.artifact.bind (·.commit)).map fun commit => (row.1.id, commit)).filter (·.2 ≠ "") := by
  rw [allTasks, filterMap_filterMap, filterMap_map, filter_filterMap]
  refine filterMap_congr fun t _ => ?_
  simp only [Task.quality?, TaskArtifact.commit?]
  cases ha : t.artifact with
  | none => simp [ha]
  | some a =>
    cases hc : a.commit with
    | none => simp [ha, hc]
    | some commit => by_cases he : commit = "" <;> simp [ha, hc, he, Option.filter_some]

/-- **What the ledger asks of a complete candidate, beyond what it is by its making.** -/
theorem validateComplete_eq_ok (hi : RunInv run) (ho : Ordered run rows)
    (hall : ∀ t ∈ run.tasks, t.status = .succeeded ∧ ∃ a, t.artifact = some a) (pins : Pins)
    (hgate : (evaluateCandidateQuality (allTasks rows)
      (pinnedIds pins (allTasks rows))).gatePassed = true) (merger : Merger) :
    validateComplete run run.request (rows.map (·.taskId)) (completeCandidate pins rows merger) =
      .ok () ↔ ∀ item ∈ allTasks run.tasks, item.artifact.commit ≠ some "" := by
  have hrows := @rowsOf_eq run hi rows fun t ht => ho.mem ht
  have htks : run.rowsOf run.request (run.request.tasks.map (·.id)) = run.tasks.map fun t => (t.contract, t) := by
    rw [← @rowsOf_eq run hi run.tasks fun _ ht => ht, ← hi.graph.contracts, map_map]
    rfl
  have hemp : (∀ item ∈ allTasks run.tasks, item.artifact.commit ≠ some "") ↔
      ∀ pair ∈ (rows.map fun t => (t.contract, t)).filterMap fun row =>
        (row.2.artifact.bind (·.commit)).map fun commit => (row.1.id, commit), pair.2 ≠ "" := by
    simp only [filterMap_map, mem_filterMap, Function.comp_apply, Option.map_eq_some_iff, Option.bind_eq_some_iff]
    constructor
    · rintro h _ ⟨t, ht, commit, ⟨a, ha, hc⟩, rfl⟩ rfl
      exact h ⟨t.contract, a⟩ (mem_allTasks.mpr ⟨t, ho.mem ht, rfl, ha⟩) hc
    · intro h item hitem hc
      obtain ⟨t, ht, -, ha⟩ := mem_allTasks.mp hitem
      exact h (t.contract.id, "") ⟨t, ho.perm.mem_iff.mpr ht, "", ⟨_, ha, hc⟩, rfl⟩ rfl
  have hqua : evaluateCandidateQuality (allTasks run.tasks) (evaluateCandidateQuality
      (allTasks rows) (pinnedIds pins (allTasks rows))).pinnedWriterTaskIds =
      evaluateCandidateQuality (allTasks rows) (pinnedIds pins (allTasks rows)) := by
    rw [← evaluateCandidateQuality_perm (allTasks_perm ho) (allTasks_nodup hi ho)]
    refine evaluateCandidateQuality_pinned fun item hitem hrole => ?_
    change item.contract.id ∈ ((withRole .writer (allTasks rows)).map (·.contract.id)).filter
      (· ∈ pinnedIds pins (allTasks rows)) ↔ _
    simp only [mem_filter, decide_eq_true_eq, and_iff_right_iff_imp]
    exact fun _ => mem_map_of_mem (mem_withRole.mpr ⟨hitem, hrole⟩)
  unfold validateComplete completeCandidate
  simp only [bind_ok_iff, require_eq_ok, exists_const, hrows, htks, merger.orderedTaskIds, merger.orderedCommits]
  rw [hemp, commits_eq_filter]
  constructor
  · rintro ⟨-, -, -, ⟨-, hsnd⟩, -⟩ pair hpair hpe
    have hmem := mem_map_of_mem (f := fun pair : String × String => pair.2) hpair
    rw [← hsnd] at hmem
    obtain ⟨pair', hpair', heq⟩ := mem_map.mp hmem
    have hne := (mem_filter.mp hpair').2
    simp [heq, hpe] at hne
  · intro hne
    rw [filter_eq_self.mpr (by simpa using hne)]
    refine ⟨hgate, fun t ht => (hall t ht).1, ?_, ⟨rfl, rfl⟩, ?_⟩
    · intro row hrow
      obtain ⟨t, ht, rfl⟩ := mem_map.mp hrow
      obtain ⟨a, ha⟩ := (hall t ht).2
      simp [ha]
    · rw [filterMap_map]
      exact hqua

/-- The checks of `recordDagIntegration` on a candidate. -/
def validateCandidate (run : Run) (topologicalTaskIds : List String)
    (candidate : IntegrationArtifact) : Except String Unit :=
  match candidate.provenance with
  | none => validateComplete run run.request topologicalTaskIds candidate
  | some given => validatePartial run run.request topologicalTaskIds candidate given

/-- **A candidate is recorded when the ledger's own checks pass.** -/
theorem recordDagIntegration_accepts (ho : Ordered run rows) {ledger : Ledger} {runId : String}
    (hrun : ledger.runs.get? runId = some run) {now : ℤ} {lease : Option DagRunLease}
    (hnow : isSafeInteger now) (hlease : assertDagRunMutationLease run now lease = .ok ())
    (hstatus : run.status = .running) (hfailure : run.integrationFailure = none)
    (hintegration : run.integration = none) (hmer : run.request.mergeEnabled = true)
    (hdec : decodeCompiledDagRequest run.request = .ok run.request)
    {candidate : IntegrationArtifact} (hnormal : normalizedIntegrationArtifact candidate = .ok candidate) :
    (∃ ledger', recordDagIntegration runId candidate now lease ledger = .ok ((), ledger')) ↔
      validateCandidate run (rows.map (·.taskId)) candidate = .ok () := by
  simp only [recordDagIntegration, bind_ok_iff, require_eq_ok, transaction_eq_ok]
  unfold validateCandidate
  constructor
  · rintro ⟨_, -, -, _, hc, _, run', hr, ⟨-, -, -, -, -, -, h⟩, -⟩
    obtain rfl := Except.ok.inj (hnormal.symm.trans hc)
    obtain rfl := Option.some.inj (hrun.symm.trans hr)
    simp only [hintegration, bind_ok_iff, hdec, Except.ok.injEq, exists_eq_left', ho.ids] at h
    obtain ⟨-, -, h⟩ := h
    cases hp : candidate.provenance <;>
    · simp only [hp, bind_ok_iff] at h
      obtain ⟨_, hv, -⟩ := h
      exact hv
  · intro hv
    refine ⟨_, (), hnow, candidate, hnormal, run,
      { run with integration := some candidate }.event { type := "run.integration" }, hrun,
      ⟨(), hlease, (), hstatus, (), hfailure, ?_⟩, rfl⟩
    simp only [hintegration, bind_ok_iff, hdec, Except.ok.injEq, exists_eq_left', ho.ids]
    refine ⟨(), require_eq_ok.mpr hmer, ?_⟩
    cases hp : candidate.provenance <;>
    · rw [hp] at hv
      simp only [bind_ok_iff]
      exact ⟨(), hv, rfl⟩

end Rows

/-! ### When the two agree -/

/-- A succeeded writer whose work can be in a partial candidate. -/
def QualityTask.eligible (item : QualityTask) : Bool :=
  item.contract.role = .writer &&
    writerOmission item.contract .succeeded (some item.artifact) = none

/-- An eligible writer whose commit is pinned whenever that is tried. -/
def QualityTask.kept (pins : Pins) (item : QualityTask) : Bool :=
  item.eligible && pins.complete item.contract.id && pins.fallback item.contract.id

/-- What stops a complete candidate stops the partial one too: it is not a matter of the writers
that are left out. -/
structure Reflected (tasks : List QualityTask) (pins : Pins) : Prop where
  audited : ∀ item ∈ tasks, item.contract.role = .writer → item.artifact.quality.pathAudit = .passed
  validated : ∀ item ∈ tasks, item.contract.role = .writer → item.contract.validationCommandIds ≠ [] → item.validated
  pinned : (∃ item ∈ tasks, item.contract.role = .writer ∧
      (item.artifact.commit? = none ∨ pins.complete item.contract.id = false)) →
    ∃ item ∈ tasks, item.eligible ∧ item.kept pins = false
  reviewed : (∃ item ∈ tasks, item.contract.role = .reviewer) →
    (∀ item ∈ tasks, item.contract.role = .reviewer → ¬ item.Reviews tasks) →
    ∀ item ∈ tasks, item.contract.role = .reviewer → ¬ item.Reviews (tasks.filter (·.kept pins))
  commits : (∀ item ∈ tasks, item.contract.role = .writer →
      item.artifact.commit? ≠ none ∧ pins.complete item.contract.id) →
    (∀ item ∈ tasks, item.contract.role = .reviewer → item.artifact.quality.review.status? = some .accepted) →
    ((∃ item ∈ tasks, item.contract.role = .reviewer) →
      ∃ item ∈ tasks, item.contract.role = .reviewer ∧ item.Reviews tasks) →
    ∀ item ∈ tasks, item.artifact.commit ≠ some ""

/-- The ledger takes the candidate of a settled run: a task failed or was not accepted, or what
stops the complete candidate is in the partial one. -/
def CandidateFits (run : Run) (pins : Pins) : Prop :=
  (∃ t ∈ run.tasks, t.unaccepted) ∨ Reflected (allTasks run.tasks) pins

section Fits

variable {tasks : List QualityTask} {pins : Pins}

variable (hn : (tasks.map (·.contract.id)).Nodup)

include hn in
theorem mem_pinnedIds {item : QualityTask} (hitem : item ∈ tasks) (hw : item.contract.role = .writer) :
    item.contract.id ∈ pinnedIds pins tasks ↔ item.artifact.commit? ≠ none ∧ pins.complete item.contract.id := by
  simp only [pinnedIds, mem_filter, mem_map, Bool.and_eq_true, decide_eq_true_eq]
  constructor
  · rintro ⟨⟨other, ⟨hoth, -, hcom⟩, hid⟩, hp⟩
    rw [inj_on_of_nodup_map hn hoth hitem hid] at hcom
    exact ⟨Option.isSome_iff_ne_none.mp hcom, hp⟩
  · rintro ⟨hcom, hp⟩
    exact ⟨⟨item, ⟨hitem, hw, Option.isSome_iff_ne_none.mpr hcom⟩, rfl⟩, hp⟩

include hn in
theorem mem_unpinnedIds {item : QualityTask} (hitem : item ∈ tasks) (hw : item.contract.role = .writer) :
    item.contract.id ∈ unpinnedIds pins tasks ↔
      item.artifact.commit? ≠ none ∧ pins.complete item.contract.id = false := by
  simp only [unpinnedIds, mem_filter, mem_map, Bool.and_eq_true, decide_eq_true_eq, Bool.not_eq_true']
  constructor
  · rintro ⟨⟨other, ⟨hoth, -, hcom⟩, hid⟩, hp⟩
    rw [inj_on_of_nodup_map hn hoth hitem hid] at hcom
    exact ⟨Option.isSome_iff_ne_none.mp hcom, hp⟩
  · rintro ⟨hcom, hp⟩
    exact ⟨⟨item, ⟨hitem, hw, Option.isSome_iff_ne_none.mpr hcom⟩, rfl⟩, hp⟩

variable {item : QualityTask}

theorem validated_of_allValidationsPassed
    (h : allValidationsPassed item.contract item.artifact = true) : item.validated = true := by
  simp only [allValidationsPassed, Bool.and_eq_true, decide_eq_true_eq, all_eq_true, any_eq_true] at h
  obtain ⟨⟨hne, hstatus⟩, hall⟩ := h
  obtain ⟨commandId, hc⟩ := exists_mem_of_ne_nil _ hne
  obtain ⟨result, hr, hid, hpas⟩ := hall commandId hc
  simp only [QualityTask.validated, Bool.and_eq_true, decide_eq_true_eq, any_eq_true]
  exact ⟨hstatus, result, hr, hpas, hid ▸ hc⟩

theorem reviews_congr {tasks tasks' : List QualityTask}
    (h : ∀ item, item.contract.role = .writer → (item ∈ tasks ↔ item ∈ tasks'))
    (item : QualityTask) : item.Reviews tasks ↔ item.Reviews tasks' := by
  unfold QualityTask.Reviews
  refine and_congr_right fun _ => and_congr_right fun _ => exists_congr fun closure =>
    and_congr_right fun _ => ?_
  exact ⟨fun hall writer hw hrole => hall writer ((h writer hrole).mpr hw) hrole,
    fun hall writer hw hrole => hall writer ((h writer hrole).mp hw) hrole⟩

theorem Reflected.of_perm {tasks' : List QualityTask} (hp : tasks.Perm tasks')
    (h : Reflected tasks pins) : Reflected tasks' pins := by
  have hmem : ∀ {item}, item ∈ tasks' ↔ item ∈ tasks := hp.mem_iff.symm
  have hrev : ∀ item : QualityTask, item.Reviews tasks' ↔ item.Reviews tasks := reviews_congr fun _ _ => hmem
  have hkept : ∀ item : QualityTask, item.Reviews (tasks'.filter (·.kept pins)) ↔
      item.Reviews (tasks.filter (·.kept pins)) :=
    reviews_congr fun item _ => by rw [mem_filter, mem_filter, hmem]
  constructor
  · simpa only [hmem] using h.audited
  · simpa only [hmem] using h.validated
  · simpa only [hmem] using h.pinned
  · simpa only [hmem, hrev, hkept] using h.reviewed
  · simpa only [hmem, hrev] using h.commits

include hn in
theorem not_occurs_iff (hacc : ∀ item ∈ tasks, item.artifact.quality.semanticOutcome = .accepted) :
    (∀ failure : GateFailure, ¬ failure.Occurs tasks (pinnedIds pins tasks)) ↔
      (∀ item ∈ tasks, item.contract.role = .writer → item.artifact.quality.pathAudit = .passed) ∧
      (∀ item ∈ tasks, item.contract.role = .writer → item.contract.validationCommandIds ≠ [] → item.validated) ∧
      (∀ item ∈ tasks, item.contract.role = .writer → item.artifact.commit? ≠ none ∧ pins.complete item.contract.id) ∧
      (∀ item ∈ tasks, item.contract.role = .reviewer → item.artifact.quality.review.status? = some .accepted) ∧
      ((∃ item ∈ tasks, item.contract.role = .reviewer) →
        ∃ item ∈ tasks, item.contract.role = .reviewer ∧ item.Reviews tasks) := by
  constructor
  · intro h
    refine ⟨fun item hitem hw => ?_, fun item hitem hw hc => ?_, fun item hitem hw => ?_,
      fun item hitem hr => ?_, fun hr => ?_⟩
    · by_contra hne
      exact h .pathAudit ⟨item, hitem, hw, hne⟩
    · by_contra hne
      exact h .validationCoverage ⟨item, hitem, hw, hc, by simpa using hne⟩
    · rw [← mem_pinnedIds hn hitem hw]
      by_contra hne
      exact h .commitPin ⟨item, hitem, hw, hne⟩
    · by_contra hne
      exact h .reviewVerdict ⟨item, hitem, hr, hne⟩
    · by_contra hne
      push Not at hne
      exact h .reviewCoverage ⟨hr, hne⟩
  · rintro ⟨haud, hval, hpin, hver, hreview⟩ failure hocc
    cases failure with
    | semanticOutcome =>
      obtain ⟨item, hitem, hne⟩ := hocc
      exact hne (hacc item hitem)
    | pathAudit =>
      obtain ⟨item, hitem, hw, hne⟩ := hocc
      exact hne (haud item hitem hw)
    | validationCoverage =>
      obtain ⟨item, hitem, hw, hc, hne⟩ := hocc
      rw [hval item hitem hw hc] at hne
      cases hne
    | commitPin =>
      obtain ⟨item, hitem, hw, hne⟩ := hocc
      exact hne ((mem_pinnedIds hn hitem hw).mpr (hpin item hitem hw))
    | reviewVerdict =>
      obtain ⟨item, hitem, hr, hne⟩ := hocc
      exact hne (hver item hitem hr)
    | reviewCoverage =>
      obtain ⟨hr, hnone⟩ := hocc
      obtain ⟨item, hitem, hr, hrev⟩ := hreview hr
      exact hnone item hitem hr hrev
    | dagIncomplete => exact hocc

include hn in
theorem reflected_iff_of_passed (hacc : ∀ item ∈ tasks, item.artifact.quality.semanticOutcome = .accepted)
    (hpas : ∀ failure : GateFailure, ¬ failure.Occurs tasks (pinnedIds pins tasks)) :
    Reflected tasks pins ↔ ∀ item ∈ tasks, item.artifact.commit ≠ some "" := by
  obtain ⟨haud, hval, hpin, hver, hreview⟩ := (not_occurs_iff hn hacc).mp hpas
  refine ⟨fun h => h.commits hpin hver hreview, fun h => ⟨haud, hval, ?_, ?_, ?_⟩⟩
  · rintro ⟨item, hitem, hw, hnone | hfalse⟩
    · exact absurd hnone (hpin item hitem hw).1
    · simp [(hpin item hitem hw).2] at hfalse
  · intro hr hnone
    obtain ⟨item, hitem, hr, hrev⟩ := hreview hr
    exact absurd hrev (hnone item hitem hr)
  · exact fun _ _ _ => h

/-- The tasks of a partial candidate, among those of the complete one. -/
structure Keeps (pins : Pins) (tasks kept : List QualityTask) : Prop where
  nodup : (kept.map (·.contract.id)).Nodup
  mem : ∀ item, item ∈ kept ↔ item ∈ tasks ∧ (item.contract.role ≠ .writer ∨ item.kept pins)

theorem QualityTask.kept_eligible (h : item.kept pins) : item.eligible := by
  simp only [QualityTask.kept, Bool.and_eq_true] at h
  exact h.1.1

theorem QualityTask.eligible_spec (h : item.eligible) :
    item.artifact.quality.pathAudit = .passed ∧ allValidationsPassed item.contract item.artifact = true := by
  simp only [QualityTask.eligible, Bool.and_eq_true, decide_eq_true_eq] at h
  obtain ⟨-, a, ha, -, haud, hval, -⟩ := writerOmission_eq_none.mp h.2
  cases ha
  exact ⟨haud, hval⟩

include hn in
/-- **The partial candidate shows the failures of the complete one exactly when these are not of
writers it leaves out.** -/
theorem reflected_iff_of_failed (hacc : ∀ item ∈ tasks, item.artifact.quality.semanticOutcome = .accepted)
    {failure : GateFailure} (hfai : failure.Occurs tasks (pinnedIds pins tasks))
    {kept : List QualityTask} (hkept : Keeps pins tasks kept) {included : List String} :
    Reflected tasks pins ↔ (GateFailure.commitPin.Occurs tasks (pinnedIds pins tasks) →
        ∃ item ∈ tasks, item.eligible ∧ item.kept pins = false) ∧
      ∀ failure : GateFailure, failure.Occurs tasks (pinnedIds pins tasks) → failure ≠ .commitPin →
        failure.Occurs kept included := by
  have hpins : GateFailure.commitPin.Occurs tasks (pinnedIds pins tasks) ↔ ∃ item ∈ tasks, item.contract.role = .writer ∧
        (item.artifact.commit? = none ∨ pins.complete item.contract.id = false) := by
    refine exists_congr fun item => and_congr_right fun hitem => and_congr_right fun hw => ?_
    rw [mem_pinnedIds hn hitem hw, not_and_or, not_ne_iff, Bool.not_eq_true]
  have hrev : ∀ item : QualityTask, item.Reviews kept ↔ item.Reviews (tasks.filter (·.kept pins)) :=
    reviews_congr fun item hw => by simp [hkept.mem, hw]
  have hrevi : ∀ item ∈ tasks, item.contract.role = .reviewer → item ∈ kept :=
    fun item hitem hr => (hkept.mem item).mpr ⟨hitem, .inl (by simp [hr])⟩
  -- the writers of the partial candidate pass the gates of writers
  have hwri : ∀ item ∈ kept, item.contract.role = .writer →
      item.artifact.quality.pathAudit = .passed ∧ item.validated = true := by
    intro item hitem hw
    obtain ⟨haud, hval⟩ := QualityTask.eligible_spec (QualityTask.kept_eligible
      (((hkept.mem item).mp hitem).2.resolve_left (not_not_intro hw)))
    exact ⟨haud, validated_of_allValidationsPassed hval⟩
  constructor
  · intro h
    refine ⟨fun hc => h.pinned (hpins.mp hc), fun failure hocc hne => ?_⟩
    cases failure with
    | semanticOutcome =>
      obtain ⟨item, hitem, hne⟩ := hocc
      exact absurd (hacc item hitem) hne
    | pathAudit =>
      obtain ⟨item, hitem, hw, hne⟩ := hocc
      exact absurd (h.audited item hitem hw) hne
    | validationCoverage =>
      obtain ⟨item, hitem, hw, hc, hne⟩ := hocc
      rw [h.validated item hitem hw hc] at hne
      cases hne
    | commitPin => exact absurd rfl hne
    | reviewVerdict =>
      obtain ⟨item, hitem, hr, hne⟩ := hocc
      exact ⟨item, hrevi item hitem hr, hr, hne⟩
    | reviewCoverage =>
      obtain ⟨⟨item, hitem, hr⟩, hnone⟩ := hocc
      refine ⟨⟨item, hrevi item hitem hr, hr⟩, fun item hitem hr => ?_⟩
      rw [hrev]
      exact h.reviewed ⟨item, ((hkept.mem item).mp hitem).1, hr⟩ hnone item
        ((hkept.mem item).mp hitem).1 hr
    | dagIncomplete => exact hocc
  · rintro ⟨hpin, hrest⟩
    have haud : ∀ item ∈ tasks, item.contract.role = .writer → item.artifact.quality.pathAudit = .passed := by
      intro item hitem hw
      by_contra hne
      obtain ⟨item', hitem', hw', hne'⟩ := hrest .pathAudit ⟨item, hitem, hw, hne⟩ (by simp)
      exact hne' (hwri item' hitem' hw').1
    have hval : ∀ item ∈ tasks, item.contract.role = .writer →
        item.contract.validationCommandIds ≠ [] → item.validated := by
      intro item hitem hw hc
      by_contra hne
      obtain ⟨item', hitem', hw', -, hne'⟩ := hrest .validationCoverage
        ⟨item, hitem, hw, hc, by simpa using hne⟩ (by simp)
      rw [(hwri item' hitem' hw').2] at hne'
      cases hne'
    refine ⟨haud, hval, fun hc => hpin (hpins.mpr hc), fun hr hnone item hitem hrole => ?_, ?_⟩
    · rw [← hrev]
      exact (hrest .reviewCoverage ⟨hr, hnone⟩ (by simp)).2 item (hrevi item hitem hrole) hrole
    · intro hpinn hver hreview
      exact absurd hfai ((not_occurs_iff hn hacc).mpr
        ⟨haud, hval, hpinn, hver, hreview⟩ failure)

end Fits

section Main

variable {run : Run} {rows : List Task}

theorem partialQuality_gateFailures (chosen : Task → Bool) (rows : List Task) :
    (partialQuality chosen rows).gateFailures = (evaluateCandidateQuality (partialTasks chosen rows)
      ((rows.filter chosen).map (·.taskId))).gateFailures ++
        if .dagIncomplete ∈ (evaluateCandidateQuality (partialTasks chosen rows)
          ((rows.filter chosen).map (·.taskId))).gateFailures then [] else [.dagIncomplete] := rfl

theorem normalized_of_partial_run (chosen : Task → Bool) (rows : List Task) (reason : PartialReason)
    (failures : List GateFailure) (merger : Merger) :
    normalizedIntegrationArtifact (partialCandidate chosen rows reason failures merger) =
      .ok (partialCandidate chosen rows reason failures merger) := by
  have hdag : GateFailure.dagIncomplete ∈ (partialQuality chosen rows).gateFailures := by
    rw [partialQuality_gateFailures, mem_append]
    split
    · exact .inl ‹_›
    · exact .inr (by simp)
  refine bind_ok_iff.mpr ⟨(), require_eq_ok.mpr (merger.version _), ?_⟩
  exact bind_ok_iff.mpr ⟨(), require_eq_ok.mpr (.inr ⟨_, rfl, rfl, hdag⟩), rfl⟩

theorem normalized_complete (pins : Pins) (rows : List Task) (merger : Merger) :
    normalizedIntegrationArtifact (completeCandidate pins rows merger) = .ok (completeCandidate pins rows merger) := by
  refine bind_ok_iff.mpr ⟨(), require_eq_ok.mpr (merger.version _), ?_⟩
  exact bind_ok_iff.mpr ⟨(), require_eq_ok.mpr (.inl (merger.kind _)), rfl⟩

theorem negativeTask_ne_nil {t : Task} (hd : t.Delivered) (h : t.unaccepted) : negativeTask t.taskId t ≠ [] := by
  unfold negativeTask
  split
  · simp
  · rename_i hnot
    obtain hf | hc | hb | ⟨hs, hne⟩ := h
    · exact absurd (.inl hf) hnot
    · exact absurd (.inr (.inl hc)) hnot
    · exact absurd (.inr (.inr hb)) hnot
    · obtain ⟨a, ha⟩ := Option.ne_none_iff_exists'.mp (hd hs)
      rw [ha, Option.map_some, ne_eq, Option.some.injEq] at hne
      have hout : negativeOutcome t.artifact = some a.quality.semanticOutcome := by
        rw [ha]
        cases ho : a.quality.semanticOutcome with
        | accepted => exact absurd ho hne
        | rejected | inconclusive => simp [negativeOutcome, ho, Option.filter_some]
      rw [hout]
      simp

theorem Task.eligible_eq {t : Task} {a : TaskArtifact} (hs : t.status = .succeeded)
    (ha : t.artifact = some a) : t.eligible = (⟨t.contract, a⟩ : QualityTask).eligible := by
  rw [Task.eligible, QualityTask.eligible, hs, ha]
  rfl

theorem fallbackChosen_eq_kept (hi : RunInv run) (ho : Ordered run rows) (pins : Pins) {t : Task}
    (ht : t ∈ rows) {a : TaskArtifact} (hs : t.status = .succeeded) (ha : t.artifact = some a) :
    fallbackChosen pins rows t = (⟨t.contract, a⟩ : QualityTask).kept pins := by
  unfold fallbackChosen Task.chosen QualityTask.kept
  rw [← Task.eligible_eq hs ha]
  cases helig : t.eligible with
  | false => simp
  | true =>
    obtain ⟨hw, -, a', ha', -, -, -, commit, hcom⟩ := Task.eligible_iff.mp helig
    obtain rfl : a = a' := Option.some.inj (ha.symm.trans ha')
    have hmem := @mem_unpinnedIds _ pins (allTasks_nodup hi ho) ⟨t.contract, a⟩ (mem_allTasks.mpr ⟨t, ht, rfl, ha⟩) hw
    have hiff : t.contract.id ∈ unpinnedIds pins (allTasks rows) ↔ pins.complete t.contract.id = false := by
      rw [hmem, hcom]
      simp
    cases hp : pins.complete t.contract.id <;> simp [hiff, hp, Task.taskId]

theorem validateCandidate_taskFailure (hi : RunInv run) (ho : Ordered run rows)
    (hdel : ∀ t ∈ run.tasks, t.Delivered) (hsettled : ∀ t ∈ run.tasks, t.status.Terminal)
    (hneg : ∃ t ∈ run.tasks, t.unaccepted) {failed : List String} {pin : String → Bool}
    (hne : rows.filter (Task.chosen failed pin) ≠ []) (merger : Merger) : validateCandidate run (rows.map (·.taskId))
      (partialCandidate (Task.chosen failed pin) rows .taskFailure [] merger) = .ok () := by
  refine (validatePartial_eq_ok hi ho hsettled (fun t => Task.chosen_eligible) hne .taskFailure
    nodup_nil (by simp) merger).mpr ⟨fun _ => ⟨?_, rfl⟩, by simp, by simp, by simp⟩
  obtain ⟨t, ht, hu⟩ := hneg
  rw [ne_eq, flatMap_eq_nil_iff]
  exact fun h => negativeTask_ne_nil (hdel t ht) hu (h t (ho.perm.mem_iff.mpr ht))

variable (hall : ∀ t ∈ run.tasks, t.status = .succeeded ∧
  ∃ a, t.artifact = some a ∧ a.quality.semanticOutcome = .accepted)

include hall

theorem allTasks_accepted (ho : Ordered run rows) :
    ∀ item ∈ allTasks rows, item.artifact.quality.semanticOutcome = .accepted := by
  intro item hitem
  obtain ⟨t, ht, -, ha⟩ := mem_allTasks.mp hitem
  obtain ⟨-, a, ha', ho⟩ := hall t (ho.mem ht)
  rwa [Option.some.inj (ha.symm.trans ha')]

theorem keeps_partialTasks (hi : RunInv run) (ho : Ordered run rows) (pins : Pins) :
    Keeps pins (allTasks rows) (partialTasks (fallbackChosen pins rows) rows) := by
  refine ⟨quality_nodup hi ho filter_sublist, fun item => ?_⟩
  simp only [partialTasks, mem_allTasks, mem_filterMap, mem_filter, Bool.and_eq_true,
    Bool.or_eq_true, decide_eq_true_eq, Task.quality?, Option.map_eq_some_iff]
  constructor
  · rintro ⟨t, ⟨ht, hs, hor⟩, a, ha, rfl⟩
    refine ⟨⟨t, ht, rfl, ha⟩, hor.imp id fun hc => ?_⟩
    rwa [← fallbackChosen_eq_kept hi ho pins ht hs ha]
  · obtain ⟨contract, a⟩ := item
    rintro ⟨⟨t, ht, rfl, ha⟩, hor⟩
    have hs := (hall t (ho.mem ht)).1
    refine ⟨t, ⟨ht, hs, hor.imp id fun hc => ?_⟩, a, ha, rfl⟩
    rwa [fallbackChosen_eq_kept hi ho pins ht hs ha]

theorem validateCandidate_qualityFailure (hi : RunInv run) (ho : Ordered run rows) (pins : Pins)
    (hgate : ¬ (evaluateCandidateQuality (allTasks rows) (pinnedIds pins (allTasks rows))).gatePassed = true)
    (hne : rows.filter (fallbackChosen pins rows) ≠ []) (merger : Merger) :
    validateCandidate run (rows.map (·.taskId)) (partialCandidate (fallbackChosen pins rows) rows
      .candidateQualityFailure (evaluateCandidateQuality (allTasks rows)
        (pinnedIds pins (allTasks rows))).gateFailures merger) = .ok () ↔ Reflected (allTasks run.tasks) pins := by
  have hn := allTasks_nodup hi ho
  have hkp := keeps_partialTasks hall hi ho pins
  have hfailures : (evaluateCandidateQuality (allTasks rows)
      (pinnedIds pins (allTasks rows))).gateFailures ≠ [] := fun h => hgate (gatePassed_iff.mpr h)
  obtain ⟨failure, hfai⟩ := exists_mem_of_ne_nil _ hfailures
  have hsettled : ∀ t ∈ run.tasks, t.status.Terminal := by
    intro t ht
    rw [(hall t ht).1]
    exact ⟨by simp, by simp⟩
  have hcomm : (∃ t ∈ rows, t.eligible ∧ fallbackChosen pins rows t = false) ↔
      ∃ item ∈ allTasks rows, item.eligible ∧ item.kept pins = false := by
    constructor
    · rintro ⟨t, ht, helig, hc⟩
      obtain ⟨hs, a, ha, -⟩ := hall t (ho.mem ht)
      rw [Task.eligible_eq hs ha] at helig
      rw [fallbackChosen_eq_kept hi ho pins ht hs ha] at hc
      exact ⟨_, mem_allTasks.mpr ⟨t, ht, rfl, ha⟩, helig, hc⟩
    · rintro ⟨⟨contract, a⟩, hitem, helig, hk⟩
      obtain ⟨t, ht, rfl, ha⟩ := mem_allTasks.mp hitem
      have hs := (hall t (ho.mem ht)).1
      rw [← Task.eligible_eq hs ha] at helig
      rw [← fallbackChosen_eq_kept hi ho pins ht hs ha] at hk
      exact ⟨t, ht, helig, hk⟩
  have hsh : ∀ failure ∈ (evaluateCandidateQuality (allTasks rows) (pinnedIds pins (allTasks rows))).gateFailures,
      failure ∈ (partialQuality (fallbackChosen pins rows) rows).gateFailures ↔
        failure.Occurs (partialTasks (fallbackChosen pins rows) rows)
          ((rows.filter (fallbackChosen pins rows)).map (·.taskId)) := by
    intro failure hf
    have hdag : failure ≠ .dagIncomplete := by
      rintro rfl
      exact (mem_gateFailures hn).mp hf
    rw [partialQuality_gateFailures, mem_append, mem_gateFailures hkp.nodup]
    refine ⟨fun h => h.resolve_right fun h => ?_, .inl⟩
    split at h
    · cases h
    · exact hdag (mem_singleton.mp h)
  have hperm : Reflected (allTasks run.tasks) pins ↔ Reflected (allTasks rows) pins :=
    ⟨fun h => h.of_perm (allTasks_perm ho).symm, fun h => h.of_perm (allTasks_perm ho)⟩
  have hcho : ∀ t, fallbackChosen pins rows t → t.eligible := fun t => Task.chosen_eligible
  refine (validatePartial_eq_ok hi ho hsettled hcho hne .candidateQualityFailure
    (gateFailures_nodup _ _) (fun h => (mem_gateFailures hn).mp h) merger).trans ?_
  rw [hperm, @reflected_iff_of_failed _ pins hn (allTasks_accepted hall ho) failure
    ((mem_gateFailures hn).mp hfai) _ hkp
    ((rows.filter (fallbackChosen pins rows)).map (·.taskId)), hcomm]
  simp only [forall_const, reduceCtorEq, false_implies, true_and, ne_eq, hfailures,
    not_false_eq_true, mem_gateFailures hn]
  refine and_congr_right fun _ => forall₂_congr fun failure hf => ?_
  rw [hsh failure ((mem_gateFailures hn).mpr hf)]

theorem validateCandidate_complete (hi : RunInv run) (ho : Ordered run rows) (pins : Pins)
    (hgate : (evaluateCandidateQuality (allTasks rows)
      (pinnedIds pins (allTasks rows))).gatePassed = true) (merger : Merger) :
    validateCandidate run (rows.map (·.taskId)) (completeCandidate pins rows merger) = .ok () ↔
      Reflected (allTasks run.tasks) pins := by
  have hnone : (completeCandidate pins rows merger).provenance = none := merger.kind _
  have hn : ((allTasks run.tasks).map (·.contract.id)).Nodup :=
    ((allTasks_perm ho).map _).nodup_iff.mp (allTasks_nodup hi ho)
  have hperm : Reflected (allTasks run.tasks) pins ↔ Reflected (allTasks rows) pins :=
    ⟨fun h => h.of_perm (allTasks_perm ho).symm, fun h => h.of_perm (allTasks_perm ho)⟩
  have hpas : ∀ failure : GateFailure, ¬ failure.Occurs (allTasks rows) (pinnedIds pins (allTasks rows)) := by
    intro failure hocc
    rw [gatePassed_iff] at hgate
    have hmem := (mem_gateFailures (allTasks_nodup hi ho)).mpr hocc
    rw [hgate] at hmem
    cases hmem
  unfold validateCandidate
  rw [hnone, hperm, reflected_iff_of_passed (allTasks_nodup hi ho) (allTasks_accepted hall ho) hpas]
  refine (validateComplete_eq_ok hi ho (fun t ht => ⟨(hall t ht).1, ?_⟩) pins hgate merger).trans ?_
  · obtain ⟨a, ha, -⟩ := (hall t ht).2
    exact ⟨a, ha⟩
  · exact forall_congr' fun item => imp_congr_left (allTasks_perm ho).mem_iff.symm

omit hall

/-- **What the ledger does with the candidate of a settled run.** -/
theorem candidate_accepted {P : RetryPolicy} {ledger : Ledger} (hreach : Reachable P ledger)
    {runId : String} {run : Run} (hrun : ledger.runs.get? runId = some run)
    (hsettled : ∀ t ∈ run.tasks, t.status.Terminal) (hstatus : run.status = .running)
    (hintegration : run.integration = none) (hfailure : run.integrationFailure = none)
    {now : ℤ} (hnow : isSafeInteger now) {lease : Option DagRunLease}
    (hlease : assertDagRunMutationLease run now lease = .ok ()) (pins : Pins) (merger : Merger)
    {candidate : IntegrationArtifact} (h : settledCandidate run pins merger = .ok (some candidate)) :
    (∃ ledger', recordDagIntegration runId candidate now lease ledger = .ok ((), ledger')) ↔ CandidateFits run pins := by
  have hi : RunInv run := ledgerInv_of_reachable hreach runId run hrun
  have hdel := delivered_of_reachable hreach hrun
  have hall : (¬ ∃ t ∈ run.tasks, t.unaccepted) → ∀ t ∈ run.tasks, t.status = .succeeded ∧
      ∃ a, t.artifact = some a ∧ a.quality.semanticOutcome = .accepted := fun hpos t ht =>
    accepted_of_not_unaccepted (hsettled t ht) fun hu => hpos ⟨t, ht, hu⟩
  have hfits : (¬ ∃ t ∈ run.tasks, t.unaccepted) →
      (CandidateFits run pins ↔ Reflected (allTasks run.tasks) pins) := fun hpos =>
    ⟨fun h => h.resolve_left hpos, .inr⟩
  obtain ⟨hdec, -, hmer, -, rows, ho, -, h⟩ := (settledCandidate_eq_some hi hsettled).mp h
  have hacce : ∀ candidate : IntegrationArtifact, normalizedIntegrationArtifact candidate = .ok candidate →
      ((∃ ledger', recordDagIntegration runId candidate now lease ledger = .ok ((), ledger')) ↔
        validateCandidate run (rows.map (·.taskId)) candidate = .ok ()) := fun candidate hnormal =>
    recordDagIntegration_accepts ho hrun hnow hlease hstatus hfailure hintegration hmer hdec hnormal
  obtain ⟨hneg, -, hne, rfl⟩ | ⟨hpos, hgate, rfl⟩ | ⟨hpos, hgate, -, hne, rfl⟩ := h
  · rw [hacce _ (normalized_of_partial_run _ _ _ _ _)]
    exact ⟨fun _ => .inl hneg, fun _ =>
      validateCandidate_taskFailure hi ho hdel hsettled hneg hne merger⟩
  · rw [hacce _ (normalized_complete _ _ _), hfits hpos]
    exact validateCandidate_complete (hall hpos) hi ho pins hgate merger
  · rw [hacce _ (normalized_of_partial_run _ _ _ _ _), hfits hpos]
    exact validateCandidate_qualityFailure (hall hpos) hi ho pins hgate hne merger

end Main

/-! ### A writer whose commit cannot be pinned -/

namespace UnpinnedWriter

def policy : RetryPolicy := ⟨fun _ => false, fun _ => false, fun _ _ => 1⟩

def contractA : Contract :=
  { id := "write-a", role := .writer, dependsOn := [], maxAttempts := 1, contractHash := "ha"
    validationCommandIds := ["test"] }

def contractB : Contract := { contractA with id := "write-b", contractHash := "hb" }

def reviewA : Contract :=
  { id := "review-a", role := .reviewer, dependsOn := ["write-a"], maxAttempts := 1, contractHash := "hra" }

def reviewAll : Contract := { reviewA with id := "review-all", dependsOn := ["write-a", "write-b"], contractHash := "hr" }

def commitA : WriterCommitProvenance := ⟨"write-a", "artifact-a", "aaaa"⟩

def commitB : WriterCommitProvenance := ⟨"write-b", "artifact-b", "bbbb"⟩

def artifactA : TaskArtifact :=
  { artifactId := "artifact-a", taskId := "write-a", contractHash := "ha"
    validations := [⟨"test", .passed⟩], commit := some "aaaa"
    quality := { semanticOutcome := .accepted, pathAudit := .passed, validationStatus := .passed
                 passedCommandIds := ["test"] } }

def artifactB : TaskArtifact :=
  { artifactA with artifactId := "artifact-b", taskId := "write-b", contractHash := "hb", commit := some "bbbb" }

/-- An accepted review. -/
def reviewed (contract : Contract) (artifactId : String) (evidence : List JsonValue) (seen : List WriterCommitProvenance) :
    TaskArtifact :=
  { artifactId, taskId := contract.id, contractHash := contract.contractHash, evidence
    quality := { semanticOutcome := .accepted, pathAudit := .notApplicable
                 validationStatus := .notApplicable, review := .reviewed .accepted seen } }

def artifactRA : TaskArtifact := reviewed reviewA "artifact-ra" [.str "write-a.txt:1"] [commitA]

def evidenceB : List JsonValue := [.str "write-b.txt:1"]

def artifactR (evidence : List JsonValue) : TaskArtifact := reviewed reviewAll "artifact-r" evidence [commitA, commitB]

/-- Two writers with validation commands, a review of the first and one of both, with the given evidence. -/
def ops (evidence : List JsonValue) : List Op :=
  [.createDagRun "run" { mergeEnabled := true, tasks := [contractA, contractB, reviewA, reviewAll], sealed := true } 0,
    .setDagRunStatus "run" .running 0 none,
    .claimRunnableTasks "run" "owner" 0 10 2 none (fun n => if n = 2 then "attempt-0" else "attempt-1"),
    .completeDagTask "run" "write-a" "attempt-0" "owner" (.success artifactA none none) 1 none,
    .completeDagTask "run" "write-b" "attempt-1" "owner" (.success artifactB none none) 2 none,
    .claimRunnableTasks "run" "owner" 3 10 2 none (fun n => if n = 2 then "review-0" else "review-1"),
    .completeDagTask "run" "review-a" "review-0" "owner" (.success artifactRA none none) 4 none,
    .completeDagTask "run" "review-all" "review-1" "owner" (.success (artifactR evidence) none none) 5 none]

def tasks (evidence : List JsonValue) : List QualityTask :=
  [⟨contractA, artifactA⟩, ⟨contractB, artifactB⟩, ⟨reviewA, artifactRA⟩, ⟨reviewAll, artifactR evidence⟩]

/-- The second writer's commit cannot be pinned. -/
def pins : Pins := ⟨(· ≠ "write-b"), (· ≠ "write-b")⟩

/-- Every commit can be pinned. -/
def pinned : Pins := ⟨fun _ => true, fun _ => true⟩

def merger : Merger where
  mergeTaskCommits commits :=
    { ref := "refs/heads/candidate/run", commit := "cccc", orderedTaskIds := commits.map (·.1)
      orderedCommits := commits.map (·.2), createdAt := 5, quality := none }
  version _ := rfl
  kind _ := rfl
  orderedTaskIds _ := rfl
  orderedCommits _ := rfl

def Ready (evidence : List JsonValue) (run : Run) : Prop :=
  run.status = .running ∧ run.integration = none ∧ run.integrationFailure = none ∧
    run.ownerId = none ∧ run.graphSealed = true ∧ run.request.mergeEnabled = true ∧
    run.request.version = 2 ∧ run.request.handoffProtocolVersion = 2 ∧
    (∀ t ∈ run.tasks, t.status = .succeeded ∧ ¬ t.unaccepted) ∧ allTasks run.tasks = tasks evidence ∧
    (stableTopologicalTasks run.request.tasks).toOption.isSome

instance (evidence : List JsonValue) (run : Run) : Decidable (Ready evidence run) := by
  unfold Ready
  infer_instance

theorem ready_unseen : ((steps policy {} (ops [])).runs.get? "run").any fun run => Ready [] run := by
  decide +kernel

theorem ready_seen : ((steps policy {} (ops evidenceB)).runs.get? "run").any fun run => Ready evidenceB run := by
  decide +kernel

theorem Ready.ordered {evidence : List JsonValue} {run : Run} (hi : RunInv run)
    (h : Ready evidence run) : ∃ rows, Ordered run rows ∧
      stableTopologicalTasks run.request.tasks = .ok (rows.map (·.contract)) ∧
      ∀ item, item ∈ allTasks rows ↔ item ∈ tasks evidence := by
  obtain ⟨-, -, -, -, -, -, -, -, -, htks, hord⟩ := h
  cases hsome : stableTopologicalTasks run.request.tasks with
  | error e =>
    rw [hsome] at hord
    cases hord
  | ok order =>
    obtain ⟨rows, ho, rfl⟩ := ordered_of_stableTopologicalTasks hi hsome
    exact ⟨rows, ho, rfl, fun item => by rw [(allTasks_perm ho).mem_iff, htks]⟩

theorem unseen {item : QualityTask} (hitem : item ∈ tasks []) (hrole : item.contract.role = .reviewer)
    {all : List QualityTask} (hall : ∀ item ∈ tasks [], item ∈ all) : ¬ item.Reviews all := by
  rintro ⟨-, hevidence, closure, hclo, hseen⟩
  have hb := hseen ⟨contractB, artifactB⟩ (hall _ (by simp [tasks])) rfl "bbbb" rfl
  simp only [tasks, mem_cons, not_mem_nil, or_false] at hitem
  obtain rfl | rfl | rfl | rfl := hitem
  · cases hrole
  · cases hrole
  · cases hclo
    revert hb
    decide +kernel
  · exact hevidence rfl

theorem seen_kept : (⟨reviewA, artifactRA⟩ : QualityTask).Reviews ((tasks []).filter (·.kept pins)) := by
  refine ⟨by decide, by decide, [commitA], rfl, fun writer hw hrole commit hcom => ?_⟩
  simp only [tasks, mem_filter, mem_cons, not_mem_nil, or_false] at hw
  obtain ⟨rfl | rfl | rfl | rfl, hkept⟩ := hw
  · cases hcom
    decide +kernel
  · exact absurd hkept (by decide +kernel)
  · cases hrole
  · cases hrole

/-- **One review saw the first of two writers, the other saw both without evidence, and the second writer's commit cannot be
pinned. What the partial candidate keeps is fully reviewed, and the ledger refuses it because the complete candidate was
not.** -/
theorem candidate_refused : ∃ run candidate, (steps policy {} (ops [])).runs.get? "run" = some run ∧
    (∀ t ∈ run.tasks, t.status.Terminal) ∧ run.status = .running ∧ run.integration = none ∧
    run.integrationFailure = none ∧ assertDagRunMutationLease run 6 none = .ok () ∧
    settledCandidate run pins merger = .ok (some candidate) ∧
    ¬ ∃ ledger', recordDagIntegration "run" candidate 6 none (steps policy {} (ops [])) = .ok ((), ledger') := by
  obtain ⟨run, hrun, hrdy⟩ := (Option.any_eq_true _ _).mp ready_unseen
  have hrdy : Ready [] run := by simpa using hrdy
  have hi : RunInv run := ledgerInv_of_reachable (P := policy) ⟨ops [], rfl⟩ "run" run hrun
  obtain ⟨rows, ho, hord, hmem⟩ := hrdy.ordered hi
  obtain ⟨hstatus, hint, hfail, hown, hsea, hmer, hv, hp, hall, htks, -⟩ := hrdy
  have hsettled : ∀ t ∈ run.tasks, t.status.Terminal := fun t ht =>
    TaskStatus.terminal_succeeded (hall t ht).1
  have hnone : ¬ ∃ t ∈ run.tasks, t.unaccepted := fun ⟨t, ht, hu⟩ => (hall t ht).2 hu
  have hacc : ∀ t ∈ run.tasks, t.status = .succeeded ∧
      ∃ a, t.artifact = some a ∧ a.quality.semanticOutcome = .accepted := fun t ht =>
    accepted_of_not_unaccepted (hsettled t ht) fun hu => hnone ⟨t, ht, hu⟩
  have hlease : assertDagRunMutationLease run 6 none = .ok () := by
    simp [assertDagRunMutationLease, hown]
  have hdec : decodeCompiledDagRequest run.request = .ok run.request :=
    bind_ok_iff.mpr ⟨(), require_eq_ok.mpr ⟨hv, hp⟩, rfl⟩
  have huns : GateFailure.reviewCoverage.Occurs (allTasks rows) (pinnedIds pins (allTasks rows)) := by
    refine ⟨⟨⟨reviewA, artifactRA⟩, (hmem _).mpr (by simp [tasks]), rfl⟩, ?_⟩
    intro item hitem hrole
    exact unseen ((hmem item).mp hitem) hrole fun item h => (hmem item).mpr h
  have hgate : ¬ (completeQuality pins rows).gatePassed = true := by
    intro h
    have hmem := (mem_gateFailures (allTasks_nodup hi ho)).mpr huns
    rw [gatePassed_iff.mp h] at hmem
    cases hmem
  have hkep : rows.filter (fallbackChosen pins rows) ≠ [] := by
    obtain ⟨t, ht, hc, ha⟩ := mem_allTasks.mp ((hmem ⟨contractA, artifactA⟩).mpr (by simp [tasks]))
    refine ne_nil_of_mem (a := t) (mem_filter.mpr ⟨ht, ?_⟩)
    rw [fallbackChosen_eq_kept hi ho pins ht (hall t (ho.mem ht)).1 ha, hc]
    decide +kernel
  refine ⟨run, _, hrun, hsettled, hstatus, hint, hfail, hlease,
    (settledCandidate_eq_some hi hsettled).mpr ⟨hdec, hsea, hmer, hint, rows, ho, hord,
      .inr (.inr ⟨hnone, hgate, hfail, hkep, rfl⟩)⟩, ?_⟩
  rw [recordDagIntegration_accepts ho hrun (by decide) hlease hstatus hfail hint hmer hdec
    (normalized_of_partial_run _ _ _ _ _)]
  intro hval
  have href := (validateCandidate_qualityFailure hacc hi ho pins hgate hkep merger).mp hval
  rw [htks] at href
  have hrevi : ⟨reviewA, artifactRA⟩ ∈ tasks [] := by simp [tasks]
  exact href.reviewed ⟨_, hrevi, rfl⟩ (fun item hitem hrole =>
    unseen hitem hrole fun _ h => h) _ hrevi rfl seen_kept

theorem mem_tasks {evidence : List JsonValue} {item : QualityTask} :
    item ∈ tasks evidence ↔ item = ⟨contractA, artifactA⟩ ∨ item = ⟨contractB, artifactB⟩ ∨
      item = ⟨reviewA, artifactRA⟩ ∨ item = ⟨reviewAll, artifactR evidence⟩ := by
  simp [tasks]

theorem no_failure {all : List QualityTask} (hall : ∀ item, item ∈ all ↔ item ∈ tasks evidenceB) :
    (∀ item ∈ all, item.contract.role = .writer → item.artifact.quality.pathAudit = .passed) ∧
    (∀ item ∈ all, item.contract.role = .writer → item.contract.validationCommandIds ≠ [] → item.validated) ∧
    (∀ item ∈ all, item.contract.role = .writer → item.artifact.commit? ≠ none ∧ pinned.complete item.contract.id) ∧
    (∀ item ∈ all, item.contract.role = .reviewer → item.artifact.quality.review.status? = some .accepted) ∧
    ((∃ item ∈ all, item.contract.role = .reviewer) →
      ∃ item ∈ all, item.contract.role = .reviewer ∧ item.Reviews all) := by
  simp only [hall, mem_tasks]
  refine ⟨?_, ?_, ?_, ?_, fun _ => ⟨⟨reviewAll, artifactR evidenceB⟩, .inr (.inr (.inr rfl)), rfl,
    by decide, by decide, [commitA, commitB], rfl, ?_⟩⟩
  · rintro item (rfl | rfl | rfl | rfl) <;> decide
  · rintro item (rfl | rfl | rfl | rfl) <;> decide +kernel
  · rintro item (rfl | rfl | rfl | rfl) <;> decide
  · rintro item (rfl | rfl | rfl | rfl) <;> decide
  · intro writer hw
    rw [hall, mem_tasks] at hw
    rcases hw with rfl | rfl | rfl | rfl
    · rintro - _ ⟨⟩
      decide +kernel
    · rintro - _ ⟨⟩
      decide +kernel
    · rintro ⟨⟩
    · rintro ⟨⟩

/-- A review of both writers: the complete candidate is recorded. -/
theorem candidate_recorded : ∃ run candidate, (steps policy {} (ops evidenceB)).runs.get? "run" = some run ∧
    (∀ t ∈ run.tasks, t.status.Terminal) ∧ settledCandidate run pinned merger = .ok (some candidate) ∧
    ∃ ledger', recordDagIntegration "run" candidate 6 none (steps policy {} (ops evidenceB)) = .ok ((), ledger') := by
  obtain ⟨run, hrun, hrdy⟩ := (Option.any_eq_true _ _).mp ready_seen
  have hrdy : Ready evidenceB run := by simpa using hrdy
  have hreach : Reachable policy (steps policy {} (ops evidenceB)) := ⟨_, rfl⟩
  have hi : RunInv run := ledgerInv_of_reachable hreach "run" run hrun
  obtain ⟨rows, ho, hord, hmem⟩ := hrdy.ordered hi
  obtain ⟨hstatus, hint, hfail, hown, hsea, hmer, hv, hp, hall, htks, -⟩ := hrdy
  have hsettled : ∀ t ∈ run.tasks, t.status.Terminal := fun t ht =>
    TaskStatus.terminal_succeeded (hall t ht).1
  have hnone : ¬ ∃ t ∈ run.tasks, t.unaccepted := fun ⟨t, ht, hu⟩ => (hall t ht).2 hu
  have hlease : assertDagRunMutationLease run 6 none = .ok () := by
    simp [assertDagRunMutationLease, hown]
  have hdec : decodeCompiledDagRequest run.request = .ok run.request :=
    bind_ok_iff.mpr ⟨(), require_eq_ok.mpr ⟨hv, hp⟩, rfl⟩
  have hpas := no_failure fun item => (hmem item)
  have hacc : ∀ item ∈ allTasks rows, item.artifact.quality.semanticOutcome = .accepted := by
    intro item hitem
    obtain rfl | rfl | rfl | rfl := mem_tasks.mp ((hmem item).mp hitem) <;> rfl
  have hgate : (completeQuality pinned rows).gatePassed = true := by
    rw [completeQuality, gatePassed_iff, eq_nil_iff_forall_not_mem]
    intro failure hf
    exact (not_occurs_iff (allTasks_nodup hi ho) hacc).mpr hpas failure
      ((mem_gateFailures (allTasks_nodup hi ho)).mp hf)
  have hcan : settledCandidate run pinned merger = .ok (some (completeCandidate pinned rows merger)) :=
    (settledCandidate_eq_some hi hsettled).mpr ⟨hdec, hsea, hmer, hint, rows, ho, hord, .inr (.inl ⟨hnone, hgate, rfl⟩)⟩
  have href : Reflected (allTasks rows) pinned := by
    rw [reflected_iff_of_passed (allTasks_nodup hi ho) hacc
      ((not_occurs_iff (allTasks_nodup hi ho) hacc).mpr hpas)]
    intro item hitem
    obtain rfl | rfl | rfl | rfl := mem_tasks.mp ((hmem item).mp hitem) <;> decide
  exact ⟨run, _, hrun, hsettled, hcan, (candidate_accepted hreach hrun hsettled hstatus hint hfail
    (by decide) hlease pinned merger hcan).mpr (.inr (href.of_perm (allTasks_perm ho)))⟩

end UnpinnedWriter

end EasyPi.Subagent
