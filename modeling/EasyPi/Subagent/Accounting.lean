/-
# Accounting

Usage and turns are kept three times by `packages/subagent/src/ledger.ts`. An
attempt has what its child reported, and that only grows. A task has the sum over
the attempts that were added to it: an attempt is added when it is completed,
when its lease expires and it is not resumed, or when the run ends, and not while
it runs or waits to be resumed (`Task.unfolded`). A run has the sum over all its
attempts whenever `reconcileDagRunAccountingInTransaction` has just added them up.
-/
import EasyPi.Subagent.Lifecycle

namespace EasyPi.Subagent

open List

/-! ### What a task has added up -/

/-- The last attempt is not in the sums of the task: it runs, or expired under a checkpoint that
says to go on with it. -/
def Task.unfolded (t : Task) : Bool := t.status = .running || t.resumable && t.attempts.getLast?.any (·.status = .expired)

attribute [local simp] Task.unfolded

def Task.folded (t : Task) : List Attempt := if t.unfolded then t.attempts.dropLast else t.attempts

/-- The sums of a task are those of the attempts added to it. -/
structure Task.Accounted (t : Task) : Prop where
  usage : t.usage = (t.folded.map (·.usage)).sum
  turns : t.turns = (t.folded.map (·.turns)).sum
  succeeded : t.status = .succeeded → t.attempts.getLast?.all (·.status ≠ .expired)

section Folded

variable {t t' : Task} {before : List Attempt} {a : Attempt}

theorem Task.unfolded_concat (h : t.attempts = before ++ [a]) :
    t.unfolded = (t.status = .running || t.resumable && a.status = .expired) := by
  simp [h]

theorem Task.folded_concat (h : t.attempts = before ++ [a]) :
    t.folded = if t.status = .running || t.resumable && a.status = .expired then before else before ++ [a] := by
  rw [Task.folded, Task.unfolded_concat h, h, dropLast_concat]

theorem Task.Running.folded (h : t.Running before a) : t.folded = before := by
  rw [Task.folded_concat h.attempts]
  simp [h.status]

theorem Task.accounted_open (ht : t.attempts = before ++ [a])
    (hu : t.status = .running ∨ (t.resumable ∧ a.status = .expired))
    (hn : t.status ≠ .succeeded) (husa : t.usage = (before.map (·.usage)).sum)
    (htns : t.turns = (before.map (·.turns)).sum) : t.Accounted := by
  have hf : t.folded = before := by
    rw [Task.folded_concat ht, if_pos]
    simpa using hu
  exact ⟨by rw [hf, husa], by rw [hf, htns], fun hs => absurd hs hn⟩

theorem Task.accounted_closed (ht : t.attempts = before ++ [a]) (hr : t.status ≠ .running)
    (hu : t.resumable = false ∨ a.status ≠ .expired) (hn : t.status = .succeeded → a.status ≠ .expired)
    (husa : t.usage = (before.map (·.usage)).sum + a.usage)
    (htns : t.turns = (before.map (·.turns)).sum + a.turns) : t.Accounted := by
  have hf : t.folded = before ++ [a] := by
    rw [Task.folded_concat ht, if_neg]
    rcases hu with hu | hu <;> simp [hr, hu]
  refine ⟨by rw [hf, husa]; simp, by rw [hf, htns]; simp, fun hs => ?_⟩
  simpa [ht] using hn hs

theorem Task.Accounted.of_running (h : t.Accounted) (hr : t.Running before a) :
    t.usage = (before.map (·.usage)).sum ∧ t.turns = (before.map (·.turns)).sum := by
  rw [← hr.folded]
  exact ⟨h.usage, h.turns⟩

theorem Task.Accounted.of_idle (h : t.Accounted) (hr : t.status ≠ .running)
    (hr' : t'.status ≠ .running) (hs : t'.status ≠ .succeeded) (hres : t'.resumable = t.resumable)
    (ha : t'.attempts = t.attempts) (husa : t'.usage = t.usage) (htns : t'.turns = t.turns) : t'.Accounted := by
  have hf : t'.folded = t.folded := by
    simp [Task.folded, hr, hr', hres, ha]
  exact ⟨by rw [hf, husa, h.usage], by rw [hf, htns, h.turns], fun h => absurd h hs⟩

theorem accounted_new (order : ℕ) (contract : Contract) : ({ taskOrder := order, contract } : Task).Accounted where
  usage := by simp [Task.folded]
  turns := by simp [Task.folded]
  succeeded h := by cases h

end Folded

/-! ### Moves keep the sums -/

section Moves

variable {R : Rules} {t t' : Task}

theorem ClaimMove.accounted (hi : TaskInv t) (hm : ClaimMove t t') (h : t.Accounted) : t'.Accounted := by
  cases hm with
  | same => exact h
  | start attemptId ownerId leaseExpiresAt pending fresh bounded unused =>
    have hf : t.folded = t.attempts := by
      rw [Task.folded, if_neg]
      rcases fresh with hres | hzero
      · simp [pending, hres]
      · have hnil : t.attempts = [] := by
          have := hi.numbers
          rw [hzero] at this
          simpa using this
        simp [pending, hnil]
    refine Task.accounted_open rfl (.inl rfl) (by simp [Task.claimed]) ?_ ?_
    · change t.usage = _
      rw [h.usage, hf]
    · change t.turns = _
      rw [h.turns, hf]
  | resume before a ownerId leaseExpiresAt pending resumable attempts expired =>
    have hf : t.folded = before := by
      rw [Task.folded_concat attempts, if_pos (by simp [resumable, expired])]
    refine Task.accounted_open rfl (.inl rfl) (by simp [Task.claimed]) ?_ ?_
    · change t.usage = _
      rw [h.usage, hf]
    · change t.turns = _
      rw [h.turns, hf]

theorem Task.accounted_requeued (h : t.Accounted) {before : List Attempt} {a : Attempt}
    (hr : t.Running before a) (hres : t.resumable) (error : String) (retryNotBefore : Option ℤ) :
    (t.requeued before a error retryNotBefore).Accounted := by
  obtain ⟨husa, htns⟩ := h.of_running hr
  exact Task.accounted_open rfl (.inr ⟨hres, rfl⟩) (by simp [Task.requeued]) husa htns

theorem WorkMove.accounted (hm : WorkMove R t t') (h : t.Accounted) : t'.Accounted := by
  cases hm with
  | same => exact h
  | amend before a a' leaseExpiresAt checkpoint retryNotBefore running =>
    obtain ⟨husa, htns⟩ := h.of_running running
    exact Task.accounted_open rfl (.inl running.status) (by simp [running.status]) husa htns
  | settle before a s usage turns running settlement =>
    obtain ⟨husa, htns⟩ := h.of_running running
    cases settlement with
    | succeeded artifact =>
      refine Task.accounted_closed rfl (by simp) (.inr (by simp)) (fun _ => by simp) ?_ ?_
      · simp [husa]
      · simp [htns]
    | waits u n retryNotBefore role =>
      refine Task.accounted_open rfl (.inr ⟨?_, rfl⟩) (by simp) husa htns
      exact availabilityCheckpoint_resumable role u n
    | retries reason error retryNotBefore bounded =>
      refine Task.accounted_closed rfl (by simp) (.inr (by simp)) (by simp) ?_ ?_
      · simp [husa]
      · simp [htns]
    | fails status reason error terminal =>
      refine Task.accounted_closed rfl ?_ (.inr (by simp)) (by simp) ?_ ?_
      · rcases terminal with rfl | rfl <;> simp
      · simp [husa]
      · simp [htns]
  | requeue before a error retryNotBefore running resumable =>
    exact Task.accounted_requeued h running resumable error retryNotBefore
  | restart before a error retryNotBefore running lost bounded =>
    obtain ⟨husa, htns⟩ := h.of_running running
    exact Task.accounted_closed rfl (by simp [Task.requeued]) (.inl lost) (by simp [Task.requeued])
      (by simp [husa]) (by simp [htns])
  | exhaust before a error running lost =>
    obtain ⟨husa, htns⟩ := h.of_running running
    exact Task.accounted_closed rfl (by simp) (.inl lost) (by simp) (by simp [husa]) (by simp [htns])

theorem FenceMove.accounted {status : TaskStatus} {reason : TerminalReason} {error : String}
    (hs : status = .failed ∨ status = .cancelled) (hm : FenceMove status reason error t t')
    (h : t.Accounted) : t'.Accounted := by
  have hr : status ≠ .running := by rcases hs with rfl | rfl <;> simp
  have hn : status ≠ .succeeded := by rcases hs with rfl | rfl <;> simp
  cases hm with
  | same => exact h
  | pending pending => exact h.of_idle (by simp [pending]) hr hn rfl rfl rfl rfl
  | running before a running =>
    obtain ⟨husa, htns⟩ := h.of_running running
    exact Task.accounted_closed rfl hr (.inr (by simp)) (fun hs => absurd hs hn) (by simp [husa]) (by simp [htns])

variable {run run' : Run} {lease : Option DagRunLease}

theorem RowsMove.accounted (hi : RunInv run) (hm : RowsMove R run run')
    (h : ∀ t ∈ run.tasks, t.Accounted) : ∀ t ∈ run'.tasks, t.Accounted := by
  cases hm with
  | columns _ tasks | start _ tasks | succeed _ tasks => rw [tasks]; exact h
  | claim _ _ _ _ _ tasks =>
    intro t' ht'
    obtain ⟨t, ht, hm⟩ := Pointwise.left tasks ht'
    exact hm.accounted (hi.tasks t ht) (h t ht)
  | work _ _ _ _ tasks =>
    intro t'' ht''
    obtain ⟨t, ht, t', hw, hb⟩ := Pointwise.left tasks ht''
    have ha := hw.accounted (h t ht)
    obtain rfl | ⟨hp, rfl⟩ := hb
    · exact ha
    · exact ha.of_idle (by simp [hp]) (by simp [Task.blocked]) (by simp [Task.blocked]) rfl rfl rfl
        rfl
  | pause _ _ _ tasks =>
    intro t' ht'
    obtain ⟨t, ht, hm⟩ := Pointwise.left tasks ht'
    cases hm with
    | same => exact h t' ht
    | requeue before a running resumable =>
      exact Task.accounted_requeued (h t ht) running resumable _ _
  | terminate _ _ status _ _ ends _ tasks =>
    intro t' ht'
    obtain ⟨t, ht, hm⟩ := Pointwise.left tasks ht'
    exact hm.accounted (ends.imp And.right And.right) (h t ht)
  | expand _ _ _ _ _ _ _ _ _ _ _ tasks =>
    intro t ht
    rw [tasks, mem_append] at ht
    rcases ht with ht | ht
    · exact h t ht
    · obtain ⟨order, contract, -, rfl⟩ := mem_newTasks ht
      exact accounted_new order contract

end Moves

theorem accounted_of_reachable {P : RetryPolicy} {ledger : Ledger} (h : Reachable P ledger)
    {runId : String} {run : Run} (hrun : ledger.runs.get? runId = some run) : ∀ t ∈ run.tasks, t.Accounted := by
  refine reachable_run (I := fun run => ∀ t ∈ run.tasks, t.Accounted) (fun _ _ _ _ t ht => ?_)
    (fun _ _ _ hi hm h => hm.accounted hi h) h hrun
  obtain ⟨order, contract, -, rfl⟩ := mem_newTasks ht
  exact accounted_new order contract

/-! ### Attempts only grow -/

/-- The attempt, or what became of it, has at least this usage and these turns. -/
def Task.Has (t : Task) (attemptId : String) (usage : Usage) (turns : ℕ) : Prop :=
  ∃ a ∈ t.attempts, a.attemptId = attemptId ∧ usageAtLeast a.usage usage ∧ turns ≤ a.turns

section Grow

variable {R : Rules} {t t' : Task} {attemptId : String} {usage : Usage} {turns : ℕ}

theorem Task.Has.of_last {before : List Attempt} {a a' : Attempt} (h : t.Has attemptId usage turns)
    (ht : t.attempts = before ++ [a]) (ht' : t'.attempts = before ++ [a'])
    (hid : a'.attemptId = a.attemptId) (husa : usageAtLeast a'.usage a.usage)
    (htns : a.turns ≤ a'.turns) : t'.Has attemptId usage turns := by
  obtain ⟨b, hb, hbid, hbu, hbt⟩ := h
  rw [ht, mem_append, mem_singleton] at hb
  rcases hb with hb | rfl
  · exact ⟨b, by simp [ht', hb], hbid, hbu, hbt⟩
  · exact ⟨a', by simp [ht'], hid.trans hbid, usageAtLeast_trans hbu husa, hbt.trans htns⟩

theorem Task.Has.of_attempts (h : t.Has attemptId usage turns) (ht : t.attempts ⊆ t'.attempts) :
    t'.Has attemptId usage turns := by
  obtain ⟨b, hb, hbid, hbu, hbt⟩ := h
  exact ⟨b, ht hb, hbid, hbu, hbt⟩

theorem ClaimMove.has (hm : ClaimMove t t') (h : t.Has attemptId usage turns) : t'.Has attemptId usage turns := by
  cases hm with
  | same => exact h
  | start => exact h.of_attempts (subset_append_left ..)
  | resume before a ownerId leaseExpiresAt pending resumable attempts expired =>
    exact h.of_last attempts rfl rfl (usageAtLeast_refl _) le_rfl

theorem WorkMove.has (hm : WorkMove R t t') (h : t.Has attemptId usage turns) : t'.Has attemptId usage turns := by
  cases hm with
  | same => exact h
  | amend before a a' leaseExpiresAt checkpoint retryNotBefore running amended =>
    exact h.of_last running.attempts rfl amended.attemptId amended.usage amended.turns
  | settle before a s usage turns running settlement given more longer =>
    exact h.of_last running.attempts rfl rfl more longer
  | requeue before a error retryNotBefore running | restart before a error retryNotBefore running
  | exhaust before a error running =>
    exact h.of_last running.attempts rfl rfl (usageAtLeast_refl _) le_rfl

theorem BlockMove.has (hm : BlockMove t t') (h : t.Has attemptId usage turns) : t'.Has attemptId usage turns := by
  obtain rfl | ⟨-, rfl⟩ := hm <;> exact h

theorem PauseMove.has (hm : PauseMove t t') (h : t.Has attemptId usage turns) : t'.Has attemptId usage turns := by
  cases hm with
  | same => exact h
  | requeue before a running => exact h.of_last running.attempts rfl rfl (usageAtLeast_refl _) le_rfl

theorem FenceMove.has {status : TaskStatus} {reason : TerminalReason} {error : String}
    (hm : FenceMove status reason error t t') (h : t.Has attemptId usage turns) : t'.Has attemptId usage turns := by
  cases hm with
  | same => exact h
  | pending => exact h
  | running before a running => exact h.of_last running.attempts rfl rfl (usageAtLeast_refl _) le_rfl

/-- A task of the run has the attempt with at least this usage and these turns. -/
def Run.Has (run : Run) (taskId attemptId : String) (usage : Usage) (turns : ℕ) : Prop :=
  ∃ t ∈ run.tasks, t.taskId = taskId ∧ t.Has attemptId usage turns

theorem RowsMove.has {taskId : String} (hm : RowsMove R run run')
    (h : run.Has taskId attemptId usage turns) : run'.Has taskId attemptId usage turns := by
  obtain ⟨t, ht, rfl, hhas⟩ := h
  have hmov : ∀ {M : Task → Task → Prop}, Forall₂ M run.tasks run'.tasks →
      (∀ t', M t t' → t'.taskId = t.taskId ∧ t'.Has attemptId usage turns) → run'.Has t.taskId attemptId usage turns := by
    intro M hM hstep
    obtain ⟨t', ht', hm⟩ := Pointwise.right hM ht
    exact ⟨t', ht', hstep t' hm⟩
  cases hm with
  | columns _ tasks | start _ tasks | succeed _ tasks => exact ⟨t, tasks ▸ ht, rfl, hhas⟩
  | claim _ _ _ _ _ tasks => exact hmov tasks fun _ hm => ⟨hm.sameTask.taskId, hm.has hhas⟩
  | work _ _ _ _ tasks =>
    refine hmov tasks ?_
    rintro t'' ⟨t', hw, hb⟩
    exact ⟨hb.sameTask.taskId.trans hw.sameTask.taskId, hb.has (hw.has hhas)⟩
  | pause _ _ _ tasks => exact hmov tasks fun _ hm => ⟨hm.sameTask.taskId, hm.has hhas⟩
  | terminate _ _ _ _ _ _ _ tasks =>
    exact hmov tasks fun _ hm => ⟨hm.sameTask.taskId, hm.has hhas⟩
  | expand _ _ _ _ _ _ _ _ _ _ _ tasks =>
    exact ⟨t, tasks ▸ mem_append_left _ ht, rfl, hhas⟩

end Grow

/-! ### The sums of a run -/

/-- The sums of a run are those of all its attempts. -/
def Run.Reconciled (run : Run) : Prop :=
  run.usage = (run.attempts.map (·.usage)).sum ∧ run.turns = (run.attempts.map (·.turns)).sum

theorem reconciled_of_reconcile (h : reconcile run = .ok run') : run'.Reconciled := by
  have heq := reconcile_ok h
  have hatt : run'.attempts = run.attempts := by
    rw [Run.attempts, heq]
    rfl
  constructor
  · rw [hatt, heq]
  · rw [hatt, heq]

theorem Run.Reconciled.block {run : Run} (h : run.Reconciled) : (blockDagDescendants run).Reconciled := by
  obtain ⟨hmv, heq⟩ := blockDagDescendants_moves run
  have hatt : (blockDagDescendants run).attempts = run.attempts := by
    rw [Run.attempts, Run.attempts, flatMap_def, flatMap_def]
    congr 1
    refine (Pointwise.map_eq hmv fun t t' hm => ?_).symm
    obtain rfl | ⟨-, rfl⟩ := hm <;> rfl
  constructor
  · rw [hatt, heq]
    exact h.1
  · rw [hatt, heq]
    exact h.2

/-- What holds of the accounting of a run after some calls. A task whose run ended while its
attempt waited to be resumed is left out. -/
structure Accounting (P : RetryPolicy) (ops : List Op) (runId : String) (run : Run) : Prop where
  grows : ∀ t ∈ run.tasks, ∀ a ∈ t.attempts, ∀ later,
    ∃ run', (steps P {} (ops ++ later)).runs.get? runId = some run' ∧ run'.Has t.taskId a.attemptId a.usage a.turns
  ended : ∀ t ∈ run.tasks, t.status = .succeeded ∨ ((t.status = .failed ∨ t.status = .cancelled) ∧
      ¬ (t.resumable ∧ t.attempts.getLast?.any (·.status = .expired))) →
    t.usage = (t.attempts.map (·.usage)).sum ∧ t.turns = (t.attempts.map (·.turns)).sum
  completes : ∀ taskId attemptId ownerId completion now lease ledger',
    completeDagTask P runId taskId attemptId ownerId completion now lease (steps P {} ops) = .ok ((), ledger') →
    ∃ run', ledger'.runs.get? runId = some run' ∧ (run'.Reconciled ∨
      (run' = run ∧ ∃ t ∈ run.tasks, t.taskId = taskId ∧ ∃ prior, isReplay P t attemptId ownerId prior completion))
  recovers : ∀ now lease ledger', recoverDagRun P runId now lease (steps P {} ops) = .ok ((), ledger') →
    (∃ t ∈ run.tasks, t.leaseExpired now) → ∃ run', ledger'.runs.get? runId = some run' ∧ run'.Reconciled
  terminates : ∀ status now lease ledger', setDagRunStatus runId status now lease (steps P {} ops) = .ok ((), ledger') →
    status = .failed ∨ status = .cancelled → run.status ≠ status →
    ∃ run', ledger'.runs.get? runId = some run' ∧ run'.Reconciled

section Calls

variable {P : RetryPolicy} {ledger ledger' : Ledger} {runId : String} {run : Run}

theorem completeDagTask_reconciles {taskId attemptId ownerId : String} {completion : Completion}
    {now : ℤ} (hrun : ledger.runs.get? runId = some run)
    (h : completeDagTask P runId taskId attemptId ownerId completion now lease ledger = .ok ((), ledger')) :
    ∃ run', ledger'.runs.get? runId = some run' ∧ (run'.Reconciled ∨ (run' = run ∧ ∃ t ∈ run.tasks, t.taskId = taskId ∧
        ∃ prior, isReplay P t attemptId ownerId prior completion)) := by
  obtain ⟨r, t, prior, hr, -, hfind, ⟨hrpl, rfl⟩ | ⟨-, s, run', hc, rfl⟩⟩ := completeDagTask_ok h
  · rw [hrun] at hr
    cases hr
    exact ⟨run, by rw [Ledger.get?_put, if_pos rfl], .inr ⟨rfl, t, mem_of_find?_eq_some hfind,
      by simpa using List.find?_some hfind, prior, hrpl⟩⟩
  · have hsum : run'.Reconciled := by
      constructor <;> rw [hc.rest] <;> rfl
    refine ⟨_, by rw [Ledger.get?_put, if_pos rfl], .inl ?_⟩
    split
    · exact hsum.block
    · exact hsum

theorem recoverDagRun_reconciles {now : ℤ} (hi : RunInv run) (hrun : ledger.runs.get? runId = some run)
    (h : recoverDagRun P runId now lease ledger = .ok ((), ledger'))
    (hexp : ∃ t ∈ run.tasks, t.leaseExpired now) : ∃ run', ledger'.runs.get? runId = some run' ∧ run'.Reconciled := by
  obtain ⟨t, ht, hl⟩ := hexp
  obtain ⟨r, hr, -, ⟨hs, rfl⟩ | ⟨hs, tasks, events, run', hm, hend, rfl⟩⟩ := recoverDagRun_ok h
  · rw [hrun] at hr
    cases hr
    exact absurd (hi.live t ht hl.1).1 hs
  · rw [hrun] at hr
    cases hr
    refine ⟨run', by rw [Ledger.get?_put, if_pos rfl], ?_⟩
    obtain ⟨hnone, -⟩ | hrec := hend
    · have := filter_eq_nil_iff.mp hnone t ht
      exact absurd hl (by simpa using this)
    · exact reconciled_of_reconcile hrec

theorem setDagRunStatus_reconciles {status : RunStatus} {now : ℤ} (hrun : ledger.runs.get? runId = some run)
    (h : setDagRunStatus runId status now lease ledger = .ok ((), ledger'))
    (hs : status = .failed ∨ status = .cancelled) (hne : run.status ≠ status) :
    ∃ run', ledger'.runs.get? runId = some run' ∧ run'.Reconciled := by
  obtain ⟨r, run', hr, hmove, rfl⟩ := setDagRunStatus_ok h
  rw [hrun] at hr
  cases hr
  refine ⟨run', by rw [Ledger.get?_put, if_pos rfl], ?_⟩
  cases hmove with
  | same _ unmoved => exact absurd unmoved hne
  | start => simp at hs
  | succeed => simp at hs
  | terminate _ fenced _ unfinished ends held eq =>
    have hsum : fenced.Reconciled := by
      obtain ⟨-, hf⟩ | ⟨-, hf⟩ := ends
      · have hfen := (fenceRun_ok hf).2
        constructor <;> rw [hfen] <;> rfl
      · have hfen := (fenceRun_ok hf).2
        constructor <;> rw [hfen] <;> rfl
    rw [eq]
    exact hsum

end Calls

namespace ReportedAgain

def policy : RetryPolicy := ⟨fun _ => false, fun _ => false, fun _ _ => 1⟩

def scout (id : String) : Contract := { id, role := .scout, dependsOn := [], maxAttempts := 1, contractHash := "hash" }

def artifact : TaskArtifact :=
  { artifactId := "artifact", taskId := "first", contractHash := "hash"
    quality := { semanticOutcome := .accepted, pathAudit := .notApplicable
                 validationStatus := .notApplicable } }

def request : Request := { mergeEnabled := false, tasks := [scout "first", scout "second"], sealed := true }

/-- The first task is done, and the attempt of the second reports a turn. -/
def ops : List Op :=
  [.createDagRun "run" request 0, .setDagRunStatus "run" .running 0 none, .claimRunnableTasks "run" "owner" 0 10 2 none
      (fun n => if n = 2 then "attempt-1" else "attempt-2"),
    .completeDagTask "run" "first" "attempt-1" "owner" (.success artifact none none) 1 none,
    .recordDagAttemptAccounting "run" "second" "attempt-2" "owner" 0 1 2 none]

/-- The first attempt times out, and the second succeeds. -/
def retried : List Op :=
  [.createDagRun "run" { mergeEnabled := false, tasks := [{ scout "first" with maxAttempts := 2 }], sealed := true } 0,
    .setDagRunStatus "run" .running 0 none, .claimRunnableTasks "run" "owner" 0 10 1 none (fun _ => "attempt-1"),
    .completeDagTask "run" "first" "attempt-1" "owner"
      (.failure .timeout (some "Child timed out") (some { input := 5, totalTokens := 5 }) (some 1)) 1 none,
    .claimRunnableTasks "run" "owner" 2 10 1 none (fun _ => "attempt-2"),
    .completeDagTask "run" "first" "attempt-2" "owner"
      (.success artifact (some { input := 7, totalTokens := 7 }) (some 2)) 3 none]

end ReportedAgain

end EasyPi.Subagent
