/-
# Each operation of the ledger

For every operation of `RunLedger`, what it did to the rows of its run when it
returned: the exact result where a later proof needs it (`_ok`), and the moves
it is made of (`_moves`). Later modules use these, and unfold an operation only
to read its lease check.
-/
import EasyPi.Subagent.Steps

namespace EasyPi.Subagent

open List

/-! ### Each operation -/

section Operations

variable {ledger ledger' : Ledger} {runId ownerId : String} {now leaseDurationMs : ℤ}
  {lease : DagRunLease} {lease? : Option DagRunLease} {R : Rules}

/-- An operation on one run of the ledger, by the moves. -/
def Changed (R : Rules) (ledger : Ledger) (runId : String) (ledger' : Ledger) : Prop :=
  ∃ run run', ledger.runs.get? runId = some run ∧ ledger' = ledger.put runId run' ∧
    LeaseMove run run' ∧ RowsMove R run run'

variable {r : Option DagRunLease} {run : Run} {usage : Usage} {t : Task}

attribute [local simp] RunStatus.Terminal RunStatus.transitions bind_ok_iff pure_ok_iff require_eq_ok

theorem acquireDagRunLease_ok (h : acquireDagRunLease runId ownerId now leaseDurationMs ledger = .ok (r, ledger')) :
    ∃ run, ledger.runs.get? runId = some run ∧ ((r = none ∧ ledger' = ledger.put runId run) ∨
      (run.unfinished ∧ ¬ run.liveLease now ∧ r = some ⟨ownerId, run.ownerEpoch + 1, now + leaseDurationMs⟩ ∧
        ledger' = ledger.put runId ({ run with
          ownerId := some ownerId
          ownerEpoch := run.ownerEpoch + 1
          runLeaseExpiresAt := some (now + leaseDurationMs) }.event
            { type := "run.lease.acquired" }))) := by
  simp only [acquireDagRunLease, leaseExpiry, bind_ok_iff, require_eq_ok, pure_ok_iff,
    transaction_eq_ok, ite_ok_iff, Except.ok.injEq, Prod.mk.injEq] at h
  obtain ⟨-, -, _, ⟨-, -, -, -, -, -, rfl⟩, run, run', hrun, h, rfl⟩ := h
  obtain ⟨-, rfl, rfl⟩ | ⟨hn, -, -, rfl, rfl⟩ := h
  · exact ⟨run, hrun, .inl ⟨rfl, rfl⟩⟩
  · rw [not_or, not_not] at hn
    exact ⟨run, hrun, .inr ⟨hn.1, hn.2, rfl, rfl⟩⟩

theorem acquireDagRunLease_moves (h : acquireDagRunLease runId ownerId now leaseDurationMs ledger = .ok (r, ledger')) :
    Changed R ledger runId ledger' := by
  obtain ⟨run, hrun, ⟨-, rfl⟩ | ⟨-, -, -, rfl⟩⟩ := acquireDagRunLease_ok h
  · exact ⟨run, run, hrun, rfl, .same rfl rfl rfl, .columns ⟨rfl, rfl, rfl, rfl, rfl⟩ rfl rfl (.inl rfl)⟩
  · exact ⟨run, _, hrun, rfl, .acquire (Option.some_ne_none _) rfl, .columns ⟨rfl, rfl, rfl, rfl, rfl⟩ rfl rfl (.inl rfl)⟩

theorem heartbeatDagRunLease_ok (h : heartbeatDagRunLease runId lease now leaseDurationMs ledger = .ok (r, ledger')) :
    (r = none ∧ ledger' = ledger) ∨ ∃ run, ledger.runs.get? runId = some run ∧
      ((r = none ∧ ledger' = ledger.put runId run) ∨ (run.holds lease ∧ now < lease.leaseExpiresAt ∧ run.unfinished ∧
        r = some { lease with leaseExpiresAt := now + leaseDurationMs } ∧ ledger' = ledger.put runId ({ run with
          runLeaseExpiresAt := some (now + leaseDurationMs) }.event
            { type := "run.lease.heartbeat" }))) := by
  simp only [heartbeatDagRunLease, leaseExpiry, bind_ok_iff, require_eq_ok, pure_ok_iff] at h
  obtain ⟨_, ⟨-, -, -, -, -, -, rfl⟩, h⟩ := h
  cases hrun : ledger.runs.get? runId with
  | none =>
    simp only [hrun, Except.ok.injEq, Prod.mk.injEq] at h
    exact .inl ⟨h.1.symm, h.2.symm⟩
  | some run =>
    simp only [hrun, transaction_eq_ok, ite_ok_iff, Except.ok.injEq, Prod.mk.injEq, Option.some.injEq] at h
    obtain ⟨_, _, rfl, ⟨⟨hh, hlt, hu⟩, rfl, rfl⟩ | ⟨-, rfl, rfl⟩, rfl⟩ := h
    · exact .inr ⟨run, rfl, .inr ⟨hh, hlt, hu, rfl, rfl⟩⟩
    · exact .inr ⟨run, rfl, .inl ⟨rfl, rfl⟩⟩

theorem releaseDagRunLease_ok {r : Bool} (h : releaseDagRunLease runId lease now ledger = .ok (r, ledger')) :
    (r = false ∧ ledger' = ledger) ∨ ∃ run, ledger.runs.get? runId = some run ∧
      ((r = false ∧ ledger' = ledger.put runId run) ∨ (run.holds lease ∧ run.unfinished ∧ r = true ∧
        ledger' = ledger.put runId ({ run with ownerId := none, runLeaseExpiresAt := none }.event
          { type := "run.lease.released" }))) := by
  simp only [releaseDagRunLease, bind_ok_iff, require_eq_ok] at h
  obtain ⟨-, -, h⟩ := h
  cases hrun : ledger.runs.get? runId with
  | none =>
    simp only [hrun, Except.ok.injEq, Prod.mk.injEq] at h
    exact .inl ⟨h.1.symm, h.2.symm⟩
  | some run =>
    simp only [hrun, transaction_eq_ok, ite_ok_iff, Except.ok.injEq, Prod.mk.injEq, Option.some.injEq] at h
    obtain ⟨_, _, rfl, ⟨⟨hh, hu⟩, rfl, rfl⟩ | ⟨-, rfl, rfl⟩, rfl⟩ := h
    · exact .inr ⟨run, rfl, .inr ⟨hh, hu, rfl, rfl⟩⟩
    · exact .inr ⟨run, rfl, .inl ⟨rfl, rfl⟩⟩

theorem markDagRunPaused_ok {r : Bool} (h : markDagRunPaused runId now ledger = .ok (r, ledger')) :
    ∃ run, ledger.runs.get? runId = some run ∧ ((r = true → run.pausedAt ≠ none) ∧ ledger' = ledger.put runId run ∨
      (run.unfinished ∧ run.pausedAt = none ∧ ¬ run.liveLease now ∧ (∀ t ∈ run.tasks, t.status = .running → t.resumable) ∧
        ∃ tasks events, run.tasks.mapM (pauseTask run.runId) = .ok tasks ∧ ledger' = ledger.put runId { run with
            tasks, events, pausedAt := some now, ownerId := none, runLeaseExpiresAt := none })) := by
  simp only [markDagRunPaused, bind_ok_iff, require_eq_ok, transaction_eq_ok,
    ite_ok_iff, pure_ok_iff, Except.ok.injEq, Prod.mk.injEq] at h
  obtain ⟨-, -, run, run', hrun, h, rfl⟩ := h
  obtain ⟨-, rfl, rfl⟩ | ⟨hu, ⟨hp, -, rfl⟩ | ⟨hp, -, hl, -, hres, tasks, hm, -, rfl⟩⟩ := h
  · exact ⟨run, hrun, .inl ⟨by simp, rfl⟩⟩
  · exact ⟨run, hrun, .inl ⟨fun _ => hp, rfl⟩⟩
  · rw [not_not] at hu hp
    exact ⟨run, hrun, .inr ⟨hu, hp, hl, hres, tasks, _, hm, rfl⟩⟩

theorem changed_same (hrun : ledger.runs.get? runId = some run) : Changed R ledger runId (ledger.put runId run) :=
  ⟨run, run, hrun, rfl, .same rfl rfl rfl, .columns ⟨rfl, rfl, rfl, rfl, rfl⟩ rfl rfl (.inl rfl)⟩

variable (hi : ∀ run, ledger.runs.get? runId = some run → RunInv run)

include hi in
theorem markDagRunPaused_moves {r : Bool}
    (h : markDagRunPaused runId now ledger = .ok (r, ledger')) : Changed R ledger runId ledger' := by
  obtain ⟨run, hrun, ⟨-, rfl⟩ | ⟨hu, -, -, hres, tasks, events, hm, rfl⟩⟩ := markDagRunPaused_ok h
  · exact changed_same hrun
  · refine ⟨run, _, hrun, rfl, .drop rfl rfl, .pause ⟨rfl, rfl, rfl, rfl, rfl⟩ hu rfl ?_⟩
    exact Pointwise.imp_mem (mapM_eq_ok.mp hm) fun t ht t' h =>
      pauseTask_move ((hi run hrun).tasks t ht) (hres t ht) h

theorem clearDagRunPause_moves {r : Bool} (h : clearDagRunPause runId now lease ledger = .ok (r, ledger')) :
    Changed R ledger runId ledger' := by
  simp only [clearDagRunPause, bind_ok_iff, require_eq_ok, transaction_eq_ok] at h
  obtain ⟨-, -, run, run', hrun, ⟨-, -, h⟩, rfl⟩ := h
  cases hp : run.pausedAt with
  | none =>
    simp only [hp, Except.ok.injEq, Prod.mk.injEq] at h
    obtain ⟨-, rfl⟩ := h
    exact changed_same hrun
  | some pausedAt =>
    simp only [hp, bind_ok_iff, require_eq_ok, pure_ok_iff, Prod.mk.injEq] at h
    obtain ⟨-, -, -, rfl⟩ := h
    exact ⟨run, _, hrun, rfl, .same rfl rfl rfl, .columns ⟨rfl, rfl, rfl, rfl, rfl⟩ rfl rfl (.inr rfl)⟩

theorem heartbeatDagRunLease_moves
    (h : heartbeatDagRunLease runId lease now leaseDurationMs ledger = .ok (r, ledger')) :
    ledger' = ledger ∨ Changed R ledger runId ledger' := by
  obtain ⟨-, rfl⟩ | ⟨run, hrun, ⟨-, rfl⟩ | ⟨hh, -, -, -, rfl⟩⟩ := heartbeatDagRunLease_ok h
  · exact .inl rfl
  · exact .inr (changed_same hrun)
  · refine .inr ⟨run, _, hrun, rfl, .renew rfl rfl ?_, .columns ⟨rfl, rfl, rfl, rfl, rfl⟩ rfl rfl (.inl rfl)⟩
    rw [hh.1]
    exact Option.some_ne_none _

theorem releaseDagRunLease_moves {r : Bool} (h : releaseDagRunLease runId lease now ledger = .ok (r, ledger')) :
    ledger' = ledger ∨ Changed R ledger runId ledger' := by
  obtain ⟨-, rfl⟩ | ⟨run, hrun, ⟨-, rfl⟩ | ⟨-, -, -, rfl⟩⟩ := releaseDagRunLease_ok h
  · exact .inl rfl
  · exact .inr (changed_same hrun)
  · exact .inr ⟨run, _, hrun, rfl, .drop rfl rfl, .columns ⟨rfl, rfl, rfl, rfl, rfl⟩ rfl rfl (.inl rfl)⟩

variable {run run' : Run}

theorem fenceRun_ok {status : TaskStatus} {reason : TerminalReason}
    {error type : String} (h : fenceRun run status reason error type = .ok run') :
    Forall₂ (fun t t' => fenceTask run.runId status reason error t = .ok t') run.tasks run'.tasks ∧ run' = { run with
        tasks := run'.tasks
        usage := (run'.attempts.map (·.usage)).sum
        turns := (run'.attempts.map (·.turns)).sum
        events := run'.events } := by
  simp only [fenceRun, bind_ok_iff] at h
  obtain ⟨tasks, hm, h⟩ := h
  have heq := reconcile_ok h
  have htks : run'.tasks = tasks := by rw [heq]
  refine ⟨htks ▸ mapM_eq_ok.mp hm, ?_⟩
  subst htks
  exact heq

/-- The status of a run changes in four ways. -/
inductive StatusMove (now : ℤ) (lease? : Option DagRunLease) (run : Run) : RunStatus → Run → Prop
  | same (status : RunStatus) (unmoved : run.status = status) : StatusMove now lease? run status run
  | start (created : run.status = .created) (held : assertDagRunMutationLease run now lease? = .ok ()) :
      StatusMove now lease? run .running
        ({ run with status := .running }.event { type := "run.transition" })
  | succeed (run' : Run) (running : run.status = .running) (held : assertDagRunMutationLease run now lease? true = .ok ())
      (able : assertCanSucceed run = .ok ())
      (eq : run' = { run with
        status := .succeeded, ownerId := none, runLeaseExpiresAt := none, pausedAt := none
        pausedDurationMs := run'.pausedDurationMs, events := run'.events }) :
      StatusMove now lease? run .succeeded run'
  | terminate (status : RunStatus) (fenced run' : Run) (unfinished : run.unfinished) (ends : (status = .failed ∧
          fenceRun run .failed .interrupted "DAG run failed" "task.failed" = .ok fenced) ∨ (status = .cancelled ∧
          fenceRun run .cancelled .cancelled "DAG run cancelled" "task.cancelled" = .ok fenced))
      (held : assertDagRunMutationLease run now lease? true = .ok ())
      (eq : run' = { fenced with
        status, ownerId := none, runLeaseExpiresAt := none, pausedAt := none
        pausedDurationMs := run'.pausedDurationMs, events := run'.events }) :
      StatusMove now lease? run status run'

theorem unfinished_of_open (h : ¬ run.status.Terminal) : run.unfinished := by
  unfold Run.unfinished
  cases hs : run.status <;> simp [hs] at h ⊢

theorem setDagRunStatus_ok {nextStatus : RunStatus}
    (h : setDagRunStatus runId nextStatus now lease? ledger = .ok ((), ledger')) :
    ∃ run run', ledger.runs.get? runId = some run ∧ StatusMove now lease? run nextStatus run' ∧
      ledger' = ledger.put runId run' := by
  simp only [setDagRunStatus, transaction_eq_ok] at h
  obtain ⟨run, run', hrun, h, rfl⟩ := h
  refine ⟨run, run', hrun, ?_, rfl⟩
  clear hrun
  rw [ite_ok_iff] at h
  obtain ⟨-, h⟩ | ⟨hopen, h⟩ := h
  · simp only [bind_ok_iff, require_eq_ok, pure_ok_iff, Prod.mk.injEq] at h
    obtain ⟨-, heq, -, rfl⟩ := h
    exact .same _ heq
  · simp only [bind_ok_iff, ite_ok_iff, pure_ok_iff, require_eq_ok, Prod.mk.injEq] at h
    obtain ⟨_, hheld, ⟨heq, -, rfl⟩ | ⟨-, -, hmem, h⟩⟩ := h
    · exact .same _ heq
    · cases nextStatus with
      | created => cases hs : run.status <;> simp [hs] at hmem
      | running =>
        have hs : run.status = .created := by
          cases hs : run.status <;> simp [hs] at hmem
          rfl
        simp [-bind_pure_comp] at h
        obtain ⟨-, rfl⟩ := h
        exact .start hs hheld
      | succeeded =>
        have hs : run.status = .running := by
          cases hs : run.status <;> simp [hs] at hmem
          rfl
        simp [-bind_pure_comp] at h
        obtain ⟨⟨_, hable⟩, -, rfl⟩ := h
        exact .succeed _ hs hheld hable rfl
      | failed =>
        simp [-bind_pure_comp] at h
        obtain ⟨fenced, hf, -, rfl⟩ := h
        exact .terminate _ fenced _ (unfinished_of_open hopen) (.inl ⟨rfl, hf⟩) hheld rfl
      | cancelled =>
        simp [-bind_pure_comp] at h
        obtain ⟨fenced, hf, -, rfl⟩ := h
        exact .terminate _ fenced _ (unfinished_of_open hopen) (.inr ⟨rfl, hf⟩) hheld rfl

theorem assertCanSucceed_ok (h : assertCanSucceed run = .ok ()) :
    run.pausedAt = none ∧ ∀ t ∈ run.tasks, t.status = .succeeded := by
  simp only [assertCanSucceed, bind_ok_iff, require_eq_ok] at h
  obtain ⟨-, hp, -, -, -, -, -, hall, -⟩ := h
  exact ⟨hp, hall⟩

include hi in
theorem setDagRunStatus_moves {nextStatus : RunStatus}
    (hR : ∀ run, assertDagRunMutationLease run now lease? (decide nextStatus.Terminal) = .ok () →
      R.statuses run nextStatus)
    (h : setDagRunStatus runId nextStatus now lease? ledger = .ok ((), ledger')) : Changed R ledger runId ledger' := by
  obtain ⟨run, run', hrun, hmove, rfl⟩ := setDagRunStatus_ok h
  cases hmove with
  | same => exact changed_same hrun
  | start created held =>
    exact ⟨run, _, hrun, rfl, .same rfl rfl rfl, .start ⟨rfl, rfl, rfl, rfl, rfl⟩ rfl created rfl rfl (hR run held)⟩
  | succeed _ running held able eq =>
    rw [eq]
    exact ⟨run, _, hrun, rfl, .drop rfl rfl,
      .succeed ⟨rfl, rfl, rfl, rfl, rfl⟩ rfl running rfl (assertCanSucceed_ok able).2 (hR run held)⟩
  | terminate _ fenced _ unfinished ends held eq =>
    rw [eq]
    obtain ⟨rfl, hf⟩ | ⟨rfl, hf⟩ := ends
    · obtain ⟨hmv, hfen⟩ := fenceRun_ok hf
      rw [hfen]
      exact ⟨run, _, hrun, rfl, .drop rfl rfl, .terminate ⟨rfl, rfl, rfl, rfl, rfl⟩ unfinished _ _ _ (.inl ⟨rfl, rfl⟩)
          (hR run held) (Pointwise.imp_mem hmv fun t ht t' h => fenceTask_move ((hi run hrun).tasks t ht) h)⟩
    · obtain ⟨hmv, hfen⟩ := fenceRun_ok hf
      rw [hfen]
      exact ⟨run, _, hrun, rfl, .drop rfl rfl, .terminate ⟨rfl, rfl, rfl, rfl, rfl⟩ unfinished _ _ _ (.inr ⟨rfl, rfl⟩)
          (hR run held) (Pointwise.imp_mem hmv fun t ht t' h => fenceTask_move ((hi run hrun).tasks t ht) h)⟩

theorem setDagRunUsage_moves {turns : ℕ} (h : setDagRunUsage runId usage now lease? turns ledger = .ok ((), ledger')) :
    Changed R ledger runId ledger' := by
  simp only [setDagRunUsage, bind_ok_iff, require_eq_ok, transaction_eq_ok, pure_ok_iff, Prod.mk.injEq] at h
  obtain ⟨-, -, run, run', hrun, ⟨-, -, -, rfl⟩, rfl⟩ := h
  exact ⟨run, _, hrun, rfl, .same rfl rfl rfl, .columns ⟨rfl, rfl, rfl, rfl, rfl⟩ rfl rfl (.inl rfl)⟩

theorem reconcileDagRunAccounting_moves {r : Usage × ℕ}
    (h : reconcileDagRunAccounting runId now lease? ledger = .ok (r, ledger')) : Changed R ledger runId ledger' := by
  simp only [reconcileDagRunAccounting, bind_ok_iff, require_eq_ok, transaction_eq_ok, pure_ok_iff, Prod.mk.injEq] at h
  obtain ⟨-, -, run, _, hrun, ⟨-, -, run', hr, -, rfl⟩, rfl⟩ := h
  have heq := reconcile_ok hr
  rw [heq]
  exact ⟨run, _, hrun, rfl, .same rfl rfl rfl, .columns ⟨rfl, rfl, rfl, rfl, rfl⟩ rfl rfl (.inl rfl)⟩

theorem recordDagIntegration_moves {integration : IntegrationArtifact}
    (h : recordDagIntegration runId integration now lease? ledger = .ok ((), ledger')) :
    Changed R ledger runId ledger' := by
  simp only [recordDagIntegration, bind_ok_iff, require_eq_ok, transaction_eq_ok] at h
  obtain ⟨-, -, candidate, -, run, run', hrun, ⟨-, -, -, -, -, -, h⟩, rfl⟩ := h
  cases hg : run.integration with
  | some recorded =>
    simp only [hg, bind_ok_iff, pure_ok_iff, Prod.mk.injEq] at h
    obtain ⟨-, -, -, rfl⟩ := h
    exact changed_same hrun
  | none =>
    simp only [hg, bind_ok_iff] at h
    obtain ⟨_, -, _, -, _, -, h⟩ := h
    cases hp : candidate.provenance <;>
    · simp only [hp, bind_ok_iff, pure_ok_iff, Prod.mk.injEq] at h
      obtain ⟨-, -, -, rfl⟩ := h
      exact ⟨run, _, hrun, rfl, .same rfl rfl rfl, .columns ⟨rfl, rfl, rfl, rfl, rfl⟩ rfl rfl (.inl rfl)⟩

theorem recordDagIntegrationFailure_moves {failure : IntegrationFailure}
    (h : recordDagIntegrationFailure runId failure now lease? ledger = .ok ((), ledger')) :
    Changed R ledger runId ledger' := by
  simp only [recordDagIntegrationFailure, bind_ok_iff, require_eq_ok, transaction_eq_ok] at h
  obtain ⟨-, -, -, -, -, -, -, -, -, -, run, run', hrun, ⟨-, -, -, -, -, -, h⟩, rfl⟩ := h
  cases hg : run.integrationFailure with
  | some recorded =>
    simp only [hg, bind_ok_iff, pure_ok_iff, Prod.mk.injEq] at h
    obtain ⟨-, -, -, rfl⟩ := h
    exact changed_same hrun
  | none =>
    simp only [hg, pure_ok_iff, Prod.mk.injEq] at h
    obtain ⟨-, rfl⟩ := h
    exact ⟨run, _, hrun, rfl, .same rfl rfl rfl, .columns ⟨rfl, rfl, rfl, rfl, rfl⟩ rfl rfl (.inl rfl)⟩

theorem Run.ready_pending (h : run.ready now t) : t.status = .pending := by
  simp only [Run.ready, Bool.and_eq_true, decide_eq_true_eq] at h
  exact h.1.1.1

theorem Run.ready_succeeded {t u : Task} (h : run.ready now t) (hu : run.needs t u) : u.status = .succeeded := by
  simp only [Run.ready, Bool.and_eq_true, all_eq_true, Bool.or_eq_true, decide_eq_true_eq, ne_eq] at h
  obtain ⟨-, hmem, hdep⟩ := hu
  have hd := (h.1.2 _ hdep).resolve_left (by simp)
  exact (hd u hmem).resolve_left (by simp)

theorem claimRunnableTasks_ok {limit : ℤ} {freshIds : ℕ → String} {claims : List Claim}
    (h : claimRunnableTasks runId ownerId now leaseDurationMs limit lease? freshIds ledger = .ok (claims, ledger')) :
    ∃ run, ledger.runs.get? runId = some run ∧ assertDagRunMutationLease run now lease? = .ok () ∧
      ((claims = [] ∧ ledger' = ledger.put runId run) ∨ (run.status = .running ∧ run.pausedAt = none ∧ ∃ tasks events,
        claimTasks run.runId ownerId (now + leaseDurationMs) freshIds (run.ready now) limit.toNat
          ledger.attemptIds run.tasks = .ok (tasks, claims) ∧
        ledger' = ledger.put runId { run with tasks, events })) := by
  simp only [claimRunnableTasks, leaseExpiry, bind_ok_iff, require_eq_ok, pure_ok_iff,
    transaction_eq_ok, ite_ok_iff, Prod.mk.injEq, Prod.exists] at h
  obtain ⟨-, -, _, ⟨-, -, -, -, -, -, rfl⟩, -, -, run, run', hrun, ⟨_, hheld, h⟩, rfl⟩ := h
  refine ⟨run, hrun, hheld, ?_⟩
  obtain ⟨-, rfl, rfl⟩ | ⟨hn, tasks, _, hcla, rfl, rfl⟩ := h
  · exact .inl ⟨rfl, rfl⟩
  · rw [not_or, not_not, not_not] at hn
    exact .inr ⟨hn.1, hn.2, tasks, _, hcla, rfl⟩

theorem Ledger.mem_attemptIds {a : Attempt}
    (hrun : ledger.runs.get? runId = some run) (ht : t ∈ run.tasks) (ha : a ∈ t.attempts) :
    a.attemptId ∈ ledger.attemptIds := by
  refine mem_flatMap.mpr ⟨run, ?_, mem_map_of_mem (mem_flatMap.mpr ⟨t, ht, ha⟩)⟩
  exact mem_map.mpr ⟨(runId, run), (OrdMap.get?_eq_some_iff _ _ _).mp hrun, rfl⟩

include hi in
theorem claimRunnableTasks_moves {limit : ℤ} {freshIds : ℕ → String} {claims : List Claim}
    (h : claimRunnableTasks runId ownerId now leaseDurationMs limit lease? freshIds ledger =
      .ok (claims, ledger')) : Changed R ledger runId ledger' := by
  obtain ⟨run, hrun, -, ⟨-, rfl⟩ | ⟨hs, hp, tasks, events, hcla, rfl⟩⟩ := claimRunnableTasks_ok h
  · exact changed_same hrun
  · have hmv := (claimTasks_moves (fun t => Run.ready_pending) (hi run hrun).tasks
      (fun t ht a ha => Ledger.mem_attemptIds hrun ht ha) hcla).1
    exact ⟨run, _, hrun, rfl, .same rfl rfl rfl, .claim ⟨rfl, rfl, rfl, rfl, rfl⟩ hs hp hs hp (hmv.imp fun _ _ h => h.1)
        (hmv.imp fun _ _ h => h.2.imp_right fun hr _ hu => Run.ready_succeeded hr hu)⟩

section Active

variable {taskId attemptId : String}

theorem updateActive_ok {task : Task → Task} {attempt : Attempt → Attempt} (hi : RunInv run)
    (h : updateActive run taskId attemptId ownerId now task attempt = .ok run')
    (htask : ∀ t, (task t).attempts = t.attempts ∧ (task t).negative = t.negative) :
    run.status = .running ∧ ∃ tasks, run' = { run with tasks } ∧ Forall₂ (fun t t' => t' = t ∨
      ∃ before a, t.taskId = taskId ∧ t.Running before a ∧ a.attemptId = attemptId ∧
        a.ownerId = ownerId ∧ t' = { task t with attempts := before ++ [attempt a] })
          run.tasks tasks ∧ Forall₂ (fun t t' => t'.negative → t.negative) run.tasks tasks := by
  simp only [updateActive, bind_ok_iff, require_eq_ok] at h
  obtain ⟨-, hs, h⟩ := h
  obtain ⟨tasks, rfl, hmv⟩ := updateTask_ok h
  have hacti : Forall₂ (fun t t' => t' = t ∨ ∃ before a, t.taskId = taskId ∧ t.Running before a ∧
      a.attemptId = attemptId ∧ a.ownerId = ownerId ∧
        t' = { task t with attempts := before ++ [attempt a] }) run.tasks tasks := by
    refine Pointwise.imp_mem hmv fun t ht t' hm => ?_
    obtain ⟨hid, hm⟩ | ⟨-, rfl⟩ := hm
    · simp only [bind_ok_iff, require_eq_ok, updateAttempt_eq_ok] at hm
      obtain ⟨-, hhol, -, rfl⟩ := hm
      obtain ⟨before, a, hr, rfl, rfl⟩ := (hi.tasks t ht).running_of_holds hhol
      refine .inr ⟨before, a, hid, hr, rfl, rfl, ?_⟩
      rw [(htask t).1, hr.map_active]
    · exact .inl rfl
  refine ⟨hs, tasks, rfl, hacti, hacti.imp fun t t' hm => ?_⟩
  obtain rfl | ⟨before, a, -, -, -, -, rfl⟩ := hm
  · exact id
  · rw [← (htask t).2]
    exact id

include hi in
theorem heartbeatAttempt_moves {r : ℤ}
    (h : heartbeatAttempt runId taskId attemptId ownerId now leaseDurationMs lease? ledger =
      .ok (r, ledger')) : Changed R ledger runId ledger' := by
  simp only [heartbeatAttempt, bind_ok_iff, require_eq_ok, transaction_eq_ok, pure_ok_iff, Prod.mk.injEq] at h
  obtain ⟨-, -, -, -, run, _, hrun, ⟨-, -, run', hup, -, rfl⟩, rfl⟩ := h
  obtain ⟨hs, tasks, rfl, hmv, hnega⟩ := updateActive_ok (hi run hrun) hup fun _ => ⟨rfl, rfl⟩
  refine ⟨run, _, hrun, rfl, .same rfl rfl rfl, .work ⟨rfl, rfl, rfl, rfl, rfl⟩ hs hs rfl ?_ (.inr hnega)⟩
  refine hmv.imp fun t t' hm => ⟨t', ?_, .inl rfl⟩
  obtain rfl | ⟨before, a, -, hr, -, -, rfl⟩ := hm
  · exact .same
  · exact .amend before a { a with leaseExpiresAt := now + leaseDurationMs } _ _ _ hr
      ⟨rfl, rfl, rfl, rfl, usageAtLeast_refl _, le_rfl⟩

include hi in
theorem checkpointAttempt_moves {checkpoint : JsonValue}
    (h : checkpointAttempt runId taskId attemptId ownerId checkpoint now lease? ledger =
      .ok ((), ledger')) : Changed R ledger runId ledger' := by
  simp only [checkpointAttempt, bind_ok_iff, require_eq_ok, transaction_eq_ok, pure_ok_iff, Prod.mk.injEq] at h
  obtain ⟨-, -, run, _, hrun, ⟨-, -, run', hup, -, rfl⟩, rfl⟩ := h
  obtain ⟨hs, tasks, rfl, hmv, hnega⟩ := updateActive_ok (hi run hrun) hup fun _ => ⟨rfl, rfl⟩
  refine ⟨run, _, hrun, rfl, .same rfl rfl rfl, .work ⟨rfl, rfl, rfl, rfl, rfl⟩ hs hs rfl ?_ (.inr hnega)⟩
  refine hmv.imp fun t t' hm => ⟨t', ?_, .inl rfl⟩
  obtain rfl | ⟨before, a, -, hr, -, -, rfl⟩ := hm
  · exact .same
  · exact .amend before a { a with checkpoint := some checkpoint } _ _ _ hr
      ⟨rfl, rfl, rfl, rfl, usageAtLeast_refl _, le_rfl⟩

theorem activeAttempt_ok {current : Attempt} (hi : RunInv run)
    (h : activeAttempt run taskId attemptId ownerId = .ok current) :
    ∀ t ∈ run.tasks, t.taskId = taskId → ∃ before, t.Running before current ∧
      current.attemptId = attemptId ∧ current.ownerId = ownerId := by
  intro t ht hid
  unfold activeAttempt at h
  have hfind : run.tasks.find? (·.taskId = taskId) = some t := by
    cases hf : run.tasks.find? (·.taskId = taskId) with
    | none => simpa [hid] using List.find?_eq_none.mp hf t ht
    | some u =>
      have hu := List.find?_some hf
      simp only [decide_eq_true_eq] at hu
      rw [inj_on_of_nodup_map hi.taskIds (mem_of_find?_eq_some hf) ht (hu.trans hid.symm)]
  rw [hfind, Option.bind_some] at h
  cases ha : t.attempts.find? (isActive attemptId ownerId) with
  | none =>
    rw [ha] at h
    cases h
  | some a =>
    rw [ha] at h
    cases h
    exact (hi.tasks t ht).running_of_active (mem_of_find?_eq_some ha) (List.find?_some ha)

theorem activeAttempt_mem {current : Attempt}
    (h : activeAttempt run taskId attemptId ownerId = .ok current) : ∃ t ∈ run.tasks, t.taskId = taskId := by
  unfold activeAttempt at h
  cases hf : run.tasks.find? (·.taskId = taskId) with
  | none =>
    rw [hf] at h
    cases h
  | some t => exact ⟨t, mem_of_find?_eq_some hf, by simpa using List.find?_some hf⟩

include hi in
theorem openDagProviderCircuit_moves {signal : CircuitSignal} {turns : ℕ} {retryNotBefore : ℤ}
    (h : openDagProviderCircuit runId taskId attemptId ownerId signal usage turns retryNotBefore now
      lease? ledger = .ok ((), ledger')) : Changed R ledger runId ledger' := by
  simp only [openDagProviderCircuit, bind_ok_iff, require_eq_ok, transaction_eq_ok,
    pure_ok_iff, requireProgress, Prod.mk.injEq] at h
  obtain ⟨-, -, -, -, -, -, -, -, run, _, hrun,
    ⟨_, -, current, hact, -, -, -, hpro, run₁, hup, run₂, hrec, -, rfl⟩, rfl⟩ := h
  obtain ⟨hs, tasks, rfl, hmv, hnega⟩ := updateActive_ok (hi run hrun) hup fun _ => ⟨rfl, rfl⟩
  have heq := reconcile_ok hrec
  rw [heq]
  refine ⟨run, _, hrun, rfl, .same rfl rfl rfl, .work ⟨rfl, rfl, rfl, rfl, rfl⟩ hs hs rfl ?_ (.inr hnega)⟩
  refine Pointwise.imp_mem hmv fun t ht t' hm => ⟨t', ?_, .inl rfl⟩
  obtain rfl | ⟨before, a, hid, hr, -, -, rfl⟩ := hm
  · exact .same
  · obtain ⟨_, hr', -, -⟩ := activeAttempt_ok (hi run hrun) hact t ht hid
    obtain rfl : current = a := hr.eq_of_active hr'.mem hr'.active
    exact .amend before current { current with
      checkpoint := some (circuitCheckpoint signal retryNotBefore usage turns), usage, turns }
      _ _ _ hr ⟨rfl, rfl, rfl, rfl, hpro.1, hpro.2⟩

include hi in
theorem recordDagAttemptAccounting_moves {turns : ℕ} {r : Bool}
    (h : recordDagAttemptAccounting runId taskId attemptId ownerId usage turns now lease? ledger =
      .ok (r, ledger')) : Changed R ledger runId ledger' := by
  simp only [recordDagAttemptAccounting, bind_ok_iff, require_eq_ok, transaction_eq_ok,
    pure_ok_iff, requireProgress, ite_ok_iff, Prod.mk.injEq] at h
  obtain ⟨-, -, -, -, run, _, hrun, ⟨_, -, current, hact, -, hpro, h⟩, rfl⟩ := h
  obtain ⟨-, -, rfl⟩ | ⟨-, run', hup, -, rfl⟩ := h
  · exact changed_same hrun
  · obtain ⟨tasks, rfl, hmv⟩ := updateTask_ok hup
    have hacti := activeAttempt_ok (hi run hrun) hact
    obtain ⟨t, ht, hid⟩ := activeAttempt_mem hact
    obtain ⟨before, hr, -⟩ := hacti t ht hid
    obtain ⟨hs, -⟩ := (hi run hrun).live t ht hr.status
    refine ⟨run, _, hrun, rfl, .same rfl rfl rfl, .work ⟨rfl, rfl, rfl, rfl, rfl⟩ hs hs rfl ?_ (.inr (hmv.imp ?_))⟩
    swap
    · rintro t t' (⟨-, hm⟩ | ⟨-, rfl⟩)
      · rw [updateAttempt_eq_ok] at hm
        rw [hm.2]
        exact id
      · exact id
    refine Pointwise.imp_mem hmv fun t ht t' hm => ⟨t', ?_, .inl rfl⟩
    obtain ⟨hid, hm⟩ | ⟨-, rfl⟩ := hm
    · obtain ⟨before, hr, rfl, rfl⟩ := hacti t ht hid
      rw [updateAttempt_eq_ok, hr.map_active] at hm
      obtain ⟨-, rfl⟩ := hm
      exact .amend before current { current with usage, turns } _ _ _ hr
        ⟨rfl, rfl, rfl, rfl, hpro.1, hpro.2⟩
    · exact .same

end Active

section Complete

variable {P : RetryPolicy} {taskId attemptId : String} {completion : Completion}

/-- A completion that is not a replay settles the task, adds up the run and blocks dependents. -/
structure Completed (P : RetryPolicy) (run : Run) (taskId attemptId ownerId : String)
    (completion : Completion) (now : ℤ) (t : Task) (prior : Attempt) (s : Settlement)
    (run' : Run) : Prop where
  running : run.status = .running
  holds : t.holdsAttempt attemptId ownerId now
  prior_mem : prior ∈ t.attempts
  prior_id : prior.attemptId = attemptId
  more : usageAtLeast (completion.usage.getD prior.usage) prior.usage
  longer : prior.turns ≤ completion.turns.getD prior.turns
  settled : settle P run t (completion.usage.getD prior.usage) (completion.turns.getD prior.turns) now
    completion = .ok s
  tasks : Forall₂ (fun t t' => (t.taskId = taskId ∧ settleTask attemptId ownerId
      (completion.usage.getD prior.usage) (completion.turns.getD prior.turns) s
      (staleAttempt run.runId taskId attemptId) t = .ok t') ∨ (t.taskId ≠ taskId ∧ t' = t))
    run.tasks run'.tasks
  rest : run' = { run with
    tasks := run'.tasks
    usage := (run'.attempts.map (·.usage)).sum
    turns := (run'.attempts.map (·.turns)).sum
    events := run'.events }

theorem completeDagTask_ok
    (h : completeDagTask P runId taskId attemptId ownerId completion now lease? ledger = .ok ((), ledger')) :
    ∃ run t prior, ledger.runs.get? runId = some run ∧ assertDagRunMutationLease run now lease? = .ok () ∧
      run.tasks.find? (·.taskId = taskId) = some t ∧
      ((isReplay P t attemptId ownerId prior completion ∧ ledger' = ledger.put runId run) ∨
      (¬ isReplay P t attemptId ownerId prior completion ∧ ∃ s run',
        Completed P run taskId attemptId ownerId completion now t prior s run' ∧
        ledger' = ledger.put runId (if s.negative then blockDagDescendants run' else run'))) := by
  simp only [completeDagTask, bind_ok_iff, require_eq_ok] at h
  obtain ⟨-, -, -, -, h⟩ := h
  cases hrun : ledger.runs.get? runId with
  | none =>
    rw [hrun] at h
    cases h
  | some run =>
    simp only [hrun, transaction_eq_ok, Option.some.injEq] at h
    obtain ⟨_, run', rfl, h, rfl⟩ := h
    cases hfind : run.tasks.find? (·.taskId = taskId) with
    | none =>
      rw [hfind] at h
      cases h
    | some t =>
      simp only [hfind, bind_ok_iff] at h
      obtain ⟨_, hheld, h⟩ := h
      cases hpri : t.attempts.find? fun a => a.attemptId = attemptId && a.ownerId = ownerId with
      | none =>
        rw [hpri] at h
        cases h
      | some prior =>
        have hid := List.find?_some hpri
        simp only [Bool.and_eq_true, decide_eq_true_eq] at hid
        simp only [hpri, ite_ok_iff, bind_ok_iff, pure_ok_iff, require_eq_ok, Prod.mk.injEq] at h
        refine ⟨run, t, prior, rfl, hheld, hfind, ?_⟩
        obtain ⟨hrpl, -, rfl⟩ | ⟨hrpl, -, -, -, ⟨hs, hhol⟩, -, ⟨-, hlon⟩, -, hmore, s,
          hset, run₁, hup, run₂, hrec, -, rfl⟩ := h
        · exact .inl ⟨hrpl, rfl⟩
        · obtain ⟨tasks, rfl, hmv⟩ := updateTask_ok hup
          have heq := reconcile_ok hrec
          have htks : run₂.tasks = tasks := by rw [heq]
          subst htks
          refine .inr ⟨hrpl, s, run₂.event (s.event taskId), ?_, rfl⟩
          refine ⟨hs, hhol, mem_of_find?_eq_some hpri, hid.1, hmore, hlon, hset, hmv, ?_⟩
          exact congrArg (fun r => r.event (s.event taskId)) heq

theorem completed_works {prior : Attempt} {s : Settlement} (hi : RunInv run)
    (hfind : run.tasks.find? (·.taskId = taskId) = some t)
    (hc : Completed P run taskId attemptId ownerId completion now t prior s run')
    (hR : R.settles t s) : Forall₂ (WorkMove R) run.tasks run'.tasks := by
  have hmem := mem_of_find?_eq_some hfind
  have htid : t.taskId = taskId := by simpa using List.find?_some hfind
  refine Pointwise.imp_mem hc.tasks fun u hu u' hm => ?_
  obtain ⟨hid, hm⟩ | ⟨-, rfl⟩ := hm
  · obtain rfl : u = t := inj_on_of_nodup_map hi.taskIds hu hmem (hid.trans htid.symm)
    exact settleTask_move (hi.tasks u hu) hc.holds (settle_ok hc.settled) hR
      ⟨hc.prior_mem, hc.prior_id⟩ hc.more hc.longer hm
  · exact .same

theorem completed_negative {prior : Attempt} {s : Settlement}
    (hc : Completed P run taskId attemptId ownerId completion now t prior s run')
    (hn : ¬ s.negative) : Forall₂ (fun t t' => t'.negative → t.negative) run.tasks run'.tasks := by
  refine hc.tasks.imp fun u u' hm hneg => ?_
  obtain ⟨-, hm⟩ | ⟨-, rfl⟩ := hm
  · unfold settleTask at hm
    rw [updateAttempt_eq_ok] at hm
    obtain ⟨-, rfl⟩ := hm
    have hkind := settle_ok hc.settled
    cases hkind with
    | succeeded artifact => simp_all [Task.negative, Settlement.negative]
    | waits | retries => simp [Task.negative] at hneg
    | fails status reason error terminal =>
      rcases terminal with rfl | rfl <;> simp [Settlement.negative] at hn
  · exact hneg

theorem works_block (hmv : Forall₂ (WorkMove R) run.tasks run'.tasks) :
    Forall₂ (fun t t'' => ∃ t', WorkMove R t t' ∧ BlockMove t' t'') run.tasks (blockDagDescendants run').tasks :=
  Pointwise.comp hmv (blockDagDescendants_moves run').1

include hi in
theorem completeDagTask_moves
    (hR : ∀ run t usage turns s, t.taskId = taskId → settle P run t usage turns now completion = .ok s → R.settles t s)
    (h : completeDagTask P runId taskId attemptId ownerId completion now lease? ledger =
      .ok ((), ledger')) : Changed R ledger runId ledger' := by
  obtain ⟨run, t, prior, hrun, -, hfind, ⟨-, rfl⟩ | ⟨-, s, run', hc, rfl⟩⟩ := completeDagTask_ok h
  · exact changed_same hrun
  · have hmv := completed_works (hi run hrun) hfind hc
      (hR _ _ _ _ _ (by simpa using List.find?_some hfind) hc.settled)
    by_cases hn : s.negative
    · rw [if_pos hn]
      have hblo := works_block hmv
      have hcl := blockDagDescendants_closed run'
      rw [(blockDagDescendants_moves run').2] at hcl ⊢
      rw [hc.rest] at hblo hcl ⊢
      exact ⟨run, _, hrun, rfl, .same rfl rfl rfl,
        .work ⟨rfl, rfl, rfl, rfl, rfl⟩ hc.running hc.running rfl hblo (.inl hcl)⟩
    · rw [if_neg hn]
      have hnega := completed_negative hc hn
      rw [hc.rest] at hmv hnega ⊢
      exact ⟨run, _, hrun, rfl, .same rfl rfl rfl, .work ⟨rfl, rfl, rfl, rfl, rfl⟩ hc.running hc.running rfl
          (hmv.imp fun _ t' hm => ⟨t', hm, .inl rfl⟩) (.inr hnega)⟩

theorem recoverDagRun_ok (h : recoverDagRun P runId now lease? ledger = .ok ((), ledger')) :
    ∃ run, ledger.runs.get? runId = some run ∧ assertDagRunMutationLease run now lease? = .ok () ∧
      ((run.status ≠ .running ∧ ledger' = ledger.put runId run) ∨ (run.status = .running ∧ ∃ tasks events run',
        Forall₂ (fun t t' => expireTask P run.runId now t = .ok t') run.tasks tasks ∧
        ((run.tasks.filter fun t => t.leaseExpired now) = [] ∧ run' = blockDagDescendants { run with tasks, events } ∨
          reconcile (blockDagDescendants { run with tasks, events }) = .ok run') ∧ ledger' = ledger.put runId run')) := by
  simp only [recoverDagRun, bind_ok_iff, require_eq_ok, transaction_eq_ok, ite_ok_iff, pure_ok_iff, Prod.mk.injEq] at h
  obtain ⟨-, -, run, run', hrun, ⟨_, hheld, h⟩, rfl⟩ := h
  refine ⟨run, hrun, hheld, ?_⟩
  obtain ⟨hs, -, rfl⟩ | ⟨hs, tasks, hm, h⟩ := h
  · exact .inl ⟨hs, rfl⟩
  · rw [not_not] at hs
    obtain ⟨hnone, -, rfl⟩ | ⟨-, run₁, hrec, -, rfl⟩ := h
    · exact .inr ⟨hs, tasks, _, _, mapM_eq_ok.mp hm, .inl ⟨hnone, rfl⟩, rfl⟩
    · exact .inr ⟨hs, tasks, _, _, mapM_eq_ok.mp hm, .inr hrec, rfl⟩

include hi in
theorem recoverDagRun_moves
    (h : recoverDagRun P runId now lease? ledger = .ok ((), ledger')) : Changed R ledger runId ledger' := by
  obtain ⟨run, hrun, -, ⟨-, rfl⟩ | ⟨hs, tasks, events, run', hm, hend, rfl⟩⟩ := recoverDagRun_ok h
  · exact changed_same hrun
  · have hmv : Forall₂ (WorkMove R) run.tasks { run with tasks, events }.tasks :=
      Pointwise.imp_mem hm fun t ht t' h => expireTask_move ((hi run hrun).tasks t ht) h
    have hblo := works_block hmv
    have hcl := blockDagDescendants_closed { run with tasks, events }
    rw [(blockDagDescendants_moves _).2] at hcl
    obtain ⟨-, rfl⟩ | hrec := hend
    · rw [(blockDagDescendants_moves _).2]
      exact ⟨run, _, hrun, rfl, .same rfl rfl rfl, .work ⟨rfl, rfl, rfl, rfl, rfl⟩ hs hs rfl hblo (.inl hcl)⟩
    · have heq := reconcile_ok hrec
      rw [heq, (blockDagDescendants_moves _).2]
      exact ⟨run, _, hrun, rfl, .same rfl rfl rfl, .work ⟨rfl, rfl, rfl, rfl, rfl⟩ hs hs rfl hblo (.inl hcl)⟩

end Complete

theorem expandDagRun_ok {version : ℕ} {expanded : Request}
    (h : expandDagRun runId version expanded now lease? ledger = .ok ((), ledger')) :
    ∃ run events, ledger.runs.get? runId = some run ∧
      assertDagRunMutationLease run now lease? = .ok () ∧ run.unfinished ∧ run.pausedAt ≠ none ∧
      run.graphSealed = false ∧ run.graphVersion = version ∧
      validateExpansion run.request expanded = .ok () ∧ (∀ t ∈ run.tasks, t.status = .succeeded) ∧
      (dependencyRows (expanded.tasks.drop run.request.tasks.length)).Nodup ∧ ledger' = ledger.put runId { run with
        tasks := run.tasks ++ newTasks run.request.tasks.length
          (expanded.tasks.drop run.request.tasks.length)
        dependencies := run.dependencies ++ dependencyRows (expanded.tasks.drop run.request.tasks.length)
        request := expanded
        graphVersion := run.graphVersion + 1
        graphSealed := expanded.sealed
        events } := by
  simp only [expandDagRun, decodeCompiledDagRequest, bind_ok_iff, require_eq_ok,
    transaction_eq_ok, pure_ok_iff, Prod.mk.injEq] at h
  obtain ⟨-, -, run, run', hrun, ⟨_, hheld, -, hu, -, hp, -, -, -, hsea, -, hver, _,
    ⟨-, -, rfl⟩, _, hval, -, hdone, -, hrows, -, rfl⟩, rfl⟩ := h
  exact ⟨run, _, hrun, hheld, hu, hp, hsea, hver, hval, hdone, hrows, rfl⟩

theorem expandDagRun_moves {version : ℕ} {expanded : Request} (hR : R.expands expanded)
    (h : expandDagRun runId version expanded now lease? ledger = .ok ((), ledger')) : Changed R ledger runId ledger' := by
  obtain ⟨run, events, hrun, -, hu, hp, -, -, hval, hdone, hrows, rfl⟩ := expandDagRun_ok h
  exact ⟨run, _, hrun, rfl, .same rfl rfl rfl, .expand expanded hu rfl hp rfl hdone hR hval hrows rfl rfl rfl rfl rfl rfl⟩

def newRun (runId : String) (request : Request) (usage : Usage) : Run :=
  { runId, request, usage, graphSealed := request.sealed
    tasks := newTasks 0 request.tasks
    dependencies := dependencyRows request.tasks
    events := { type := "run.created" } :: createdEvents request.tasks }

theorem createDagRun_ok {request : Request} (h : createDagRun runId request usage ledger = .ok ((), ledger')) :
    validateRequest request = .ok () ∧ ledger.runs.get? runId = none ∧
      (dependencyRows request.tasks).Nodup ∧ ledger' = ledger.put runId (newRun runId request usage) := by
  simp only [createDagRun, decodeCompiledDagRequest, bind_ok_iff, require_eq_ok, pure_ok_iff, Prod.mk.injEq] at h
  obtain ⟨-, -, _, hval, _, ⟨-, -, rfl⟩, -, hnone, -, hrows, -, rfl⟩ := h
  exact ⟨hval, hnone, hrows, rfl⟩

end Operations

end EasyPi.Subagent
