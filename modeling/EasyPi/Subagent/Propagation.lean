/-
# Stored graphs and blocked tasks

The graph of a run is stored three times by `packages/subagent/src/ledger.ts`: in
the request, in the rows of the tasks and in the dependency rows. They agree in
every reachable ledger, and an expansion only appends to them.

A completion that fails, cancels or turns down its task, and every recovery, ends
with `blockDagDescendants`. What is then blocked is what was blocked before and
the pending tasks a path of pending tasks leads from to a task nothing can be
built on. Another completion blocks nothing. Then the only pending tasks with
such a path are those an expansion added on rejected or inconclusive work, and
those that need them (`DoomedBy`).
-/
import EasyPi.Subagent.Lifecycle

namespace EasyPi.Subagent

open List

/-- A path of pending tasks leads to a negative one, over a last edge of the given kind. -/
inductive DoomedBy (A : String → String → Prop) (run : Run) : Task → Prop
  | negative {t u : Task} (needs : run.needs t u) (negative : u.negative) (added : A t.taskId u.taskId) : DoomedBy A run t
  | through {t u : Task} (needs : run.needs t u) (pending : u.status = .pending)
      (doomed : DoomedBy A run u) : DoomedBy A run t

variable {run : Run}

theorem Justified.doomedBy {A : String → String → Prop} (h : Justified A run)
    {t : Task} (hp : t.status = .pending) (hd : Doomed run t) : DoomedBy A run t := by
  induction hd with
  | negative needs negative =>
    exact .negative needs negative ((h _ _ needs fun ht => ht.1 hp).2 negative).2
  | through needs pending _ ih => exact .through needs pending (ih pending)

theorem not_doomed_of_pending (h : ∀ t ∈ run.tasks, t.status = .pending) {t : Task} : ¬ Doomed run t := by
  intro hd
  induction hd with
  | negative needs negative =>
    rw [Task.not_negative_of_pending (h _ needs.2.1)] at negative
    cases negative
  | through _ _ _ ih => exact ih

/-! ### Runs that were not started -/

/-- No task of a run that was not started has been claimed. -/
structure Run.Fresh (run : Run) : Prop where
  tasks : run.tasks ≠ []
  pending : run.status = .created → ∀ t ∈ run.tasks, t.status = .pending

theorem RowsMove.fresh {R : Rules} {run run' : Run} (hm : RowsMove R run run') (h : run.Fresh) : run'.Fresh := by
  cases hm with
  | columns _ tasks status =>
    constructor
    · rw [tasks]; exact h.tasks
    · rw [status, tasks]; exact h.pending
  | start _ tasks _ status | succeed _ tasks _ status => exact ⟨tasks ▸ h.tasks, by simp [status]⟩
  | claim _ _ _ status _ tasks | work _ _ status _ tasks => exact ⟨Pointwise.ne_nil tasks h.tasks, by simp [status]⟩
  | pause _ _ status tasks =>
    refine ⟨Pointwise.ne_nil tasks h.tasks, fun hc t' ht' => ?_⟩
    obtain ⟨t, ht, hm⟩ := Pointwise.left tasks ht'
    cases hm with
    | same => exact h.pending (status ▸ hc) _ ht
    | requeue => rfl
  | terminate _ _ _ _ _ ends _ tasks =>
    refine ⟨Pointwise.ne_nil tasks h.tasks, ?_⟩
    obtain ⟨hs, -⟩ | ⟨hs, -⟩ := ends <;> simp [hs]
  | expand _ _ status _ _ done _ _ _ _ _ tasks =>
    refine ⟨by simp [tasks, h.tasks], fun hc => ?_⟩
    obtain ⟨t, ht⟩ := exists_mem_of_ne_nil _ h.tasks
    have hp := h.pending (status ▸ hc) t ht
    rw [done t ht] at hp
    cases hp

theorem fresh_of_reachable {P : RetryPolicy} {ledger : Ledger} (h : Reachable P ledger)
    {runId : String} (hrun : ledger.runs.get? runId = some run) : run.Fresh := by
  refine reachable_run (fun runId request usage hv => ⟨?_, fun _ t ht => ?_⟩) (fun _ _ _ _ hm h => hm.fresh h) h hrun
  · have hne := (validateRequest_ok hv).2.1
    intro hnil
    apply hne
    rw [← newTasks_contracts 0 request.tasks]
    exact congrArg (List.map Task.contract) hnil
  · obtain ⟨_, _, -, rfl⟩ := mem_newTasks ht
    rfl

theorem not_doomed_of_idle {P : RetryPolicy} {ledger : Ledger} (h : Reachable P ledger)
    {runId : String} (hrun : ledger.runs.get? runId = some run)
    (hs : run.status ≠ .running) {t : Task} (ht : t ∈ run.tasks) (hp : t.status = .pending) : ¬ Doomed run t := by
  have hstl := settled_of_reachable h hrun
  cases hsts : run.status with
  | created => exact not_doomed_of_pending ((fresh_of_reachable h hrun).pending hsts)
  | running => exact absurd hsts hs
  | succeeded =>
    have := hstl.succeeded hsts t ht
    rw [hp] at this
    cases this
  | failed => exact absurd hp (hstl.ended (.inl hsts) t ht).1
  | cancelled => exact absurd hp (hstl.ended (.inr hsts) t ht).1

/-! ### What a call blocks -/

theorem WorkMove.blocked_iff {R : Rules} {t t' : Task} (h : WorkMove R t t') :
    t'.status = .blocked ↔ t.status = .blocked := by
  cases h with
  | same => rfl
  | amend => rfl
  | settle before a s usage turns running settlement =>
    cases settlement with
    | succeeded | waits | retries => simp [running.status]
    | fails status reason error terminal =>
      rcases terminal with rfl | rfl <;> simp [running.status]
  | requeue before a error retryNotBefore running | restart before a error retryNotBefore running =>
    simp [Task.requeued, running.status]
  | exhaust before a error running => simp [running.status]

/-- The rows a call settled before it blocks any: only the touched ones are new, and the blocked
ones are those that were blocked. -/
structure SettlesOnly (touched : Task → Prop) (run mid : Run) : Prop where
  dependencies : mid.dependencies = run.dependencies
  tasks : Forall₂ (fun t m => (m = t ∨ touched t) ∧ (m.status = .blocked ↔ t.status = .blocked))
    run.tasks mid.tasks

theorem SettlesOnly.refl (touched : Task → Prop) (run : Run) : SettlesOnly touched run run :=
  ⟨rfl, forall₂_same.mpr fun _ _ => ⟨.inl rfl, .rfl⟩⟩

/-- Exactly the pending tasks with a path to a negative one become blocked. -/
def BlocksExactly (mid run' : Run) : Prop :=
  Forall₂ (fun t t' => (t.status = .pending ∧ Doomed mid t ∧ t' = t.blocked) ∨
    (¬ (t.status = .pending ∧ Doomed mid t) ∧ t' = t)) mid.tasks run'.tasks

theorem blocksExactly_self (h : ∀ t ∈ run.tasks, t.status = .pending → ¬ Doomed run t) : BlocksExactly run run :=
  forall₂_same.mpr fun t ht => .inr ⟨fun hd => h t ht hd.1 hd.2, rfl⟩

/-- What holds of the graph of a run after some calls. -/
structure Propagation (P : RetryPolicy) (ops : List Op) (runId : String) (run : Run) : Prop where
  contracts : run.request.tasks = run.tasks.map (·.contract)
  orders : run.tasks.map (·.taskOrder) = List.range run.tasks.length
  dependencies : ∀ taskId dependency, (taskId, dependency) ∈ run.dependencies ↔
    ∃ t ∈ run.tasks, t.taskId = taskId ∧ dependency ∈ t.contract.dependsOn
  acyclic : ∀ taskId, ¬ Relation.TransGen (fun a b => (a, b) ∈ run.dependencies) taskId taskId
  ends : ∃ turns, blockLoop turns run = some (blockDagDescendants run)
  expands : ∀ version expanded now lease ledger',
    expandDagRun runId version expanded now lease (steps P {} ops) = .ok ((), ledger') →
    ∃ run', ledger'.runs.get? runId = some run' ∧ run.tasks <+: run'.tasks ∧
      run.request.tasks <+: run'.request.tasks ∧ run'.request = { run.request with
        tasks := run'.request.tasks, sealed := run'.request.sealed } ∧ run'.graphVersion = run.graphVersion + 1
  completes : ∀ taskId attemptId ownerId completion now lease ledger',
    completeDagTask P runId taskId attemptId ownerId completion now lease (steps P {} ops) = .ok ((), ledger') →
    ∃ run' mid, ledger'.runs.get? runId = some run' ∧ SettlesOnly (·.taskId = taskId) run mid ∧
      (BlocksExactly mid run' ∨ (run'.tasks = mid.tasks ∧
        Forall₂ (fun t m => m.negative → t.negative) run.tasks mid.tasks ∧
        ∀ t ∈ run'.tasks, t.status = .pending → Doomed run' t → DoomedBy (AddedOn P ops runId) run' t))
  recovers : ∀ now lease ledger', recoverDagRun P runId now lease (steps P {} ops) = .ok ((), ledger') →
    ∃ run' mid, ledger'.runs.get? runId = some run' ∧ SettlesOnly (·.leaseExpired now) run mid ∧ BlocksExactly mid run'

section Calls

variable {P : RetryPolicy} {ops : List Op} {runId : String} {run : Run} {lease : Option DagRunLease} {now : ℤ}

theorem expandDagRun_appends {version : ℕ} {expanded : Request} {ledger ledger' : Ledger}
    (hrun : ledger.runs.get? runId = some run)
    (h : expandDagRun runId version expanded now lease ledger = .ok ((), ledger')) :
    ∃ run', ledger'.runs.get? runId = some run' ∧ run.tasks <+: run'.tasks ∧
      run.request.tasks <+: run'.request.tasks ∧ run'.request = { run.request with
        tasks := run'.request.tasks, sealed := run'.request.sealed } ∧ run'.graphVersion = run.graphVersion + 1 := by
  obtain ⟨r, events, hr, -, -, -, -, -, hval, -, -, rfl⟩ := expandDagRun_ok h
  rw [hrun] at hr
  cases hr
  refine ⟨_, by rw [Ledger.get?_put, if_pos rfl], prefix_append .., ?_, ?_, rfl⟩
  · exact ⟨_, append_added hval⟩
  · simp only [validateExpansion, bind_ok_iff, require_eq_ok] at hval
    obtain ⟨-, -, -, -, -, ⟨hv, hh, hmer, hpol⟩, -⟩ := hval
    dsimp only
    rw [← hv, ← hh, ← hmer, ← hpol]

theorem completeDagTask_blocks {taskId attemptId ownerId : String} {completion : Completion} {ledger' : Ledger}
    (hrun : (steps P {} ops).runs.get? runId = some run)
    (h : completeDagTask P runId taskId attemptId ownerId completion now lease (steps P {} ops) = .ok ((), ledger')) :
    ∃ run' mid, ledger'.runs.get? runId = some run' ∧ SettlesOnly (·.taskId = taskId) run mid ∧
      (BlocksExactly mid run' ∨ (run'.tasks = mid.tasks ∧
        Forall₂ (fun t m => m.negative → t.negative) run.tasks mid.tasks ∧
        ∀ t ∈ run'.tasks, t.status = .pending → Doomed run' t → DoomedBy (AddedOn P ops runId) run' t)) := by
  have hi : LedgerInv (steps P {} ops) := ledgerInv_of_reachable ⟨ops, rfl⟩
  have hj := justified_steps P ops runId run hrun
  obtain ⟨r, t, prior, hr, -, hfind, ⟨-, rfl⟩ | ⟨-, s, run', hc, rfl⟩⟩ := completeDagTask_ok h
  · rw [hrun] at hr
    cases hr
    refine ⟨run, run, by rw [Ledger.get?_put, if_pos rfl], .refl _ run, .inr ⟨rfl, ?_, ?_⟩⟩
    · exact forall₂_same.mpr fun _ _ => id
    · exact fun t _ hp hd => hj.doomedBy hp hd
  · rw [hrun] at hr
    cases hr
    have hmv := completed_works (R := ⟨fun _ _ => True, fun _ _ => False, fun _ => False⟩) (hi _ run hrun) hfind hc trivial
    have hdeps : run'.dependencies = run.dependencies := by rw [hc.rest]
    have hset : SettlesOnly (·.taskId = taskId) run run' := by
      refine ⟨hdeps, (Pointwise.and hmv hc.tasks).imp fun u u' hu => ⟨?_, hu.1.blocked_iff⟩⟩
      exact hu.2.elim (fun hm => .inr hm.1) (fun hm => .inl hm.2)
    by_cases hn : s.negative
    · rw [if_pos hn]
      exact ⟨_, run', by rw [Ledger.get?_put, if_pos rfl], hset, .inl (blockDagDescendants_exact run')⟩
    · rw [if_neg hn]
      have hneg := completed_negative hc hn
      refine ⟨run', run', by rw [Ledger.get?_put, if_pos rfl], hset, .inr ⟨rfl, hneg, fun t _ hp hd => ?_⟩⟩
      refine Justified.doomedBy ?_ hp hd
      exact hj.of_work hdeps (hmv.imp fun _ t' hm => ⟨t', hm, .inl rfl⟩) (.inr hneg)

theorem expireTask_of_live {t t' : Task} (h : expireTask P runId now t = .ok t')
    (hl : ¬ t.leaseExpired now) : t' = t := by
  unfold expireTask at h
  rw [if_neg hl] at h
  exact (Except.ok.inj h).symm

theorem recoverDagRun_blocks {ledger' : Ledger} (hrun : (steps P {} ops).runs.get? runId = some run)
    (h : recoverDagRun P runId now lease (steps P {} ops) = .ok ((), ledger')) :
    ∃ run' mid, ledger'.runs.get? runId = some run' ∧ SettlesOnly (·.leaseExpired now) run mid ∧
      BlocksExactly mid run' := by
  have hreach : Reachable P (steps P {} ops) := ⟨ops, rfl⟩
  have hi := ledgerInv_of_reachable hreach
  obtain ⟨r, hr, -, ⟨hs, rfl⟩ | ⟨hs, tasks, events, run', hm, hend, rfl⟩⟩ := recoverDagRun_ok h
  · rw [hrun] at hr
    cases hr
    exact ⟨run, run, by rw [Ledger.get?_put, if_pos rfl], .refl _ run,
      blocksExactly_self fun t ht hp => not_doomed_of_idle hreach hrun hs ht hp⟩
  · rw [hrun] at hr
    cases hr
    have htks : run'.tasks = (blockDagDescendants { run with tasks, events }).tasks := by
      obtain ⟨-, rfl⟩ | hrec := hend
      · rfl
      · rw [reconcile_ok hrec]
    refine ⟨run', { run with tasks, events }, by rw [Ledger.get?_put, if_pos rfl], ⟨rfl, ?_⟩, ?_⟩
    · refine Pointwise.imp_mem hm fun t ht m hm => ?_
      have hmove : WorkMove ⟨fun _ _ => False, fun _ _ => False, fun _ => False⟩ t m :=
        expireTask_move ((hi _ run hrun).tasks t ht) hm
      refine ⟨?_, hmove.blocked_iff⟩
      by_cases hl : t.leaseExpired now
      · exact .inr hl
      · exact .inl (expireTask_of_live hm hl)
    · rw [BlocksExactly, htks]
      exact blockDagDescendants_exact { run with tasks, events }

end Calls

namespace ExpandRejected

def third : Contract := { id := "third", role := .scout, dependsOn := [], maxAttempts := 1, contractHash := "h3" }

def accepted : TaskArtifact :=
  { artifactId := "artifact-3", taskId := "third", contractHash := "h3"
    quality := { semanticOutcome := .accepted, pathAudit := .notApplicable
                 validationStatus := .notApplicable } }

/-- One of two tasks added after the first was rejected is done. -/
def completion : List Op :=
  [.createDagRun "run" { mergeEnabled := false, tasks := [first], sealed := false } 0,
    .setDagRunStatus "run" .running 0 none, .claimRunnableTasks "run" "owner" 0 10 1 none (fun _ => "attempt-1"),
    .completeDagTask "run" "first" "attempt-1" "owner" (.success rejected none none) 1 none,
    .markDagRunPaused "run" 2, .acquireDagRunLease "run" "owner" 4 10,
    .expandDagRun "run" 1 { mergeEnabled := false, tasks := [first, third, second], sealed := true }
      5 (some lease), .clearDagRunPause "run" 6 lease,
    .claimRunnableTasks "run" "owner" 7 10 1 (some lease) (fun _ => "attempt-2"),
    .completeDagTask "run" "third" "attempt-2" "owner" (.success accepted none none) 8 (some lease)]

end ExpandRejected

end EasyPi.Subagent
