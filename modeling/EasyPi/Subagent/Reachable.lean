/-
# Sequences of operations keep the rows together

Every operation is a move of one run, or creates a run, and every move keeps
`RunInv`. So in every ledger that some sequence of operations leads to, the rows
of every run fit together.
-/
import EasyPi.Subagent.Effects

namespace EasyPi.Subagent

open List

/-! ### Every step keeps the rows together -/

section Invariant

variable {R : Rules}

/-- The columns of a task that nothing changes. -/
def SameTask (t t' : Task) : Prop := t'.contract = t.contract ∧ t'.taskOrder = t.taskOrder

variable {t t' : Task}

theorem ClaimMove.sameTask (h : ClaimMove t t') : SameTask t t' := by
  cases h <;> exact ⟨rfl, rfl⟩

theorem WorkMove.sameTask (h : WorkMove R t t') : SameTask t t' := by
  cases h <;> exact ⟨rfl, rfl⟩

theorem BlockMove.sameTask (h : BlockMove t t') : SameTask t t' := by
  obtain rfl | ⟨-, rfl⟩ := h <;> exact ⟨rfl, rfl⟩

theorem PauseMove.sameTask (h : PauseMove t t') : SameTask t t' := by
  cases h <;> exact ⟨rfl, rfl⟩

theorem FenceMove.sameTask {status : TaskStatus} {reason : TerminalReason} {error : String}
    (h : FenceMove status reason error t t') : SameTask t t' := by
  cases h <;> exact ⟨rfl, rfl⟩

theorem GraphInv.of_same {run run' : Run} (hi : GraphInv run) (hg : SameGraph run run')
    (ht : Forall₂ SameTask run.tasks run'.tasks) : GraphInv run' where
  contracts := by
    rw [hg.request, ← hi.contracts]
    exact (Pointwise.map_eq ht fun t t' h => h.1.symm).symm
  orders := by
    rw [← ht.length_eq, ← hi.orders]
    exact (Pointwise.map_eq ht fun t t' h => h.2.symm).symm
  ids := by rw [hg.request]; exact hi.ids
  dependencies := by rw [hg.dependencies, hg.request, hi.dependencies]

theorem newTasks_contracts (taskOrder : ℕ) (contracts : List Contract) :
    (newTasks taskOrder contracts).map (·.contract) = contracts := by
  simp [newTasks, mapIdx_eq_zipIdx_map, Function.comp_def]

theorem newTasks_orders (taskOrder : ℕ) (contracts : List Contract) :
    (newTasks taskOrder contracts).map (·.taskOrder) = List.range' taskOrder contracts.length := by
  refine ext_getElem (by simp [newTasks]) fun i h₁ h₂ => ?_
  simp [newTasks]

theorem mem_newTasks {taskOrder : ℕ} {contracts : List Contract} {t : Task} (h : t ∈ newTasks taskOrder contracts) :
    ∃ order, ∃ contract ∈ contracts, t = { taskOrder := order, contract } := by
  obtain ⟨i, hi, rfl⟩ := mem_mapIdx.mp h
  exact ⟨taskOrder + i, contracts[i], getElem_mem hi, rfl⟩

theorem taskInv_new {order : ℕ} {contract : Contract} (h : 1 ≤ contract.maxAttempts) :
    TaskInv { taskOrder := order, contract } where
  numbers := rfl
  bounded := by
    change (0 : ℤ) ≤ contract.maxAttempts
    omega
  ids := nodup_nil
  running h := by cases h
  idle _ a ha := by cases ha

theorem validateExpansion_ok {current expanded : Request} (h : validateExpansion current expanded = .ok ()) :
    expanded.tasks.take current.tasks.length = current.tasks ∧
      (expanded.tasks.map (·.id)).Nodup ∧ (∀ task ∈ expanded.tasks, 1 ≤ task.maxAttempts) ∧
      expanded.policy = current.policy ∧ expanded.mergeEnabled = current.mergeEnabled ∧
      ∃ ordered, stableTopologicalTaskIds expanded = .ok ordered := by
  simp only [validateExpansion, bind_ok_iff, require_eq_ok] at h
  obtain ⟨-, -, -, htake, -, ⟨-, -, hmer, hpol⟩, ordered, hord, -, hnd, _, hfold, -⟩ := h
  refine ⟨htake, hnd, fun task ht => ?_, hpol, hmer, ordered, hord⟩
  obtain ⟨_, _, hb⟩ := foldlM_ok_of_mem hfold ht
  simp only [bind_ok_iff, require_eq_ok] at hb
  obtain ⟨-, hb, -⟩ := hb
  exact hb.2

theorem append_added {current expanded : Request} (h : validateExpansion current expanded = .ok ()) :
    current.tasks ++ expanded.tasks.drop current.tasks.length = expanded.tasks := by
  nth_rewrite 1 [← (validateExpansion_ok h).1]
  exact take_append_drop ..

theorem GraphInv.fresh_of_expansion {run : Run} (hi : GraphInv run) {expanded : Request}
    (h : validateExpansion run.request expanded = .ok ()) {t : Task} (ht : t ∈ run.tasks)
    {contract : Contract} (hc : contract ∈ expanded.tasks.drop run.request.tasks.length) : t.taskId ≠ contract.id := by
  have hnd := (validateExpansion_ok h).2.1
  rw [← append_added h, map_append, nodup_append] at hnd
  refine hnd.2.2 t.taskId ?_ contract.id (mem_map_of_mem hc)
  rw [← hi.contracts, map_map]
  exact mem_map_of_mem ht

theorem validateRequest_ok {request : Request} (h : validateRequest request = .ok ()) :
    (request.tasks.map (·.id)).Nodup ∧ request.tasks ≠ [] ∧
      (∀ task ∈ request.tasks, 1 ≤ task.maxAttempts ∧ ∀ dependency ∈ task.dependsOn,
        dependency ∈ request.tasks.map (·.id)) ∧ ∃ visited, request.tasks.foldlM (fun visited task =>
        visit request.tasks (request.tasks.length + 1) [] visited task.id) [] = .ok visited := by
  simp only [validateRequest, bind_ok_iff, require_eq_ok, except_forM_eq_ok] at h
  obtain ⟨-, -, -, hnd, -, hne, _, htks, visited, hvis, -⟩ := h
  refine ⟨hnd, hne, fun task ht => ?_, visited, hvis⟩
  obtain ⟨-, hmax, hdeps⟩ := htks task ht
  exact ⟨hmax.2, fun dependency hd => (hdeps dependency hd).2⟩

variable {runId : String}

theorem runInv_newRun {request : Request} {usage : Usage}
    (h : validateRequest request = .ok ()) : RunInv (newRun runId request usage) := by
  obtain ⟨hnd, -, htks, -⟩ := validateRequest_ok h
  refine ⟨⟨newTasks_contracts _ _, ?_, hnd, rfl⟩, fun t ht => ?_, fun t ht hs => ?_⟩
  · rw [range_eq_range']
    change (newTasks 0 request.tasks).map _ = List.range' 0 (newTasks 0 request.tasks).length
    rw [newTasks_orders]
    simp [newTasks]
  · obtain ⟨order, contract, hc, rfl⟩ := mem_newTasks ht
    exact taskInv_new (htks contract hc).1
  · obtain ⟨order, contract, hc, rfl⟩ := mem_newTasks ht
    cases hs

theorem dependencyRows_append (a b : List Contract) : dependencyRows (a ++ b) = dependencyRows a ++ dependencyRows b :=
  flatMap_append

theorem WorkMove.running_of (h : WorkMove R t t') (hs : t'.status = .running) : t.status = .running := by
  cases h with
  | same => exact hs
  | amend before a a' leaseExpiresAt checkpoint retryNotBefore running
  | settle before a s usage turns running settlement | requeue before a error retryNotBefore running
  | restart before a error retryNotBefore running | exhaust before a error running => exact running.status

theorem BlockMove.running_of (h : BlockMove t t') (hs : t'.status = .running) : t.status = .running := by
  obtain rfl | ⟨-, rfl⟩ := h
  · exact hs
  · cases hs

/-- **Every operation keeps the rows of a run together.** -/
theorem RowsMove.runInv {run run' : Run} (hi : RunInv run) (h : RowsMove R run run') : RunInv run' := by
  have hsame : run'.tasks = run.tasks → Forall₂ SameTask run.tasks run'.tasks := by
    intro h
    rw [h]
    exact forall₂_same.mpr fun t _ => ⟨rfl, rfl⟩
  cases h with
  | columns graph tasks status paused =>
    refine ⟨hi.graph.of_same graph (hsame tasks), fun t ht => hi.tasks t (tasks ▸ ht), ?_⟩
    intro t ht hs
    obtain ⟨h1, h2⟩ := hi.live t (tasks ▸ ht) hs
    exact ⟨status.trans h1, paused.elim (fun h => h.trans h2) id⟩
  | start graph tasks created status paused given =>
    refine ⟨hi.graph.of_same graph (hsame tasks), fun t ht => hi.tasks t (tasks ▸ ht), ?_⟩
    intro t ht hs
    exact ⟨status, paused.trans (hi.live t (tasks ▸ ht) hs).2⟩
  | succeed graph tasks running status done given =>
    refine ⟨hi.graph.of_same graph (hsame tasks), fun t ht => hi.tasks t (tasks ▸ ht), ?_⟩
    intro t ht hs
    rw [done t (tasks ▸ ht)] at hs
    cases hs
  | claim graph running unpaused status paused tasks =>
    refine ⟨hi.graph.of_same graph (tasks.imp fun _ _ h => h.sameTask), fun t' ht => ?_, fun _ _ _ => ⟨status, paused⟩⟩
    obtain ⟨t, ht, hm⟩ := Pointwise.left tasks ht
    exact hm.taskInv (hi.tasks t ht)
  | work graph running status paused tasks closed =>
    refine ⟨hi.graph.of_same graph (tasks.imp ?_), fun t' ht => ?_, fun t' ht hs => ?_⟩
    · rintro t t'' ⟨t', hw, hb⟩
      exact ⟨hb.sameTask.1.trans hw.sameTask.1, hb.sameTask.2.trans hw.sameTask.2⟩
    · obtain ⟨t, ht, u, hw, hb⟩ := Pointwise.left tasks ht
      exact hb.taskInv (hw.taskInv (hi.tasks t ht))
    · obtain ⟨t, ht, u, hw, hb⟩ := Pointwise.left tasks ht
      exact ⟨status, paused.trans (hi.live t ht (hw.running_of (hb.running_of hs))).2⟩
  | pause graph unfinished status tasks =>
    refine ⟨hi.graph.of_same graph (tasks.imp fun _ _ h => h.sameTask), fun t' ht => ?_, fun t' ht hs => ?_⟩
    · obtain ⟨t, ht, hm⟩ := Pointwise.left tasks ht
      exact hm.taskInv (hi.tasks t ht)
    · obtain ⟨t, ht, hm⟩ := Pointwise.left tasks ht
      cases hm with
      | same idle => exact absurd hs idle
      | requeue => cases hs
  | terminate graph unfinished status reason error ends given tasks =>
    have hne : status ≠ .running := by
      obtain ⟨-, rfl⟩ | ⟨-, rfl⟩ := ends <;> simp
    refine ⟨hi.graph.of_same graph (tasks.imp fun _ _ h => h.sameTask), fun t' ht => ?_, fun t' ht hs => ?_⟩
    · obtain ⟨t, ht, hm⟩ := Pointwise.left tasks ht
      exact hm.taskInv hne (hi.tasks t ht)
    · obtain ⟨t, ht, hm⟩ := Pointwise.left tasks ht
      cases hm with
      | same terminal => exact absurd hs terminal.2
      | pending => exact absurd hs hne
      | running => exact absurd hs hne
  | expand expanded unfinished status waiting paused done given valid rows runId request tasks
      dependencies graphVersion graphSealed =>
    obtain ⟨-, hnd, hmax, -⟩ := validateExpansion_ok valid
    have hall := append_added valid
    have hlen : run.tasks.length = run.request.tasks.length := by
      rw [← hi.graph.contracts, length_map]
    refine ⟨⟨?_, ?_, ?_, ?_⟩, fun t ht => ?_, fun t ht hs => ?_⟩
    · rw [tasks, request, map_append, hi.graph.contracts, newTasks_contracts, hall]
    · rw [tasks, map_append, hi.graph.orders, newTasks_orders, length_append,
        range_eq_range', range_eq_range', hlen, ← List.range'_append_1]
      simp [newTasks]
    · rw [request]
      exact hnd
    · rw [dependencies, request, hi.graph.dependencies, ← dependencyRows_append, hall]
    · rw [tasks, mem_append] at ht
      rcases ht with ht | ht
      · exact hi.tasks t ht
      · obtain ⟨order, contract, hc, rfl⟩ := mem_newTasks ht
        exact taskInv_new (hmax contract (mem_of_mem_drop hc))
    · rw [tasks, mem_append] at ht
      rcases ht with ht | ht
      · rw [done t ht] at hs
        cases hs
      · obtain ⟨order, contract, hc, rfl⟩ := mem_newTasks ht
        cases hs

end Invariant

/-! ### Steps and sequences of steps -/

def Op.rules (P : RetryPolicy) (op : Op) : Rules where
  settles t s := match op with
    | .completeDagTask _ taskId _ _ completion now _ => t.taskId = taskId ∧
      ∃ run usage turns, settle P run t usage turns now completion = .ok s
    | _ => False
  statuses run status := match op with
    | .setDagRunStatus _ nextStatus now lease => status = nextStatus ∧
      assertDagRunMutationLease run now lease (decide nextStatus.Terminal) = .ok ()
    | _ => False
  expands request := match op with
    | .expandDagRun _ _ expanded _ _ => expanded = request
    | _ => False

def LedgerInv (ledger : Ledger) : Prop := ∀ runId run, ledger.runs.get? runId = some run → RunInv run

def Created (ledger : Ledger) (op : Op) (ledger' : Ledger) : Prop :=
  ∃ runId request usage, op = .createDagRun runId request usage ∧
    validateRequest request = .ok () ∧ ledger.runs.get? runId = none ∧
    (dependencyRows request.tasks).Nodup ∧ ledger' = ledger.put runId (newRun runId request usage)

theorem exec_eq_ok {α : Type} {x : Except String (α × Ledger)} {ledger' : Ledger}
    (h : x.map (·.2) = .ok ledger') : ∃ a, x = .ok (a, ledger') := by
  cases x with
  | error e => cases h
  | ok p =>
    cases h
    exact ⟨p.1, rfl⟩

variable {P : RetryPolicy}

theorem exec_cases {ledger ledger' : Ledger} {op : Op} (hi : LedgerInv ledger) (h : op.exec P ledger = .ok ledger') :
    ledger' = ledger ∨ Created ledger op ledger' ∨ Changed (op.rules P) ledger op.runId ledger' := by
  have hrun := hi op.runId
  cases op <;> obtain ⟨_, h⟩ := exec_eq_ok h
  case createDagRun runId request usage _ _ =>
    obtain ⟨hv, hn, hr, rfl⟩ := createDagRun_ok h
    exact .inr (.inl ⟨runId, request, usage, rfl, hv, hn, hr, rfl⟩)
  case expandDagRun => exact .inr (.inr (expandDagRun_moves rfl h))
  case acquireDagRunLease => exact .inr (.inr (acquireDagRunLease_moves h))
  case heartbeatDagRunLease => exact (heartbeatDagRunLease_moves h).imp_right .inr
  case releaseDagRunLease => exact (releaseDagRunLease_moves h).imp_right .inr
  case markDagRunPaused => exact .inr (.inr (markDagRunPaused_moves hrun h))
  case clearDagRunPause => exact .inr (.inr (clearDagRunPause_moves h))
  case setDagRunStatus => exact .inr (.inr (setDagRunStatus_moves hrun (fun _ ha => ⟨rfl, ha⟩) h))
  case setDagRunUsage => exact .inr (.inr (setDagRunUsage_moves h))
  case reconcileDagRunAccounting => exact .inr (.inr (reconcileDagRunAccounting_moves h))
  case claimRunnableTasks => exact .inr (.inr (claimRunnableTasks_moves hrun h))
  case heartbeatAttempt => exact .inr (.inr (heartbeatAttempt_moves hrun h))
  case checkpointAttempt => exact .inr (.inr (checkpointAttempt_moves hrun h))
  case openDagProviderCircuit => exact .inr (.inr (openDagProviderCircuit_moves hrun h))
  case recordDagAttemptAccounting => exact .inr (.inr (recordDagAttemptAccounting_moves hrun h))
  case completeDagTask =>
    exact .inr (.inr (completeDagTask_moves hrun (fun run t usage turns s hid hs =>
      ⟨hid, run, usage, turns, hs⟩) h))
  case recoverDagRun => exact .inr (.inr (recoverDagRun_moves hrun h))
  case recordDagIntegration => exact .inr (.inr (recordDagIntegration_moves h))
  case recordDagIntegrationFailure => exact .inr (.inr (recordDagIntegrationFailure_moves h))

variable {ledger : Ledger}

/-- **What a call does to the ledger.** -/
theorem step_cases (hi : LedgerInv ledger) (op : Op) :
    step P ledger op = ledger ∨ Created ledger op (step P ledger op) ∨
      Changed (op.rules P) ledger op.runId (step P ledger op) := by
  unfold step
  cases h : op.exec P ledger with
  | error e => exact .inl rfl
  | ok ledger' => exact exec_cases hi h

theorem step_run (P : RetryPolicy) (hi : LedgerInv ledger) (op : Op)
    {run : Run} (hrun : ledger.runs.get? runId = some run) :
    ∃ run', (step P ledger op).runs.get? runId = some run' ∧ (run' = run ∨
        (op.runId = runId ∧ LeaseMove run run' ∧ RowsMove (op.rules P) run run')) := by
  obtain h | ⟨id, request, usage, -, -, hnone, -, h⟩ | ⟨r, r', hr, h, hl, hm⟩ := step_cases hi op
  · rw [h]
    exact ⟨run, hrun, .inl rfl⟩
  · rw [h, Ledger.get?_put]
    split
    · rename_i heq
      rw [← heq, hrun] at hnone
      cases hnone
    · exact ⟨run, hrun, .inl rfl⟩
  · rw [h, Ledger.get?_put]
    split
    · rename_i heq
      rw [← heq, hrun] at hr
      cases hr
      exact ⟨r', rfl, .inr ⟨heq.symm, hl, hm⟩⟩
    · exact ⟨run, hrun, .inl rfl⟩

theorem ledgerInv_step (hi : LedgerInv ledger) (op : Op) : LedgerInv (step P ledger op) := by
  intro id run hrun
  obtain h | ⟨runId, request, usage, -, hv, -, -, h⟩ | ⟨r, r', hr, h, -, hm⟩ := step_cases hi op
  · exact hi id run (h ▸ hrun)
  · rw [h, Ledger.get?_put] at hrun
    split at hrun
    · cases hrun
      exact runInv_newRun hv
    · exact hi id run hrun
  · rw [h, Ledger.get?_put] at hrun
    split at hrun
    · cases hrun
      exact hm.runInv (hi _ r hr)
    · exact hi id run hrun

theorem steps_induction {I : Ledger → Prop} (h0 : I ledger)
    (hstep : ∀ ledger op, I ledger → I (step P ledger op)) (ops : List Op) : I (steps P ledger ops) := by
  induction ops generalizing ledger with
  | nil => exact h0
  | cons op ops ih => exact ih (hstep ledger op h0)

theorem ledgerInv_steps (hi : LedgerInv ledger) (ops : List Op) : LedgerInv (steps P ledger ops) :=
  steps_induction hi (fun _ op h => ledgerInv_step h op) ops

variable {I : Run → Prop}

theorem steps_run (hI : ∀ R run run', LeaseMove run run' → RowsMove R run run' → I run → I run')
    (hi : LedgerInv ledger) (h : ∃ run, ledger.runs.get? runId = some run ∧ I run)
    (ops : List Op) : ∃ run, (steps P ledger ops).runs.get? runId = some run ∧ I run := by
  refine (steps_induction (P := P) (I := fun ledger => LedgerInv ledger ∧
    ∃ run, ledger.runs.get? runId = some run ∧ I run) ⟨hi, h⟩ ?_ ops).2
  rintro ledger op ⟨hi, run, hrun, hrI⟩
  refine ⟨ledgerInv_step hi op, ?_⟩
  obtain ⟨run', hrun', rfl | ⟨-, hl, hm⟩⟩ := step_run P hi op hrun
  · exact ⟨run', hrun', hrI⟩
  · exact ⟨run', hrun', hI _ run run' hl hm hrI⟩

theorem ledgerInv_empty : LedgerInv {} := by
  intro runId run h
  cases h

/-- **The rows fit together in every reachable ledger.** -/
theorem ledgerInv_of_reachable (h : Reachable P ledger) : LedgerInv ledger := by
  obtain ⟨ops, rfl⟩ := h
  exact ledgerInv_steps ledgerInv_empty ops

/-- Each call of a sequence meets a condition on the ledger before it. -/
def Along (P : RetryPolicy) (C : Ledger → Op → Prop) : Ledger → List Op → Prop
  | _, [] => True
  | ledger, op :: ops => C ledger op ∧ Along P C (step P ledger op) ops

/-- A property of runs that new runs have, and that every call under a condition keeps, holds of
all runs after a sequence of such calls. -/
theorem along_run {C : Ledger → Op → Prop}
    (hnew : ∀ runId request usage, validateRequest request = .ok () → I (newRun runId request usage))
    (hmove : ∀ ledger op run run', C ledger op → ledger.runs.get? op.runId = some run →
      RunInv run → LeaseMove run run' → RowsMove (op.rules P) run run' → I run → I run')
    {ops : List Op} (hi : LedgerInv ledger) (hC : Along P C ledger ops)
    (hI : ∀ runId run, ledger.runs.get? runId = some run → I run) :
    ∀ runId run, (steps P ledger ops).runs.get? runId = some run → I run := by
  induction ops generalizing ledger with
  | nil => exact hI
  | cons op ops ih =>
    refine ih (ledgerInv_step hi op) hC.2 ?_
    intro runId run hrun
    obtain h | ⟨id, request, usage, -, hv, -, -, h⟩ | ⟨r, r', hr, h, hl, hm⟩ := step_cases (P := P) hi op
    · exact hI runId run (h ▸ hrun)
    · rw [h, Ledger.get?_put] at hrun
      split at hrun
      · cases hrun
        exact hnew id request usage hv
      · exact hI runId run hrun
    · rw [h, Ledger.get?_put] at hrun
      split at hrun
      · cases hrun
        exact hmove ledger op r _ hC.1 hr (hi _ r hr) hl hm (hI _ r hr)
      · exact hI runId run hrun

theorem reachable_run (hnew : ∀ runId request usage, validateRequest request = .ok () → I (newRun runId request usage))
    (hmove : ∀ R run run', RunInv run → RowsMove R run run' → I run → I run') (h : Reachable P ledger) {run : Run}
    (hrun : ledger.runs.get? runId = some run) : I run := by
  obtain ⟨ops, rfl⟩ := h
  have hall : ∀ (ops : List Op) (ledger : Ledger), Along P (fun _ _ => True) ledger ops := by
    intro ops
    induction ops with
    | nil => exact fun _ => trivial
    | cons op ops ih => exact fun _ => ⟨trivial, ih _⟩
  refine along_run hnew (fun _ op r r' _ _ hi _ hm => hmove _ r r' hi hm) ledgerInv_empty
    (hall ops {}) ?_ runId run hrun
  intro runId run h
  cases h

end EasyPi.Subagent
