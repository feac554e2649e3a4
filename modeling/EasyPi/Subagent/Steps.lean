/-
# What an operation does to the rows

Rows are updated in many places of `packages/subagent/src/ledger.ts`, but only
in a few ways. A claim starts or resumes an attempt, a controller amends or
settles the attempt it runs, an expired lease or a pause puts a task back, the
end of a run closes what is open, and a failure blocks dependents. `ClaimMove`,
`WorkMove`, `PauseMove` and `FenceMove` are these ways for one task whose rows
fit together (`TaskInv`), `RowsMove` is what happens to a run, and `LeaseMove`
what happens to the three columns that own it.
-/
import EasyPi.Subagent.Blocking
import EasyPi.Subagent.Operations

namespace EasyPi.Subagent

open List

/-! ### Transactions -/

theorem require_eq_ok {condition : Prop} [Decidable condition] {message : String} {u : Unit} :
    require condition message = .ok u ↔ condition := by
  unfold require
  by_cases h : condition <;> simp [h]

def Ledger.put (ledger : Ledger) (runId : String) (run : Run) : Ledger :=
  { ledger with runs := ledger.runs.set runId run }

theorem Ledger.get?_put (ledger : Ledger) (runId id : String) (run : Run) :
    (ledger.put runId run).runs.get? id = if id = runId then some run else ledger.runs.get? id :=
  OrdMap.get?_set ..

theorem transaction_eq_ok {α : Type} {runId : String} {operation : RunM α} {ledger ledger' : Ledger}
    {a : α} : transaction runId operation ledger = .ok (a, ledger') ↔
      ∃ run run', ledger.runs.get? runId = some run ∧ operation run = .ok (a, run') ∧
        ledger' = ledger.put runId run' := by
  unfold transaction
  cases hr : ledger.runs.get? runId with
  | none => simp
  | some run =>
    constructor
    · intro h
      obtain ⟨⟨b, run'⟩, hop, h⟩ := bind_ok_iff.mp h
      obtain ⟨rfl, rfl⟩ := Prod.mk.inj (pure_ok_iff.mp h)
      exact ⟨run, run', rfl, hop, rfl⟩
    · rintro ⟨_, run', ⟨⟩, hop, rfl⟩
      exact bind_ok_iff.mpr ⟨(a, run'), hop, rfl⟩

theorem updateAttempt_eq_ok {t t' : Task} {which : Attempt → Bool} {change : Attempt → Attempt}
    {message : String} : t.updateAttempt which change message = .ok t' ↔ (t.attempts.filter which).length = 1 ∧
        t' = { t with attempts := t.attempts.map fun a => if which a then change a else a } := by
  unfold Task.updateAttempt
  rw [ite_ok_iff]
  constructor
  · rintro (⟨h, ht⟩ | ⟨-, ht⟩)
    · exact ⟨h, (Except.ok.inj ht).symm⟩
    · cases ht
  · rintro ⟨h, rfl⟩
    exact .inl ⟨h, rfl⟩

theorem updateTask_ok {run run' : Run} {taskId message : String} {change : Task → Except String Task}
    (h : run.updateTask taskId change message = .ok run') :
    ∃ tasks, run' = { run with tasks } ∧ Forall₂ (fun t t' =>
      (t.taskId = taskId ∧ change t = .ok t') ∨ (t.taskId ≠ taskId ∧ t' = t)) run.tasks tasks := by
  unfold Run.updateTask at h
  rw [ite_ok_iff] at h
  obtain ⟨-, h⟩ | ⟨-, h⟩ := h
  · obtain ⟨tasks, hm, h⟩ := bind_ok_iff.mp h
    refine ⟨tasks, (pure_ok_iff.mp h).symm, (mapM_eq_ok.mp hm).imp fun t t' ht => ?_⟩
    obtain ⟨hid, ht⟩ | ⟨hid, ht⟩ := ite_ok_iff.mp ht
    · exact .inl ⟨hid, ht⟩
    · exact .inr ⟨hid, (Except.ok.inj ht).symm⟩
  · cases h

theorem reconcile_ok {run run' : Run} (h : reconcile run = .ok run') :
    run' = { run with
      usage := (run.attempts.map (·.usage)).sum
      turns := (run.attempts.map (·.turns)).sum
      events := run'.events } := by
  simp only [reconcile, bind_ok_iff, ite_ok_iff, pure_ok_iff, require_eq_ok] at h
  obtain ⟨-, -, ⟨-, rfl⟩ | ⟨hne, rfl⟩⟩ := h
  · rfl
  · simp only [ne_eq, not_or, not_not] at hne
    rw [hne.1, hne.2]

/-! ### The rows of a task -/

structure Task.Running (t : Task) (before : List Attempt) (a : Attempt) : Prop where
  status : t.status = .running
  attempts : t.attempts = before ++ [a]
  active : a.status = .running
  others : ∀ b ∈ before, b.status ≠ .running
  current : t.currentAttemptId = some a.attemptId
  owner : t.ownerId = some a.ownerId

/-- The rows of a task and of its attempts fit together. -/
structure TaskInv (t : Task) : Prop where
  numbers : t.attempts.map (·.attemptNumber) = List.range' 1 t.attemptCount
  bounded : (t.attemptCount : ℤ) ≤ t.maxAttempts
  ids : (t.attempts.map (·.attemptId)).Nodup
  running : t.status = .running → ∃ before a, t.Running before a
  idle : t.status ≠ .running → ∀ a ∈ t.attempts, a.status ≠ .running

/-- The three copies of the graph are the same. -/
structure GraphInv (run : Run) : Prop where
  contracts : run.tasks.map (·.contract) = run.request.tasks
  orders : run.tasks.map (·.taskOrder) = List.range run.tasks.length
  ids : (run.request.tasks.map (·.id)).Nodup
  dependencies : run.dependencies = dependencyRows run.request.tasks

/-- The tasks and the run they belong to fit together. -/
structure RunInv (run : Run) : Prop where
  graph : GraphInv run
  tasks : ∀ t ∈ run.tasks, TaskInv t
  live : ∀ t ∈ run.tasks, t.status = .running → run.status = .running ∧ run.pausedAt = none

theorem RunInv.taskIds {run : Run} (hi : RunInv run) : (run.tasks.map (·.taskId)).Nodup := by
  have h := hi.graph.ids
  rw [← hi.graph.contracts, map_map] at h
  exact h

inductive ClaimMove (t : Task) : Task → Prop
  | same : ClaimMove t t
  | start (attemptId ownerId : String) (leaseExpiresAt : ℤ) (pending : t.status = .pending)
      (fresh : t.resumable = false ∨ t.attemptCount = 0)
      (bounded : ((t.attemptCount + 1 : ℕ) : ℤ) ≤ t.maxAttempts)
      (unused : attemptId ∉ t.attempts.map (·.attemptId)) :
      ClaimMove t { t.claimed (t.attemptCount + 1) attemptId ownerId leaseExpiresAt with
        attempts := t.attempts ++ [
          { attemptId, attemptNumber := t.attemptCount + 1, ownerId, leaseExpiresAt
            checkpoint := t.checkpoint }] }
  | resume (before : List Attempt) (a : Attempt) (ownerId : String) (leaseExpiresAt : ℤ)
      (pending : t.status = .pending) (resumable : t.resumable)
      (attempts : t.attempts = before ++ [a]) (expired : a.status = .expired) :
      ClaimMove t { t.claimed t.attemptCount a.attemptId ownerId leaseExpiresAt with
        attempts := before ++ [{ a with
          ownerId, status := .running, leaseExpiresAt, terminalReason := none, error := none }] }

structure Attempt.Amended (a a' : Attempt) : Prop where
  attemptId : a'.attemptId = a.attemptId
  attemptNumber : a'.attemptNumber = a.attemptNumber
  ownerId : a'.ownerId = a.ownerId
  status : a'.status = a.status
  usage : usageAtLeast a'.usage a.usage
  turns : a.turns ≤ a'.turns

/-- What a settlement can be, for the task it settles. -/
inductive Settlement.Of (t : Task) : Settlement → Prop
  | succeeded (artifact : TaskArtifact) : Settlement.Of t
      { status := .succeeded, attemptStatus := .succeeded, checkpoint := t.checkpoint
        terminalReason := some .completed, attemptReason := some .completed
        error := none, attemptError := none, artifact := some artifact }
  | waits (usage : Usage) (turns : ℕ) (retryNotBefore : Option ℤ) (role : t.role ≠ .externalWriter) : Settlement.Of t
      { status := .pending, attemptStatus := .expired
        checkpoint := some (availabilityCheckpoint usage turns), retryNotBefore
        terminalReason := none, attemptReason := none, error := none, attemptError := none }
  | retries (reason : TerminalReason) (error : Option String) (retryNotBefore : Option ℤ)
      (bounded : (t.attemptCount : ℤ) < t.maxAttempts) : Settlement.Of t
      { status := .pending, attemptStatus := .failed, checkpoint := t.checkpoint
        retryNotBefore, terminalReason := none, attemptReason := some reason
        error := none, attemptError := error }
  | fails (status : TaskStatus) (reason : TerminalReason) (error : Option String)
      (terminal : status = .failed ∨ status = .cancelled) : Settlement.Of t
      { status, attemptStatus := .failed, checkpoint := t.checkpoint
        terminalReason := some reason, attemptReason := some reason, error, attemptError := error }

def Task.requeued (t : Task) (before : List Attempt) (a : Attempt) (error : String) (retryNotBefore : Option ℤ) : Task :=
  { t with
    status := .pending, currentAttemptId := none, ownerId := none, leaseExpiresAt := none
    retryNotBefore, terminalReason := none, error := none
    attempts := before ++ [{ a with
      status := .expired, terminalReason := some .interrupted, error := some error }] }

/-- What an operation can bring in: settlements of a task, a next status, and tasks. -/
structure Rules where
  settles : Task → Settlement → Prop
  statuses : Run → RunStatus → Prop
  expands : Request → Prop

/-- What an operation on a running run, other than a claim, does to a task before tasks are
blocked. -/
inductive WorkMove (R : Rules) (t : Task) : Task → Prop
  | same : WorkMove R t t
  | amend (before : List Attempt) (a a' : Attempt) (leaseExpiresAt : Option ℤ)
      (checkpoint : Option JsonValue) (retryNotBefore : Option ℤ) (running : t.Running before a)
      (amended : a.Amended a') :
      WorkMove R t { t with leaseExpiresAt, checkpoint, retryNotBefore, attempts := before ++ [a'] }
  | settle (before : List Attempt) (a : Attempt) (s : Settlement) (usage : Usage) (turns : ℕ)
      (running : t.Running before a) (settlement : Settlement.Of t s)
      (given : R.settles t s)
      (more : usageAtLeast usage a.usage) (longer : a.turns ≤ turns) :
      WorkMove R t { t with
        status := s.status
        currentAttemptId := if s.status = .pending then none else some a.attemptId
        ownerId := if s.status = .pending then none else some a.ownerId
        leaseExpiresAt := none, checkpoint := s.checkpoint, retryNotBefore := s.retryNotBefore
        terminalReason := s.terminalReason, error := s.error, artifact := s.artifact
        usage := if s.attemptStatus = .expired then t.usage else t.usage + usage
        turns := if s.attemptStatus = .expired then t.turns else t.turns + turns
        attempts := before ++ [{ a with
          status := s.attemptStatus, checkpoint := s.checkpoint, terminalReason := s.attemptReason
          error := s.attemptError, usage, turns }] }
  | requeue (before : List Attempt) (a : Attempt) (error : String) (retryNotBefore : Option ℤ)
      (running : t.Running before a) (resumable : t.resumable) :
      WorkMove R t (t.requeued before a error retryNotBefore)
  | restart (before : List Attempt) (a : Attempt) (error : String) (retryNotBefore : Option ℤ)
      (running : t.Running before a) (lost : t.resumable = false)
      (bounded : (t.attemptCount : ℤ) < t.maxAttempts) :
      WorkMove R t { t.requeued before a error retryNotBefore with
        usage := t.usage + a.usage, turns := t.turns + a.turns }
  | exhaust (before : List Attempt) (a : Attempt) (error : String) (running : t.Running before a)
      (lost : t.resumable = false) :
      WorkMove R t { t.requeued before a error t.retryNotBefore with
        status := .failed, currentAttemptId := some a.attemptId, ownerId := some a.ownerId
        terminalReason := some .retryExhausted
        error := some "Task attempts exhausted after lease expiry"
        usage := t.usage + a.usage, turns := t.turns + a.turns }

inductive PauseMove (t : Task) : Task → Prop
  | same (idle : t.status ≠ .running) : PauseMove t t
  | requeue (before : List Attempt) (a : Attempt) (running : t.Running before a) (resumable : t.resumable) :
      PauseMove t (t.requeued before a "Attempt interrupted by DAG pause" t.retryNotBefore)

def Task.fenced (t : Task) (status : TaskStatus) (reason : TerminalReason) (error : String) : Task :=
  { t with
    status, currentAttemptId := none, ownerId := none, leaseExpiresAt := none
    retryNotBefore := none, terminalReason := some reason, error := some error, artifact := none }

inductive FenceMove (status : TaskStatus) (reason : TerminalReason) (error : String) (t : Task) :
    Task → Prop
  | same (terminal : t.status.Terminal) : FenceMove status reason error t t
  | pending (pending : t.status = .pending) :
      FenceMove status reason error t (t.fenced status reason error)
  | running (before : List Attempt) (a : Attempt) (running : t.Running before a) :
      FenceMove status reason error t { t.fenced status reason error with
        usage := t.usage + a.usage, turns := t.turns + a.turns
        attempts := before ++ [{ a with
          status := .failed, terminalReason := some reason, error := some error }] }

/-! ### The moves keep the rows of a task together -/

section Moves

variable {t t' : Task} {before : List Attempt} {a a' : Attempt}

theorem Task.Running.mem (h : t.Running before a) : a ∈ t.attempts := by
  simp [h.attempts]

theorem Task.Running.eq_of_active (h : t.Running before a) {b : Attempt} (hb : b ∈ t.attempts)
    (hs : b.status = .running) : b = a := by
  rw [h.attempts, mem_append, mem_singleton] at hb
  rcases hb with hb | hb
  · exact absurd hs (h.others b hb)
  · exact hb

theorem Task.Running.map_active (h : t.Running before a) (f : Attempt → Attempt) :
    (t.attempts.map fun b => if isActive a.attemptId a.ownerId b then f b else b) = before ++ [f a] := by
  rw [h.attempts, map_append, map_singleton]
  congr 1
  · refine (map_congr_left fun b hb => ?_).trans (map_id _)
    rw [if_neg]
    · rfl
    · simp [isActive, h.others b hb]
  · simp [isActive, h.active]

theorem TaskInv.of_ended (hi : TaskInv t) (hr : t.attempts = before ++ [a])
    (ho : ∀ b ∈ before, b.status ≠ .running) (hc : t'.contract = t.contract)
    (hn : t'.attemptCount = t.attemptCount) (ha : t'.attempts = before ++ [a'])
    (hid : a'.attemptId = a.attemptId) (hnum : a'.attemptNumber = a.attemptNumber)
    (hs : t'.status ≠ .running) (hs' : a'.status ≠ .running) : TaskInv t' where
  numbers := by
    rw [ha, hn, ← hi.numbers, hr]
    simp [hnum]
  bounded := by
    rw [hn, Task.maxAttempts, hc]
    exact hi.bounded
  ids := by
    have h := hi.ids
    rw [hr] at h
    rw [ha]
    simpa [hid] using h
  running h := absurd h hs
  idle _ b hb := by
    rw [ha, mem_append, mem_singleton] at hb
    rcases hb with hb | rfl
    · exact ho b hb
    · exact hs'

theorem TaskInv.of_idle (hi : TaskInv t) (hc : t'.contract = t.contract)
    (hn : t'.attemptCount = t.attemptCount) (ha : t'.attempts = t.attempts)
    (ht : t.status ≠ .running) (hs : t'.status ≠ .running) : TaskInv t' where
  numbers := by rw [ha, hn, hi.numbers]
  bounded := by
    rw [hn, Task.maxAttempts, hc]
    exact hi.bounded
  ids := by rw [ha]; exact hi.ids
  running h := absurd h hs
  idle _ b hb := hi.idle ht b (ha ▸ hb)

theorem ClaimMove.taskInv (hi : TaskInv t) (h : ClaimMove t t') : TaskInv t' := by
  cases h with
  | same => exact hi
  | start attemptId ownerId leaseExpiresAt pending fresh bounded unused =>
    have hidle := hi.idle (by simp [pending])
    refine ⟨?_, bounded, ?_, fun _ => ?_, fun h => absurd rfl h⟩
    · simp [Task.claimed, hi.numbers, List.range'_concat, Nat.add_comm]
    · simpa [Task.claimed, nodup_append, hi.ids] using unused
    · exact ⟨_, _, rfl, rfl, rfl, hidle, rfl, rfl⟩
  | resume before a ownerId leaseExpiresAt pending resumable attempts expired =>
    have hidle := hi.idle (by simp [pending])
    have hnum := hi.numbers
    have hids := hi.ids
    rw [attempts] at hnum hids
    refine ⟨?_, hi.bounded, ?_, fun _ => ?_, fun h => absurd rfl h⟩
    · simpa [Task.claimed] using hnum
    · simpa [Task.claimed] using hids
    · refine ⟨before, _, rfl, rfl, rfl, fun b hb => hidle b ?_, rfl, rfl⟩
      rw [attempts]
      exact mem_append_left _ hb

theorem Settlement.Of.not_running {s : Settlement} (h : Settlement.Of t s) :
    s.status ≠ .running ∧ s.attemptStatus ≠ .running := by
  cases h with
  | succeeded => simp
  | waits => simp
  | retries => simp
  | fails status reason error terminal => rcases terminal with rfl | rfl <;> simp

theorem WorkMove.taskInv {R : Rules} (hi : TaskInv t) (h : WorkMove R t t') : TaskInv t' := by
  cases h with
  | same => exact hi
  | amend before a a' leaseExpiresAt checkpoint retryNotBefore running amended =>
    have hnum := hi.numbers
    have hids := hi.ids
    rw [running.attempts] at hnum hids
    refine ⟨?_, hi.bounded, ?_, fun _ => ?_, fun h => absurd running.status h⟩
    · simpa [amended.attemptNumber] using hnum
    · simpa [amended.attemptId] using hids
    · refine ⟨before, a', running.status, rfl, ?_, running.others, ?_, ?_⟩
      · rw [amended.status, running.active]
      · rw [amended.attemptId]
        exact running.current
      · rw [amended.ownerId]
        exact running.owner
  | settle before a s usage turns running settlement =>
    exact hi.of_ended running.attempts running.others rfl rfl rfl rfl rfl
      settlement.not_running.1 settlement.not_running.2
  | requeue before a error retryNotBefore running | restart before a error retryNotBefore running =>
    exact hi.of_ended running.attempts running.others rfl rfl rfl rfl rfl (by simp [Task.requeued]) (by simp)
  | exhaust before a error running =>
    exact hi.of_ended running.attempts running.others rfl rfl rfl rfl rfl (by simp) (by simp)

theorem BlockMove.taskInv (hi : TaskInv t) (h : BlockMove t t') : TaskInv t' := by
  obtain rfl | ⟨hp, rfl⟩ := h
  · exact hi
  · exact hi.of_idle rfl rfl rfl (by simp [hp]) (by simp [Task.blocked])

theorem PauseMove.taskInv (hi : TaskInv t) (h : PauseMove t t') : TaskInv t' := by
  cases h with
  | same => exact hi
  | requeue before a running resumable =>
    exact hi.of_ended running.attempts running.others rfl rfl rfl rfl rfl (by simp [Task.requeued]) (by simp)

theorem FenceMove.taskInv {status : TaskStatus} {reason : TerminalReason} {error : String}
    (hs : status ≠ .running) (hi : TaskInv t) (h : FenceMove status reason error t t') : TaskInv t' := by
  cases h with
  | same => exact hi
  | pending pending => exact hi.of_idle rfl rfl rfl (by simp [pending]) hs
  | running before a running =>
    exact hi.of_ended running.attempts running.others rfl rfl rfl rfl rfl hs (by simp)

end Moves

/-! ### The updates of one task -/

section Updates

variable {t t' : Task} {before : List Attempt} {a : Attempt} {runId : String}

theorem Task.Running.find?_current (hi : TaskInv t) (h : t.Running before a) :
    (t.attempts.find? fun b => decide (some b.attemptId = t.currentAttemptId)) = some a := by
  have hids := hi.ids
  rw [h.attempts, map_append, nodup_append] at hids
  rw [h.attempts, h.current, List.find?_append, List.find?_eq_none.mpr, Option.none_or]
  · simp
  · intro b hb
    simpa using hids.2.2 _ (mem_map_of_mem hb) _ (by simp)

theorem Task.Running.find?_active (h : t.Running before a) :
    t.attempts.find? (isActive a.attemptId a.ownerId) = some a := by
  rw [h.attempts, List.find?_append, List.find?_eq_none.mpr, Option.none_or]
  · simp [isActive, h.active]
  · intro b hb
    simp [isActive, h.others b hb]

theorem TaskInv.running_of_holds (hi : TaskInv t) {attemptId ownerId : String} {now : ℤ}
    (h : t.holdsAttempt attemptId ownerId now) :
    ∃ before a, t.Running before a ∧ a.attemptId = attemptId ∧ a.ownerId = ownerId := by
  obtain ⟨before, a, hr⟩ := hi.running h.1
  refine ⟨before, a, hr, ?_, ?_⟩
  · exact Option.some.inj (hr.current.symm.trans h.2.1)
  · exact Option.some.inj (hr.owner.symm.trans h.2.2.1)

theorem TaskInv.running_of_active (hi : TaskInv t) {attemptId ownerId : String} (ha : a ∈ t.attempts)
    (h : isActive attemptId ownerId a) :
    ∃ before, t.Running before a ∧ a.attemptId = attemptId ∧ a.ownerId = ownerId := by
  simp only [isActive, Bool.and_eq_true, decide_eq_true_eq] at h
  have hs : t.status = .running := by
    by_contra hs
    exact hi.idle hs a ha h.2
  obtain ⟨before, b, hr⟩ := hi.running hs
  obtain rfl := hr.eq_of_active ha h.2
  exact ⟨before, hr, h.1.1, h.1.2⟩

theorem fenceTask_move {status : TaskStatus} {reason : TerminalReason} {error : String}
    (hi : TaskInv t) (h : fenceTask runId status reason error t = .ok t') : FenceMove status reason error t t' := by
  have hatt : ∀ l : List Attempt, (∀ b ∈ l, b.status ≠ .running) →
      (l.map fun b => if b.status = .running then
        { b with status := .failed, terminalReason := some reason, error := some error } else b) = l := by
    intro l hl
    refine (map_congr_left fun b hb => ?_).trans (map_id _)
    rw [if_neg (hl b hb)]
    rfl
  simp only [fenceTask, bind_ok_iff, require_eq_ok, ite_ok_iff, pure_ok_iff] at h
  obtain ⟨-, -, h⟩ := h
  by_cases hs : t.status = .running
  · obtain ⟨before, a, hr⟩ := hi.running hs
    rw [if_pos hs, hr.find?_current hi, hr.attempts, map_append, map_singleton,
      hatt before hr.others, if_pos hr.active] at h
    obtain ⟨-, rfl⟩ | ⟨hn, -⟩ := h
    · exact .running before a hr
    · exact absurd (.inr hs) hn
  · rw [if_neg hs, hatt _ (hi.idle hs)] at h
    obtain ⟨hp, rfl⟩ | ⟨hn, rfl⟩ := h
    · exact .pending (hp.resolve_right hs)
    · exact .same (not_or.mp hn)

theorem pauseTask_move (hi : TaskInv t) (hresu : t.status = .running → t.resumable)
    (h : pauseTask runId t = .ok t') : PauseMove t t' := by
  unfold pauseTask at h
  by_cases hs : t.status = .running
  · obtain ⟨before, a, hr⟩ := hi.running hs
    rw [if_pos hs, hr.current, hr.owner] at h
    simp only [bind_ok_iff, updateAttempt_eq_ok, pure_ok_iff] at h
    obtain ⟨-, ⟨-, rfl⟩, rfl⟩ := h
    rw [hr.map_active]
    exact .requeue before a hr (hresu hs)
  · rw [if_neg hs] at h
    cases h
    exact .same hs

theorem expireTask_move {P : RetryPolicy} {now : ℤ} {R : Rules} (hi : TaskInv t)
    (h : expireTask P runId now t = .ok t') : WorkMove R t t' := by
  unfold expireTask at h
  by_cases hs : t.leaseExpired now
  · obtain ⟨before, a, hr⟩ := hi.running hs.1
    rw [if_pos hs, hr.current, hr.owner] at h
    simp only [hr.find?_active, bind_ok_iff, updateAttempt_eq_ok, require_eq_ok, ite_ok_iff, pure_ok_iff] at h
    obtain ⟨-, ⟨-, rfl⟩, -, -, ⟨hrec, h⟩ | ⟨hrec, rfl⟩⟩ := h
    · obtain ⟨hres, r, -, rfl⟩ | ⟨hres, r, -, rfl⟩ := h
      · simp only [hr.map_active, if_pos hres]
        exact .requeue before a _ r hr hres
      · simp only [hr.map_active, if_neg hres]
        exact .restart before a _ r hr (by simpa using hres) (hrec.resolve_right hres).2
    · rw [Task.recoverable, not_or] at hrec
      simp only [hr.map_active, if_neg hrec.2]
      have hmove := WorkMove.exhaust (R := R) before a "Attempt lease expired" hr
        (by simpa using hrec.2)
      rw [← hr.current, ← hr.owner] at hmove
      exact hmove
  · rw [if_neg hs] at h
    cases h
    exact .same

end Updates

/-! ### Settlements and claims -/

section Settle

variable {t t' : Task} {P : RetryPolicy} {run : Run}

theorem availabilityCheckpoint_resumable {t : Task} (hrole : t.role ≠ .externalWriter) (usage : Usage) (turns : ℕ) :
    Checkpoint.isControllerResumable (some (availabilityCheckpoint usage turns)) t.role := by
  simp [Checkpoint.isControllerResumable, Checkpoint.isAvailabilityRetry, Checkpoint.phase,
    Checkpoint.record, availabilityCheckpoint, List.lookup_cons, JsonValue.isString, hrole]

theorem settle_ok {usage : Usage} {turns : ℕ} {now : ℤ} {completion : Completion} {s : Settlement}
    (h : settle P run t usage turns now completion = .ok s) : Settlement.Of t s := by
  cases completion with
  | success artifact u n =>
    simp only [settle, bind_ok_iff, require_eq_ok, pure_ok_iff] at h
    obtain ⟨-, -, -, -, -, -, rfl⟩ := h
    exact .succeeded artifact
  | failure reason error u n =>
    simp only [settle, ite_ok_iff, bind_ok_iff, require_eq_ok, pure_ok_iff] at h
    obtain ⟨havail, -, -, r, -, rfl⟩ | ⟨-, ⟨hret, r, -, rfl⟩ | ⟨-, rfl⟩⟩ := h
    · refine .waits usage turns r fun hrole => ?_
      simp [Completion.availabilityRetry, Completion.decision, hrole] at havail
    · exact .retries reason error r hret.2
    · refine .fails _ reason error ?_
      by_cases hc : reason = .cancelled <;> simp [hc]

theorem settleTask_move {attemptId ownerId stale : String} {usage : Usage} {turns : ℕ} {now : ℤ}
    {s : Settlement} {R : Rules} (hi : TaskInv t)
    (hhol : t.holdsAttempt attemptId ownerId now) (hs : Settlement.Of t s) (hR : R.settles t s)
    {prior : Attempt} (hpri : prior ∈ t.attempts ∧ prior.attemptId = attemptId)
    (hmore : usageAtLeast usage prior.usage) (hlon : prior.turns ≤ turns)
    (h : settleTask attemptId ownerId usage turns s stale t = .ok t') : WorkMove R t t' := by
  obtain ⟨before, a, hr, rfl, rfl⟩ := hi.running_of_holds hhol
  have hpa : prior = a := inj_on_of_nodup_map hi.ids hpri.1 hr.mem hpri.2
  subst hpa
  unfold settleTask at h
  rw [updateAttempt_eq_ok] at h
  obtain ⟨-, rfl⟩ := h
  rw [hr.map_active]
  exact .settle before prior s usage turns hr hs hR hmore hlon

theorem TaskInv.expiredAttempt?_eq (hi : TaskInv t) {prior : Attempt} (h : t.expiredAttempt? = some prior) :
    prior.status = .expired ∧ ∃ before, t.attempts = before ++ [prior] := by
  have hmem := mem_of_find?_eq_some h
  have hp := List.find?_some h
  simp only [Bool.and_eq_true, decide_eq_true_eq] at hp
  refine ⟨hp.2, ?_⟩
  rcases t.attempts.eq_nil_or_concat with hnil | ⟨before, a, hb⟩
  · rw [hnil] at hmem
    cases hmem
  · rw [concat_eq_append] at hb
    refine ⟨before, ?_⟩
    have hnum := hi.numbers
    rw [hb, map_append, map_singleton] at hnum
    have hlen : t.attemptCount = before.length + 1 := by
      simpa using (congrArg List.length hnum).symm
    rw [hlen, List.range'_concat] at hnum
    have hlast : a.attemptNumber = before.length + 1 := by
      have := append_inj_right' hnum rfl
      simpa [Nat.add_comm] using this
    have hnd : (t.attempts.map (·.attemptNumber)).Nodup := by
      rw [hi.numbers]
      exact nodup_range' ..
    have : prior = a := inj_on_of_nodup_map hnd hmem (by simp [hb]) (by rw [hp.1, hlen, hlast])
    rw [this, hb]

theorem claimTask_move {runId ownerId freshId : String} {leaseExpiresAt : ℤ} {used : List String}
    {claim : Claim} (hi : TaskInv t) (hp : t.status = .pending)
    (hused : ∀ a ∈ t.attempts, a.attemptId ∈ used)
    (h : claimTask runId ownerId leaseExpiresAt used freshId t = .ok (t', claim)) :
    ClaimMove t t' ∧ claim.taskId = t.taskId := by
  unfold claimTask at h
  by_cases hres : t.resumable ∧ 0 < t.attemptCount
  · rw [if_pos hres] at h
    cases hpri : t.expiredAttempt? with
    | none =>
      rw [hpri] at h
      cases h
    | some prior =>
      obtain ⟨hexp, before, hatt⟩ := hi.expiredAttempt?_eq hpri
      simp only [hpri, bind_ok_iff, updateAttempt_eq_ok, pure_ok_iff, Prod.mk.injEq] at h
      obtain ⟨-, ⟨-, rfl⟩, rfl, rfl⟩ := h
      refine ⟨?_, rfl⟩
      have hids := hi.ids
      have hnum := List.find?_some hpri
      simp only [Bool.and_eq_true, decide_eq_true_eq] at hnum
      rw [hatt, map_append, nodup_append] at hids
      have hmap : ((t.claimed t.attemptCount prior.attemptId ownerId leaseExpiresAt).attempts.map
          fun a => if a.attemptId = prior.attemptId && a.attemptNumber = t.attemptCount &&
              a.status = .expired then { a with
            ownerId, status := .running, leaseExpiresAt, terminalReason := none, error := none }
          else a) = before ++ [{ prior with
            ownerId, status := .running, leaseExpiresAt, terminalReason := none, error := none }] := by
        change t.attempts.map _ = _
        rw [hatt, map_append, map_singleton]
        congr 1
        · refine (map_congr_left fun b hb => ?_).trans (map_id _)
          have hne : b.attemptId ≠ prior.attemptId := hids.2.2 _ (mem_map_of_mem hb) _ (by simp)
          simp [hne]
        · simp [hnum.1, hexp]
      rw [hmap]
      exact .resume before prior ownerId leaseExpiresAt hp hres.1 hatt hexp
  · rw [if_neg hres] at h
    simp only [bind_ok_iff, require_eq_ok, pure_ok_iff, Prod.mk.injEq] at h
    obtain ⟨-, hmax, -, hfr, -, -, rfl, rfl⟩ := h
    refine ⟨.start freshId ownerId leaseExpiresAt hp ?_ hmax ?_, rfl⟩
    · rw [not_and_or, Nat.not_lt, Nat.le_zero, Bool.not_eq_true] at hres
      exact hres
    · intro hmem
      obtain ⟨a, ha, hid⟩ := mem_map.mp hmem
      exact hfr (hid ▸ hused a ha)

theorem claimTasks_moves {runId ownerId : String} {leaseExpiresAt : ℤ} {freshIds : ℕ → String}
    {ready : Task → Bool} (hrdy : ∀ t, ready t → t.status = .pending) :
    ∀ {tasks tasks' : List Task} {limit : ℕ} {used : List String} {claims : List Claim},
      (∀ t ∈ tasks, TaskInv t) → (∀ t ∈ tasks, ∀ a ∈ t.attempts, a.attemptId ∈ used) →
      claimTasks runId ownerId leaseExpiresAt freshIds ready limit used tasks = .ok (tasks', claims) →
      Forall₂ (fun t t' => ClaimMove t t' ∧ (t' = t ∨ ready t)) tasks tasks' ∧
        ∀ claim ∈ claims, ∃ t ∈ tasks, ready t ∧ claim.taskId = t.taskId
  | [], _, _, _, _, _, _, h => by
    simp only [claimTasks, Except.ok.injEq, Prod.mk.injEq] at h
    obtain ⟨rfl, rfl⟩ := h
    exact ⟨.nil, by simp⟩
  | t :: tasks, tasks', limit, used, claims, hi, hused, h => by
    rw [forall_mem_cons] at hi hused
    simp only [claimTasks, ite_ok_iff, bind_ok_iff, pure_ok_iff, Prod.exists, Prod.mk.injEq] at h
    obtain ⟨hc, t', claim, ht, tasks₁, claims₁, hrest, rfl, rfl⟩ |
      ⟨-, tasks₁, claims₁, hrest, rfl, rfl⟩ := h
    · obtain ⟨hmove, hid⟩ := claimTask_move hi.1 (hrdy t hc.2) hused.1 ht
      obtain ⟨hmv, hcla⟩ := claimTasks_moves hrdy hi.2
        (fun t ht a ha => mem_cons_of_mem _ (hused.2 t ht a ha)) hrest
      refine ⟨.cons ⟨hmove, .inr hc.2⟩ hmv, ?_⟩
      rw [forall_mem_cons]
      refine ⟨⟨t, mem_cons_self, hc.2, hid⟩, fun c hcm => ?_⟩
      obtain ⟨u, hu, hr, hcid⟩ := hcla c hcm
      exact ⟨u, mem_cons_of_mem _ hu, hr, hcid⟩
    · obtain ⟨hmv, hcla⟩ := claimTasks_moves hrdy hi.2 hused.2 hrest
      refine ⟨.cons ⟨.same, .inl rfl⟩ hmv, fun c hcm => ?_⟩
      obtain ⟨u, hu, hr, hcid⟩ := hcla c hcm
      exact ⟨u, mem_cons_of_mem _ hu, hr, hcid⟩

end Settle

/-! ### What happens to a run -/

/-- The graph of a run is not touched. -/
structure SameGraph (run run' : Run) : Prop where
  runId : run'.runId = run.runId
  request : run'.request = run.request
  dependencies : run'.dependencies = run.dependencies
  graphVersion : run'.graphVersion = run.graphVersion
  graphSealed : run'.graphSealed = run.graphSealed

/-- What an operation does to the columns that own a run. -/
inductive LeaseMove (run run' : Run) : Prop
  | same (owner : run'.ownerId = run.ownerId) (epoch : run'.ownerEpoch = run.ownerEpoch)
      (expiry : run'.runLeaseExpiresAt = run.runLeaseExpiresAt)
  | acquire (owner : run'.ownerId ≠ none) (epoch : run'.ownerEpoch = run.ownerEpoch + 1)
  | renew (owner : run'.ownerId = run.ownerId) (epoch : run'.ownerEpoch = run.ownerEpoch) (held : run.ownerId ≠ none)
  | drop (owner : run'.ownerId = none) (epoch : run'.ownerEpoch = run.ownerEpoch)

/-- What an operation does to the graph, the tasks and the status of a run. -/
inductive RowsMove (R : Rules) (run run' : Run) : Prop
  | columns (graph : SameGraph run run') (tasks : run'.tasks = run.tasks) (status : run'.status = run.status)
      (paused : run'.pausedAt = run.pausedAt ∨ run'.pausedAt = none)
  | start (graph : SameGraph run run') (tasks : run'.tasks = run.tasks)
      (created : run.status = .created) (status : run'.status = .running)
      (paused : run'.pausedAt = run.pausedAt) (given : R.statuses run .running)
  | succeed (graph : SameGraph run run') (tasks : run'.tasks = run.tasks)
      (running : run.status = .running) (status : run'.status = .succeeded)
      (done : ∀ t ∈ run.tasks, t.status = .succeeded) (given : R.statuses run .succeeded)
  | claim (graph : SameGraph run run') (running : run.status = .running)
      (unpaused : run.pausedAt = none) (status : run'.status = .running)
      (paused : run'.pausedAt = none) (tasks : Forall₂ ClaimMove run.tasks run'.tasks)
      (ready : Forall₂ (fun t t' => t' = t ∨ ∀ u, run.needs t u → u.status = .succeeded)
        run.tasks run'.tasks)
  | work (graph : SameGraph run run') (running : run.status = .running)
      (status : run'.status = .running) (paused : run'.pausedAt = run.pausedAt)
      (tasks : Forall₂ (fun t t'' => ∃ t', WorkMove R t t' ∧ BlockMove t' t'')
        run.tasks run'.tasks)
      (closed : (∀ t ∈ run'.tasks, run'.blockable t = false) ∨
        Forall₂ (fun t t' => t'.negative → t.negative) run.tasks run'.tasks)
  | pause (graph : SameGraph run run') (unfinished : run.unfinished)
      (status : run'.status = run.status) (tasks : Forall₂ PauseMove run.tasks run'.tasks)
  | terminate (graph : SameGraph run run') (unfinished : run.unfinished) (status : TaskStatus)
      (reason : TerminalReason) (error : String)
      (ends : run'.status = .failed ∧ status = .failed ∨ run'.status = .cancelled ∧ status = .cancelled)
      (given : R.statuses run run'.status)
      (tasks : Forall₂ (FenceMove status reason error) run.tasks run'.tasks)
  | expand (expanded : Request) (unfinished : run.unfinished) (status : run'.status = run.status)
      (waiting : run.pausedAt ≠ none) (paused : run'.pausedAt = run.pausedAt)
      (done : ∀ t ∈ run.tasks, t.status = .succeeded)
      (given : R.expands expanded) (valid : validateExpansion run.request expanded = .ok ())
      (rows : (dependencyRows (expanded.tasks.drop run.request.tasks.length)).Nodup)
      (runId : run'.runId = run.runId) (request : run'.request = expanded)
      (tasks : run'.tasks = run.tasks ++ newTasks run.request.tasks.length
        (expanded.tasks.drop run.request.tasks.length))
      (dependencies : run'.dependencies = run.dependencies ++
        dependencyRows (expanded.tasks.drop run.request.tasks.length))
      (graphVersion : run'.graphVersion = run.graphVersion + 1)
      (graphSealed : run'.graphSealed = expanded.sealed)

end EasyPi.Subagent
