/-
# Pending tasks can be claimed

A claim reads off the last checkpoint of a pending task whether to go on with its
attempt or to start a new one, and throws when the attempt to go on with has not
expired. The status of the attempt was set by what put the task back: a pause, a
recovery or a completion. All agree with the checkpoint but one: a completion
with a failure that is retried keeps the checkpoint and sets the attempt to
`failed`, also when the checkpoint says to go on with it.

When no completion does that (`Retryable`), every pending task of an unfinished
run waits for a task that is pending or running, or a claim returns it.
-/
import EasyPi.Subagent.Propagation

namespace EasyPi.Subagent

open List

/-! ### What puts a task back -/

variable (P : RetryPolicy)

/-- A failure that is retried by a new attempt. -/
def Completion.retries (t : Task) (completion : Completion) : Prop :=
  completion.availabilityRetry P t.role = false ∧ (completion.decision P t.role).shouldRetry ∧
    (t.attemptCount : ℤ) < t.maxAttempts

/-- A completion that is retried by a new attempt is not one of a task whose checkpoint says to go
on with the old one. -/
def Retryable (ledger : Ledger) : Op → Prop
  | .completeDagTask runId taskId _ _ completion _ _ => ∀ run t, ledger.runs.get? runId = some run →
    t ∈ run.tasks → t.taskId = taskId → completion.retries P t → t.resumable = false
  | _ => True

/-- The attempts of a pending task fit its checkpoint. -/
structure Task.Unstuck (t : Task) : Prop where
  positive : 1 ≤ t.maxAttempts
  retryable : t.status = .pending → (t.attemptCount : ℤ) < t.maxAttempts ∨ t.resumable
  expired : t.status = .pending → t.resumable → 0 < t.attemptCount →
    ∃ before a, t.attempts = before ++ [a] ∧ a.status = .expired

theorem Task.Unstuck.of_not_pending {t t' : Task} (h : t.Unstuck) (hc : t'.contract = t.contract)
    (hs : t'.status ≠ .pending) : t'.Unstuck where
  positive := by
    rw [Task.maxAttempts, hc]
    exact h.positive
  retryable hp := absurd hp hs
  expired hp := absurd hp hs

theorem Task.unstuck_requeued {t : Task} (h : t.Unstuck) {before : List Attempt} {a : Attempt}
    (hres : t.resumable) (error : String) (retryNotBefore : Option ℤ) :
    (t.requeued before a error retryNotBefore).Unstuck where
  positive := h.positive
  retryable _ := .inr hres
  expired _ _ _ := ⟨before, _, rfl, rfl⟩

theorem settle_retries {P : RetryPolicy} {run : Run} {t : Task} {usage : Usage} {turns : ℕ}
    {now : ℤ} {completion : Completion} {s : Settlement}
    (h : settle P run t usage turns now completion = .ok s) (hs : s.status = .pending)
    (ha : s.attemptStatus = .failed) : completion.retries P t := by
  cases completion with
  | success artifact u n =>
    simp only [settle, bind_ok_iff, require_eq_ok, pure_ok_iff] at h
    obtain ⟨-, -, -, -, -, -, rfl⟩ := h
    cases hs
  | failure reason error u n =>
    simp only [settle, ite_ok_iff, bind_ok_iff, require_eq_ok, pure_ok_iff] at h
    obtain ⟨-, -, -, r, -, rfl⟩ | ⟨hn, ⟨hret, -⟩ | ⟨-, rfl⟩⟩ := h
    · cases ha
    · exact ⟨by simpa using hn, hret⟩
    · by_cases hc : reason = .cancelled <;> simp [hc] at hs

theorem WorkMove.unstuck {R : Rules} {t t' : Task} (hm : WorkMove R t t')
    (hR : ∀ s, R.settles t s → s.status = .pending → s.attemptStatus = .failed →
      t.resumable = false) (h : t.Unstuck) : t'.Unstuck := by
  cases hm with
  | same => exact h
  | amend before a a' leaseExpiresAt checkpoint retryNotBefore running =>
    exact h.of_not_pending rfl (by simp [running.status])
  | settle before a s usage turns running settlement given =>
    have hset := hR s given
    cases settlement with
    | succeeded => exact h.of_not_pending rfl (by simp)
    | waits u n retryNotBefore role =>
      exact ⟨h.positive, fun _ => .inr (availabilityCheckpoint_resumable role u n), fun _ _ _ => ⟨before, _, rfl, rfl⟩⟩
    | retries reason error retryNotBefore bounded =>
      refine ⟨h.positive, fun _ => .inl bounded, fun _ hres _ => ?_⟩
      have hlost : t.resumable = false := hset rfl rfl
      rw [Task.resumable] at hlost
      rw [Task.resumable] at hres
      exact absurd (hlost ▸ hres) Bool.false_ne_true
    | fails status reason error terminal =>
      exact h.of_not_pending rfl (by rcases terminal with rfl | rfl <;> simp)
  | requeue before a error retryNotBefore running resumable =>
    exact Task.unstuck_requeued h resumable error retryNotBefore
  | restart before a error retryNotBefore running lost bounded =>
    refine ⟨h.positive, fun _ => .inl bounded, fun _ hres _ => ?_⟩
    have hres' : t.resumable = true := hres
    rw [lost] at hres'
    cases hres'
  | exhaust before a error running => exact h.of_not_pending rfl (by simp)

theorem RowsMove.unstuck {R : Rules} {run run' : Run} (hm : RowsMove R run run')
    (hR : ∀ t ∈ run.tasks, ∀ s, R.settles t s → s.status = .pending → s.attemptStatus = .failed → t.resumable = false)
    (h : ∀ t ∈ run.tasks, t.Unstuck) : ∀ t ∈ run'.tasks, t.Unstuck := by
  cases hm with
  | columns _ tasks | start _ tasks | succeed _ tasks => rw [tasks]; exact h
  | claim _ _ _ _ _ tasks =>
    intro t' ht'
    obtain ⟨t, ht, hm⟩ := Pointwise.left tasks ht'
    cases hm with
    | same => exact h t' ht
    | start | resume => exact (h t ht).of_not_pending rfl (by simp [Task.claimed])
  | work _ _ _ _ tasks =>
    intro t'' ht''
    obtain ⟨t, ht, t', hw, hb⟩ := Pointwise.left tasks ht''
    have hu := hw.unstuck (hR t ht) (h t ht)
    obtain rfl | ⟨-, rfl⟩ := hb
    · exact hu
    · exact hu.of_not_pending rfl (by simp [Task.blocked])
  | pause _ _ _ tasks =>
    intro t' ht'
    obtain ⟨t, ht, hm⟩ := Pointwise.left tasks ht'
    cases hm with
    | same => exact h t' ht
    | requeue before a running resumable => exact Task.unstuck_requeued (h t ht) resumable _ _
  | terminate _ _ status _ _ ends _ tasks =>
    have hs : status.Terminal := by
      obtain ⟨-, rfl⟩ | ⟨-, rfl⟩ := ends <;> decide
    intro t' ht'
    obtain ⟨t, ht, hm⟩ := Pointwise.left tasks ht'
    exact (h t ht).of_not_pending hm.sameTask.1 (hm.terminal hs).1
  | expand expanded _ _ _ _ _ _ valid _ _ _ tasks =>
    intro t ht
    rw [tasks, mem_append] at ht
    rcases ht with ht | ht
    · exact h t ht
    · obtain ⟨order, contract, hc, rfl⟩ := mem_newTasks ht
      have hmax := (validateExpansion_ok valid).2.2.1 contract (mem_of_mem_drop hc)
      exact ⟨hmax, fun _ => .inl (by change (0 : ℤ) < contract.maxAttempts; omega),
        fun _ _ hpos => absurd hpos (lt_irrefl 0)⟩

theorem unstuck_of_along {P : RetryPolicy} {ops : List Op} (hC : Along P (Retryable P) {} ops)
    {runId : String} {run : Run} (hrun : (steps P {} ops).runs.get? runId = some run) : ∀ t ∈ run.tasks, t.Unstuck := by
  refine along_run (I := fun run => ∀ t ∈ run.tasks, t.Unstuck) ?_ ?_ ledgerInv_empty hC ?_ runId
    run hrun
  · intro runId request usage hv t ht
    obtain ⟨order, contract, hc, rfl⟩ := mem_newTasks ht
    have hmax := ((validateRequest_ok hv).2.2.1 contract hc).1
    exact ⟨hmax, fun _ => .inl (by change (0 : ℤ) < contract.maxAttempts; omega),
      fun _ _ hpos => absurd hpos (lt_irrefl 0)⟩
  · intro ledger op r r' hc hr _ _ hm h
    refine hm.unstuck (fun t ht s hs hp ha => ?_) h
    cases op with
    | completeDagTask id taskId attemptId ownerId completion now lease =>
      obtain ⟨hid, _, _, _, hset⟩ := hs
      exact hc r t hr ht hid (settle_retries hset hp ha)
    | _ => exact hs.elim
  · intro runId run h
    cases h

/-! ### Claims that return -/

section Claim

variable {runId ownerId : String} {leaseExpiresAt : ℤ} {freshIds : ℕ → String}

theorem TaskInv.last_number {t : Task} (hi : TaskInv t) {before : List Attempt} {a : Attempt}
    (ha : t.attempts = before ++ [a]) : a.attemptNumber = t.attemptCount := by
  have hnum := hi.numbers
  rw [ha, map_append, map_singleton] at hnum
  have hlen : t.attemptCount = before.length + 1 := by
    simpa using (congrArg List.length hnum).symm
  rw [hlen, List.range'_concat] at hnum
  have hlast := append_inj_right' hnum rfl
  rw [hlen]
  simpa [Nat.add_comm] using hlast

theorem claimTask_ok {t : Task} (hi : TaskInv t) (hu : t.Unstuck) (hp : t.status = .pending)
    {used : List String} {freshId : String} (hfr : freshId ∉ used) :
    ∃ t' claim, claimTask runId ownerId leaseExpiresAt used freshId t = .ok (t', claim) ∧ claim.taskId = t.taskId ∧
      (claim.attemptId = freshId ∨ ∃ a ∈ t.attempts, a.attemptId = claim.attemptId) := by
  unfold claimTask
  by_cases hres : t.resumable ∧ 0 < t.attemptCount
  · obtain ⟨before, a, hatt, hexp⟩ := hu.expired hp hres.1 hres.2
    have hmem : a ∈ t.attempts := by simp [hatt]
    have hfnd : t.expiredAttempt?.isSome := by
      rw [Task.expiredAttempt?, List.find?_isSome]
      exact ⟨a, hmem, by simp [hi.last_number hatt, hexp]⟩
    obtain ⟨prior, hpri⟩ := Option.isSome_iff_exists.mp hfnd
    obtain ⟨hpexp, before', hatt'⟩ := hi.expiredAttempt?_eq hpri
    have hids := hi.ids
    rw [hatt', map_append, nodup_append] at hids
    have hone : (t.attempts.filter fun b => b.attemptId = prior.attemptId &&
        b.attemptNumber = t.attemptCount && b.status = .expired) = [prior] := by
      rw [hatt', filter_append, filter_eq_nil_iff.mpr, nil_append]
      · simp [hi.last_number hatt', hpexp]
      · intro b hb
        have hne : b.attemptId ≠ prior.attemptId := hids.2.2 _ (mem_map_of_mem hb) _ (by simp)
        simp [hne]
    rw [if_pos hres]
    simp only [hpri]
    refine ⟨_, _, bind_ok_iff.mpr ⟨_, updateAttempt_eq_ok.mpr ⟨?_, rfl⟩, rfl⟩, rfl, .inr ⟨prior, by simp [hatt'], rfl⟩⟩
    exact congrArg List.length hone
  · have hmax : ((t.attemptCount + 1 : ℕ) : ℤ) ≤ t.maxAttempts := by
      have hpos := hu.positive
      rcases hu.retryable hp with h | h
      · omega
      · have hzero : ¬ 0 < t.attemptCount := fun h0 => hres ⟨h, h0⟩
        omega
    have hnumb : t.attemptCount + 1 ∉ t.attempts.map (·.attemptNumber) := by
      rw [hi.numbers, mem_range'_1]
      omega
    rw [if_neg hres]
    exact ⟨_, _, bind_ok_iff.mpr ⟨(), require_eq_ok.mpr hmax, bind_ok_iff.mpr ⟨(), require_eq_ok.mpr hfr,
        bind_ok_iff.mpr ⟨(), require_eq_ok.mpr hnumb, rfl⟩⟩⟩, rfl, .inl rfl⟩

/-- A claim on tasks that are not stuck does not throw, and returns all that are ready when there
is room for them. -/
theorem claimTasks_ok {ready : Task → Bool} (hrdy : ∀ t, ready t → t.status = .pending)
    (hinj : Function.Injective freshIds) {tasks : List Task} (hi : ∀ t ∈ tasks, TaskInv t) (hu : ∀ t ∈ tasks, t.Unstuck)
    (hnew : ∀ t ∈ tasks, ∀ a ∈ t.attempts, ∀ n, freshIds n ≠ a.attemptId)
    {limit : ℕ} {used : List String} (hfr : ∀ n ≤ limit, freshIds n ∉ used) :
    ∃ tasks' claims, claimTasks runId ownerId leaseExpiresAt freshIds ready limit used tasks = .ok (tasks', claims) ∧
      (tasks.length ≤ limit → ∀ t ∈ tasks, ready t → t.taskId ∈ claims.map (·.taskId)) := by
  induction tasks generalizing limit used with
  | nil => exact ⟨[], [], rfl, fun _ t ht => by cases ht⟩
  | cons t tasks ih =>
    rw [forall_mem_cons] at hi hu hnew
    by_cases hc : 0 < limit ∧ ready t
    · obtain ⟨t', claim, hcla, hid, hatte⟩ :=
        @claimTask_ok runId ownerId leaseExpiresAt t hi.1 hu.1 (hrdy t hc.2) used _
          (hfr limit le_rfl)
      have hfr' : ∀ n ≤ limit - 1, freshIds n ∉ claim.attemptId :: used := by
        intro n hn hmem
        rcases mem_cons.mp hmem with heq | hmem
        · rcases hatte with h | ⟨a, ha, h⟩
          · have := hinj (heq.trans h)
            omega
          · exact hnew.1 a ha n (heq.trans h.symm)
        · exact hfr n (by omega) hmem
      obtain ⟨tasks', claims, hrest, hall⟩ := ih hi.2 hu.2 hnew.2 hfr'
      refine ⟨t' :: tasks', claim :: claims, ?_, ?_⟩
      · rw [claimTasks, if_pos hc]
        exact bind_ok_iff.mpr ⟨_, hcla, bind_ok_iff.mpr ⟨_, hrest, rfl⟩⟩
      · intro hlen u hu hr
        rw [length_cons] at hlen
        rcases mem_cons.mp hu with rfl | hu
        · simp [hid]
        · exact mem_cons_of_mem _ (hall (by omega) u hu hr)
    · obtain ⟨tasks', claims, hrest, hall⟩ := ih hi.2 hu.2 hnew.2 hfr
      refine ⟨t :: tasks', claims, ?_, ?_⟩
      · rw [claimTasks, if_neg hc]
        exact bind_ok_iff.mpr ⟨_, hrest, rfl⟩
      · intro hlen u hu hr
        rw [length_cons] at hlen
        rcases mem_cons.mp hu with rfl | hu
        · exact absurd ⟨by omega, hr⟩ hc
        · exact hall (by omega) u hu hr

end Claim

/-! ### Pending tasks -/

/-- The run when it is started and not paused. -/
def Run.started (run : Run) : Run := { run with status := .running, pausedAt := none }

/-- Every claim of the started run returns the task, from its retry time on and with room for all
tasks: it has to be a valid call under the lease of the run, and draw new attempt ids. -/
def Claims (ledger : Ledger) (runId : String) (run : Run) (t : Task) : Prop :=
  ∀ ownerId now leaseDurationMs limit lease freshIds, ownerId ≠ "" → isSafeInteger now →
    isSafeInteger leaseDurationMs → 1 ≤ leaseDurationMs → isSafeInteger (now + leaseDurationMs) →
    isSafeInteger limit → run.tasks.length ≤ limit → (∀ n ∈ t.retryNotBefore, n ≤ now) →
    assertDagRunMutationLease run.started now lease = .ok () → Function.Injective freshIds →
    (∀ n, freshIds n ∉ (ledger.put runId run.started).attemptIds) →
    ∃ claims ledger', claimRunnableTasks runId ownerId now leaseDurationMs limit lease freshIds
      (ledger.put runId run.started) = .ok (claims, ledger') ∧ t.taskId ∈ claims.map (·.taskId)

theorem claims_of_unstuck {ledger : Ledger} {runId : String} {run : Run} (hi : RunInv run)
    (hu : ∀ t ∈ run.tasks, t.Unstuck) {t : Task} (ht : t ∈ run.tasks) (hp : t.status = .pending)
    (hd : ∀ u, run.needs t u → u.status = .succeeded) : Claims ledger runId run t := by
  intro ownerId now leaseDurationMs limit lease freshIds hown hnow hdur hpos hexpi hlim
    hroom hret hheld hinj hfr
  have hget : (ledger.put runId run.started).runs.get? runId = some run.started := by
    rw [Ledger.get?_put, if_pos rfl]
  have hnew : ∀ t ∈ run.tasks, ∀ a ∈ t.attempts, ∀ n, freshIds n ≠ a.attemptId := by
    intro t ht a ha n heq
    exact hfr n (heq ▸ Ledger.mem_attemptIds hget ht ha)
  obtain ⟨tasks', claims, hcla, hall⟩ :=
    @claimTasks_ok run.runId ownerId (now + leaseDurationMs) freshIds (run.started.ready now)
      (fun _ => Run.ready_pending) hinj run.tasks hi.tasks hu hnew limit.toNat
      (ledger.put runId run.started).attemptIds (fun n _ => hfr n)
  have hrdy : run.started.ready now t := by
    simp only [Run.ready, Bool.and_eq_true, Bool.or_eq_true, decide_eq_true_eq, all_eq_true, Option.all_eq_true]
    refine ⟨⟨⟨hp, hret⟩, fun dependency hdep => ?_⟩, (hu t ht).retryable hp⟩
    by_cases hid : dependency.1 = t.taskId
    · refine .inr fun u hu' => ?_
      by_cases huid : u.taskId = dependency.2
      · refine .inr (hd u ⟨ht, hu', ?_⟩)
        rw [← hid, huid]
        exact hdep
      · exact .inl huid
    · exact .inl hid
  have hlen : 1 ≤ limit := by
    have := length_pos_of_mem ht
    omega
  let events := run.events ++ claims.map fun claim =>
    ({ type := "task.claimed", taskId := some claim.taskId } : Event)
  refine ⟨claims, (ledger.put runId run.started).put runId
    { run.started with tasks := tasks', events }, ?_, hall (by omega) t ht hrdy⟩
  simp only [claimRunnableTasks, leaseExpiry]
  refine bind_ok_iff.mpr ⟨(), require_eq_ok.mpr hown, ?_⟩
  refine bind_ok_iff.mpr ⟨now + leaseDurationMs, ?_, ?_⟩
  · exact bind_ok_iff.mpr ⟨(), require_eq_ok.mpr hnow, bind_ok_iff.mpr ⟨(), require_eq_ok.mpr ⟨hdur, hpos⟩,
        bind_ok_iff.mpr ⟨(), require_eq_ok.mpr hexpi, rfl⟩⟩⟩
  · refine bind_ok_iff.mpr ⟨(), require_eq_ok.mpr ⟨hlim, hlen⟩, ?_⟩
    refine transaction_eq_ok.mpr ⟨run.started, { run.started with tasks := tasks', events }, hget, ?_, rfl⟩
    refine bind_ok_iff.mpr ⟨(), hheld, ?_⟩
    rw [if_neg (by simp [Run.started])]
    exact bind_ok_iff.mpr ⟨(tasks', claims), hcla, rfl⟩

/-- **No pending task is stranded** while every completion that is retried is retryable: the
attempt to go on with has expired, and the task waits for an open one or can be claimed. -/
theorem pending_claimable (ops : List Op) (hC : Along P (Retryable P) {} ops)
    (runId : String) (run : Run) (hrun : (steps P {} ops).runs.get? runId = some run)
    (t : Task) (ht : t ∈ run.tasks) (hp : t.status = .pending) :
    (t.resumable → 0 < t.attemptCount → ∃ a ∈ t.attempts, a.attemptNumber = t.attemptCount ∧ a.status = .expired) ∧
    (run.unfinished → (∃ u, run.needs t u ∧ (u.status = .pending ∨ u.status = .running)) ∨
      Claims (steps P {} ops) runId run t) := by
  have hi := ledgerInv_of_reachable ⟨ops, rfl⟩ runId run hrun
  have hu := unstuck_of_along hC hrun
  refine ⟨fun hres hpos => ?_, fun _ => ?_⟩
  · obtain ⟨before, a, ha, hexp⟩ := (hu t ht).expired hp hres hpos
    exact ⟨a, by simp [ha], (hi.tasks t ht).last_number ha, hexp⟩
  · by_cases hopen : ∃ u, run.needs t u ∧ (u.status = .pending ∨ u.status = .running)
    · exact .inl hopen
    · refine .inr (claims_of_unstuck hi hu ht hp fun u hnee => ?_)
      -- what an open task needs has not failed and is not blocked
      have hneg := (justified_steps P ops runId run hrun t u hnee fun h => h.1 hp).2
      by_contra hs
      cases hsts : u.status with
      | pending => exact hopen ⟨u, hnee, .inl hsts⟩
      | running => exact hopen ⟨u, hnee, .inr hsts⟩
      | succeeded => exact hs hsts
      | failed | cancelled | blocked => exact hs (hneg (by simp [Task.negative, hsts])).1

/-! ### A retry that strands its task -/

namespace AvailabilityRetried

def policy : RetryPolicy := ⟨fun _ => false, fun error => error = some "fetch failed", fun _ _ => 1⟩

def scout : Contract := { id := "scout", role := .scout, dependsOn := [], maxAttempts := 2, contractHash := "hash" }

/-- What `processClaim` writes before it runs the child of an attempt it goes on with after an
outage. -/
def runningChild : JsonValue :=
  .obj [("version", .num 1), ("phase", .str "running_child"), ("availabilityRetry", .bool true)]

/-- The provider is not available, the attempt is resumed, and its child times out. -/
def ops : List Op :=
  [.createDagRun "run" { mergeEnabled := false, tasks := [scout], sealed := true } 0,
    .setDagRunStatus "run" .running 0 none, .claimRunnableTasks "run" "owner" 0 10 1 none (fun _ => "attempt-1"),
    .completeDagTask "run" "scout" "attempt-1" "owner"
      (.failure .modelError (some "fetch failed") none none) 1 none,
    .claimRunnableTasks "run" "owner" 5 10 1 none (fun _ => "attempt-2"),
    .checkpointAttempt "run" "scout" "attempt-1" "owner" runningChild 6 none,
    .completeDagTask "run" "scout" "attempt-1" "owner"
      (.failure .timeout (some "Child timed out") none none) 7 none]

/-- **The task is pending without dependencies, its checkpoint says to go on with an attempt that
has failed, and every claim throws.** -/
theorem scout_stranded :
    ((steps policy {} ops).runs.get? "run").map (fun run => (run.status, run.pausedAt)) = some (.running, none) ∧
    ((steps policy {} ops).runs.get? "run").map (fun run => run.tasks.map fun t =>
      (t.status, t.retryNotBefore, t.contract.dependsOn)) = some [(.pending, some 8, [])] ∧
    ((steps policy {} ops).runs.get? "run").map (fun run => run.tasks.map fun t =>
      (t.attemptCount, t.resumable, t.attempts.map fun a => (a.attemptNumber, a.status))) =
      some [(1, true, [(1, .failed)])] ∧
    (match claimRunnableTasks "run" "owner" 100 10 5 none (fun n => "new-" ++ toString n) (steps policy {} ops) with
    | .ok _ => none
    | .error message => some message) = some "Interrupted DAG attempt is not recoverable: run/scout" := by
  refine ⟨?_, ?_, ?_, ?_⟩ <;> decide +kernel

/-- A run whose tasks are not stranded: after the outage it is not gone on with. -/
def retried : List Op := ops.take 4

theorem scout_claimable : ∃ run t, (steps policy {} retried).runs.get? "run" = some run ∧
    t ∈ run.tasks ∧ t.status = .pending ∧ t.resumable ∧ 0 < t.attemptCount ∧
    (∃ a ∈ t.attempts, a.attemptNumber = t.attemptCount ∧ a.status = .expired) ∧
    ((∃ u, run.needs t u ∧ (u.status = .pending ∨ u.status = .running)) ∨
      Claims (steps policy {} retried) "run" run t) := by
  have hany : ((steps policy {} retried).runs.get? "run").any fun run => run.unfinished ∧
      run.tasks.any fun t => t.status = .pending ∧ t.resumable ∧ 0 < t.attemptCount := by
    decide +kernel
  have hfresh : ((steps policy {} (ops.take 3)).runs.get? "run").all fun run => run.tasks.all fun t => !t.resumable := by
    decide +kernel
  have hretry : Retryable policy (steps policy {} (ops.take 3)) (.completeDagTask "run" "scout" "attempt-1" "owner"
      (.failure .modelError (some "fetch failed") none none) 1 none) := by
    intro run t hrun ht _ _
    have hall : (run.tasks.all fun t => !t.resumable) = true := by simpa [hrun] using hfresh
    simpa using all_eq_true.mp hall t ht
  obtain ⟨run, hrun, h⟩ := (Option.any_eq_true _ _).mp hany
  simp only [decide_eq_true_eq, any_eq_true] at h
  obtain ⟨hunf, t, ht, hp, hres, hpos⟩ := h
  obtain ⟨hexp, hcla⟩ := pending_claimable policy retried
    ⟨trivial, trivial, trivial, hretry, trivial⟩ "run" run hrun t ht hp
  exact ⟨run, t, hrun, ht, hp, hres, hpos, hexp hres hpos, hcla hunf⟩

end AvailabilityRetried

end EasyPi.Subagent
