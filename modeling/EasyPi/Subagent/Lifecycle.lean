/-
# The life of a task

Claiming, resuming, expiry, pausing, retries, expansion and the end of a run each
write a task and its attempts in `packages/subagent/src/ledger.ts`, one row at a
time and under guards of their own. In every ledger some sequence of calls leads
to, a running task has one running attempt, which is the current one; attempts
are numbered from one; a task that ended is never written again; and a finished
run has no open task.

A claim looks at the status of what a task needs, not at how its work was judged.
A task on rejected or inconclusive work is blocked by the completion or recovery
that finds it (`blockDagDescendants`). An expansion adds tasks without blocking,
so one that it adds on work already judged so can still be claimed (`AddedOn`).
-/
import Mathlib.Data.List.Induction
import EasyPi.Subagent.Graph

namespace EasyPi.Subagent

open List

/-! ### Ended tasks -/

section Ended

variable {R : Rules} {t t' : Task}

theorem ClaimMove.eq_of_terminal (h : ClaimMove t t') (ht : t.status.Terminal) : t' = t := by
  cases h with
  | same => rfl
  | start _ _ _ pending | resume _ _ _ _ pending => exact absurd pending ht.1

theorem WorkMove.eq_of_terminal (h : WorkMove R t t') (ht : t.status.Terminal) : t' = t := by
  cases h with
  | same => rfl
  | amend _ _ _ _ _ _ running | settle _ _ _ _ _ running | requeue _ _ _ _ running | restart _ _ _ _ running
  | exhaust _ _ _ running => exact absurd running.status ht.2

theorem BlockMove.eq_of_terminal (h : BlockMove t t') (ht : t.status.Terminal) : t' = t := by
  obtain rfl | ⟨hp, -⟩ := h
  · rfl
  · exact absurd hp ht.1

theorem PauseMove.eq_of_terminal (h : PauseMove t t') (ht : t.status.Terminal) : t' = t := by
  cases h with
  | same => rfl
  | requeue _ _ running => exact absurd running.status ht.2

theorem FenceMove.eq_of_terminal {status : TaskStatus} {reason : TerminalReason} {error : String}
    (h : FenceMove status reason error t t') (ht : t.status.Terminal) : t' = t := by
  cases h with
  | same => rfl
  | pending pending => exact absurd pending ht.1
  | running _ _ running => exact absurd running.status ht.2

theorem FenceMove.terminal {status : TaskStatus} {reason : TerminalReason} {error : String}
    (hs : status.Terminal) (h : FenceMove status reason error t t') : t'.status.Terminal := by
  cases h with
  | same terminal => exact terminal
  | pending => exact hs
  | running => exact hs

variable {run run' : Run}

theorem RowsMove.mem_of_terminal (h : RowsMove R run run') (ht : t ∈ run.tasks)
    (hs : t.status.Terminal) : t ∈ run'.tasks := by
  have hkeep : ∀ {M : Task → Task → Prop}, Forall₂ M run.tasks run'.tasks → (∀ u', M t u' → u' = t) → t ∈ run'.tasks := by
    intro M hM heq
    obtain ⟨u', hu', hm⟩ := Pointwise.right hM ht
    exact heq u' hm ▸ hu'
  cases h with
  | columns _ tasks | start _ tasks | succeed _ tasks => rw [tasks]; exact ht
  | claim _ _ _ _ _ tasks => exact hkeep tasks fun _ hm => hm.eq_of_terminal hs
  | work _ _ _ _ tasks =>
    refine hkeep tasks ?_
    rintro u'' ⟨u', hw, hb⟩
    obtain rfl := hw.eq_of_terminal hs
    exact hb.eq_of_terminal hs
  | pause _ _ _ tasks | terminate _ _ _ _ _ _ _ tasks => exact hkeep tasks fun _ hm => hm.eq_of_terminal hs
  | expand _ _ _ _ _ _ _ _ _ _ _ tasks =>
    rw [tasks]
    exact mem_append_left _ ht

end Ended

variable {run : Run} {P : RetryPolicy} {ledger : Ledger} {runId : String}

/-- **A task that ended stays as it is.** -/
theorem terminal_task_steps (hi : LedgerInv ledger) (hrun : ledger.runs.get? runId = some run) {t : Task}
    (ht : t ∈ run.tasks) (hs : t.status.Terminal) (ops : List Op) :
    ∃ run', (steps P ledger ops).runs.get? runId = some run' ∧ t ∈ run'.tasks :=
  steps_run (I := fun run => t ∈ run.tasks) (fun _ _ _ _ hm h => hm.mem_of_terminal h hs) hi
    ⟨run, hrun, ht⟩ ops

/-- The row of a task and those of its attempts say the same about what runs. -/
structure Task.Coherent (run : Run) (t : Task) : Prop where
  running_iff : t.status = .running ↔ ∃ a, t.attempts.filter (·.status = .running) = [a]
  current : ∀ a ∈ t.attempts, a.status = .running →
    t.currentAttemptId = some a.attemptId ∧ t.ownerId = some a.ownerId ∧ run.status = .running ∧ run.pausedAt = none
  numbered : t.attempts.map (·.attemptNumber) = List.range' 1 t.attemptCount
  bounded : (t.attemptCount : ℤ) ≤ t.maxAttempts

theorem RunInv.coherent (hi : RunInv run) {t : Task} (ht : t ∈ run.tasks) : t.Coherent run := by
  have hti := hi.tasks t ht
  refine ⟨⟨fun hs => ?_, fun ⟨a, ha⟩ => ?_⟩, fun a ha hs => ?_, hti.numbers, hti.bounded⟩
  · obtain ⟨before, a, hr⟩ := hti.running hs
    refine ⟨a, ?_⟩
    have hbef : before.filter (fun b => decide (b.status = .running)) = [] :=
      filter_eq_nil_iff.mpr fun b hb => by simpa using hr.others b hb
    rw [hr.attempts, filter_append, hbef, nil_append]
    simp [hr.active]
  · by_contra hs
    have hmem : a ∈ t.attempts.filter (fun b => decide (b.status = .running)) := by
      rw [ha]
      exact mem_singleton_self a
    rw [mem_filter, decide_eq_true_eq] at hmem
    exact hti.idle hs a hmem.1 hmem.2
  · have hrun : t.status = .running := by
      by_contra hne
      exact hti.idle hne a ha hs
    obtain ⟨before, b, hr⟩ := hti.running hrun
    obtain rfl := hr.eq_of_active ha hs
    exact ⟨hr.current, hr.owner, hi.live t ht hrun⟩

/-- What a finished run says about its tasks. -/
structure Run.Settled (run : Run) : Prop where
  succeeded : run.status = .succeeded → ∀ t ∈ run.tasks, t.status = .succeeded
  ended : run.status = .failed ∨ run.status = .cancelled → ∀ t ∈ run.tasks, t.status.Terminal

theorem Run.settled_of_unfinished (h : run.unfinished) : run.Settled := by
  constructor <;> rcases h with h | h <;> simp [h]

theorem RowsMove.settled {R : Rules} (hm : RowsMove R run run') (h : run.Settled) : run'.Settled := by
  cases hm with
  | columns _ tasks status =>
    constructor
    · rw [status, tasks]; exact h.succeeded
    · rw [status, tasks]; exact h.ended
  | start _ _ _ status => exact Run.settled_of_unfinished (.inr status)
  | succeed _ tasks _ status done =>
    constructor
    · intro _
      rw [tasks]
      exact done
    · simp [status]
  | claim _ _ _ status | work _ _ status => exact Run.settled_of_unfinished (.inr status)
  | pause _ unfinished status =>
    refine Run.settled_of_unfinished ?_
    rw [Run.unfinished, status]
    exact unfinished
  | terminate _ _ status _ _ ends _ tasks =>
    have hs : status.Terminal := by
      obtain ⟨-, rfl⟩ | ⟨-, rfl⟩ := ends <;> decide
    constructor
    · obtain ⟨h, -⟩ | ⟨h, -⟩ := ends <;> simp [h]
    · intro _ t' ht'
      obtain ⟨t, -, hm⟩ := Pointwise.left tasks ht'
      exact hm.terminal hs
  | expand _ unfinished status =>
    refine Run.settled_of_unfinished ?_
    rw [Run.unfinished, status]
    exact unfinished

theorem settled_of_reachable (h : Reachable P ledger) (hrun : ledger.runs.get? runId = some run) : run.Settled :=
  reachable_run (fun _ _ _ _ => Run.settled_of_unfinished (.inl rfl)) (fun _ _ _ _ hm h => hm.settled h) h hrun

/-! ### Artifacts -/

def Task.Delivered (t : Task) : Prop := t.status = .succeeded → t.artifact ≠ none

theorem RowsMove.delivered {R : Rules} (hm : RowsMove R run run')
    (h : ∀ t ∈ run.tasks, t.Delivered) : ∀ t ∈ run'.tasks, t.Delivered := by
  have hmov : ∀ {M : Task → Task → Prop}, Forall₂ M run.tasks run'.tasks →
      (∀ t t', M t t' → t.Delivered → t'.Delivered) → ∀ t ∈ run'.tasks, t.Delivered := by
    intro M hM hd t' ht'
    obtain ⟨t, ht, hm⟩ := Pointwise.left hM ht'
    exact hd t t' hm (h t ht)
  cases hm with
  | columns _ tasks | start _ tasks | succeed _ tasks => rw [tasks]; exact h
  | claim _ _ _ _ _ tasks =>
    refine hmov tasks fun t t' hm ht => ?_
    cases hm with
    | same => exact ht
    | start | resume => exact fun hs => by cases hs
  | work _ _ _ _ tasks =>
    refine hmov tasks ?_
    rintro t t'' ⟨t', hw, hb⟩ ht
    have ht' : t'.Delivered := by
      cases hw with
      | same => exact ht
      | amend => exact ht
      | settle before a s usage turns running settlement =>
        cases settlement with
        | succeeded artifact => exact fun _ => Option.some_ne_none _
        | waits | retries => exact fun hs => by cases hs
        | fails status reason error terminal =>
          exact fun hs => by rcases terminal with rfl | rfl <;> cases hs
      | requeue | restart | exhaust => exact fun hs => by cases hs
    obtain rfl | ⟨-, rfl⟩ := hb
    · exact ht'
    · exact fun hs => by cases hs
  | pause _ _ _ tasks =>
    refine hmov tasks fun t t' hm ht => ?_
    cases hm with
    | same => exact ht
    | requeue => exact fun hs => by cases hs
  | terminate _ _ status _ _ ends _ tasks =>
    have hne : status ≠ .succeeded := by
      obtain ⟨-, rfl⟩ | ⟨-, rfl⟩ := ends <;> decide
    refine hmov tasks fun t t' hm ht => ?_
    cases hm with
    | same => exact ht
    | pending | running => exact fun hs => absurd hs hne
  | expand _ _ _ _ _ _ _ _ _ _ _ tasks =>
    intro t ht
    rw [tasks, mem_append] at ht
    rcases ht with ht | ht
    · exact h t ht
    · obtain ⟨order, contract, -, rfl⟩ := mem_newTasks ht
      exact fun hs => by cases hs

theorem delivered_of_reachable (h : Reachable P ledger)
    (hrun : ledger.runs.get? runId = some run) : ∀ t ∈ run.tasks, t.Delivered := by
  refine reachable_run (I := fun run => ∀ t ∈ run.tasks, t.Delivered) (fun _ _ _ _ t ht => ?_)
    (fun _ _ _ _ hm h => hm.delivered h) h hrun
  obtain ⟨order, contract, -, rfl⟩ := mem_newTasks ht
  exact fun hs => by cases hs

/-! ### What an open task needs -/

/-- An expansion among the calls added the task when what it depends on had been judged rejected
or inconclusive. -/
def AddedOn (P : RetryPolicy) (ops : List Op) (runId taskId dependency : String) : Prop :=
  ∃ before version expanded now lease after, ops = before ++ .expandDagRun runId version expanded now lease :: after ∧
    ∃ run, (steps P {} before).runs.get? runId = some run ∧ (∀ t ∈ run.tasks, t.taskId ≠ taskId) ∧
      taskId ∈ expanded.tasks.map (·.id) ∧ ∃ u ∈ run.tasks, u.taskId = dependency ∧ u.status = .succeeded ∧ u.negative

theorem AddedOn.append {ops : List Op} {runId taskId dependency : String}
    (h : AddedOn P ops runId taskId dependency) (later : List Op) : AddedOn P (ops ++ later) runId taskId dependency := by
  obtain ⟨before, version, expanded, now, lease, after, rfl, h⟩ := h
  exact ⟨before, version, expanded, now, lease, after ++ later, by simp, h⟩

/-- A running task has all it needs, and what an open task needs is not negative unless the task
was added on it. -/
def Justified (A : String → String → Prop) (run : Run) : Prop :=
  ∀ t u, run.needs t u → ¬ t.status.Terminal → (t.status = .running → u.status = .succeeded) ∧
    (u.negative → u.status = .succeeded ∧ A t.taskId u.taskId)

theorem TaskStatus.terminal_succeeded {status : TaskStatus} (h : status = .succeeded) : status.Terminal := by
  subst h
  decide

section Justified

variable {R : Rules} {run run' : Run} {A A' : String → String → Prop}

theorem needs_of_moved {M : Task → Task → Prop} (hd : run'.dependencies = run.dependencies)
    (hM : Forall₂ M run.tasks run'.tasks) (hid : ∀ t t', M t t' → t'.taskId = t.taskId)
    {t' u' : Task} (h : run'.needs t' u') :
    ∃ t u, run.needs t u ∧ M t t' ∧ M u u' ∧ t'.taskId = t.taskId ∧ u'.taskId = u.taskId := by
  obtain ⟨ht', hu', hdep⟩ := h
  obtain ⟨t, ht, hmt⟩ := Pointwise.left hM ht'
  obtain ⟨u, hu, hmu⟩ := Pointwise.left hM hu'
  rw [hd, hid t t' hmt, hid u u' hmu] at hdep
  exact ⟨t, u, ⟨ht, hu, hdep⟩, hmt, hmu, hid t t' hmt, hid u u' hmu⟩

theorem SameTask.taskId {t t' : Task} (h : SameTask t t') : t'.taskId = t.taskId := by
  rw [Task.taskId, h.1, Task.taskId]

section
variable (h : Justified A run)
include h

section
variable (hd : run'.dependencies = run.dependencies)
include hd

theorem Justified.of_claim (hmv : Forall₂ ClaimMove run.tasks run'.tasks)
    (hrdy : Forall₂ (fun t t' => t' = t ∨ ∀ u, run.needs t u → u.status = .succeeded)
      run.tasks run'.tasks) : Justified A run' := by
  intro t' u' hn ho
  have hboth := Pointwise.and hmv hrdy
  obtain ⟨t, u, hnee, ⟨hmt, hrt⟩, ⟨hmu, -⟩, htid, huid⟩ := needs_of_moved hd hboth (fun _ _ hm => hm.1.sameTask.taskId) hn
  have hopen : ¬ t.status.Terminal := fun hterm => ho (hmt.eq_of_terminal hterm ▸ hterm)
  obtain ⟨hrun, hneg⟩ := h t u hnee hopen
  rw [htid, huid]
  refine ⟨fun hs => ?_, fun hn' => ?_⟩
  · have hu : u.status = .succeeded := by
      obtain rfl | hall := hrt
      · exact hrun hs
      · exact hall u hnee
    rw [hmu.eq_of_terminal (TaskStatus.terminal_succeeded hu)]
    exact hu
  · have hu : u' = u := by
      cases hmu with
      | same => rfl
      | start => cases hn'
      | resume => cases hn'
    rw [hu] at hn' ⊢
    exact hneg hn'

theorem Justified.of_work (hmv : Forall₂ (fun t t'' => ∃ t', WorkMove R t t' ∧ BlockMove t' t'') run.tasks run'.tasks)
    (hclosed : (∀ t ∈ run'.tasks, run'.blockable t = false) ∨
      Forall₂ (fun t t' => t'.negative → t.negative) run.tasks run'.tasks) : Justified A run' := by
  have hsame : ∀ t t'', (∃ t', WorkMove R t t' ∧ BlockMove t' t'') → t.status.Terminal → t'' = t := by
    rintro t t'' ⟨t', hw, hb⟩ ht
    obtain rfl := hw.eq_of_terminal ht
    exact hb.eq_of_terminal ht
  have hid : ∀ t t'', (∃ t', WorkMove R t t' ∧ BlockMove t' t'') → t''.taskId = t.taskId := by
    rintro t t'' ⟨t', hw, hb⟩
    exact hb.sameTask.taskId.trans hw.sameTask.taskId
  intro t' u' hn ho
  rcases hclosed with hclosed | hclosed
  · obtain ⟨t, u, hnee, hmt, hmu, htid, huid⟩ := needs_of_moved hd hmv hid hn
    have hopen : ¬ t.status.Terminal := fun hterm => ho (hsame t t' hmt hterm ▸ hterm)
    obtain ⟨hrun, hneg⟩ := h t u hnee hopen
    have hrunn : t'.status = .running → u.status = .succeeded := by
      intro hs
      obtain ⟨v, hw, hb⟩ := hmt
      exact hrun (hw.running_of (hb.running_of hs))
    refine ⟨fun hs => ?_, fun hn' => ?_⟩
    · have hu := hrunn hs
      rw [hsame u u' hmu (TaskStatus.terminal_succeeded hu)]
      exact hu
    · -- A pending task with a negative prerequisite would have been blocked.
      have hs : t'.status = .running := by
        by_contra hs
        have hp : t'.status = .pending := by
          by_contra hp
          exact ho ⟨hp, hs⟩
        have hblo := (blockable_iff hn.1).mpr ⟨hp, u', hn, hn'⟩
        rw [hclosed t' hn.1] at hblo
        cases hblo
      have hu := hrunn hs
      have heq := hsame u u' hmu (TaskStatus.terminal_succeeded hu)
      rw [htid, heq]
      exact hneg (heq ▸ hn')
  · obtain ⟨t, u, hnee, ⟨hmt, -⟩, ⟨hmu, hback⟩, htid, huid⟩ :=
      needs_of_moved hd (Pointwise.and hmv hclosed) (fun t t' hm => hid t t' hm.1) hn
    have hopen : ¬ t.status.Terminal := fun hterm => ho (hsame t t' hmt hterm ▸ hterm)
    obtain ⟨hrun, hneg⟩ := h t u hnee hopen
    refine ⟨fun hs => ?_, fun hn' => ?_⟩
    · obtain ⟨v, hw, hb⟩ := hmt
      have hu := hrun (hw.running_of (hb.running_of hs))
      rw [hsame u u' hmu (TaskStatus.terminal_succeeded hu)]
      exact hu
    · obtain ⟨hu, hA⟩ := hneg (hback hn')
      rw [hsame u u' hmu (TaskStatus.terminal_succeeded hu), htid]
      exact ⟨hu, hA⟩

theorem Justified.of_pause (hmv : Forall₂ PauseMove run.tasks run'.tasks) : Justified A run' := by
  intro t' u' hn ho
  obtain ⟨t, u, hnee, hmt, hmu, htid, huid⟩ := needs_of_moved hd hmv (fun _ _ hm => hm.sameTask.taskId) hn
  have hopen : ¬ t.status.Terminal := fun hterm => ho (hmt.eq_of_terminal hterm ▸ hterm)
  refine ⟨fun hs => ?_, fun hn' => ?_⟩
  · cases hmt with
    | same idle => exact absurd hs idle
    | requeue => cases hs
  · cases hmu with
    | same idle =>
      rw [htid]
      exact (h t _ hnee hopen).2 hn'
    | requeue => cases hn'

theorem Justified.of_tasks (ht : run'.tasks = run.tasks) : Justified A run' := by
  intro t u hn ho
  refine h t u ?_ ho
  rw [Run.needs, ← ht, ← hd]
  exact hn

end

theorem Justified.mono (hA : ∀ a b, A a b → A' a b) : Justified A' run := by
  intro t u hn ho
  obtain ⟨hrun, hneg⟩ := h t u hn ho
  exact ⟨hrun, fun hn' => ⟨(hneg hn').1, hA _ _ (hneg hn').2⟩⟩

end

/-- **A step keeps what open tasks rest on**, but for tasks an expansion adds on negative ones. -/
theorem RowsMove.justified (hm : RowsMove R run run') (h : Justified A run)
    (hA : ∀ expanded, R.expands expanded → validateExpansion run.request expanded = .ok () →
      ∀ contract ∈ expanded.tasks.drop run.request.tasks.length, ∀ u ∈ run.tasks,
        u.status = .succeeded → u.negative → A contract.id u.taskId) : Justified A run' := by
  cases hm with
  | columns graph tasks | start graph tasks | succeed graph tasks => exact h.of_tasks graph.dependencies tasks
  | claim graph _ _ _ _ tasks ready => exact h.of_claim graph.dependencies tasks ready
  | work graph _ _ _ tasks closed => exact h.of_work graph.dependencies tasks closed
  | pause graph _ _ tasks => exact h.of_pause graph.dependencies tasks
  | terminate graph _ status _ _ ends _ tasks =>
    intro t' u' hn ho
    have hs : status.Terminal := by
      obtain ⟨-, rfl⟩ | ⟨-, rfl⟩ := ends <;> decide
    obtain ⟨t, -, hm⟩ := Pointwise.left tasks hn.1
    exact absurd (hm.terminal hs) ho
  | expand expanded _ _ _ _ done given valid _ _ _ tasks =>
    rintro t u ⟨ht, hu, -⟩ ho
    rw [tasks, mem_append] at ht hu
    rcases ht with ht | ht
    · exact absurd (TaskStatus.terminal_succeeded (done t ht)) ho
    · obtain ⟨order, contract, hc, rfl⟩ := mem_newTasks ht
      refine ⟨fun hs => (by cases hs), fun hneg => ?_⟩
      rcases hu with hu | hu
      · exact ⟨done u hu, hA expanded given valid contract hc u hu (done u hu) hneg⟩
      · obtain ⟨_, _, -, rfl⟩ := mem_newTasks hu
        cases hneg

end Justified

theorem steps_concat (P : RetryPolicy) (ledger : Ledger) (ops : List Op) (op : Op) :
    steps P ledger (ops ++ [op]) = step P (steps P ledger ops) op := by
  simp [steps, foldl_append]

theorem justified_steps (P : RetryPolicy) (ops : List Op) (runId : String) (run : Run)
    (hrun : (steps P {} ops).runs.get? runId = some run) : Justified (AddedOn P ops runId) run := by
  induction ops using List.reverseRecOn generalizing run with
  | nil => cases hrun
  | append_singleton ops op ih =>
    have hi : LedgerInv (steps P {} ops) := ledgerInv_of_reachable ⟨ops, rfl⟩
    have hlat : ∀ a b, AddedOn P ops runId a b → AddedOn P (ops ++ [op]) runId a b :=
      fun a b h => h.append [op]
    rw [steps_concat] at hrun
    obtain h | ⟨id, request, usage, -, hv, -, -, h⟩ | ⟨r, r', hr, h, hl, hm⟩ := step_cases (P := P) hi op
    · exact (ih run (h ▸ hrun)).mono hlat
    · rw [h, Ledger.get?_put] at hrun
      split at hrun
      · -- A new run has only pending tasks.
        cases hrun
        rintro t u ⟨ht, hu, -⟩ -
        obtain ⟨_, _, -, rfl⟩ := mem_newTasks ht
        obtain ⟨_, _, -, rfl⟩ := mem_newTasks hu
        exact ⟨fun hs => (by cases hs), fun hn => (by cases hn)⟩
      · exact (ih run hrun).mono hlat
    · rw [h, Ledger.get?_put] at hrun
      split at hrun
      · rename_i heq
        cases hrun
        subst heq
        refine hm.justified ((ih r hr).mono hlat) ?_
        intro expanded hexp hval contract hc u hu hs hneg
        cases op with
        | expandDagRun id version expanded' now lease =>
          obtain rfl : expanded' = expanded := hexp
          refine ⟨ops, version, expanded', now, lease, [], rfl, r, hr, ?_,
            mem_map_of_mem (mem_of_mem_drop hc), u, hu, rfl, hs, hneg⟩
          exact fun t ht => (hi _ r hr).graph.fresh_of_expansion hval ht hc
        | _ => exact hexp.elim
      · exact (ih run hrun).mono hlat

/-! ### The state machine -/

structure Lifecycle (P : RetryPolicy) (ops : List Op) (runId : String) (run : Run) : Prop where
  coherent : ∀ t ∈ run.tasks, t.Coherent run
  kept : ∀ t ∈ run.tasks, t.status.Terminal → ∀ later,
    ∃ run', (steps P {} (ops ++ later)).runs.get? runId = some run' ∧ t ∈ run'.tasks
  settled : run.Settled
  claimed : ∀ ownerId now leaseDurationMs limit lease freshIds claims ledger',
    claimRunnableTasks runId ownerId now leaseDurationMs limit lease freshIds (steps P {} ops) =
      .ok (claims, ledger') → ∀ claim ∈ claims, ∃ t ∈ run.tasks, t.taskId = claim.taskId ∧
      ∀ dependency ∈ t.contract.dependsOn, ∃ u ∈ run.tasks, u.taskId = dependency ∧
        u.status = .succeeded ∧ ∃ artifact, u.artifact = some artifact ∧
          ((artifact.quality.semanticOutcome ≠ .rejected ∧ artifact.quality.semanticOutcome ≠ .inconclusive) ∨
            AddedOn P ops runId t.taskId dependency)

theorem needs_of_dependsOn (hi : GraphInv run) (ho : Orderable run.request.tasks)
    {t : Task} (ht : t ∈ run.tasks) {dependency : String} (hd : dependency ∈ t.contract.dependsOn) :
    ∃ u, run.needs t u ∧ u.taskId = dependency := by
  have hc : t.contract ∈ run.request.tasks := by
    rw [← hi.contracts]
    exact mem_map_of_mem ht
  have hkn := ho.known _ hc _ hd
  rw [← hi.contracts, map_map] at hkn
  obtain ⟨u, hu, rfl⟩ := mem_map.mp hkn
  refine ⟨u, ⟨ht, hu, ?_⟩, rfl⟩
  rw [hi.dependencies]
  exact mem_flatMap.mpr ⟨t.contract, hc, mem_map_of_mem hd⟩

/-- **The state machine of tasks and attempts**, in every run after any sequence of calls. -/
theorem task_lifecycle (P : RetryPolicy) (ops : List Op) (runId : String) (run : Run)
    (hrun : (steps P {} ops).runs.get? runId = some run) : Lifecycle P ops runId run := by
  have hreach : Reachable P (steps P {} ops) := ⟨ops, rfl⟩
  have hi := ledgerInv_of_reachable hreach
  refine ⟨fun t ht => (hi _ run hrun).coherent ht, fun t ht hs later => ?_, settled_of_reachable hreach hrun, ?_⟩
  · rw [steps, foldl_append]
    exact terminal_task_steps hi hrun ht hs later
  · intro ownerId now leaseDurationMs limit lease freshIds claims ledger' h claim hcla
    obtain ⟨r, hr, -, ⟨rfl, -⟩ | ⟨-, -, tasks, events, hc, -⟩⟩ := claimRunnableTasks_ok h
    · cases hcla
    · rw [hrun] at hr
      cases hr
      obtain ⟨t, ht, hrdy, hid⟩ := (claimTasks_moves (fun t => Run.ready_pending)
        (hi _ run hrun).tasks (fun t ht a ha => Ledger.mem_attemptIds hrun ht ha) hc).2 claim hcla
      refine ⟨t, ht, hid.symm, fun dependency hd => ?_⟩
      obtain ⟨u, hnee, rfl⟩ := needs_of_dependsOn (hi _ run hrun).graph
        (orderable_of_reachable hreach hrun) ht hd
      have hs := Run.ready_succeeded hrdy hnee
      obtain ⟨artifact, ha⟩ := Option.ne_none_iff_exists'.mp
        (delivered_of_reachable hreach hrun u hnee.2.1 hs)
      refine ⟨u, hnee.2.1, rfl, hs, artifact, ha, ?_⟩
      by_cases hneg : u.negative
      · have hopen : ¬ t.status.Terminal := fun hterm => hterm.1 (Run.ready_pending hrdy)
        exact .inr ((justified_steps P ops runId run hrun t u hnee hopen).2 hneg).2
      · refine .inl ?_
        simpa [Task.negative, hs, ha] using hneg

namespace ExpandRejected

def policy : RetryPolicy := ⟨fun _ => false, fun _ => false, fun _ _ => 1⟩

def first : Contract := { id := "first", role := .scout, dependsOn := [], maxAttempts := 1, contractHash := "h1" }

def second : Contract :=
  { id := "second", role := .scout, dependsOn := ["first"], maxAttempts := 1, contractHash := "h2" }

def rejected : TaskArtifact :=
  { artifactId := "artifact", taskId := "first", contractHash := "h1"
    quality := { semanticOutcome := .rejected, pathAudit := .notApplicable
                 validationStatus := .notApplicable } }

def lease : DagRunLease := ⟨"owner", 1, 14⟩

/-- The first task is rejected while the graph is open, and the second is added on it. -/
def ops : List Op :=
  [.createDagRun "run" { mergeEnabled := false, tasks := [first], sealed := false } 0,
    .setDagRunStatus "run" .running 0 none, .claimRunnableTasks "run" "owner" 0 10 1 none (fun _ => "attempt-1"),
    .completeDagTask "run" "first" "attempt-1" "owner" (.success rejected none none) 1 none,
    .markDagRunPaused "run" 2, .acquireDagRunLease "run" "owner" 4 10,
    .expandDagRun "run" 1 { mergeEnabled := false, tasks := [first, second], sealed := true } 5
      (some lease), .clearDagRunPause "run" 6 lease]

/-- **A claim returns a task on rejected work.** -/
theorem claims_second : ((claimRunnableTasks "run" "owner" 7 10 1 (some lease) (fun _ => "attempt-2")
      (steps policy {} ops)).toOption.map fun r => r.1.map (·.taskId)) = some ["second"] ∧
    ((steps policy {} ops).runs.get? "run").map (fun run => run.tasks.map fun t =>
      (t.taskId, t.contract.dependsOn, t.status, t.artifact.map (·.quality.semanticOutcome))) =
      some [("first", [], .succeeded, some .rejected), ("second", ["first"], .pending, none)] := by
  decide +kernel

/-- The run above, in the state machine. -/
theorem lifecycle : ∃ run, (steps policy {} ops).runs.get? "run" = some run ∧ Lifecycle policy ops "run" run := by
  have hsome : ((steps policy {} ops).runs.get? "run").isSome := by
    decide +kernel
  obtain ⟨run, hrun⟩ := Option.isSome_iff_exists.mp hsome
  exact ⟨run, hrun, task_lifecycle policy ops "run" run hrun⟩

end ExpandRejected

end EasyPi.Subagent
