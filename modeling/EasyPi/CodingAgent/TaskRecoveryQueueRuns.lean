/-
# Queued inputs survive the changes of tasks

A group that `queue` accepts is held by one queue, in the order of acceptance, over every run of the
journal in which `start` inherits the queued inputs, until it is cancelled or all its entries are on
the branch. Such a group is never pending again.
-/
import EasyPi.CodingAgent.TaskRecoveryQueue
import EasyPi.CodingAgent.TaskRecoveryRuns

namespace EasyPi.CodingAgent

open List
namespace TaskRecovery

/-- The group is the same, but for its entry ids and whether it is cancelled. -/
structure SameGroup (g g' : QueuedGroup) : Prop where
  number : g'.number = g.number
  kind : g'.kind = g.kind
  messages : g'.messages = g.messages
  label : g'.label = g.label

theorem SameGroup.refl (g : QueuedGroup) : SameGroup g g := ⟨rfl, rfl, rfl, rfl⟩

theorem SameGroup.trans {g g' g'' : QueuedGroup} (h : SameGroup g g') (h' : SameGroup g' g'') : SameGroup g g'' :=
  ⟨h'.number.trans h.number, h'.kind.trans h.kind, h'.messages.trans h.messages, h'.label.trans h.label⟩

def Input.Changes (i : Input) (s : Session) (g g' : QueuedGroup) : Prop :=
  g' = g ∨ ∃ op, i.op? = some op ∧ GroupStep op s g g'

def Input.Accepts (i : Input) (g : QueuedGroup) : Prop := ∃ op, i.op? = some op ∧ op.Accepts g

/-- The input starts no task that does not inherit the queued inputs. -/
def Input.Inherits (_ : Session) (i : Input) : Prop := ∀ op, i.op? = some op → op.Inherits

theorem Input.Changes.same {i : Input} {s : Session} {g g' : QueuedGroup} (h : i.Changes s g g') : SameGroup g g' := by
  rcases h with rfl | ⟨op, -, h⟩
  · exact .refl _
  · exact ⟨h.number, h.kind, h.messages, h.label⟩

structure QueueStep (i : Input) (s s' : Session) : Prop where
  inv : QueueInv s'
  saves : s.saves ≤ s'.saves
  branch : ∀ id, s.onBranch id = true → s'.onBranch id = true
  back : ∀ g' ∈ s'.groups, s.saves ≤ g'.number ∧ i.Accepts g' ∨ ∃ g ∈ s.groups, i.Changes s g g'
  forth : ∀ g ∈ s.groups, pending s g = true → ∃ g' ∈ s'.groups, i.Changes s g g'

namespace QueueStep
variable {i : Input} {s s' : Session}

theorem pending (h : QueueStep i s s') {g' : QueuedGroup} (hg' : g' ∈ s'.groups) (hpend : pending s' g' = true) :
    s.saves ≤ g'.number ∨ ∃ g ∈ s.groups, SameGroup g g' ∧ TaskRecovery.pending s g = true := by
  rcases h.back g' hg' with ⟨hnum, -⟩ | ⟨g, hg, hcha⟩
  · exact .inl hnum
  · refine .inr ⟨g, hg, hcha.same, ?_⟩
    rcases hcha with rfl | ⟨op, -, hstep⟩
    · obtain ⟨hcan, id, hid, hoff⟩ := pending_iff.mp hpend
      refine pending_iff.mpr ⟨hcan, id, hid, Bool.eq_false_iff.mpr fun hon => ?_⟩
      rw [h.branch id hon] at hoff
      cases hoff
    · exact hstep.pending_of h.branch hpend

end QueueStep

theorem onBranch_of_prefix {s s' : Session} (h : s.branch <+: s'.branch) {id : EntryId}
    (hid : s.onBranch id = true) : s'.onBranch id = true := by
  obtain ⟨e, he, heq⟩ := any_eq_true.mp hid
  exact any_eq_true.mpr ⟨e, h.subset he, heq⟩

theorem branch_perform (saves : List Save) (s : Session) : s.branch <+: (s.perform saves).branch := by
  induction saves generalizing s with
  | nil => exact prefix_refl _
  | cons save saves ih =>
    rw [Session.perform]
    split
    · exact prefix_refl _
    · exact ih s
    · rename_i content _
      exact (grows_append s content).1.trans (ih _)

theorem queue_step_host {i : Input} {s s' : Session} (hinv : QueueInv s) (hsto : s'.stored = s.stored)
    (hsv : s'.saves = s.saves) (hbra : s.branch <+: s'.branch) : QueueStep i s s' := by
  have hqs : s'.queues = s.queues := by rw [Session.queues, hsto, Session.queues]
  have hgs : s'.groups = s.groups := by rw [Session.groups, hqs, Session.groups]
  refine ⟨hinv.same hqs hsv.ge, hsv.ge, fun id hid => onBranch_of_prefix hbra hid, ?_, ?_⟩
  · rw [hgs]
    exact fun g hg => .inr ⟨g, hg, .inl rfl⟩
  · rw [hgs]
    exact fun g hg _ => ⟨g, hg, .inl rfl⟩

/-- **What an input does to the queues.** -/
theorem queue_step (o : Options) {s : Session} (hinv : QueueInv s) {i : Input} (hi : i.Inherits s) :
    QueueStep i s (s.step o i) := by
  have hop : ∀ (op : Op) (saves : List Save), i.op? = some op →
      Carries op.Accepts (GroupStep op s) s (s.perform saves) → QueueStep i s (s.perform saves) := by
    intro op saves hop hcar
    refine ⟨hcar.inv, hcar.saves, fun id hid => onBranch_of_prefix (branch_perform saves s) hid,
      fun g' hg' => ?_, fun g hg hpend => ?_⟩
    · exact (hcar.back g' hg').imp (And.imp_right fun h => ⟨op, hop, h⟩)
        fun ⟨g, hg, h⟩ => ⟨g, hg, .inr ⟨op, hop, h⟩⟩
    · obtain ⟨g', hg', h⟩ := hcar.forth g hg hpend
      exact ⟨g', hg', .inr ⟨op, hop, h⟩⟩
  cases i with
  | call op =>
    have hcar := carries_op o hinv (hi op rfl) (op.saves o s).length
    rw [take_length] at hcar
    exact hop op _ rfl hcar
  | crash op n => exact hop op _ rfl (carries_op o hinv (hi op rfl) n)
  | append e =>
    rw [Session.step]
    split
    · rename_i hadm
      rw [Session.admits, Bool.and_eq_true] at hadm
      refine queue_step_host hinv ?_ rfl (prefix_append ..)
      rw [Session.stored, reverse_concat, List.findSome?_cons, Option.isNone_iff_eq_none.mp hadm.1]
      rfl
    · exact queue_step_host hinv rfl rfl (prefix_refl _)
  | appendElsewhere e =>
    rw [Session.step]
    split
    · exact queue_step_host hinv rfl rfl (prefix_refl _)
    · exact queue_step_host hinv rfl rfl (prefix_refl _)

/-! ### A call of `queue` accepts its group -/

section Accepts
variable {s : Session} {state : TaskState}

theorem restoreTool_of_retired {task : Task} (hcap : isUnfinishedComputerCaptureTask task.tools = true)
    (entries : List Entry) : task.tools.map (restoreTool entries) = task.tools := by
  rw [map_congr_left (g := id) fun tool htool => ?_, map_id]
  unfold isUnfinishedComputerCaptureTask at hcap
  rw [Bool.and_eq_true, all_eq_true] at hcap
  unfold restoreTool
  split
  · rename_i hbash
    rw [Bool.and_eq_true, decide_eq_true_eq, RecoveryTool.unknown, Bool.and_eq_true] at hbash
    have hcomp := hcap.2 tool (mem_filter.mpr ⟨htool, hbash.1.2⟩)
    rw [Bool.and_eq_true, Bool.and_eq_true, decide_eq_true_eq, hbash.2] at hcomp
    exact absurd hcomp.1.2 (by decide)
  · rfl

theorem valid_restoreTask {task : Task} (h : validRetirement task = true) (branch : List Entry) :
    validRetirement (restoreTask branch task) = true := by
  by_cases hret : task.retirement = true
  · rw [validRetirement, hret, Bool.not_true, Bool.false_or, Bool.and_eq_true, decide_eq_true_eq] at h
    unfold restoreTask
    split
    · rw [validRetirement, h.2, h.1, decide_eq_true rfl]
      exact Bool.or_true _
    · rename_i entries _
      dsimp only
      split
      · rename_i hnee
        rw [h.1] at hnee
        cases hnee.1
      · rw [validRetirement, restoreTool_of_retired h.2 entries, h.2, h.1, decide_eq_true rfl]
        exact Bool.or_true _
  · obtain ⟨_, _, -, heq⟩ := restoreTask_spec branch task
    rw [heq, validRetirement, Bool.eq_false_iff.mpr hret]
    rfl

theorem valid_of_state (hst : s.state = .ok (some state)) : ∀ task ∈ state.tasks, validRetirement task = true := by
  unfold Session.state at hst
  split at hst
  · cases hst
  · split at hst
    · rename_i hval
      cases hst
      rw [tasks_restore]
      intro task' htask'
      obtain ⟨task, htask, rfl⟩ := mem_map.mp htask'
      exact valid_restoreTask (all_eq_true.mp hval task htask) s.branch
    · cases hst

variable (hval : ∀ task ∈ state.tasks, validRetirement task = true)

include hval in
theorem state_append :
    (s.append (.record state)).state = .ok (some (restore (s.append (.record state)).branch state)) := by
  rw [Session.state, stored_append]
  exact if_pos (all_eq_true.mpr hval)

theorem leafId_of_stored (h : s.stored = some state) : ∃ id, s.leafId = some id := by
  obtain ⟨e, he, -⟩ := exists_of_findSome?_eq_some h
  have hne : s.branch ≠ [] := ne_nil_of_mem (mem_reverse.mp he)
  exact ⟨_, by rw [Session.leafId, List.getLast?_eq_some_getLast hne, Option.map_some]⟩

theorem perform_cons {save : Save} {content : Content} (h : save s = .ok (some content)) (saves : List Save) :
    s.perform (save :: saves) = (s.append content).perform saves := by
  rw [Session.perform, h]

theorem queues_accept (hst : s.state = .ok (some state)) (hsts : state.task.status ≠ .completed)
    (kind : QueueKind) (messages : List AgentMessage) (label : Option String) :
    (s.perform [accept kind messages label]).queues = (state.task.queued ++ [acceptedGroup kind messages label s]) ::
        (state.suspendedTasks.map (·.state)).map (·.queued) := by
  have hsave : accept kind messages label s = .ok (some (.record { state with task := { state.task with
      queued := state.task.queued ++ [acceptedGroup kind messages label s] } })) := by
    unfold accept update
    rw [hst]
    exact if_neg hsts
  rw [perform_cons hsave, Session.perform, queues_append, TaskState.tasks, map_cons]

include hval in
theorem state_append_open (hsts : state.task.status ≠ .needsReconciliation) :
    ∃ state', (s.append (.record state)).state = .ok (some state') ∧
      (∀ task ∈ state'.tasks, validRetirement task = true) ∧
      state'.task.status = state.task.status ∧ state'.task.retirement = state.task.retirement := by
  have hst := state_append (s := s) hval
  refine ⟨_, hst, valid_of_state hst, ?_, ?_⟩
  · dsimp only [restore]
    unfold restoreTask
    split
    · rfl
    · dsimp only
      split
      · rename_i hnee
        exact absurd hnee.1 hsts
      · rfl
  · obtain ⟨_, _, -, heq⟩ := restoreTask_spec (s.append (.record state)).branch state.task
    rw [restore, heq]

include hval in
theorem queues_accept_new
    (hsts : state.task.status = .running) (hact : state.task.retirement = false) (kind : QueueKind)
    (messages : List AgentMessage) (label : Option String) : ∃ queue queues, ∃ s' : Session, s.saves ≤ s'.saves ∧
      ((s.append (.record state)).perform [update (fun _ state =>
        .ok { state with task := { state.task with status := .interrupted } }), accept kind messages label]).queues =
      (queue ++ [acceptedGroup kind messages label s']) :: queues := by
  obtain ⟨state₁, hstate₁, hvalid₁, hstatus₁, hactive₁⟩ := state_append_open (s := s) hval (by rw [hsts]; decide)
  have hsave : update (fun _ state =>
      .ok { state with task := { state.task with status := .interrupted } })
      (s.append (.record state)) =
      .ok (some (.record { state₁ with task := { state₁.task with status := .interrupted } })) := by
    unfold update
    rw [hstate₁]
    refine if_neg ?_
    rw [hstatus₁, hsts]
    decide
  have hvalid₂ : ∀ task ∈ TaskState.tasks { state₁ with task := { state₁.task with status := .interrupted } },
      validRetirement task = true := by
    intro task htask
    rcases mem_cons.mp htask with rfl | htask
    · rw [validRetirement, hactive₁, hact]
      rfl
    · exact hvalid₁ task (mem_cons_of_mem _ htask)
  obtain ⟨state₂, hstate₂, -, hstatus₂, -⟩ := state_append_open (s := s.append (.record state)) hvalid₂ (by simp)
  have hsv : s.saves ≤ ((s.append (.record state)).append (.record
      { state₁ with task := { state₁.task with status := .interrupted } })).saves :=
    (Nat.le_succ _).trans (Nat.le_succ _)
  rw [perform_cons hsave]
  exact ⟨_, _, _, hsv, queues_accept hstate₂ (by rw [hstatus₂]; simp) kind messages label⟩

/-- **A call of `queue` accepts its group**, unless the journal cannot be read. -/
theorem queue_accepts (o : Options) {previous : Option TaskState} (hst : s.state = .ok previous)
    (kind : QueueKind) (messages : List AgentMessage) (label : Option String) :
    ∃ queue queues, ∃ s' : Session, s.saves ≤ s'.saves ∧ (s.step o (.call (.queue kind messages label))).queues =
        (queue ++ [acceptedGroup kind messages label s']) :: queues := by
  have hper : s.step o (.call (.queue kind messages label)) = s.perform (queue kind messages label s) := rfl
  rw [hper]
  cases previous with
  | none =>
    obtain ⟨new, hsave, hsts, hact⟩ : ∃ new : Task,
        start [] none none true s = .ok (some (.record ⟨new, []⟩)) ∧ new.status = .running ∧ new.retirement = false := by
      unfold start
      rw [hst]
      exact ⟨_, rfl, rfl, rfl⟩
    have hque : queue kind messages label s = [start [] none none true, update fun _ state =>
        .ok { state with task := { state.task with status := .interrupted } }, accept kind messages label] := by
      unfold queue
      rw [hst]
      rfl
    rw [hque, perform_cons hsave]
    refine queues_accept_new (fun task htask => ?_) hsts hact kind messages label
    rw [mem_singleton.mp htask, validRetirement, hact]
    rfl
  | some state =>
    by_cases hcom : state.task.status = .completed
    · have hque : queue kind messages label s = [start [] none none true, update fun _ state =>
          .ok { state with task := { state.task with status := .interrupted } }, accept kind messages label] := by
        unfold queue
        rw [hst]
        exact if_pos hcom
      obtain ⟨new, suspended, hsave, hsts, hact, hsus⟩ : ∃ (new : Task) (suspended : List SuspendedTask),
          start [] none none true s = .ok (some (.record ⟨new, suspended⟩)) ∧
            new.status = .running ∧ new.retirement = false ∧
            ∀ t ∈ suspended, t ∈ state.suspendedTasks ∨ t.state.retirement = false := by
        unfold start
        rw [hst]
        dsimp only
        split
        · rename_i hsusp
          obtain ⟨leafId, hleaf⟩ : ∃ id, s.leafId = some id := by
            cases hsto : s.stored with
            | none =>
              rw [Session.state, hsto] at hst
              cases hst
            | some stored => exact leafId_of_stored hsto
          rw [hleaf]
          refine ⟨_, _, rfl, rfl, rfl, fun t ht => (mem_append.mp ht).imp_right fun ht => ?_⟩
          rw [mem_singleton.mp ht]
          rw [suspending, Bool.and_eq_true, Bool.not_eq_true'] at hsusp
          exact hsusp.1
        · exact ⟨_, _, rfl, rfl, rfl, fun t ht => .inl ht⟩
      rw [hque, perform_cons hsave]
      refine queues_accept_new (fun task htask => ?_) hsts hact kind messages label
      rcases mem_cons.mp htask with rfl | htask
      · rw [validRetirement, hact]
        rfl
      obtain ⟨t, ht, rfl⟩ := mem_map.mp htask
      rcases hsus t ht with ht | hretirement
      · exact valid_of_state hst _ (mem_cons_of_mem _ (mem_map_of_mem ht))
      · rw [validRetirement, hretirement]
        rfl
    · have hque : queue kind messages label s = [accept kind messages label] := by
        unfold queue
        rw [hst]
        exact if_neg hcom
      rw [hque]
      exact ⟨_, _, s, le_rfl, queues_accept hst hcom kind messages label⟩

end Accepts

/-! ### Runs -/

section Runs
variable (o : Options) {s : Session}

/-- What holds of a session `s` of the journal and of every run from it. -/
structure QueueRun (o : Options) (s : Session) (is : List Input) : Prop where
  /-- One queue holds a group, and holds it once. -/
  holder : ∀ g ∈ s.groups, ∃! i : ℕ, ∃ queue, s.queues[i]? = some queue ∧ ∃ g' ∈ queue, g'.number = g.number
  once : ∀ queue ∈ s.queues, ∀ g ∈ queue, ∀ g' ∈ queue, g'.number = g.number → g' = g
  /-- A queue is in the order of acceptance. -/
  order : ∀ queue ∈ s.queues, (queue.map (·.number)).Pairwise (· < ·)
  ids : s.groupIds.Nodup
  /-- A pending group is held until it is cancelled or delivered. -/
  held : ∀ g ∈ s.groups, pending s g = true →
    (∃ is₁ is₂, is = is₁ ++ is₂ ∧ ∃ g' ∈ (s.run o is₁).groups, SameGroup g g' ∧ pending (s.run o is₁) g' = false) ∨
    ∃ g' ∈ (s.run o is).groups, SameGroup g g' ∧ pending (s.run o is) g' = true
  /-- What is pending has been pending, or is accepted later. -/
  gone : ∀ g' ∈ (s.run o is).groups, pending (s.run o is) g' = true →
    s.saves ≤ g'.number ∨ ∃ g ∈ s.groups, SameGroup g g' ∧ pending s g = true
  /-- A group is accepted by `queue` only, and changed only by what cancels it or rebinds its ids. -/
  step : ∀ i : Input, i.Inherits s → ∀ g' ∈ (s.step o i).groups,
    s.saves ≤ g'.number ∧ i.Accepts g' ∨ ∃ g ∈ s.groups, i.Changes s g g'
  accepts : ∀ previous kind messages label, s.state = .ok previous → ∃ queue queues, ∃ s' : Session,
    s.saves ≤ s'.saves ∧ (s.step o (.call (.queue kind messages label))).queues =
      (queue ++ [acceptedGroup kind messages label s']) :: queues

variable {is : List Input}

theorem queue_run (hinv : QueueInv s)
    (h : Along (Session.step o) (fun s i => i.Inherits s) s is) : QueueInv (s.run o is) :=
  h.invariant (I := QueueInv) (fun _ _ hinv hi => (queue_step o hinv hi).inv) hinv

theorem held_run (hinv : QueueInv s)
    (h : Along (Session.step o) (fun s i => i.Inherits s) s is) {g : QueuedGroup} (hg : g ∈ s.groups)
    (hpend : pending s g = true) :
    (∃ is₁ is₂, is = is₁ ++ is₂ ∧ ∃ g' ∈ (s.run o is₁).groups, SameGroup g g' ∧ pending (s.run o is₁) g' = false) ∨
    ∃ g' ∈ (s.run o is).groups, SameGroup g g' ∧ pending (s.run o is) g' = true := by
  induction is generalizing s g with
  | nil => exact .inr ⟨g, hg, .refl g, hpend⟩
  | cons i is ih =>
    have hstep := queue_step o hinv h.1
    obtain ⟨g₁, hg₁, hcha⟩ := hstep.forth g hg hpend
    rcases Bool.eq_false_or_eq_true (pending (s.step o i) g₁) with hpending₁ | hsettled
    · rcases ih hstep.inv h.2 hg₁ hpending₁ with ⟨is₁, is₂, rfl, g', hg', hsame, hsettled⟩ | ⟨g', hg', hsame, h'⟩
      · exact .inl ⟨i :: is₁, is₂, rfl, g', hg', hcha.same.trans hsame, hsettled⟩
      · exact .inr ⟨g', hg', hcha.same.trans hsame, h'⟩
    · exact .inl ⟨[i], is, rfl, g₁, hg₁, hcha.same, hsettled⟩

theorem gone_run (hinv : QueueInv s) (h : Along (Session.step o) (fun s i => i.Inherits s) s is) {g' : QueuedGroup}
    (hg' : g' ∈ (s.run o is).groups) (hpend : pending (s.run o is) g' = true) :
    s.saves ≤ g'.number ∨ ∃ g ∈ s.groups, SameGroup g g' ∧ pending s g = true := by
  induction is generalizing s with
  | nil => exact .inr ⟨g', hg', .refl g', hpend⟩
  | cons i is ih =>
    have hstep := queue_step o hinv h.1
    rcases ih hstep.inv h.2 hg' hpend with hnum | ⟨g₁, hg₁, hsame, hpending₁⟩
    · exact .inl (hstep.saves.trans hnum)
    · rcases hstep.pending hg₁ hpending₁ with hnum | ⟨g, hg, hsame', hpend'⟩
      · exact .inl (hsame.number ▸ hnum)
      · exact .inr ⟨g, hg, hsame'.trans hsame, hpend'⟩

theorem QueueInv.once_in (hinv : QueueInv s) {g g' : QueuedGroup} (hg : g ∈ s.groups) (hg' : g' ∈ s.groups)
    (h : g'.number = g.number) : g' = g := inj_on_of_nodup_map hinv.once hg' hg h

theorem QueueInv.holder (hinv : QueueInv s) {g : QueuedGroup} (hg : g ∈ s.groups) :
    ∃! i : ℕ, ∃ queue, s.queues[i]? = some queue ∧ ∃ g' ∈ queue, g'.number = g.number := by
  obtain ⟨queue, hque, hmem⟩ := mem_groups.mp hg
  obtain ⟨i, hi⟩ := List.getElem?_of_mem hque
  refine ⟨i, ⟨queue, hi, g, hmem, rfl⟩, ?_⟩
  rintro j ⟨queue', hj, g', hmem', hnum⟩
  have hg' : g' ∈ s.groups := mem_groups.mpr ⟨queue', mem_of_getElem? hj, hmem'⟩
  have heq : g' = g := hinv.once_in hg hg' hnum
  rw [heq] at hmem'
  have hnd : s.groups.Nodup := List.Nodup.of_map _ hinv.once
  have hdisj := pairwise_iff_getElem.mp (nodup_flatten.mp hnd).2
  obtain ⟨hi, hqi⟩ := List.getElem?_eq_some_iff.mp hi
  obtain ⟨hj, hqj⟩ := List.getElem?_eq_some_iff.mp hj
  rcases lt_trichotomy i j with hlt | rfl | hlt
  · exact absurd (hqj ▸ hmem') (hdisj i j hi hj hlt (hqi ▸ hmem))
  · rfl
  · exact absurd (hqi ▸ hmem) (hdisj j i hj hi hlt (hqj ▸ hmem'))

end Runs

/-- **Queued inputs survive the changes of tasks** over every run of the journal on a branch, from every
session that the journal reaches. -/
theorem queued_survive (o : Options) {s₀ : Session} (h₀ : s₀.stored = none) (is₁ is₂ : List Input)
    (h₁ : Along (Session.step o) (fun s i => i.Inherits s) s₀ is₁)
    (h₂ : Along (Session.step o) (fun s i => i.Inherits s) (s₀.run o is₁) is₂) : QueueRun o (s₀.run o is₁) is₂ := by
  have hqueues₀ : s₀.queues = [] := by rw [Session.queues, h₀]
  have hgroups₀ : s₀.groups = [] := by rw [Session.groups, hqueues₀]; rfl
  have hids₀ : s₀.groupIds = [] := by rw [Session.groupIds, hgroups₀]; rfl
  have hinv₀ : QueueInv s₀ := by
    refine ⟨?_, ?_, ?_, ?_, ?_⟩ <;> simp [hgroups₀, hids₀, hqueues₀]
  have hinv := queue_run o hinv₀ h₁
  have hmem : ∀ queue ∈ (s₀.run o is₁).queues, ∀ g ∈ queue, g ∈ (s₀.run o is₁).groups :=
    fun queue hque g hg => mem_groups.mpr ⟨queue, hque, hg⟩
  exact {
    holder := fun g hg => hinv.holder hg
    once := fun queue hque g hg g' hg' heq =>
      hinv.once_in (hmem queue hque g hg) (hmem queue hque g' hg') heq
    order := hinv.order
    ids := hinv.ids
    held := fun g hg hpend => held_run o hinv h₂ hg hpend
    gone := fun g' hg' hpend => gone_run o hinv h₂ hg' hpend
    step := fun i hi g' hg' => (queue_step o hinv hi).back g' hg'
    accepts := fun previous kind messages label hst => queue_accepts o hst kind messages label }

namespace Reused

def typed : AgentMessage := .user [.text "and the tests" none] 0

/-- A message that is queued while a command runs is kept when another task is started. -/
theorem queued_across_tasks :
    QueueRun options (Session.run options {} [newTask, dispatched "make", .call (.queue .followUp [typed] none)])
      [newTask] :=
  queued_survive options rfl _ _
    ⟨fun op h => by cases h; rfl, fun op h => by cases h; trivial, fun op h => by cases h; trivial, trivial⟩
    ⟨fun op h => by cases h; rfl, trivial⟩

end Reused

end TaskRecovery
end EasyPi.CodingAgent
