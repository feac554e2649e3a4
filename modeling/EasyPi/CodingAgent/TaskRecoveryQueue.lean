/-
# The queues of the task-recovery journal

What the operations of the journal do to the queues of its tasks. Groups are accepted at the end
of the active queue, `start` splits that queue between the task it suspends and the new one, and
the other operations leave the queues as they are or change groups in place. No group is held
twice, the ids of all groups are distinct, and each queue is in the order of acceptance.
-/
import EasyPi.CodingAgent.TaskRecoveryTools
import Mathlib.Data.List.Flatten
import Mathlib.Data.List.Perm.Subperm

namespace EasyPi.CodingAgent

open List
namespace TaskRecovery

/-- The queues of the last record: of the active task, then of the suspended ones. -/
def Session.queues (s : Session) : List (List QueuedGroup) :=
  match s.stored with
  | none => []
  | some state => state.tasks.map (·.queued)

def Session.groups (s : Session) : List QueuedGroup := s.queues.flatten

def Session.groupIds (s : Session) : List EntryId := s.groups.flatMap (·.entryIds)

/-- Groups have been accepted by earlier appends, one by each. Their entry ids have been drawn and are
distinct, and every queue is in the order of acceptance. -/
structure QueueInv (s : Session) : Prop where
  accepted : ∀ g ∈ s.groups, g.number < s.saves
  known : ∀ id ∈ s.groupIds, s.known id = true
  once : (s.groups.map (·.number)).Nodup
  ids : s.groupIds.Nodup
  order : ∀ queue ∈ s.queues, (queue.map (·.number)).Pairwise (· < ·)

/-! ### Reading -/

theorem queued_restoreTask (branch : List Entry) (task : Task) : (restoreTask branch task).queued = task.queued := by
  obtain ⟨_, _, -, heq⟩ := restoreTask_spec branch task
  rw [heq]

variable {s : Session} {id : EntryId} {g : QueuedGroup} {New : QueuedGroup → Prop} {content : Content}

theorem queues_eq {state : TaskState} (hst : s.state = .ok (some state)) : s.queues = state.tasks.map (·.queued) := by
  rw [Session.state] at hst
  rw [Session.queues]
  cases hsto : s.stored with
  | none =>
    rw [hsto] at hst
    cases hst
  | some stored =>
    rw [hsto] at hst
    dsimp only at hst ⊢
    split at hst
    · cases hst
      rw [tasks_restore, map_map]
      exact map_congr_left fun task _ => (queued_restoreTask s.branch task).symm
    · cases hst

theorem queues_of_none (hst : s.state = .ok none) : s.queues = [] := by
  rw [Session.state] at hst
  rw [Session.queues]
  cases hsto : s.stored with
  | none => rfl
  | some stored =>
    rw [hsto] at hst
    dsimp only at hst
    split at hst <;> cases hst

theorem queues_append (s : Session) (state : TaskState) :
    (s.append (.record state)).queues = state.tasks.map (·.queued) := by
  rw [Session.queues, stored_append]

theorem queues_notice (s : Session) (taskId : EntryId) : (s.append (.notice taskId)).queues = s.queues := by
  have hsto : (s.append (.notice taskId)).stored = s.stored := by
    rw [Session.stored, Session.append, reverse_concat, List.findSome?_cons]
    rfl
  rw [Session.queues, Session.queues, hsto]

theorem onBranch_append (content : Content) (hid : s.known id = true) :
    (s.append content).onBranch id = s.onBranch id := by
  have hne : s.uuid 0 ≠ id := by
    rintro rfl
    rw [unknown_uuid] at hid
    cases hid
  rw [Session.onBranch, Session.append, any_append, Session.onBranch]
  simp [hne]

theorem not_known_uuid (s : Session) (k i : ℕ) : s.known (s.uuid k i) = false := by
  simp [Session.known, Session.uuid]

theorem mem_groupIds (hg : g ∈ s.groups) (hid : id ∈ g.entryIds) : id ∈ s.groupIds := mem_flatMap.mpr ⟨g, hg, hid⟩

theorem mem_groups : g ∈ s.groups ↔ ∃ queue ∈ s.queues, g ∈ queue := mem_flatten

theorem pending_congr {s s' : Session}
    (h : ∀ id ∈ g.entryIds, s'.onBranch id = s.onBranch id) : pending s' g = pending s g := by
  unfold pending
  congr 1
  rw [Bool.eq_iff_iff, any_eq_true, any_eq_true]
  exact exists_congr fun id => and_congr_right fun hid => by rw [h id hid]

theorem pending_iff : pending s g = true ↔ g.cancelled = false ∧ ∃ id ∈ g.entryIds, s.onBranch id = false := by
  simp [pending]

/-! ### What an append keeps of the queues -/

namespace QueueInv
variable {s s' : Session}

theorem same (h : QueueInv s) (hqs : s'.queues = s.queues) (hsv : s.saves ≤ s'.saves) : QueueInv s' := by
  have hgs : s'.groups = s.groups := by rw [Session.groups, hqs, Session.groups]
  have hids : s'.groupIds = s.groupIds := by rw [Session.groupIds, hgs, Session.groupIds]
  refine ⟨?_, ?_, ?_, ?_, ?_⟩
  · rw [hgs]
    exact fun g hg => (h.accepted g hg).trans_le hsv
  · rw [hids]
    exact fun id hid => known_mono hsv (h.known id hid)
  · rw [hgs]
    exact h.once
  · rw [hids]
    exact h.ids
  · rw [hqs]
    exact h.order

theorem moved (h : QueueInv s) (hgs : s'.groups.Subperm s.groups)
    (hqs : ∀ queue' ∈ s'.queues, ∃ queue ∈ s.queues, queue'.Sublist queue)
    (hsv : s.saves ≤ s'.saves) : QueueInv s' := by
  obtain ⟨groups, hperm, hsub⟩ := hgs
  have hids : s'.groupIds.Perm (groups.flatMap (·.entryIds)) := (hperm.flatMap_right _).symm
  have hidsS : (groups.flatMap (·.entryIds)).Sublist s.groupIds := hsub.flatMap _
  refine ⟨fun g hg => ?_, fun id hid => ?_, ?_, ?_, fun queue' hqueue' => ?_⟩
  · exact (h.accepted g (hsub.subset (hperm.mem_iff.mpr hg))).trans_le hsv
  · exact known_mono hsv (h.known id (hidsS.subset (hids.mem_iff.mp hid)))
  · exact (hperm.map _).nodup_iff.mp ((hsub.map _).nodup h.once)
  · exact hids.nodup_iff.mpr (hidsS.nodup h.ids)
  · obtain ⟨queue, hqueue, hsub⟩ := hqs queue' hqueue'
    exact (h.order queue hqueue).sublist (hsub.map _)

theorem changed {queues' : List (List QueuedGroup)} (h : QueueInv s) (hqs : s'.queues = queues')
    (hnum : List.Forall₂ (fun queue queue' : List QueuedGroup =>
      queue'.map (·.number) = queue.map (·.number)) s.queues queues')
    (hkn : ∀ id ∈ s'.groupIds, s'.known id = true) (hids : s'.groupIds.Nodup)
    (hsv : s.saves ≤ s'.saves) : QueueInv s' := by
  have hnumb : s'.groups.map (·.number) = s.groups.map (·.number) := by
    rw [Session.groups, Session.groups, map_flatten, map_flatten, hqs]
    exact congrArg _ (Pointwise.map_eq hnum fun _ _ heq => heq.symm).symm
  refine ⟨fun g hg => ?_, hkn, ?_, hids, fun queue' hqueue' => ?_⟩
  · have hmem : g.number ∈ s.groups.map (·.number) := hnumb ▸ mem_map_of_mem hg
    obtain ⟨g', hg', heq⟩ := mem_map.mp hmem
    rw [← heq]
    exact (h.accepted g' hg').trans_le hsv
  · rw [hnumb]
    exact h.once
  · rw [hqs] at hqueue'
    obtain ⟨queue, hqueue, heq⟩ := Pointwise.left hnum hqueue'
    rw [heq]
    exact h.order queue hqueue

theorem accept (h : QueueInv s) {queue : List QueuedGroup} {queues : List (List QueuedGroup)}
    (hqs : s.queues = queue :: queues) (hqs' : s'.queues = (queue ++ [g]) :: queues)
    (hnum : g.number = s.saves) (hsv : s'.saves = s.saves + 1) (hids : g.entryIds.Nodup)
    (hnew : ∀ id ∈ g.entryIds, s.known id = false ∧ s'.known id = true) : QueueInv s' := by
  have hmono : s.saves ≤ s'.saves := hsv ▸ Nat.le_succ _
  have hperm : s'.groups.Perm (g :: s.groups) := by
    rw [Session.groups, Session.groups, hqs', hqs, flatten_cons, flatten_cons, append_assoc, singleton_append]
    exact perm_middle
  have hidsP : s'.groupIds.Perm (g.entryIds ++ s.groupIds) := hperm.flatMap_right _
  refine ⟨fun g' hg' => ?_, fun id hid => ?_, ?_, ?_, fun queue' hqueue' => ?_⟩
  · rcases mem_cons.mp (hperm.mem_iff.mp hg') with rfl | hg'
    · omega
    · exact (h.accepted g' hg').trans_le hmono
  · rcases mem_append.mp (hidsP.mem_iff.mp hid) with hid | hid
    · exact (hnew id hid).2
    · exact known_mono hmono (h.known id hid)
  · rw [(hperm.map _).nodup_iff, map_cons, nodup_cons]
    refine ⟨fun hmem => ?_, h.once⟩
    obtain ⟨g', hg', heq⟩ := mem_map.mp hmem
    have := h.accepted g' hg'
    omega
  · rw [hidsP.nodup_iff, nodup_append]
    refine ⟨hids, h.ids, ?_⟩
    rintro id hid _ hid' rfl
    have := (hnew id hid).1
    rw [h.known id hid'] at this
    cases this
  · rw [hqs'] at hqueue'
    rcases mem_cons.mp hqueue' with rfl | hqueue'
    · have hqueue : queue ∈ s.queues := hqs ▸ mem_cons_self
      rw [map_append, pairwise_append]
      refine ⟨h.order queue hqueue, pairwise_singleton _ _, fun n hn m hm => ?_⟩
      obtain ⟨g', hg', rfl⟩ := mem_map.mp hn
      rw [map_singleton, mem_singleton] at hm
      rw [hm, hnum]
      exact h.accepted g' (mem_groups.mpr ⟨queue, hqueue, hg'⟩)
    · exact h.order queue' (hqs ▸ mem_cons_of_mem _ hqueue')

end QueueInv

/-- A group is cancelled by the operation: it is one of `cancelQueued` that names one of its entries, or
the retirement of its task. -/
def Op.Cancels (op : Op) (g : QueuedGroup) : Prop :=
  match op with
  | .cancelQueued entryIds => g.kind ≠ .nextTurn ∧ ∃ id ∈ g.entryIds, id ∈ entryIds
  | .retireRemovedComputerCaptures _ => True
  | _ => False

structure GroupStep (op : Op) (s : Session) (g g' : QueuedGroup) : Prop where
  number : g'.number = g.number
  kind : g'.kind = g.kind
  messages : g'.messages = g.messages
  label : g'.label = g.label
  cancelled : g.cancelled = true → g'.cancelled = true
  cancels : g'.cancelled = true → g.cancelled = true ∨ op.Cancels g
  entryIds : g'.entryIds = g.entryIds ∨ op = .rebindQueuedReceipts ∧
    List.Forall₂ (fun id id' => id' = id ∨ offBranch s id = true ∧ s.known id' = false)
      g.entryIds g'.entryIds

namespace GroupStep
variable {op : Op} {s s' : Session} {g g' : QueuedGroup}

theorem refl : GroupStep op s g g := ⟨rfl, rfl, rfl, rfl, id, .inl, .inl rfl⟩

theorem pending_of (h : GroupStep op s g g')
    (hbra : ∀ id, s.onBranch id = true → s'.onBranch id = true) (hpend : pending s' g' = true) : pending s g = true := by
  obtain ⟨hcan, id', hid', hoff⟩ := pending_iff.mp hpend
  have hsti : ∀ id, s'.onBranch id = false → s.onBranch id = false := fun id hid =>
    Bool.eq_false_iff.mpr fun hon => by rw [hbra id hon] at hid; cases hid
  refine pending_iff.mpr ⟨Bool.eq_false_iff.mpr fun hc => ?_, ?_⟩
  · rw [h.cancelled hc] at hcan
    cases hcan
  · rcases h.entryIds with heq | ⟨-, hids⟩
    · exact ⟨id', heq ▸ hid', hsti id' hoff⟩
    · obtain ⟨id, hid, rfl | ⟨hoth, -⟩⟩ := Pointwise.left hids hid'
      · exact ⟨_, hid, hsti _ hoff⟩
      · refine ⟨id, hid, ?_⟩
        rw [offBranch, Bool.and_eq_true, Bool.not_eq_true'] at hoth
        exact hoth.2

end GroupStep

/-- What the appends of an operation do to the queues: a group is new, or comes from one by `R`, and no
pending group is lost. -/
structure Carries (New : QueuedGroup → Prop) (R : QueuedGroup → QueuedGroup → Prop) (s s' : Session) :
    Prop where
  inv : QueueInv s'
  saves : s.saves ≤ s'.saves
  branch : ∀ id, s.known id = true → s'.onBranch id = s.onBranch id
  back : ∀ g' ∈ s'.groups, s.saves ≤ g'.number ∧ New g' ∨ ∃ g ∈ s.groups, R g g'
  forth : ∀ g ∈ s.groups, pending s g = true → ∃ g' ∈ s'.groups, R g g'

namespace Carries
variable {New : QueuedGroup → Prop} {R : QueuedGroup → QueuedGroup → Prop} {s s' s'' : Session}

theorem refl (h : QueueInv s) (hR : ∀ g, R g g) : Carries New R s s :=
  ⟨h, le_rfl, fun _ _ => rfl, fun g hg => .inr ⟨g, hg, hR g⟩, fun g hg _ => ⟨g, hg, hR g⟩⟩

theorem same (h : Carries New R s s') (hqs : s''.queues = s'.queues) (hsv : s'.saves ≤ s''.saves)
    (hbra : ∀ id, s'.known id = true → s''.onBranch id = s'.onBranch id) : Carries New R s s'' := by
  have hgs : s''.groups = s'.groups := by rw [Session.groups, hqs, Session.groups]
  refine ⟨h.inv.same hqs hsv, h.saves.trans hsv, fun id hid => ?_, ?_, ?_⟩
  · rw [hbra id (known_mono h.saves hid), h.branch id hid]
  · rw [hgs]
    exact h.back
  · rw [hgs]
    exact h.forth

theorem trans (hinv : QueueInv s) (h : Carries New Eq s s') (h' : Carries New Eq s' s'') : Carries New Eq s s'' := by
  refine ⟨h'.inv, h.saves.trans h'.saves, fun id hid => ?_, fun g hg => ?_, fun g hg hpend => ?_⟩
  · rw [h'.branch id (known_mono h.saves hid), h.branch id hid]
  · rcases h'.back g hg with ⟨hnum, hnew⟩ | ⟨_, hg', rfl⟩
    · exact .inl ⟨h.saves.trans hnum, hnew⟩
    · exact h.back _ hg'
  · obtain ⟨_, hg', rfl⟩ := h.forth g hg hpend
    refine h'.forth g hg' ?_
    rw [pending_congr fun id hid => h.branch id (hinv.known id (mem_groupIds hg hid))]
    exact hpend

theorem imp {New' : QueuedGroup → Prop} {R' : QueuedGroup → QueuedGroup → Prop} (h : Carries New R s s')
    (hnew : ∀ g, New g → New' g) (hR : ∀ g g', R g g' → R' g g') : Carries New' R' s s' :=
  ⟨h.inv, h.saves, h.branch,
    fun g' hg' => (h.back g' hg').imp (And.imp_right (hnew g')) fun ⟨g, hg, hr⟩ => ⟨g, hg, hR g g' hr⟩,
    fun g hg hpend => (h.forth g hg hpend).imp fun g' => And.imp_right (hR g g')⟩

theorem changed {state' : TaskState} (h : QueueInv s)
    (hstep : List.Forall₂ (List.Forall₂ R) s.queues (state'.tasks.map (·.queued)))
    (hR : ∀ g g', R g g' → g'.number = g.number)
    (hkn : ∀ id ∈ (s.append (.record state')).groupIds, (s.append (.record state')).known id = true)
    (hids : (s.append (.record state')).groupIds.Nodup) : Carries New R s (s.append (.record state')) := by
  have hqs := queues_append s state'
  have hgs : List.Forall₂ R s.groups (s.append (.record state')).groups := by
    rw [Session.groups, Session.groups, hqs]
    exact rel_flatten hstep
  have hnum : List.Forall₂ (fun queue queue' : List QueuedGroup =>
      queue'.map (·.number) = queue.map (·.number)) s.queues (state'.tasks.map (·.queued)) :=
    hstep.imp fun queue queue' (hqueue : List.Forall₂ R queue queue') =>
      (Pointwise.map_eq hqueue fun g g' hr => (hR g g' hr).symm).symm
  exact ⟨h.changed hqs hnum hkn hids (Nat.le_succ _), Nat.le_succ _,
    fun id hid => onBranch_append _ hid, fun g' hg' => .inr (Pointwise.left hgs hg'),
    fun g hg _ => Pointwise.right hgs hg⟩

theorem changed_of_ids {state' : TaskState} (h : QueueInv s)
    (hstep : List.Forall₂ (List.Forall₂ R) s.queues (state'.tasks.map (·.queued)))
    (hR : ∀ g g', R g g' → g'.number = g.number ∧ g'.entryIds = g.entryIds) :
    Carries New R s (s.append (.record state')) := by
  have hids : (s.append (.record state')).groupIds = s.groupIds := by
    rw [Session.groupIds, Session.groupIds, flatMap_def, flatMap_def, Session.groups, Session.groups, queues_append]
    exact congrArg _ (Pointwise.map_eq (rel_flatten hstep) fun g g' hr => (hR g g' hr).2.symm).symm
  refine changed h hstep (fun g g' hr => (hR g g' hr).1) ?_ (hids ▸ h.ids)
  rw [hids]
  exact fun id hid => known_append _ (h.known id hid)

end Carries

/-! ### The operations that leave the queues -/

/-- The append needs a task, and leaves the queues. -/
def Quiet (save : Save) : Prop :=
  ∀ s content, save s = .ok (some content) → ∃ state state', s.state = .ok (some state) ∧
    content = .record state' ∧ state'.tasks.map (·.queued) = state.tasks.map (·.queued)

theorem Quiet.carries {save : Save} (h : Quiet save)
    {R : QueuedGroup → QueuedGroup → Prop} (hR : ∀ g, R g g) (hinv : QueueInv s)
    (hsave : save s = .ok (some content)) : Carries New R s (s.append content) := by
  obtain ⟨state, state', hst, rfl, hqs⟩ := h s content hsave
  refine (Carries.refl hinv hR).same ?_ (Nat.le_succ _) fun id hid => onBranch_append _ hid
  rw [queues_append, hqs, queues_eq hst]

theorem update_eq_some {change : Session → TaskState → Except String TaskState}
    (h : update change s = .ok (some content)) : ∃ state state',
      s.state = .ok (some state) ∧ change s state = .ok state' ∧ content = .record state' := by
  cases hst : s.state with
  | error message => simp [update, hst] at h
  | ok state =>
    cases state with
    | none => exact absurd h (update_absent change s content hst)
    | some state =>
      obtain ⟨state', hok, rfl⟩ := update_eq_ok hst h
      exact ⟨state, state', rfl, hok, rfl⟩

theorem saveState_eq_some {change : Session → TaskState → Except String (Option TaskState)}
    (h : saveState change s = .ok (some content)) : ∃ state state',
      s.state = .ok (some state) ∧ change s state = .ok (some state') ∧ content = .record state' := by
  cases hst : s.state with
  | error message => simp [saveState, hst] at h
  | ok state =>
    cases state with
    | none => exact absurd h (saveState_absent change s content hst)
    | some state =>
      obtain ⟨state', hok, rfl⟩ := saveState_eq_ok hst h
      exact ⟨state, state', rfl, hok, rfl⟩

theorem queued_active {state : TaskState} {task : Task} (h : task.queued = state.task.queued) :
    (TaskState.tasks { state with task := task }).map (·.queued) = state.tasks.map (·.queued) := by
  rw [TaskState.tasks, TaskState.tasks, map_cons, map_cons, h]

theorem quiet_update {change : Session → TaskState → Except String TaskState}
    (hcha : ∀ s state state', change s state = .ok state' → ∃ task : Task,
      state' = { state with task := task } ∧ task.queued = state.task.queued) : Quiet (update change) := by
  intro s content h
  obtain ⟨state, state', hst, hok, rfl⟩ := update_eq_some h
  obtain ⟨task, rfl, hque⟩ := hcha s state state' hok
  exact ⟨state, _, hst, rfl, queued_active hque⟩

theorem quiet_beginStep (message : AssistantMessage) : Quiet (beginStep message) :=
  quiet_update fun s state state' h => by
    split at h
    · cases h
    · cases h
      exact ⟨_, rfl, rfl⟩

theorem quiet_completeItem (index : ℕ) (block : AssistantBlock) (message : AssistantMessage) :
    Quiet (completeItem index block message) :=
  quiet_update fun s state state' h => by
    cases h
    exact ⟨_, rfl, rfl⟩

theorem quiet_commitAssistant (message : AssistantMessage) (entryId : EntryId) (retryable : Bool) :
    Quiet (commitAssistant message entryId retryable) :=
  quiet_update fun s state state' h => by
    cases h
    exact ⟨_, rfl, rfl⟩

theorem quiet_result (message : ToolResultMessage) (call : ToolCall) (terminate uncertain : Bool)
    (parentToolCallId : Option String) : Quiet (result message call terminate uncertain parentToolCallId) :=
  quiet_update fun s state state' h => by
    dsimp only at h
    split at h
    · cases h
    · split at h
      · cases h
        exact ⟨_, rfl, rfl⟩
      · cases h
        exact ⟨_, rfl, rfl⟩

theorem quiet_dispatch (call : ToolCall) (args : Option JsonValue) (safe : Bool)
    (definition parent : Option String) (now : ℚ) : Quiet (dispatch call args safe definition parent now) := by
  intro s content h
  unfold dispatch at h
  split at h
  · cases h
  · cases h
  · split at h
    · exact quiet_result _ call false false parent s content h
    · dsimp only at h
      split at h
      · cases h
      · split at h
        · refine quiet_update (fun s state state' h => ?_) s content h
          cases h
          exact ⟨_, rfl, rfl⟩
        · refine quiet_update (fun s state state' h => ?_) s content h
          cases htls : dispatchTools state.task call args safe definition parent with
          | error message =>
            rw [htls] at h
            cases h
          | ok tools =>
            rw [htls] at h
            cases h
            exact ⟨_, rfl, rfl⟩

theorem quiet_reconcile (c : String) (resolution : Resolution) : Quiet (reconcile c resolution) := by
  intro s content h
  unfold reconcile at h
  split at h
  · cases h
  · cases h
  · rename_i active hst
    split at h
    · split at h
      · cases h
      · split at h
        · cases h
        · cases h
          refine ⟨active, _, hst, rfl, ?_⟩
          rw [TaskState.tasks, TaskState.tasks, map_cons, map_cons, map_map, map_map, map_map]
          congr 1
          · split <;> rfl
          · refine map_congr_left fun suspended _ => ?_
            dsimp only [Function.comp_apply]
            split <;> rfl
    · cases h

variable (o : Options)

theorem quiet_reconcileFromEvidence (c : String) (evidenceIds : List String)
    (conclusion : String) (failed : Bool) (now : ℚ) :
    Quiet (reconcileFromEvidence o c evidenceIds conclusion failed now) := by
  intro s content h
  unfold reconcileFromEvidence at h
  split at h
  · cases h
  · cases h
  · split at h
    · cases h
    · split at h
      · cases h
      · dsimp only at h
        split at h
        · cases h
        · exact quiet_reconcile c _ s content h

theorem queued_receiptTask {task task' : Task} {message : ToolResultMessage}
    {resultEntryId : Option EntryId} (h : receiptTask s task message resultEntryId = some task') :
    task'.queued = task.queued := by
  unfold receiptTask at h
  split at h
  · cases h
  · split at h
    · cases h
    · cases h
      rfl

theorem quiet_recordResultEntry (assistantEntryId : EntryId) (message : ToolResultMessage)
    (resultEntryId : Option EntryId) : Quiet (recordResultEntry assistantEntryId message resultEntryId) := by
  intro s content h
  obtain ⟨state, state', hst, hok, rfl⟩ := saveState_eq_some h
  refine ⟨state, state', hst, rfl, ?_⟩
  have hrec : receiptTasks s assistantEntryId message resultEntryId state = some state' := Except.ok.inj hok
  unfold receiptTasks at hrec
  dsimp only at hrec
  split at hrec
  · obtain ⟨task, htask, rfl⟩ := Option.map_eq_some_iff.mp hrec
    exact queued_active (queued_receiptTask htask)
  · split at hrec
    · cases hrec
    · rename_i i _
      obtain ⟨suspended, hget, hmap⟩ := Option.bind_eq_some_iff.mp hrec
      obtain ⟨task, htask, rfl⟩ := Option.map_eq_some_iff.mp hmap
      have hlt : i < (state.suspendedTasks.map (·.state.queued)).length := by
        rw [length_map]
        exact (List.getElem?_eq_some_iff.mp hget).1
      rw [TaskState.tasks, TaskState.tasks, map_cons, map_cons, map_map, map_map, map_set]
      refine congrArg _ ?_
      have hque : (state.suspendedTasks.map (·.state.queued))[i] = task.queued := by
        rw [getElem_map, queued_receiptTask htask, (List.getElem?_eq_some_iff.mp hget).2]
      rw [Function.comp_apply, ← hque]
      exact set_getElem_self hlt

/-! ### Starting a task -/

section Start
variable {s : Session} {state : TaskState}

/-- The queue of the task that `start` suspends, if there is one. -/
def pausedQueue (s : Session) (state : TaskState) : List (List QueuedGroup) :=
  if suspending s state.task then [state.task.queued.filter (·.kind ≠ .nextTurn)] else []

theorem start_queues {prompt : List AgentMessage} {systemPrompt : Option String}
    {ids : Option (List EntryId)} (hst : s.state = .ok (some state))
    (h : start prompt systemPrompt ids true s = .ok (some content)) :
    ∃ state', content = .record state' ∧ state'.tasks.map (·.queued) =
      inherited s (some state) :: (state.suspendedTasks.map (·.state.queued) ++ pausedQueue s state) := by
  unfold start at h
  rw [hst] at h
  dsimp only at h
  unfold pausedQueue
  split at h
  · rename_i hsusp
    split at h
    · cases h
    · cases h
      refine ⟨_, rfl, ?_⟩
      rw [if_pos hsusp, TaskState.tasks, map_cons, map_map, map_append]
      rfl
  · rename_i hsusp
    cases h
    refine ⟨_, rfl, ?_⟩
    rw [if_neg hsusp, TaskState.tasks, map_cons, map_map, append_nil]
    rfl

/-- **The two filters of `start` do not overlap.** -/
theorem divided_subperm : (inherited s (some state) ++ (pausedQueue s state).flatten).Subperm state.task.queued := by
  unfold pausedQueue inherited
  by_cases hsusp : suspending s state.task = true
  · -- What is inherited is of the next turn, and what is kept is not.
    rw [if_pos hsusp, flatten_singleton]
    have hperm := filter_append_perm (fun g : QueuedGroup => decide (g.kind = .nextTurn)) state.task.queued
    refine List.Subperm.trans (List.Sublist.subperm ?_) hperm.subperm
    refine List.Sublist.append (monotone_filter_right _ fun g hg => ?_)
      (monotone_filter_right _ fun g hg => by simpa using hg)
    rw [hsusp, Bool.not_true, Bool.false_or, Bool.and_eq_true] at hg
    exact hg.1
  · rw [if_neg hsusp, flatten_nil, append_nil]
    exact filter_sublist.subperm

/-- **The two filters of `start` keep every pending group.** -/
theorem mem_divided (hg : g ∈ state.task.queued) (hpend : pending s g = true) :
    g ∈ inherited s (some state) ∨ g ∈ (pausedQueue s state).flatten := by
  unfold pausedQueue inherited
  by_cases hsusp : suspending s state.task = true
  · rw [if_pos hsusp, flatten_singleton]
    by_cases hkind : g.kind = .nextTurn
    · exact .inl (mem_filter.mpr ⟨hg, by simp [hkind, hpend]⟩)
    · exact .inr (mem_filter.mpr ⟨hg, by simp [hkind]⟩)
  · refine .inl (mem_filter.mpr ⟨hg, ?_⟩)
    rw [Bool.eq_false_iff.mpr hsusp, hpend]
    rfl

end Start

/-- **Starting a task carries the queues over.** -/
theorem start_carries {prompt : List AgentMessage} {systemPrompt : Option String}
    {ids : Option (List EntryId)} (hinv : QueueInv s)
    (h : start prompt systemPrompt ids true s = .ok (some content)) : Carries New Eq s (s.append content) := by
  have hbra : ∀ id, s.known id = true → (s.append content).onBranch id = s.onBranch id :=
    fun id hid => onBranch_append _ hid
  cases hst : s.state with
  | error message => simp [start, hst] at h
  | ok previous =>
    cases previous with
    | none =>
      have hgs : s.groups = [] := by rw [Session.groups, queues_of_none hst]; rfl
      have hqs' : (s.append content).queues = [[]] := by
        unfold start at h
        rw [hst] at h
        cases h
        rw [queues_append]
        rfl
      have hgs' : (s.append content).groups = [] := by rw [Session.groups, hqs']; rfl
      have hids' : (s.append content).groupIds = [] := by rw [Session.groupIds, hgs']; rfl
      have hinv' : QueueInv (s.append content) := by
        refine ⟨?_, ?_, ?_, ?_, ?_⟩ <;> simp [hgs', hids', hqs']
      refine ⟨hinv', Nat.le_succ _, hbra, ?_, ?_⟩
      · simp [hgs']
      · simp [hgs]
    | some state =>
      obtain ⟨state', rfl, hdiv⟩ := start_queues hst h
      have hqs : s.queues = state.task.queued :: state.suspendedTasks.map (·.state.queued) := by
        rw [queues_eq hst, TaskState.tasks, map_cons, map_map]
        rfl
      have hqs' := (queues_append s state').trans hdiv
      generalize hkept : state.suspendedTasks.map (·.state.queued) = kept at hqs hqs'
      have hgs : s.groups = state.task.queued ++ kept.flatten := by
        rw [Session.groups, hqs, flatten_cons]
      have hgs' : ((inherited s (some state) ++ (pausedQueue s state).flatten) ++ kept.flatten).Perm
          (s.append (.record state')).groups := by
        rw [Session.groups, hqs', flatten_cons, flatten_append, append_assoc]
        exact perm_append_comm.append_left _
      have hsubp : (s.append (.record state')).groups.Subperm s.groups := by
        rw [hgs]
        exact hgs'.symm.subperm.trans ((subperm_append_right _).mpr divided_subperm)
      refine ⟨hinv.moved hsubp (fun queue' hqueue' => ?_) (Nat.le_succ _), Nat.le_succ _, hbra,
        fun g hg => .inr ⟨g, hsubp.subset hg, rfl⟩, fun g hg hpend => ⟨g, ?_, rfl⟩⟩
      · rw [hqs'] at hqueue'
        rw [hqs]
        rcases mem_cons.mp hqueue' with rfl | hqueue'
        · exact ⟨_, mem_cons_self, filter_sublist⟩
        rcases mem_append.mp hqueue' with hqueue' | hqueue'
        · exact ⟨queue', mem_cons_of_mem _ hqueue', List.Sublist.refl _⟩
        · refine ⟨_, mem_cons_self, ?_⟩
          unfold pausedQueue at hqueue'
          split at hqueue'
          · rw [mem_singleton.mp hqueue']
            exact filter_sublist
          · cases hqueue'
      · rw [hgs] at hg
        refine hgs'.mem_iff.mp ?_
        rw [mem_append, mem_append]
        exact (mem_append.mp hg).imp (fun hg => mem_divided hg hpend) id

/-! ### Accepting a group -/

variable (kind : QueueKind)

def acceptedGroup (messages : List AgentMessage) (label : Option String)
    (s : Session) : QueuedGroup where
  kind := kind
  messages := messages
  entryIds := (List.range messages.length).map fun i => s.uuid (i + 1)
  label := label
  number := s.saves

/-- The last append of `queue`. -/
def accept (messages : List AgentMessage) (label : Option String) : Save :=
  update fun s state => .ok { state with task := { state.task with
    queued := state.task.queued ++ [acceptedGroup kind messages label s] } }

theorem accept_carries (messages : List AgentMessage) (label : Option String) (hinv : QueueInv s)
    (h : accept kind messages label s = .ok (some content)) :
    Carries (fun g => g.kind = kind ∧ g.messages = messages ∧ g.label = label) Eq s (s.append content) := by
  obtain ⟨state, state', hst, hok, rfl⟩ := update_eq_some h
  cases hok
  have hqs := queues_eq hst
  have hqs' := queues_append s { state with task := { state.task with
    queued := state.task.queued ++ [acceptedGroup kind messages label s] } }
  rw [TaskState.tasks, map_cons] at hqs hqs'
  generalize state.suspendedTasks.map (·.state) = suspended at hqs hqs'
  have hmem : ∀ g ∈ s.groups, g ∈ (s.append (.record { state with task := { state.task with
      queued := state.task.queued ++ [acceptedGroup kind messages label s] } })).groups := by
    intro g hg
    rw [Session.groups, hqs, flatten_cons] at hg
    rw [Session.groups, hqs', flatten_cons]
    exact mem_append.mpr ((mem_append.mp hg).imp (mem_append_left _) id)
  refine ⟨hinv.accept hqs hqs' rfl rfl ?_ fun id hid => ?_, Nat.le_succ _,
    fun id hid => onBranch_append _ hid, fun g hg => ?_, fun g hg _ => ⟨g, hmem g hg, rfl⟩⟩
  · refine List.Nodup.map (fun i j hij => ?_) nodup_range
    simp only [Session.uuid, EntryId.uuid.injEq] at hij
    omega
  · obtain ⟨i, -, rfl⟩ := mem_map.mp hid
    exact ⟨unknown_uuid s _, known_uuid s _ _⟩
  · rw [Session.groups, hqs', flatten_cons, append_assoc] at hg
    rcases mem_append.mp hg with hg | hg
    · exact .inr ⟨g, by rw [Session.groups, hqs]; exact mem_append_left _ hg, rfl⟩
    rcases mem_append.mp hg with hg | hg
    · rw [mem_singleton.mp hg]
      exact .inl ⟨le_rfl, rfl, rfl, rfl⟩
    · exact .inr ⟨g, by rw [Session.groups, hqs]; exact mem_append_right _ hg, rfl⟩

theorem carries_perform {saves : List Save} (hsv : ∀ save ∈ saves, ∀ s content, QueueInv s → save s = .ok (some content) →
      Carries New Eq s (s.append content)) (hinv : QueueInv s) : Carries New Eq s (s.perform saves) := by
  induction saves generalizing s with
  | nil => exact .refl hinv fun _ => rfl
  | cons save saves ih =>
    have ih := fun {s : Session} => ih (s := s) fun save hmem => hsv save (mem_cons_of_mem _ hmem)
    rw [Session.perform]
    split
    · exact .refl hinv fun _ => rfl
    · exact ih hinv
    · rename_i content h
      have hcar := hsv save mem_cons_self s content hinv h
      exact hcar.trans hinv (ih hcar.inv)

theorem queue_carries (hinv : QueueInv s) (kind : QueueKind)
    (messages : List AgentMessage) (label : Option String) (n : ℕ) :
    Carries (fun g => g.kind = kind ∧ g.messages = messages ∧ g.label = label) Eq s
      (s.perform (((Op.queue kind messages label).saves o s).take n)) := by
  refine carries_perform (fun save hmem s content hinv h => ?_) hinv
  have hmem := mem_of_mem_take hmem
  have hcas : save = start [] none none true ∨ save = update (fun _ state =>
      .ok { state with task := { state.task with status := .interrupted } }) ∨ save = accept kind messages label := by
    unfold Op.saves queue at hmem
    dsimp only at hmem
    have hthr : ∀ {a b c : Save}, save ∈ [a, b, c] → save = a ∨ save = b ∨ save = c :=
      fun h => by simpa only [mem_cons, not_mem_nil, or_false] using h
    split at hmem
    · cases hmem
    · split at hmem
      · exact hthr hmem
      · exact .inr (.inr (mem_singleton.mp hmem))
    · exact hthr hmem
  rcases hcas with rfl | rfl | rfl
  · exact start_carries hinv h
  · refine Quiet.carries (quiet_update fun s state state' h => ?_) (fun _ => rfl) hinv h
    cases h
    exact ⟨_, rfl, rfl⟩
  · exact accept_carries kind messages label hinv h

/-! ### Cancelling groups -/

theorem groupStep_cancelGroup (s : Session) (entryIds : List EntryId) (g : QueuedGroup) :
    GroupStep (.cancelQueued entryIds) s g (cancelGroup entryIds g) := by
  unfold cancelGroup
  split
  · rename_i h
    refine ⟨rfl, rfl, rfl, rfl, fun _ => rfl, fun _ => .inr ⟨h.1, ?_⟩, .inl rfl⟩
    simpa using h.2
  · exact .refl

theorem cancelQueued_carries (entryIds : List EntryId) (hinv : QueueInv s)
    (h : cancelQueued entryIds s = .ok (some content)) :
    Carries New (GroupStep (.cancelQueued entryIds) s) s (s.append content) := by
  unfold cancelQueued at h
  split at h
  · cases h
  · obtain ⟨state, state', hst, hok, rfl⟩ := saveState_eq_some h
    cases hok
    refine .changed_of_ids hinv ?_ fun g g' hstep => ⟨hstep.number, ?_⟩
    · rw [queues_eq hst]
      refine .cons (Pointwise.map_right _ fun g _ => groupStep_cancelGroup s entryIds g) ?_
      exact forall₂_same.mpr fun queue _ => forall₂_same.mpr fun g _ => .refl
    · rcases hstep.entryIds with heq | ⟨hop, -⟩
      · exact heq
      · cases hop

variable (installed : Bool)

theorem groupStep_retire (s : Session) (g : QueuedGroup) :
    GroupStep (.retireRemovedComputerCaptures installed) s g { g with cancelled := true } :=
  ⟨rfl, rfl, rfl, rfl, fun _ => rfl, fun _ => .inr trivial, .inl rfl⟩

theorem queued_retireTask (s : Session) (task : Task) :
    List.Forall₂ (GroupStep (.retireRemovedComputerCaptures installed) s) task.queued (retireTask task).queued := by
  unfold retireTask
  split
  · exact Pointwise.map_right _ fun g _ => groupStep_retire installed s g
  · exact forall₂_same.mpr fun g _ => .refl

theorem same_notices {R : QueuedGroup → QueuedGroup → Prop} {s s' : Session} (h : Carries New R s s') (saves : List Save)
    (hsv : ∀ save ∈ saves, ∃ taskId, save = fun _ => .ok (some (.notice taskId))) :
    Carries New R s (s'.perform saves) := by
  induction saves generalizing s' with
  | nil => exact h
  | cons save saves ih =>
    obtain ⟨taskId, rfl⟩ := hsv save mem_cons_self
    rw [Session.perform]
    exact ih (h.same (queues_notice s' taskId) (Nat.le_succ _) fun id hid => onBranch_append _ hid)
      fun save hmem => hsv save (mem_cons_of_mem _ hmem)

theorem retire_carries (hinv : QueueInv s) (n : ℕ) :
    Carries New (GroupStep (.retireRemovedComputerCaptures installed) s) s
      (s.perform (((Op.retireRemovedComputerCaptures installed).saves o s).take n)) := by
  have hrefl : Carries New (GroupStep (.retireRemovedComputerCaptures installed) s) s s := .refl hinv fun _ => .refl
  unfold Op.saves retireRemovedComputerCaptures
  dsimp only
  split
  · rw [take_nil]
    exact hrefl
  · split
    · cases n with
      | zero => exact hrefl
      | succ n =>
        have hnot : ∀ tasks : List Task, ∀ save ∈ (tasks.map fun task (_ : Session) =>
            (.ok (some (.notice task.id)) : Except String (Option Content))).take n,
            ∃ taskId, save = fun _ => .ok (some (.notice taskId)) := fun tasks save hmem => by
          obtain ⟨task, -, rfl⟩ := mem_map.mp (mem_of_mem_take hmem)
          exact ⟨task.id, rfl⟩
        rw [take_succ_cons, Session.perform]
        split
        · exact hrefl
        · exact same_notices hrefl _ (hnot _)
        · rename_i content h
          obtain ⟨state, state', hst, hok, rfl⟩ := saveState_eq_some h
          split at hok
          · cases hok
          · cases hok
            refine same_notices (.changed_of_ids hinv ?_ fun g g' hstep => ⟨hstep.number, ?_⟩) _ (hnot _)
            · rw [queues_eq hst]
              refine .cons (queued_retireTask installed s _) ?_
              rw [map_map, forall₂_map_left_iff, map_map, forall₂_map_right_iff]
              exact Pointwise.map_right _ fun suspended _ => queued_retireTask installed s suspended.state
            · rcases hstep.entryIds with heq | ⟨hop, -⟩
              · exact heq
              · cases hop
    · rw [take_nil]
      exact hrefl

/-! ### Rebinding receipts -/

section Rebind
variable {s : Session} {queue : List QueuedGroup}

theorem mem_rebindGroup {position : ℕ}
    (h : id ∈ (rebindGroup s position g).entryIds) : id ∈ g.entryIds ∨ ∃ i, id = s.uuid (position + 1) i := by
  unfold rebindGroup at h
  split at h
  · exact .inl h
  · obtain ⟨i, hi, rfl⟩ := mem_mapIdx.mp h
    split
    · exact .inr ⟨i, rfl⟩
    · exact .inl (getElem_mem hi)

theorem groupStep_rebindGroup (position : ℕ) (g : QueuedGroup) :
    GroupStep .rebindQueuedReceipts s g (rebindGroup s position g) := by
  unfold rebindGroup
  split
  · exact .refl
  · refine ⟨rfl, rfl, rfl, rfl, id, .inl, .inr ⟨rfl, ?_⟩⟩
    rw [forall₂_iff_get]
    refine ⟨(length_mapIdx).symm, fun i hi hi' => ?_⟩
    rw [get_eq_getElem, get_eq_getElem, getElem_mapIdx]
    split
    · rename_i hoff
      exact .inr ⟨hoff, not_known_uuid s _ _⟩
    · exact .inl rfl

theorem ne_uuid (hid : s.known id = true) (k i : ℕ) : id ≠ s.uuid k i := by
  rintro rfl
  rw [not_known_uuid] at hid
  cases hid

theorem nodup_rebindGroup {position : ℕ} (hids : g.entryIds.Nodup)
    (hkn : ∀ id ∈ g.entryIds, s.known id = true) : (rebindGroup s position g).entryIds.Nodup := by
  unfold rebindGroup
  split
  · exact hids
  · rw [List.Nodup, pairwise_iff_getElem]
    intro i j hi hj hij
    rw [getElem_mapIdx, getElem_mapIdx]
    rw [length_mapIdx] at hi hj
    have hi' := hkn _ (getElem_mem hi)
    have hj' := hkn _ (getElem_mem hj)
    split <;> split
    · simp only [Session.uuid, ne_eq, EntryId.uuid.injEq]
      omega
    · exact (ne_uuid hj' _ _).symm
    · exact ne_uuid hi' _ _
    · exact pairwise_iff_getElem.mp hids i j hi hj hij

theorem nodup_rebind (hids : (queue.flatMap (·.entryIds)).Nodup)
    (hkn : ∀ id ∈ queue.flatMap (·.entryIds), s.known id = true) :
    ((queue.mapIdx (rebindGroup s)).flatMap (·.entryIds)).Nodup := by
  obtain ⟨hgs, hdisj⟩ := nodup_flatMap.mp hids
  have hkn' : ∀ g ∈ queue, ∀ id ∈ g.entryIds, s.known id = true := fun g hg id hid =>
    hkn id (mem_flatMap.mpr ⟨g, hg, hid⟩)
  rw [nodup_flatMap]
  constructor
  · intro g hg
    obtain ⟨i, hi, rfl⟩ := mem_mapIdx.mp hg
    exact nodup_rebindGroup (hgs _ (getElem_mem hi)) (hkn' _ (getElem_mem hi))
  · rw [pairwise_iff_getElem]
    intro i j hi hj hij id hid hid'
    rw [getElem_mapIdx] at hid hid'
    rw [length_mapIdx] at hi hj
    -- Two ids are equal only if both are old ones, of two groups.
    rcases mem_rebindGroup hid with hid | ⟨k, rfl⟩
    · rcases mem_rebindGroup hid' with hid' | ⟨k, rfl⟩
      · exact pairwise_iff_getElem.mp hdisj i j hi hj hij hid hid'
      · exact ne_uuid (hkn' _ (getElem_mem hi) _ hid) _ _ rfl
    · rcases mem_rebindGroup hid' with hid' | ⟨k', heq⟩
      · exact ne_uuid (hkn' _ (getElem_mem hj) _ hid') _ _ rfl
      · simp only [Session.uuid, EntryId.uuid.injEq] at heq
        omega

theorem mem_rebind (h : id ∈ (queue.mapIdx (rebindGroup s)).flatMap (·.entryIds)) :
    id ∈ queue.flatMap (·.entryIds) ∨ ∃ k i, id = s.uuid k i := by
  obtain ⟨g, hg, hid⟩ := mem_flatMap.mp h
  obtain ⟨position, hp, rfl⟩ := mem_mapIdx.mp hg
  exact (mem_rebindGroup hid).imp (fun hid => mem_flatMap.mpr ⟨_, getElem_mem hp, hid⟩)
    fun ⟨i, heq⟩ => ⟨_, i, heq⟩

end Rebind

theorem rebind_carries (hinv : QueueInv s) (h : rebindQueuedReceipts s = .ok (some content)) :
    Carries New (GroupStep .rebindQueuedReceipts s) s (s.append content) := by
  obtain ⟨state, state', hst, hok, rfl⟩ := saveState_eq_some h
  split at hok
  · cases hok
    have hqs := queues_eq hst
    rw [TaskState.tasks, map_cons] at hqs
    have hids : s.groupIds = state.task.queued.flatMap (·.entryIds) ++
        ((state.suspendedTasks.map (·.state)).map (·.queued)).flatten.flatMap (·.entryIds) := by
      rw [Session.groupIds, Session.groups, hqs, flatten_cons, flatMap_append]
    have hold : ∀ id ∈ state.task.queued.flatMap (·.entryIds), s.known id = true := fun id hid =>
      hinv.known id (hids ▸ mem_append_left _ hid)
    obtain ⟨hact, hsus, hdisj⟩ := nodup_append.mp (hids ▸ hinv.ids)
    have hids' : (s.append (.record { state with task := { state.task with
        queued := state.task.queued.mapIdx (rebindGroup s) } })).groupIds =
        (state.task.queued.mapIdx (rebindGroup s)).flatMap (·.entryIds) ++
        ((state.suspendedTasks.map (·.state)).map (·.queued)).flatten.flatMap (·.entryIds) := by
      rw [Session.groupIds, Session.groups, queues_append, TaskState.tasks, map_cons, flatten_cons, flatMap_append]
    refine .changed hinv ?_ (fun g g' hstep => hstep.number) (fun id hid => ?_) ?_
    · rw [hqs]
      refine .cons ?_ (forall₂_same.mpr fun queue _ => forall₂_same.mpr fun g _ => .refl)
      rw [forall₂_iff_get]
      refine ⟨length_mapIdx.symm, fun i hi hi' => ?_⟩
      rw [get_eq_getElem, get_eq_getElem, getElem_mapIdx]
      exact groupStep_rebindGroup i _
    · rw [hids'] at hid
      rcases mem_append.mp hid with hid | hid
      · rcases mem_rebind hid with hid | ⟨k, i, rfl⟩
        · exact known_append _ (hold id hid)
        · simp [Session.known, Session.append, Session.uuid]
      · exact known_append _ (hinv.known id (hids ▸ mem_append_right _ hid))
    · rw [hids', nodup_append]
      refine ⟨nodup_rebind hact hold, hsus, fun id hid id' hid' => ?_⟩
      rcases mem_rebind hid with hid | ⟨k, i, rfl⟩
      · exact hdisj id hid id' hid'
      · exact (ne_uuid (hinv.known id' (hids ▸ mem_append_right _ hid')) k i).symm
  · cases hok

/-! ### Every operation -/

/-- The operation starts no task that does not inherit the queued inputs. -/
def Op.Inherits : Op → Prop
  | .start _ _ _ inheritQueuedInputs => inheritQueuedInputs = true
  | _ => True

def Op.Accepts (op : Op) (g : QueuedGroup) : Prop := op = .queue g.kind g.messages g.label

/-- **What an operation does to the queues**, wherever it is cut by a crash. -/
theorem carries_op (hinv : QueueInv s) {op : Op} (hop : op.Inherits) (n : ℕ) :
    Carries op.Accepts (GroupStep op s) s (s.perform ((op.saves o s).take n)) := by
  have hrefl : Carries op.Accepts (GroupStep op s) s s := .refl hinv fun _ => .refl
  have hsgl : ∀ save : Save, (∀ content, save s = .ok (some content) →
      Carries op.Accepts (GroupStep op s) s (s.append content)) →
      Carries op.Accepts (GroupStep op s) s (s.perform ([save].take n)) := by
    intro save hsave
    cases n with
    | zero => exact hrefl
    | succ n =>
      rw [take_succ_cons, take_nil, Session.perform]
      split
      · exact hrefl
      · exact hrefl
      · rename_i content h
        exact hsave content h
  have hqt : ∀ save : Save, Quiet save →
      Carries op.Accepts (GroupStep op s) s (s.perform ([save].take n)) := fun save hqt =>
    hsgl save fun content h => hqt.carries (fun _ => .refl) hinv h
  cases op with
  | start prompt systemPrompt ids inheritQueuedInputs =>
    obtain rfl : inheritQueuedInputs = true := hop
    refine hsgl _ fun content h => (start_carries hinv h).imp (fun _ hnew => hnew) ?_
    rintro g _ rfl
    exact .refl
  | retireRemovedComputerCaptures installed => exact retire_carries o installed hinv n
  | reconcile c resolution => exact hqt _ (quiet_reconcile c resolution)
  | reconcileFromEvidence c evidenceIds conclusion failed now =>
    exact hqt _ (quiet_reconcileFromEvidence o c evidenceIds conclusion failed now)
  | queue kind messages label =>
    refine (queue_carries o hinv kind messages label n).imp ?_ ?_
    · rintro g ⟨rfl, rfl, rfl⟩
      rfl
    · rintro g _ rfl
      exact .refl
  | rebindQueuedReceipts => exact hsgl _ fun content h => rebind_carries hinv h
  | cancelQueued entryIds => exact hsgl _ fun content h => cancelQueued_carries entryIds hinv h
  | beginStep message => exact hqt _ (quiet_beginStep message)
  | completeItem index block message => exact hqt _ (quiet_completeItem index block message)
  | commitAssistant message entryId retryable =>
    exact hqt _ (quiet_commitAssistant message entryId retryable)
  | dispatch call args safe definition parent now =>
    exact hqt _ (quiet_dispatch call args safe definition parent now)
  | result message call terminate uncertain parent =>
    exact hqt _ (quiet_result message call terminate uncertain parent)
  | recordResultEntry assistantEntryId message resultEntryId =>
    exact hqt _ (quiet_recordResultEntry assistantEntryId message resultEntryId)
  | setStatus status | setRetryAttempt retryAttempt =>
    exact hqt _ (quiet_update fun s state state' h => by cases h; exact ⟨_, rfl, rfl⟩)

end TaskRecovery
end EasyPi.CodingAgent
