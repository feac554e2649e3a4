/-
# Unknown tool effects stay guarded

What the operations of the journal do to the tools of the tasks. Every append but those of
`start` changes the tools of each task by a `ToolsStep`: an unknown tool stays as it is, unless
its result is recorded or it is reconciled. `start` keeps a task with an unknown tool as a
suspended one, and `dispatch` refuses what would repeat such a tool.
-/
import EasyPi.CodingAgent.TaskRecovery
import EasyPi.Lib.Pointwise
import EasyPi.Lib.Runs

namespace EasyPi.CodingAgent

open List
namespace TaskRecovery

/-! ### Reading -/

def Session.tasks (s : Session) : List Task :=
  match s.state with
  | .ok (some state) => state.tasks
  | _ => []

def Session.activeTools (s : Session) : List RecoveryTool :=
  match s.state with
  | .ok (some state) => state.task.tools
  | _ => []

def Session.activeId (s : Session) : Option EntryId :=
  match s.state with
  | .ok (some state) => some state.task.id
  | _ => none

/-- `get allUnknownTools` of the session. -/
def Session.allUnknownTools (s : Session) : List (EntryId × RecoveryTool) :=
  match s.state with
  | .ok (some state) => state.unknownTools
  | _ => []

theorem restoreTool_cases (entries : List Entry) (tool : RecoveryTool) :
    restoreTool entries tool = tool ∨ ∃ e ∈ entries, ∃ message, confirmsExit tool e = some message ∧
      restoreTool entries tool = { tool with result := some message } := by
  unfold restoreTool
  split
  · split
    · rename_i message hfind
      obtain ⟨e, he, hcon⟩ := exists_of_findSome?_eq_some hfind
      exact .inr ⟨e, mem_reverse.mp he, message, hcon, rfl⟩
    · exact .inl rfl
  · exact .inl rfl

theorem restoreTool_call (entries : List Entry) (tool : RecoveryTool) : (restoreTool entries tool).call = tool.call := by
  rcases restoreTool_cases entries tool with h | ⟨_, _, _, _, h⟩ <;> rw [h]

variable {tool : RecoveryTool}

theorem restoreTool_isSome (entries : List Entry) (h : tool.result.isSome) :
    (restoreTool entries tool).result.isSome := by
  rcases restoreTool_cases entries tool with h' | ⟨_, _, _, _, h'⟩ <;> rw [h']
  · exact h
  · rfl

theorem restoreTool_dispatched (entries : List Entry) (tool : RecoveryTool) :
    (restoreTool entries tool).dispatched = tool.dispatched := by
  rcases restoreTool_cases entries tool with h | ⟨_, _, _, _, h⟩ <;> rw [h]

theorem restoreTask_spec (branch : List Entry) (task : Task) :
    ∃ entries status, (∀ e ∈ entries, e ∈ branch) ∧ restoreTask branch task =
      { task with tools := task.tools.map (restoreTool entries), status := status } := by
  unfold restoreTask
  split
  · refine ⟨[], task.status, by simp, ?_⟩
    have hid : task.tools.map (restoreTool []) = task.tools := by
      rw [map_congr_left (g := id) fun tool _ => ?_, map_id]
      unfold restoreTool
      split <;> rfl
    rw [hid]
  · rename_i entries hbeh
    have hmem : ∀ e ∈ entries, e ∈ branch := by
      unfold entriesBehind at hbeh
      split at hbeh
      · cases hbeh
        exact fun e he => he
      · obtain ⟨i, -, rfl⟩ := Option.map_eq_some_iff.mp hbeh
        exact fun e he => mem_of_mem_drop he
    dsimp only
    split
    · exact ⟨entries, .interrupted, hmem, rfl⟩
    · exact ⟨entries, task.status, hmem, rfl⟩

theorem tasks_restore (branch : List Entry) (state : TaskState) :
    (restore branch state).tasks = state.tasks.map (restoreTask branch) := by
  simp [restore, TaskState.tasks]

variable {state : TaskState} {id : EntryId}

theorem mem_unknownTools :
    (id, tool) ∈ state.unknownTools ↔ ∃ task ∈ state.tasks, task.retirement = false ∧ task.id = id ∧
      tool ∈ task.tools ∧ tool.unknown = true := by
  unfold TaskState.unknownTools TaskState.openSuspended TaskState.tasks
  rw [mem_flatMap]
  constructor
  · rintro ⟨task, htask, hmem⟩
    split at hmem
    · simp at hmem
    · rename_i hret
      obtain ⟨t, ht, heq⟩ := mem_map.mp hmem
      obtain ⟨rfl, rfl⟩ := Prod.mk.inj heq
      obtain ⟨ht, hunk⟩ := mem_filter.mp ht
      refine ⟨task, ?_, Bool.eq_false_iff.mpr hret, rfl, ht, hunk⟩
      rcases mem_cons.mp htask with rfl | htask
      · exact mem_cons_self
      · obtain ⟨suspended, hsus, rfl⟩ := mem_map.mp htask
        exact mem_cons_of_mem _ (mem_map_of_mem (mem_filter.mp hsus).1)
  · rintro ⟨task, htask, hret, rfl, htool, hunk⟩
    refine ⟨task, ?_, ?_⟩
    · rcases mem_cons.mp htask with rfl | htask
      · exact mem_cons_self
      · obtain ⟨suspended, hsus, rfl⟩ := mem_map.mp htask
        exact mem_cons_of_mem _ (mem_map_of_mem
          (mem_filter.mpr ⟨hsus, by simp [hret]⟩))
    · rw [hret, if_neg Bool.false_ne_true]
      exact mem_map_of_mem (mem_filter.mpr ⟨htool, hunk⟩)

/-! ### One append -/

/-- What an append may do to the tools of a task: nothing that matters here, settle one of them, or
clear them. -/
inductive Effect where
  | quiet
  | settles (toolCallId : String)
  | clears
  deriving DecidableEq

/-- The tool of a call is settled: it has a result, or may be dispatched again. -/
def settledIn (tools : List RecoveryTool) (toolCallId : String) : Prop :=
  ∃ tool ∈ tools, tool.call.id = toolCallId ∧ (tool.result.isSome ∨ tool.dispatched = false)

def resultIn (tools : List RecoveryTool) (toolCallId : String) : Prop :=
  ∃ tool ∈ tools, tool.call.id = toolCallId ∧ tool.result.isSome

/-- What an append does to the tools of a task. -/
structure ToolsStep (effect : Effect) (tools tools' : List RecoveryTool) : Prop where
  unknown : ∀ tool ∈ tools, tool.unknown = true →
    tool ∈ tools' ∨ effect = .settles tool.call.id ∧ settledIn tools' tool.call.id
  results : effect ≠ .clears → ∀ c, resultIn tools c → resultIn tools' c
  nodup : (tools'.map (·.call.id)).Nodup

/-- Every task keeps its id, and its tools change by a step. -/
def TasksStep (effect : Effect) (state state' : TaskState) : Prop :=
  List.Forall₂ (fun task task' : Task => task'.id = task.id ∧ task'.retirement = task.retirement ∧
    ToolsStep effect task.tools task'.tools) state.tasks state'.tasks

/-- The call ids of the tools of a task are distinct. -/
def Task.Distinct (task : Task) : Prop := (task.tools.map (·.call.id)).Nodup

namespace ToolsStep

variable {effect : Effect} {tools : List RecoveryTool}

theorem refl (hd : (tools.map (·.call.id)).Nodup) :
    ToolsStep effect tools tools := ⟨fun _ h _ => .inl h, fun _ _ h => h, hd⟩

theorem mark (hd : (tools.map (·.call.id)).Nodup)
    {g : RecoveryTool → RecoveryTool} (hg : ∀ t, g t = t ∨ g t = { t with safe := false }) :
    ToolsStep .quiet tools (tools.map g) := by
  have hcall : ∀ t, (g t).call = t.call := fun t => by rcases hg t with h | h <;> rw [h]
  refine ⟨fun t ht hunk => .inl ?_, fun _ c => ?_, ?_⟩
  · have heq : g t = t := by
      have hsafe : t.safe = false := by
        simp only [RecoveryTool.unknown, Bool.and_eq_true, Bool.not_eq_true'] at hunk
        exact hunk.1.2
      rcases hg t with h | h
      · exact h
      · rw [h, ← hsafe]
    exact mem_map.mpr ⟨t, ht, heq⟩
  · rintro ⟨t, ht, hid, hres⟩
    refine ⟨g t, mem_map_of_mem ht, by rw [hcall, hid], ?_⟩
    rcases hg t with h | h <;> rw [h] <;> exact hres
  · rw [map_map]
    have : ((·.call.id) ∘ g : RecoveryTool → String) = (·.call.id) := funext fun t => by simp [hcall]
    rwa [this]

section Replace
variable {tools : List RecoveryTool} {c : String} {tool : RecoveryTool}

theorem nodup_replace (hd : (tools.map (·.call.id)).Nodup) (hc : tool.call.id = c) :
    ((tools.filter (·.call.id ≠ c) ++ [tool]).map (·.call.id)).Nodup := by
  rw [map_append, nodup_append]
  refine ⟨(filter_sublist.map _).nodup hd, by simp, fun a ha b hb => ?_⟩
  obtain ⟨t, ht, rfl⟩ := mem_map.mp ha
  rw [map_singleton, mem_singleton] at hb
  rw [hb, hc]
  simpa using (mem_filter.mp ht).2

variable {t : RecoveryTool}

theorem mem_replace (ht : t ∈ tools) (hne : t.call.id ≠ c) : t ∈ tools.filter (·.call.id ≠ c) ++ [tool] :=
  mem_append_left _ (mem_filter.mpr ⟨ht, by simpa using hne⟩)

theorem replace (hd : (tools.map (·.call.id)).Nodup) (hc : tool.call.id = c)
    (hunk : ∀ t ∈ tools, t.call.id = c → t.unknown = true → effect = .settles c ∧ tool.result.isSome)
    (hres : ∀ t ∈ tools, t.call.id = c → t.result.isSome → tool.result.isSome) :
    ToolsStep effect tools (tools.filter (·.call.id ≠ c) ++ [tool]) := by
  have hlast : tool ∈ tools.filter (·.call.id ≠ c) ++ [tool] := mem_append_right _ mem_cons_self
  refine ⟨fun t ht htu => ?_, fun _ c' => ?_, nodup_replace hd hc⟩
  · by_cases hid : t.call.id = c
    · obtain ⟨heff, htr⟩ := hunk t ht hid htu
      exact .inr ⟨by rw [heff, hid], tool, hlast, hc.trans hid.symm, .inl htr⟩
    · exact .inl (mem_replace ht hid)
  · rintro ⟨t, ht, hid, htr⟩
    by_cases heq : t.call.id = c
    · exact ⟨tool, hlast, (hc.trans heq.symm).trans hid, hres t ht heq htr⟩
    · exact ⟨t, mem_replace ht heq, hid, htr⟩

end Replace

theorem trans_quiet {tools tools' tools'' : List RecoveryTool} (h : ToolsStep .quiet tools tools')
    (h' : ToolsStep .quiet tools' tools'') : ToolsStep .quiet tools tools'' := by
  refine ⟨fun t ht hunk => ?_, fun hne c hc => h'.results hne c (h.results hne c hc), h'.nodup⟩
  rcases h.unknown t ht hunk with ht | ⟨hq, -⟩
  · exact h'.unknown t ht hunk
  · cases hq

theorem change (hd : (tools.map (·.call.id)).Nodup)
    (c : String) {f : RecoveryTool → RecoveryTool} (hcall : ∀ t, (f t).call = t.call)
    (hunk : ∀ t ∈ tools, t.call.id = c → t.unknown = true →
      effect = .settles c ∧ ((f t).result.isSome ∨ (f t).dispatched = false))
    (hres : ∀ t, t.result.isSome → (f t).result.isSome) : ToolsStep effect tools (changeTool tools c f) := by
  have hmem : ∀ t ∈ tools, (if t.call.id = c then f t else t) ∈ changeTool tools c f :=
    fun t ht => mem_map_of_mem ht
  refine ⟨fun t ht htu => ?_, fun _ c' => ?_, ?_⟩
  · have ht' := hmem t ht
    by_cases hid : t.call.id = c
    · rw [if_pos hid] at ht'
      obtain ⟨heff, hstl⟩ := hunk t ht hid htu
      exact .inr ⟨by rw [heff, hid], f t, ht', by rw [hcall], hstl⟩
    · rw [if_neg hid] at ht'
      exact .inl ht'
  · rintro ⟨t, ht, hid, htr⟩
    refine ⟨_, hmem t ht, ?_, ?_⟩
    · split <;> simp only [hcall, hid]
    · split
      · exact hres t htr
      · exact htr
  · unfold changeTool
    rw [map_map]
    have : ((·.call.id) ∘ fun t => if t.call.id = c then f t else t : RecoveryTool → String) =
        (·.call.id) := funext fun t => by
      dsimp only [Function.comp_apply]
      split <;> simp only [hcall]
    rwa [this]

end ToolsStep

theorem markParents_eq_map {n : ℕ} {tools tools' : List RecoveryTool} {parent : Option String}
    (h : markParents n tools parent = .ok tools') :
    ∃ g : RecoveryTool → RecoveryTool, (∀ t, g t = t ∨ g t = { t with safe := false }) ∧ tools' = tools.map g := by
  induction n generalizing tools parent with
  | zero =>
    cases parent with
    | none =>
      cases h
      exact ⟨id, fun t => .inl rfl, (map_id _).symm⟩
    | some _ => cases h
  | succ n ih =>
    cases parent with
    | none =>
      cases h
      exact ⟨id, fun t => .inl rfl, (map_id _).symm⟩
    | some parentId =>
      simp only [markParents] at h
      split at h
      · cases h
      · split at h
        · cases h
        · obtain ⟨g, hg, rfl⟩ := ih h
          refine ⟨fun t => g (if t.call.id = parentId then { t with safe := false } else t), fun t => ?_, ?_⟩
          · dsimp only
            split
            · exact .inr ((hg _).elim id id)
            · exact hg t
          · rw [changeTool, map_map]
            rfl

/-! ### Every operation -/

variable {task : Task}

theorem TasksStep.active (hd : ∀ task ∈ state.tasks, task.Distinct)
    (hid : task.id = state.task.id) (hret : task.retirement = state.task.retirement)
    (hstep : ToolsStep effect state.task.tools task.tools) : TasksStep effect state { state with task := task } := by
  refine .cons ⟨hid, hret, hstep⟩ ?_
  refine forall₂_same.mpr fun t ht => ⟨rfl, rfl, .refl (hd t (mem_cons_of_mem _ ht))⟩

theorem TasksStep.quiet (hd : ∀ task ∈ state.tasks, task.Distinct)
    (hid : task.id = state.task.id) (hret : task.retirement = state.task.retirement)
    (htls : task.tools = state.task.tools) : TasksStep effect state { state with task := task } :=
  .active hd hid hret (by rw [htls]; exact .refl (hd state.task mem_cons_self))

variable {s : Session} {content : Content}

theorem update_eq_ok {change : Session → TaskState → Except String TaskState} (hst : s.state = .ok (some state))
    (h : update change s = .ok (some content)) : ∃ state', change s state = .ok state' ∧ content = .record state' := by
  unfold update at h
  rw [hst] at h
  dsimp only at h
  split at h
  · cases h
  · cases hcha : change s state with
    | error message =>
      rw [hcha] at h
      cases h
    | ok state' =>
      rw [hcha] at h
      cases h
      exact ⟨state', rfl, rfl⟩

theorem saveState_eq_ok {change : Session → TaskState → Except String (Option TaskState)}
    (hst : s.state = .ok (some state)) (h : saveState change s = .ok (some content)) :
    ∃ state', change s state = .ok (some state') ∧ content = .record state' := by
  unfold saveState at h
  rw [hst] at h
  dsimp only at h
  cases hcha : change s state with
  | error message =>
    rw [hcha] at h
    cases h
  | ok state' =>
    rw [hcha] at h
    cases state' with
    | none => cases h
    | some state' =>
      cases h
      exact ⟨state', rfl, rfl⟩

/-- The append needs a task, and changes the tools of the tasks by a step. -/
structure Steps (effect : Effect) (save : Save) : Prop where
  absent : ∀ s content, s.state = .ok none → save s ≠ .ok (some content)
  present : ∀ s state content, s.state = .ok (some state) → (∀ task ∈ state.tasks, task.Distinct) →
    save s = .ok (some content) → ∃ state', content = .record state' ∧ TasksStep effect state state'

theorem update_absent (change : Session → TaskState → Except String TaskState) (s : Session)
    (content : Content) (hst : s.state = .ok none) : update change s ≠ .ok (some content) := by
  simp [update, hst]

theorem saveState_absent (change : Session → TaskState → Except String (Option TaskState)) (s : Session)
    (content : Content) (hst : s.state = .ok none) : saveState change s ≠ .ok (some content) := by
  simp [saveState, hst]

theorem steps_update_quiet {change : Session → TaskState → Except String TaskState}
    (hcha : ∀ s state state', change s state = .ok state' → ∃ task : Task,
      state' = { state with task := task } ∧ task.id = state.task.id ∧
        task.retirement = state.task.retirement ∧ task.tools = state.task.tools) : Steps .quiet (update change) := by
  refine ⟨update_absent _, fun s state content hst hd h => ?_⟩
  obtain ⟨state', hok, rfl⟩ := update_eq_ok hst h
  obtain ⟨task, rfl, hid, hret, htls⟩ := hcha s state state' hok
  exact ⟨_, rfl, .quiet hd hid hret htls⟩

variable {c : String}

theorem eq_of_find? {tools : List RecoveryTool} (hd : (tools.map (·.call.id)).Nodup)
    {old : RecoveryTool} (hfind : tools.find? (·.call.id = c) = some old)
    (ht : t ∈ tools) (hid : t.call.id = c) : t = old := by
  have hold : old.call.id = c := by simpa using List.find?_some hfind
  exact inj_on_of_nodup_map hd ht (mem_of_find?_eq_some hfind) (hid.trans hold.symm)

theorem ne_of_find? {tools : List RecoveryTool}
    (hfind : tools.find? (·.call.id = c) = none) (ht : t ∈ tools) : t.call.id ≠ c := by
  simpa using List.find?_eq_none.mp hfind t ht

theorem steps_result (message : ToolResultMessage) (call : ToolCall) (terminate uncertain : Bool)
    (parentToolCallId : Option String) : Steps (if uncertain then .quiet else .settles call.id)
      (result message call terminate uncertain parentToolCallId) := by
  refine ⟨update_absent _, fun s state content hst hd h => ?_⟩
  obtain ⟨state', hok, rfl⟩ := update_eq_ok hst h
  have hdst := hd state.task mem_cons_self
  dsimp only at hok
  split at hok
  · cases hok
  · split at hok
    · cases hok
      exact ⟨_, rfl, .quiet hd rfl rfl rfl⟩
    · rename_i hcertain
      cases hok
      refine ⟨_, rfl, .active hd rfl rfl (.replace hdst rfl (fun t ht hid hunk => ?_)
        fun t _ _ _ => rfl)⟩
      refine ⟨?_, rfl⟩
      cases uncertain with
      | false => rfl
      | true =>
        cases hfind : state.task.tools.find? (·.call.id = call.id) with
        | none => exact absurd hid (ne_of_find? hfind ht)
        | some old =>
          rw [eq_of_find? hdst hfind ht hid] at hunk
          simp [hfind, hunk] at hcertain

theorem steps_beginStep_of (message : AssistantMessage) (hst : s.state = .ok (some state))
    (hd : ∀ task ∈ state.tasks, task.Distinct)
    (hdone : ∀ tool ∈ state.task.tools, tool.dispatched = true → tool.result.isSome)
    (h : beginStep message s = .ok (some content)) :
    ∃ state', content = .record state' ∧ TasksStep .clears state state' := by
  obtain ⟨state', hok, rfl⟩ := update_eq_ok hst h
  dsimp only at hok
  split at hok
  · cases hok
  · cases hok
    refine ⟨_, rfl, .active hd rfl rfl ⟨fun t ht hunk => ?_, fun hne => absurd rfl hne, by simp⟩⟩
    simp only [RecoveryTool.unknown, Bool.and_eq_true] at hunk
    have hres := hdone t ht hunk.1.1
    rw [Option.isNone_iff_eq_none.mp hunk.2] at hres
    cases hres

theorem steps_completeItem (index : ℕ) (block : AssistantBlock) (message : AssistantMessage) :
    Steps .quiet (completeItem index block message) :=
  steps_update_quiet fun s state state' h => by
    cases h
    exact ⟨_, rfl, rfl, rfl, rfl⟩

theorem steps_commitAssistant (message : AssistantMessage) (entryId : EntryId) (retryable : Bool) :
    Steps .quiet (commitAssistant message entryId retryable) :=
  steps_update_quiet fun s state state' h => by
    cases h
    exact ⟨_, rfl, rfl, rfl, rfl⟩

theorem steps_cancelQueued (entryIds : List EntryId) : Steps .quiet (cancelQueued entryIds) := by
  refine ⟨fun s content hst h => ?_, fun s state content hst hd h => ?_⟩
  all_goals
    unfold cancelQueued at h
    split at h
  · cases h
  · exact saveState_absent _ s content hst h
  · cases h
  · obtain ⟨state', hok, rfl⟩ := saveState_eq_ok hst h
    cases hok
    exact ⟨_, rfl, .quiet hd rfl rfl rfl⟩

theorem steps_rebindQueuedReceipts : Steps .quiet rebindQueuedReceipts := by
  refine ⟨saveState_absent _, fun s state content hst hd h => ?_⟩
  obtain ⟨state', hok, rfl⟩ := saveState_eq_ok hst h
  dsimp only at hok
  split at hok
  · cases hok
    exact ⟨_, rfl, .quiet hd rfl rfl rfl⟩
  · cases hok

theorem toolsStep_dispatchTools (hd : task.Distinct) {call : ToolCall}
    {args : Option JsonValue} {safe : Bool} {definition parent : Option String}
    {tools' : List RecoveryTool} (h : dispatchTools task call args safe definition parent = .ok tools') :
    ToolsStep .quiet task.tools tools' := by
  unfold dispatchTools at h
  split at h
  · cases h
  · split at h
    · cases h
    · rename_i tools hmark
      obtain ⟨g, hg, rfl⟩ := markParents_eq_map hmark
      have hmar := ToolsStep.mark hd hg
      split at h
      · rename_i old hfind
        split at h
        · cases h
        · rename_i hres
          split at h
          · cases h
          · rename_i hunk
            cases h
            refine hmar.trans_quiet (.replace hmar.nodup rfl (fun t ht hid htu => ?_)
              fun t ht hid htr => ?_)
            · rw [eq_of_find? hmar.nodup hfind ht hid] at htu
              simp only [RecoveryTool.unknown, Bool.and_eq_true] at htu
              exact absurd (by simpa using htu.1) hunk
            · rw [eq_of_find? hmar.nodup hfind ht hid] at htr
              exact absurd htr hres
      · rename_i hfind
        cases h
        exact hmar.trans_quiet (.replace hmar.nodup rfl
          (fun t ht hid => absurd hid (ne_of_find? hfind ht))
          fun t ht hid => absurd hid (ne_of_find? hfind ht))

theorem steps_dispatch (call : ToolCall) (args : Option JsonValue) (safe : Bool)
    (definition parent : Option String) (now : ℚ)
    (hst : s.state = .ok (some state)) (hd : ∀ task ∈ state.tasks, task.Distinct)
    (h : dispatch call args safe definition parent now s = .ok (some content)) :
    ∃ state', content = .record state' ∧ (TasksStep .quiet state state' ∨ TasksStep (.settles call.id) state state') := by
  unfold dispatch at h
  rw [hst] at h
  dsimp only at h
  split at h
  · obtain ⟨state', rfl, hstep⟩ := (steps_result _ call false false parent).present s state content hst hd h
    exact ⟨state', rfl, .inr hstep⟩
  · split at h
    · cases h
    · split at h
      · obtain ⟨state', hok, rfl⟩ := update_eq_ok hst h
        cases hok
        refine ⟨_, rfl, .inl (.active hd rfl rfl (.mark (hd state.task mem_cons_self) fun t => ?_))⟩
        split
        · exact .inr rfl
        · exact .inl rfl
      · obtain ⟨state', hok, rfl⟩ := update_eq_ok hst h
        cases htls : dispatchTools state.task call args safe definition parent with
        | error message =>
          rw [htls] at hok
          cases hok
        | ok tools =>
          rw [htls] at hok
          cases hok
          exact ⟨_, rfl, .inl (.active hd rfl rfl
            (toolsStep_dispatchTools (hd state.task mem_cons_self) htls))⟩

theorem toolsStep_reconcileTask (hd : task.Distinct) (c : String) (resolution : Resolution) :
    ToolsStep (.settles c) task.tools (reconcileTask task c resolution).tools := by
  refine .change hd c (fun t => ?_) (fun t _ _ _ => ⟨rfl, ?_⟩) fun t ht => ?_
  all_goals cases resolution
  · rfl
  · rfl
  · exact .inr rfl
  · exact .inl rfl
  · exact ht
  · rfl

theorem steps_reconcile (c : String) (resolution : Resolution) : Steps (.settles c) (reconcile c resolution) := by
  refine ⟨fun s content hst => by simp [reconcile, hst], fun s state content hst hd h => ?_⟩
  unfold reconcile at h
  rw [hst] at h
  dsimp only at h
  split at h
  · split at h
    · cases h
    · split at h
      · cases h
      · cases h
        refine ⟨_, rfl, .cons ?_ ?_⟩
        · dsimp only
          split
          · exact ⟨rfl, rfl, toolsStep_reconcileTask (hd state.task mem_cons_self) c resolution⟩
          · exact ⟨rfl, rfl, .refl (hd state.task mem_cons_self)⟩
        · rw [map_map, forall₂_map_right_iff, forall₂_map_left_iff]
          refine forall₂_same.mpr fun suspended hmem => ?_
          have hd' := hd suspended.state (mem_cons_of_mem _ (mem_map_of_mem hmem))
          dsimp only [Function.comp_apply]
          split
          · exact ⟨rfl, rfl, toolsStep_reconcileTask hd' c resolution⟩
          · exact ⟨rfl, rfl, .refl hd'⟩
  · cases h

theorem steps_reconcileFromEvidence (o : Options) (c : String) (evidenceIds : List String)
    (conclusion : String) (failed : Bool) (now : ℚ) :
    Steps (.settles c) (reconcileFromEvidence o c evidenceIds conclusion failed now) := by
  refine ⟨fun s content hst => by simp [reconcileFromEvidence, hst], fun s state content hst hd h => ?_⟩
  unfold reconcileFromEvidence at h
  rw [hst] at h
  dsimp only at h
  split at h
  · cases h
  · split at h
    · cases h
    · split at h
      · cases h
      · exact (steps_reconcile c _).present s state content hst hd h

theorem toolsStep_receiptTask {task task' : Task} (hd : task.Distinct)
    {message : ToolResultMessage} {resultEntryId : Option EntryId}
    (h : receiptTask s task message resultEntryId = some task') :
    task'.id = task.id ∧ task'.retirement = task.retirement ∧ ToolsStep .quiet task.tools task'.tools := by
  unfold receiptTask at h
  split at h
  · cases h
  · rename_i tool hfind
    split at h
    · cases h
    · rename_i hres
      cases h
      refine ⟨rfl, rfl, .change hd _ (fun _ => rfl) (fun t ht hid hunk => ?_) fun _ _ => rfl⟩
      have heq : t = tool := inj_on_of_nodup_map hd ht (mem_of_find?_eq_some hfind) hid
      simp only [RecoveryTool.unknown, Bool.and_eq_true] at hunk
      rw [heq] at hunk
      simp [hunk.2] at hres

theorem steps_recordResultEntry (assistantEntryId : EntryId) (message : ToolResultMessage)
    (resultEntryId : Option EntryId) : Steps .quiet (recordResultEntry assistantEntryId message resultEntryId) := by
  refine ⟨saveState_absent _, fun s state content hst hd h => ?_⟩
  obtain ⟨state', hok, rfl⟩ := saveState_eq_ok hst h
  have hrec : receiptTasks s assistantEntryId message resultEntryId state = some state' := Except.ok.inj hok
  refine ⟨state', rfl, ?_⟩
  unfold receiptTasks at hrec
  dsimp only at hrec
  split at hrec
  · obtain ⟨task, htask, rfl⟩ := Option.map_eq_some_iff.mp hrec
    obtain ⟨hid, hret, hstep⟩ := toolsStep_receiptTask (hd state.task mem_cons_self) htask
    exact .active hd hid hret hstep
  · split at hrec
    · cases hrec
    · rename_i i _
      obtain ⟨suspended, hget, hmap⟩ := Option.bind_eq_some_iff.mp hrec
      obtain ⟨task, htask, rfl⟩ := Option.map_eq_some_iff.mp hmap
      have hd' : ∀ t ∈ state.suspendedTasks.map (·.state), t.Distinct := fun t ht =>
        hd t (mem_cons_of_mem _ ht)
      refine .cons ⟨rfl, rfl, .refl (hd state.task mem_cons_self)⟩ ?_
      rw [map_set]
      refine Pointwise.set (fun t ht => ⟨rfl, rfl, .refl (hd' t ht)⟩)
        (by rw [List.getElem?_map, hget, Option.map_some]) ?_
      exact toolsStep_receiptTask
        (hd' _ (mem_map_of_mem (mem_of_getElem? hget))) htask

/-- **`start` keeps what is unknown.** The tasks of the new record are a new task without tools, the
suspended tasks, and the task before unless it has no unknown tool. -/
theorem start_spec {prompt : List AgentMessage} {systemPrompt : Option String}
    {ids : Option (List EntryId)} {inheritQueuedInputs : Bool} (hst : s.state = .ok (some state))
    (h : start prompt systemPrompt ids inheritQueuedInputs s = .ok (some content)) :
    ∃ new suspended, content = .record ⟨new, state.suspendedTasks ++ suspended⟩ ∧
      new.id = s.uuid 1 ∧ new.retirement = false ∧ new.tools = [] ∧
      ((suspending s state.task = true ∧ ∃ leafId, s.leafId = some leafId ∧
          suspended = [⟨leafId, pause state.task inheritQueuedInputs⟩]) ∨
        (suspending s state.task = false ∧ suspended = [])) := by
  unfold start at h
  rw [hst] at h
  dsimp only at h
  split at h
  · rename_i hsusp
    split at h
    · cases h
    · rename_i leafId hleaf
      cases h
      exact ⟨_, _, rfl, rfl, rfl, rfl, .inl ⟨hsusp, leafId, hleaf, rfl⟩⟩
  · rename_i hsusp
    cases h
    exact ⟨_, [], by rw [append_nil], rfl, rfl, rfl, .inr ⟨Bool.eq_false_iff.mpr hsusp, rfl⟩⟩

/-! ### The session -/

/-- A task of a journal that only the operations of a branch have written. -/
structure OpenTask (s : Session) (task : Task) : Prop where
  distinct : task.Distinct
  active : task.retirement = false
  known : s.known task.id = true

/-- All tasks of the last record are open ones. -/
def JournalInv (s : Session) : Prop := ∀ state, s.stored = some state → ∀ task ∈ state.tasks, OpenTask s task

theorem OpenTask.valid (h : OpenTask s task) : validRetirement task = true := by
  rw [validRetirement, h.active]
  rfl

theorem OpenTask.restore (h : OpenTask s task) (branch : List Entry) : OpenTask s (restoreTask branch task) := by
  obtain ⟨entries, status, -, heq⟩ := restoreTask_spec branch task
  rw [heq]
  refine ⟨?_, h.active, h.known⟩
  have hcomp : ((·.call.id) ∘ restoreTool entries : RecoveryTool → String) = (·.call.id) :=
    funext fun tool => by rw [Function.comp_apply, restoreTool_call]
  rw [Task.Distinct, map_map, hcomp]
  exact h.distinct

theorem JournalInv.state_eq (h : JournalInv s) : s.state = .ok (s.stored.map (TaskRecovery.restore s.branch)) := by
  unfold Session.state
  cases hsto : s.stored with
  | none => rfl
  | some state =>
    have hval : state.tasks.all validRetirement = true :=
      all_eq_true.mpr fun task htask => (h state hsto task htask).valid
    dsimp only
    rw [if_pos hval]
    rfl

theorem JournalInv.state_none (h : JournalInv s) (hsto : s.stored = none) : s.state = .ok none := by
  rw [h.state_eq, hsto]
  rfl

theorem JournalInv.state_some {stored : TaskState} (h : JournalInv s) (hsto : s.stored = some stored) :
    s.state = .ok (some (restore s.branch stored)) := by
  rw [h.state_eq, hsto]
  rfl

theorem JournalInv.openTask (h : JournalInv s)
    (hst : s.state = .ok (some state)) : ∀ task ∈ state.tasks, OpenTask s task := by
  rw [h.state_eq] at hst
  obtain ⟨stored, hsto, rfl⟩ := Option.map_eq_some_iff.mp (Except.ok.inj hst)
  rw [tasks_restore]
  intro task' htask'
  obtain ⟨task, htask, rfl⟩ := mem_map.mp htask'
  exact (h stored hsto task htask).restore s.branch

theorem stored_append (s : Session) (state : TaskState) : (s.append (.record state)).stored = some state := by
  rw [Session.stored, Session.append, reverse_concat]
  rfl

theorem known_mono {s s' : Session} (hsv : s.saves ≤ s'.saves) (h : s.known id = true) : s'.known id = true := by
  cases id with
  | named _ => rfl
  | uuid save k i =>
    have hlt : save < s.saves := of_decide_eq_true h
    exact decide_eq_true (hlt.trans_le hsv)

theorem known_append (content : Content) (h : s.known id = true) :
    (s.append content).known id = true := known_mono (Nat.le_succ _) h

theorem known_uuid (s : Session) (content : Content) (k : ℕ) : (s.append content).known (s.uuid k) = true := by
  simp [Session.known, Session.append, Session.uuid]

theorem unknown_uuid (s : Session) (k : ℕ) : s.known (s.uuid k) = false := by
  simp [Session.known, Session.uuid]

theorem grows_append (s : Session) (content : Content) :
    s.branch <+: (s.append content).branch ∧ s.saves ≤ (s.append content).saves :=
  ⟨prefix_append .., Nat.le_succ _⟩

theorem JournalInv.append
    (h : ∀ task ∈ state.tasks, OpenTask (s.append (.record state)) task) : JournalInv (s.append (.record state)) := by
  intro stored hsto
  rw [stored_append] at hsto
  cases hsto
  exact h

theorem OpenTask.append (h : OpenTask s task) (content : Content) :
    OpenTask (s.append content) task := ⟨h.distinct, h.active, known_append content h.known⟩

/-- The outcome of a Bash call is on the branch. -/
def Confirmed (s : Session) (tool : RecoveryTool) : Prop := ∃ e ∈ s.branch, (confirmsExit tool e).isSome

/-- The tool of a call has been settled in a task. -/
def Settled (s : Session) (id : EntryId) (c : String) : Prop := ∃ task ∈ s.tasks, task.id = id ∧ settledIn task.tools c

section Reading
variable {s : Session} {state : TaskState}

section
variable (h : JournalInv s)
include h

theorem tasks_eq (hsto : s.stored = some state) : s.tasks = state.tasks.map (restoreTask s.branch) := by
  rw [Session.tasks, h.state_eq, hsto]
  exact tasks_restore ..

/-- An unknown tool of the last record is unknown, unless the branch tells its outcome. -/
theorem unknown_of_stored (hsto : s.stored = some state) (htask : task ∈ state.tasks) (htool : tool ∈ task.tools)
    (hunk : tool.unknown = true) : (task.id, tool) ∈ s.allUnknownTools ∨ Confirmed s tool := by
  obtain ⟨entries, status, hents, heq⟩ := restoreTask_spec s.branch task
  rcases restoreTool_cases entries tool with hsame | ⟨e, he, message, hcon, -⟩
  · left
    rw [Session.allUnknownTools, h.state_eq, hsto]
    refine mem_unknownTools.mpr ⟨restoreTask s.branch task, ?_, ?_⟩
    · rw [tasks_restore]
      exact mem_map_of_mem htask
    · rw [heq]
      refine ⟨(h state hsto task htask).active, rfl, ?_, hunk⟩
      exact mem_map.mpr ⟨tool, htool, hsame⟩
  · exact .inr ⟨e, hents e he, by rw [hcon]; rfl⟩

theorem stored_of_unknown (hmem : (id, tool) ∈ s.allUnknownTools) :
    ∃ state, s.stored = some state ∧ ∃ task ∈ state.tasks, task.id = id ∧ tool ∈ task.tools ∧ tool.unknown = true := by
  rw [Session.allUnknownTools, h.state_eq] at hmem
  cases hsto : s.stored with
  | none =>
    rw [hsto] at hmem
    cases hmem
  | some state =>
    rw [hsto] at hmem
    obtain ⟨task', htask', -, rfl, htool, hunk⟩ := mem_unknownTools.mp hmem
    rw [tasks_restore] at htask'
    obtain ⟨task, htask, rfl⟩ := mem_map.mp htask'
    obtain ⟨entries, status, -, heq⟩ := restoreTask_spec s.branch task
    rw [heq] at htool ⊢
    obtain ⟨tool', htool', hrestored⟩ := mem_map.mp htool
    refine ⟨state, rfl, task, htask, rfl, ?_, hunk⟩
    rcases restoreTool_cases entries tool' with hsame | ⟨_, _, message, -, hres⟩
    · rw [← hrestored, hsame]
      exact htool'
    · rw [← hrestored, hres] at hunk
      simp [RecoveryTool.unknown] at hunk

theorem settled_of_stored (hsto : s.stored = some state)
    (htask : task ∈ state.tasks) (hstl : settledIn task.tools c) : Settled s task.id c := by
  obtain ⟨tool, hmem, hid, ht⟩ := hstl
  obtain ⟨entries, status, -, heq⟩ := restoreTask_spec s.branch task
  refine ⟨restoreTask s.branch task, ?_, by rw [heq], ?_⟩
  · rw [tasks_eq h hsto]
    exact mem_map_of_mem htask
  · rw [heq]
    exact ⟨restoreTool entries tool, mem_map_of_mem hmem, by rw [restoreTool_call, hid],
      ht.imp (restoreTool_isSome entries) fun hd => by rw [restoreTool_dispatched, hd]⟩

theorem result_of_stored (hsto : s.stored = some state)
    (hres : resultIn state.task.tools c) : resultIn s.activeTools c := by
  obtain ⟨tool, hmem, hid, hr⟩ := hres
  obtain ⟨entries, status, -, heq⟩ := restoreTask_spec s.branch state.task
  rw [Session.activeTools, h.state_eq, hsto]
  dsimp only [Option.map_some, restore]
  rw [heq]
  exact ⟨restoreTool entries tool, mem_map_of_mem hmem, by rw [restoreTool_call, hid], restoreTool_isSome entries hr⟩

theorem activeId_eq : s.activeId = s.stored.map (·.task.id) := by
  rw [Session.activeId, h.state_eq]
  cases s.stored with
  | none => rfl
  | some state =>
    obtain ⟨entries, status, -, heq⟩ := restoreTask_spec s.branch state.task
    dsimp only [Option.map_some, restore]
    rw [heq]

theorem known_activeId (hid : s.activeId = some id) : s.known id = true := by
  rw [activeId_eq h] at hid
  obtain ⟨state, hsto, rfl⟩ := Option.map_eq_some_iff.mp hid
  exact (h state hsto state.task mem_cons_self).known

end

end Reading

/-- What an append keeps: the invariant, the unknown tools, and the results of the active task. -/
structure Keeps (effect : Effect) (s s' : Session) : Prop where
  inv : JournalInv s'
  unknown : ∀ id tool, (id, tool) ∈ s.allUnknownTools → (id, tool) ∈ s'.allUnknownTools ∨
    (effect = .settles tool.call.id ∧ Settled s' id tool.call.id) ∨ Confirmed s' tool
  active : s'.activeId = s.activeId ∨ ∃ id, s'.activeId = some id ∧ s.known id = false
  grows : s.branch <+: s'.branch ∧ s.saves ≤ s'.saves
  results : effect ≠ .clears → s'.activeId = s.activeId → ∀ c, resultIn s.activeTools c → resultIn s'.activeTools c

theorem TasksStep.keeps {state state' : TaskState} (h : JournalInv s)
    (hst : s.state = .ok (some state)) (hstep : TasksStep effect state state') :
    Keeps effect s (s.append (.record state')) := by
  have hinv : JournalInv (s.append (.record state')) := by
    refine .append fun task' htask' => ?_
    obtain ⟨task, htask, hid, hret, htls⟩ := Pointwise.left hstep htask'
    have hopen := h.openTask hst task htask
    refine ⟨htls.nodup, hret.trans hopen.active, ?_⟩
    rw [hid]
    exact known_append _ hopen.known
  obtain ⟨⟨hid, -, htls⟩, -⟩ := forall₂_cons.mp hstep
  have hact : s.activeId = some state.task.id := by rw [Session.activeId, hst]
  have hsto := stored_append s state'
  refine ⟨hinv, fun id tool hmem => ?_, .inl ?_, grows_append .., fun hne _ c hres => ?_⟩
  · rw [Session.allUnknownTools, hst] at hmem
    obtain ⟨task, htask, -, rfl, htool, hunk⟩ := mem_unknownTools.mp hmem
    obtain ⟨task', htask', hid, -, htls⟩ := Pointwise.right hstep htask
    rw [← hid]
    rcases htls.unknown tool htool hunk with hmem' | ⟨heff, hstl⟩
    · exact (unknown_of_stored hinv hsto htask' hmem' hunk).imp id .inr
    · exact .inr (.inl ⟨heff, settled_of_stored hinv hsto htask' hstl⟩)
  · rw [activeId_eq hinv, hsto, Option.map_some, hid, hact]
  · rw [Session.activeTools, hst] at hres
    exact result_of_stored hinv hsto (htls.results hne c hres)

/-- Starting a task keeps an unknown tool, as one of a suspended task. -/
theorem start_keeps {prompt : List AgentMessage} {systemPrompt : Option String}
    {ids : Option (List EntryId)} {inheritQueuedInputs : Bool} (hinv : JournalInv s)
    (h : start prompt systemPrompt ids inheritQueuedInputs s = .ok (some content)) :
    Keeps .quiet s (s.append content) := by
  cases hsto : s.stored with
  | none =>
    have hst := hinv.state_none hsto
    have hact : s.activeId = none := by rw [Session.activeId, hst]
    have htls : s.activeTools = [] := by rw [Session.activeTools, hst]
    have hunk : s.allUnknownTools = [] := by rw [Session.allUnknownTools, hst]
    obtain ⟨new, rfl, hid, hret, hnew⟩ : ∃ new : Task, content = .record ⟨new, []⟩ ∧
        new.id = s.uuid 1 ∧ new.retirement = false ∧ new.tools = [] := by
      unfold start at h
      rw [hst] at h
      exact ⟨_, (Option.some.inj (Except.ok.inj h)).symm, rfl, rfl, rfl⟩
    have hinv' : JournalInv (s.append (.record ⟨new, []⟩)) := .append fun task htask => by
      rw [mem_singleton.mp htask]
      exact ⟨by rw [Task.Distinct, hnew]; exact nodup_nil, hret, hid ▸ known_uuid ..⟩
    refine ⟨hinv', by simp [hunk], .inr ⟨_, ?_, unknown_uuid s 1⟩, grows_append .., fun _ _ c hres => ?_⟩
    · rw [activeId_eq hinv', stored_append, Option.map_some, hid]
    rw [htls] at hres
    obtain ⟨_, hmem, -⟩ := hres
    cases hmem
  | some stored =>
    have hst := hinv.state_some hsto
    obtain ⟨new, suspended, rfl, hid, hret, htls, hcase⟩ := start_spec hst h
    generalize restore s.branch stored = state at *
    have hopen := hinv.openTask hst
    have hinv' : JournalInv (s.append (.record ⟨new, state.suspendedTasks ++ suspended⟩)) := by
      refine .append fun task htask => ?_
      rcases mem_cons.mp htask with rfl | htask
      · exact ⟨by rw [Task.Distinct, htls]; exact nodup_nil, hret, hid ▸ known_uuid ..⟩
      · rw [map_append] at htask
        rcases mem_append.mp htask with htask | htask
        · exact (hopen task (mem_cons_of_mem _ htask)).append _
        · rcases hcase with ⟨-, leafId, -, rfl⟩ | ⟨-, rfl⟩
          · rw [mem_singleton.mp htask]
            have hpau := (hopen state.task mem_cons_self).append
              (.record ⟨new, state.suspendedTasks ++ [⟨leafId, pause state.task inheritQueuedInputs⟩]⟩)
            exact ⟨hpau.distinct, hpau.active, hpau.known⟩
          · cases htask
    have hact : s.activeId = some state.task.id := by rw [Session.activeId, hst]
    have hsto' := stored_append s ⟨new, state.suspendedTasks ++ suspended⟩
    have hact' : (s.append (.record ⟨new, state.suspendedTasks ++ suspended⟩)).activeId =
        some (s.uuid 1) := by rw [activeId_eq hinv', hsto', Option.map_some, hid]
    refine ⟨hinv', fun id tool hmem => ?_, .inr ⟨_, hact', unknown_uuid s 1⟩, grows_append .., fun _ heq => ?_⟩
    · rw [Session.allUnknownTools, hst] at hmem
      obtain ⟨task, htask, -, rfl, htool, hunk⟩ := mem_unknownTools.mp hmem
      rcases mem_cons.mp htask with rfl | htask
      · have hsusp : suspending s state.task = true := by
          rw [suspending, (hopen state.task mem_cons_self).active, any_eq_true.mpr ⟨tool, htool, hunk⟩]
          rfl
        rcases hcase with ⟨-, leafId, -, rfl⟩ | ⟨hno, -⟩
        · have hpau : pause state.task inheritQueuedInputs ∈ TaskState.tasks
              ⟨new, state.suspendedTasks ++ [⟨leafId, pause state.task inheritQueuedInputs⟩]⟩ := by
            simp [TaskState.tasks]
          exact (unknown_of_stored hinv' hsto' hpau htool hunk).imp id .inr
        · rw [hsusp] at hno
          cases hno
      · have hkept : task ∈ TaskState.tasks ⟨new, state.suspendedTasks ++ suspended⟩ := by
          rw [TaskState.tasks, map_append]
          exact mem_cons_of_mem _ (mem_append_left _ htask)
        exact (unknown_of_stored hinv' hsto' hkept htool hunk).imp id .inr
    · -- The id of the new task has not been drawn before.
      have hkn := known_activeId hinv (heq.symm.trans hact')
      rw [unknown_uuid] at hkn
      cases hkn

/-- An append of an operation that is none of a retirement. -/
def KeepsSave (effect : Effect) (save : Save) : Prop :=
  ∀ s content, JournalInv s → save s = .ok (some content) → Keeps effect s (s.append content)

theorem Steps.keeps {save : Save} (h : Steps effect save) : KeepsSave effect save := by
  intro s content hinv hsave
  cases hsto : s.stored with
  | none =>
    refine absurd hsave (h.absent s content ?_)
    rw [hinv.state_eq, hsto]
    rfl
  | some stored =>
    have hst := hinv.state_some hsto
    obtain ⟨state', rfl, hstep⟩ := h.present s _ content hst
      (fun task htask => (hinv.openTask hst task htask).distinct) hsave
    exact hstep.keeps hinv hst

namespace Keeps

variable {s s' s'' : Session}

theorem refl (hinv : JournalInv s) : Keeps effect s s :=
  ⟨hinv, fun _ _ h => .inl h, .inl rfl, ⟨prefix_refl _, le_rfl⟩, fun _ _ _ h => h⟩

theorem confirmed (h : Keeps .quiet s s') (hc : Confirmed s tool) : Confirmed s' tool := by
  obtain ⟨e, he, hcon⟩ := hc
  exact ⟨e, h.grows.1.subset he, hcon⟩

theorem trans (hinv : JournalInv s) (h : Keeps .quiet s s') (h' : Keeps .quiet s' s'') : Keeps .quiet s s'' := by
  have hnew : ∀ id, s'.known id = false → s.known id = false := fun id hid => by
    by_contra hkn
    rw [known_mono h.grows.2 (Bool.not_eq_false _ ▸ hkn)] at hid
    cases hid
  refine ⟨h'.inv, fun id tool hmem => ?_, ?_, ⟨h.grows.1.trans h'.grows.1, h.grows.2.trans h'.grows.2⟩,
    fun _ heq c hres => ?_⟩
  · rcases h.unknown id tool hmem with hmem | ⟨hq, -⟩ | hc
    · exact h'.unknown id tool hmem
    · cases hq
    · exact .inr (.inr (h'.confirmed hc))
  · rcases h'.active with heq | ⟨id, hid, hkn⟩
    · rw [heq]
      exact h.active
    · exact .inr ⟨id, hid, hnew id hkn⟩
  · -- The active task has not changed in between: a new one has a new id.
    have hsame : s'.activeId = s.activeId := by
      rcases h.active with hsame | ⟨id, hid, hkn⟩
      · exact hsame
      · rcases h'.active with hsame' | ⟨id', hid', hkn'⟩
        · rw [← hsame', heq]
        · rw [heq] at hid'
          have := known_activeId hinv hid'
          rw [hnew id' hkn'] at this
          cases this
    exact h'.results (by simp) (heq.trans hsame.symm) c (h.results (by simp) hsame c hres)

end Keeps

theorem keeps_perform {saves : List Save} (hsv : ∀ save ∈ saves, KeepsSave .quiet save)
    (hinv : JournalInv s) : Keeps .quiet s (s.perform saves) := by
  induction saves generalizing s with
  | nil => exact .refl hinv
  | cons save saves ih =>
    have ih := fun {s : Session} => ih (s := s) fun save hmem => hsv save (mem_cons_of_mem _ hmem)
    rw [Session.perform]
    split
    · exact .refl hinv
    · exact ih hinv
    · rename_i content h
      have hkp := hsv save mem_cons_self s content hinv h
      exact hkp.trans hinv (ih hkp.inv)

theorem keeps_perform_single {save : Save} (hinv : JournalInv s)
    (hsave : ∀ content, save s = .ok (some content) → Keeps effect s (s.append content)) (n : ℕ) :
    Keeps effect s (s.perform ([save].take n)) := by
  cases n with
  | zero => exact .refl hinv
  | succ n =>
    rw [take_succ_cons, take_nil, Session.perform]
    split
    · exact .refl hinv
    · exact .refl hinv
    · rename_i content h
      exact hsave content h

/-! ### The inputs -/

def Op.settles : Op → Option String
  | .reconcile c _ => some c
  | .reconcileFromEvidence c .. => some c
  | .result _ call _ uncertain _ => if uncertain then none else some call.id
  | .dispatch call .. => some call.id
  | _ => none

def Op.isBeginStep : Op → Bool
  | .beginStep _ => true
  | _ => false

/-- The operations of the journal but for the retirement of tasks; a step begins when every
dispatched tool of the active task has a result. -/
def Op.Allowed (s : Session) : Op → Prop
  | .retireRemovedComputerCaptures _ => False
  | .beginStep _ => ∀ tool ∈ s.activeTools, tool.dispatched = true → tool.result.isSome
  | _ => True

def Input.op? : Input → Option Op
  | .call op => some op
  | .crash op _ => some op
  | _ => none

def Input.Allowed (s : Session) (i : Input) : Prop := ∀ op, i.op? = some op → op.Allowed s

def Op.effect (op : Op) : Effect :=
  match op.settles, op.isBeginStep with
  | some c, _ => .settles c
  | none, true => .clears
  | none, false => .quiet

theorem Keeps.of_quiet {s s' : Session} (h : Keeps .quiet s s') (effect : Effect) : Keeps effect s s' :=
  ⟨h.inv, fun taskId tool hmem =>
    (h.unknown taskId tool hmem).imp_right fun h' => h'.imp_left fun hq => (by cases hq.1), h.active, h.grows, fun _ => h.results (by simp)⟩

theorem keeps_queue (o : Options) (hinv : JournalInv s) (kind : QueueKind)
    (messages : List AgentMessage) (label : Option String) (n : ℕ) :
    Keeps .quiet s (s.perform (((Op.queue kind messages label).saves o s).take n)) := by
  refine keeps_perform (fun save hmem => ?_) hinv
  have hmem := mem_of_mem_take hmem
  have hpre : KeepsSave .quiet (start [] none none true) := fun _ _ hinv h =>
    start_keeps hinv h
  have hupd : ∀ f : Session → TaskState → Task, (∀ s state, (f s state).id = state.task.id ∧
      (f s state).retirement = state.task.retirement ∧ (f s state).tools = state.task.tools) →
      KeepsSave .quiet (update fun s state => .ok { state with task := f s state }) :=
    fun f hf => (steps_update_quiet fun s state state' h => by
      cases h
      exact ⟨_, rfl, (hf s state).1, (hf s state).2.1, (hf s state).2.2⟩).keeps
  unfold Op.saves queue at hmem
  dsimp only at hmem
  split at hmem
  · cases hmem
  · split at hmem
    · rcases mem_cons.mp hmem with rfl | hmem
      · exact hpre
      rcases mem_cons.mp hmem with rfl | hmem
      · exact hupd _ fun _ _ => ⟨rfl, rfl, rfl⟩
      · rw [mem_singleton.mp hmem]
        exact hupd _ fun _ _ => ⟨rfl, rfl, rfl⟩
    · rw [mem_singleton.mp hmem]
      exact hupd _ fun _ _ => ⟨rfl, rfl, rfl⟩
  · rcases mem_cons.mp hmem with rfl | hmem
    · exact hpre
    rcases mem_cons.mp hmem with rfl | hmem
    · exact hupd _ fun _ _ => ⟨rfl, rfl, rfl⟩
    · rw [mem_singleton.mp hmem]
      exact hupd _ fun _ _ => ⟨rfl, rfl, rfl⟩

theorem keepsSave_dispatch (call : ToolCall) (args : Option JsonValue) (safe : Bool)
    (definition parent : Option String) (now : ℚ) :
    KeepsSave (.settles call.id) (dispatch call args safe definition parent now) := by
  intro s content hinv h
  cases hsto : s.stored with
  | none =>
    have hst := hinv.state_none hsto
    simp [dispatch, hst] at h
  | some stored =>
    have hst := hinv.state_some hsto
    obtain ⟨state', rfl, hqt | hsettles⟩ := steps_dispatch call args safe definition parent now hst
      (fun task htask => (hinv.openTask hst task htask).distinct) h
    · exact (hqt.keeps hinv hst).of_quiet _
    · exact hsettles.keeps hinv hst

theorem keeps_beginStep (hinv : JournalInv s) (message : AssistantMessage)
    (hdone : ∀ tool ∈ s.activeTools, tool.dispatched = true → tool.result.isSome)
    (h : beginStep message s = .ok (some content)) : Keeps .clears s (s.append content) := by
  cases hsto : s.stored with
  | none =>
    have hst := hinv.state_none hsto
    exact absurd h (update_absent _ s content hst)
  | some stored =>
    have hst := hinv.state_some hsto
    rw [Session.activeTools, hst] at hdone
    obtain ⟨state', rfl, hstep⟩ := steps_beginStep_of message hst
      (fun task htask => (hinv.openTask hst task htask).distinct) hdone h
    exact hstep.keeps hinv hst

/-- **What an operation keeps**, wherever it is cut by a crash. -/
theorem keeps_op (o : Options) (hinv : JournalInv s) {op : Op} (hop : op.Allowed s) (n : ℕ) :
    Keeps op.effect s (s.perform ((op.saves o s).take n)) := by
  have hste : ∀ {effect : Effect} {save : Save}, Steps effect save →
      Keeps effect s (s.perform ([save].take n)) := fun hste =>
    keeps_perform_single hinv (fun content h => hste.keeps s content hinv h) n
  cases op with
  | start prompt systemPrompt ids inheritQueuedInputs =>
    exact keeps_perform_single hinv (fun content h => start_keeps hinv h) n
  | retireRemovedComputerCaptures installed => cases hop
  | reconcile c resolution => exact hste (steps_reconcile c resolution)
  | reconcileFromEvidence c evidenceIds conclusion failed now =>
    exact hste (steps_reconcileFromEvidence o c evidenceIds conclusion failed now)
  | queue kind messages label => exact keeps_queue o hinv kind messages label n
  | rebindQueuedReceipts => exact hste steps_rebindQueuedReceipts
  | cancelQueued entryIds => exact hste (steps_cancelQueued entryIds)
  | beginStep message =>
    exact keeps_perform_single hinv (fun content h => keeps_beginStep hinv message hop h) n
  | completeItem index block message => exact hste (steps_completeItem index block message)
  | commitAssistant message entryId retryable =>
    exact hste (steps_commitAssistant message entryId retryable)
  | dispatch call args safe definition parent now =>
    exact keeps_perform_single hinv
      (fun content h => keepsSave_dispatch call args safe definition parent now s content hinv h) n
  | result message call terminate uncertain parent =>
    have h := hste (steps_result message call terminate uncertain parent)
    cases uncertain with
    | false => exact h
    | true => exact h
  | recordResultEntry assistantEntryId message resultEntryId =>
    exact hste (steps_recordResultEntry assistantEntryId message resultEntryId)
  | setStatus status | setRetryAttempt retryAttempt =>
    exact hste (steps_update_quiet fun s state state' h => by cases h; exact ⟨_, rfl, rfl, rfl, rfl⟩)

end TaskRecovery
end EasyPi.CodingAgent
