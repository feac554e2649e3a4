/-
# Runs of the task-recovery journal

A tool whose outcome is unknown stays among the unknown tools over every run of the journal, with
crashes between any two appends, until its result is recorded, it is reconciled, or the branch
tells that its command has exited. What would repeat such a tool, or a tool that has a result, is
not dispatched.
-/
import EasyPi.CodingAgent.TaskRecoveryTools

namespace EasyPi.CodingAgent

open List
namespace TaskRecovery

/-! ### Appends of the host -/

section Host
variable {branch : List Entry} {e : Entry}

variable {entries : List Entry} {tool : RecoveryTool} {s : Session} {call : ToolCall} {is : List Input}

theorem entriesBehind_append {anchor : Option EntryId} (h : entriesBehind branch anchor = some entries) :
    entriesBehind (branch ++ [e]) anchor = some (entries ++ [e]) := by
  unfold entriesBehind at h ⊢
  cases anchor with
  | none =>
    cases h
    rfl
  | some anchor =>
    obtain ⟨i, hi, rfl⟩ := Option.map_eq_some_iff.mp h
    have hlt : i < branch.length := (List.findIdx?_eq_some_iff_findIdx_eq.mp hi).1
    have happ : (branch ++ [e]).findIdx? (fun entry => decide (entry.id = anchor)) = some i := by
      rw [List.findIdx?_append, hi]
      rfl
    dsimp only
    rw [happ, Option.map_some, drop_append_of_le_length (by omega)]

theorem restoreTool_append
    (h : (restoreTool entries tool).result.isSome) : (restoreTool (entries ++ [e]) tool).result.isSome := by
  unfold restoreTool at h ⊢
  split at h
  · rename_i hunk
    rw [if_pos hunk, reverse_concat, List.findSome?_cons]
    cases confirmsExit tool e with
    | some message => rfl
    | none => exact h
  · rename_i hunk
    rw [if_neg hunk]
    exact h

theorem restoreTask_tools {task : Task} (h : entriesBehind branch task.anchor = some entries) :
    (restoreTask branch task).tools = task.tools.map (restoreTool entries) := by
  unfold restoreTask
  rw [h]
  dsimp only
  split <;> rfl

theorem resultIn_append {task : Task} {c : String} (h : resultIn (restoreTask branch task).tools c) :
    resultIn (restoreTask (branch ++ [e]) task).tools c := by
  obtain ⟨tool', hmem, hid, hresult⟩ := h
  cases hbeh : entriesBehind branch task.anchor with
  | none =>
    have hsame : restoreTask branch task = task := by rw [restoreTask, hbeh]
    rw [hsame] at hmem
    obtain ⟨entries, status, -, heq⟩ := restoreTask_spec (branch ++ [e]) task
    rw [heq]
    exact ⟨restoreTool entries tool', mem_map_of_mem hmem, by rw [restoreTool_call, hid],
      restoreTool_isSome entries hresult⟩
  | some entries =>
    rw [restoreTask_tools hbeh] at hmem
    obtain ⟨tool, htool, rfl⟩ := mem_map.mp hmem
    rw [restoreTask_tools (entriesBehind_append hbeh)]
    rw [restoreTool_call] at hid
    exact ⟨_, mem_map_of_mem htool, by rw [restoreTool_call, hid], restoreTool_append hresult⟩

end Host

theorem keeps_host (hinv : JournalInv s) {e : Entry} (he : e.record?.isNone = true) :
    Keeps .quiet s { s with branch := s.branch ++ [e] } := by
  have hsto : Session.stored { s with branch := s.branch ++ [e] } = s.stored := by
    rw [Session.stored, reverse_concat, List.findSome?_cons, Option.isNone_iff_eq_none.mp he]
    rfl
  have hinv' : JournalInv { s with branch := s.branch ++ [e] } := fun state h task htask => by
    rw [hsto] at h
    have hopen := hinv state h task htask
    exact ⟨hopen.distinct, hopen.active, hopen.known⟩
  refine ⟨hinv', fun id tool hmem => ?_, .inl ?_, ⟨prefix_append .., le_rfl⟩, fun _ _ c hresult => ?_⟩
  · obtain ⟨state, hst, task, htask, rfl, htool, hunk⟩ := stored_of_unknown hinv hmem
    exact (unknown_of_stored hinv' (hsto.trans hst) htask htool hunk).imp_right .inr
  · rw [activeId_eq hinv', activeId_eq hinv, hsto]
  · rw [Session.activeTools, hinv.state_eq] at hresult
    rw [Session.activeTools, hinv'.state_eq, hsto]
    cases hst : s.stored with
    | none =>
      rw [hst] at hresult
      obtain ⟨_, hmem, -⟩ := hresult
      cases hmem
    | some state =>
      rw [hst] at hresult
      exact resultIn_append hresult

/-- **What an input keeps.** -/
theorem keeps_step (o : Options) (hinv : JournalInv s) {i : Input} (hi : i.Allowed s) :
    Keeps (match i.op? with
      | some op => op.effect
      | none => .quiet) s (s.step o i) := by
  cases i with
  | call op =>
    have h := keeps_op o hinv (hi op rfl) (op.saves o s).length
    rwa [take_length] at h
  | crash op appends => exact keeps_op o hinv (hi op rfl) appends
  | append e =>
    unfold Session.step
    dsimp only [Input.op?]
    split
    · rename_i hadm
      exact keeps_host hinv (Bool.and_eq_true _ _ ▸ hadm).1
    · exact .refl hinv
  | appendElsewhere e =>
    unfold Session.step
    dsimp only [Input.op?]
    split
    · have hinv' : JournalInv { s with elsewhere := s.elsewhere ++ [e] } := fun state h task htask =>
        ⟨(hinv state h task htask).distinct, (hinv state h task htask).active, (hinv state h task htask).known⟩
      exact ⟨hinv', fun _ _ h => .inl h, .inl rfl, ⟨prefix_refl _, le_rfl⟩, fun _ _ _ h => h⟩
    · exact .refl hinv

/-! ### What is not dispatched -/

/-- A dispatch of the call is recorded: after an append the active task has a tool of its id that has no
result. -/
def DispatchRecorded (s s' : Session) (call : ToolCall) : Prop :=
  s.saves < s'.saves ∧ ∃ tool ∈ s'.activeTools, tool.call.id = call.id ∧ tool.result = none

instance (s s' : Session) (call : ToolCall) : Decidable (DispatchRecorded s s' call) :=
  inferInstanceAs (Decidable (_ ∧ ∃ tool ∈ s'.activeTools, _))

theorem not_dispatchRecorded_of_results {state' : TaskState} (hinv' : JournalInv (s.append (.record state')))
    (h : ∀ tool ∈ state'.task.tools, tool.call.id = call.id → tool.result.isSome) :
    ¬ DispatchRecorded s (s.append (.record state')) call := by
  rintro ⟨-, tool, hmem, hid, hnone⟩
  rw [Session.activeTools, hinv'.state_eq, stored_append] at hmem
  obtain ⟨entries, status, -, heq⟩ := restoreTask_spec (s.append (.record state')).branch state'.task
  dsimp only [Option.map_some, restore] at hmem
  rw [heq] at hmem
  obtain ⟨tool', hmem', rfl⟩ := mem_map.mp hmem
  rw [restoreTool_call] at hid
  have hresult := restoreTool_isSome entries (h tool' hmem' hid)
  rw [hnone] at hresult
  cases hresult

theorem result_results {message : ToolResultMessage} {terminate : Bool}
    {parent : Option String} {state : TaskState} {content : Content} (hst : s.state = .ok (some state))
    (h : result message call terminate false parent s = .ok (some content)) :
    ∃ state', content = .record state' ∧ ∀ tool ∈ state'.task.tools, tool.call.id = call.id → tool.result.isSome := by
  obtain ⟨state', hok, rfl⟩ := update_eq_ok hst h
  dsimp only at hok
  split at hok
  · cases hok
  · split at hok
    · rename_i hunc
      simp at hunc
    · cases hok
      refine ⟨_, rfl, fun tool hmem hid => ?_⟩
      rcases mem_append.mp hmem with hmem | hmem
      · exact absurd hid (by simpa using (mem_filter.mp hmem).2)
      · rw [mem_singleton.mp hmem]
        rfl

/-- The call is one that must not be dispatched: the active task has a tool of its id that is unknown
or has a result, or a suspended task has an unknown tool of its name and arguments. -/
def MustRefuse (s : Session) (call : ToolCall) (args : Option JsonValue) : Prop :=
  (∃ tool ∈ s.activeTools, tool.call.id = call.id ∧ (tool.unknown = true ∨ tool.result.isSome)) ∨
    ∃ id tool, (id, tool) ∈ s.allUnknownTools ∧ s.activeId ≠ some id ∧ tool.call.name = call.name ∧
      (deepEqualArgs tool.args args = true ∨ deepEqual tool.call.arguments call.arguments = true)

theorem dispatchTools_error {task : Task} (hd : task.Distinct) (hmem : tool ∈ task.tools) (hid : tool.call.id = call.id)
    (htool : tool.unknown = true ∨ tool.result.isSome) (args : Option JsonValue) (safe : Bool)
    (definition parent : Option String) (tools' : List RecoveryTool) :
    dispatchTools task call args safe definition parent ≠ .ok tools' := by
  intro h
  unfold dispatchTools at h
  split at h
  · cases h
  · split at h
    · cases h
    · rename_i tools hmark
      obtain ⟨g, hg, rfl⟩ := markParents_eq_map hmark
      have hmar := ToolsStep.mark hd hg
      have hgid : (g tool).call.id = call.id := by rcases hg tool with heq | heq <;> rw [heq, ← hid]
      split at h
      · rename_i old hfind
        have hold : g tool = old := eq_of_find? hmar.nodup hfind (mem_map_of_mem hmem) hgid
        split at h
        · cases h
        · rename_i hresult
          split at h
          · cases h
          · rename_i huns
            rcases htool with hunk | htr
            · simp only [RecoveryTool.unknown, Bool.and_eq_true] at hunk
              refine huns ?_
              rw [← hold]
              rcases hg tool with heq | heq <;> rw [heq]
              · exact Bool.and_eq_true _ _ ▸ hunk.1
              · simp [hunk.1.1]
            · refine hresult ?_
              rw [← hold]
              rcases hg tool with heq | heq <;> rw [heq] <;> exact htr
      · rename_i hfind
        exact ne_of_find? hfind (mem_map_of_mem hmem) hgid

theorem dispatch_refused (hinv : JournalInv s) {args : Option JsonValue} (href : MustRefuse s call args) {safe : Bool}
    {definition parent : Option String} {now : ℚ} {content : Content}
    (h : dispatch call args safe definition parent now s = .ok (some content)) :
    ∃ state', content = .record state' ∧ ∀ tool ∈ state'.task.tools, tool.call.id = call.id → tool.result.isSome := by
  cases hsto : s.stored with
  | none =>
    have hst := hinv.state_none hsto
    simp [dispatch, hst] at h
  | some stored =>
    have hst := hinv.state_some hsto
    have hopen := hinv.openTask hst
    generalize restore s.branch stored = state at hst hopen
    unfold dispatch at h
    rw [hst] at h
    dsimp only at h
    split at h
    · exact result_results hst h
    · rename_i hpend
      exfalso
      rcases href with ⟨tool, hmem, hid, htool⟩ | ⟨id, tool, hmem, hne, hname, hargs⟩
      · rw [Session.activeTools, hst] at hmem
        have hd : state.task.Distinct := (hopen state.task mem_cons_self).distinct
        split at h
        · cases h
        · split at h
          · rename_i hcha
            -- A tool that is dispatched as a safe one is not unknown.
            obtain ⟨previous, hpre, hcha⟩ := (Option.any_eq_true _ _).mp hcha
            rw [← eq_of_find? hd hpre hmem hid] at hcha
            simp only [changed, Bool.and_eq_true] at hcha
            obtain ⟨⟨⟨-, hnone⟩, hsafe⟩, -⟩ := hcha
            rcases htool with hunk | hresult
            · simp [RecoveryTool.unknown, hsafe] at hunk
            · rw [Option.isNone_iff_eq_none.mp hnone] at hresult
              cases hresult
          · obtain ⟨state', hok, rfl⟩ := update_eq_ok hst h
            cases htls : dispatchTools state.task call args safe definition parent with
            | error message =>
              rw [htls] at hok
              cases hok
            | ok tools => exact dispatchTools_error hd hmem hid htool _ _ _ _ tools htls
      · rw [Session.allUnknownTools, hst] at hmem
        obtain ⟨task, htask, hret, rfl, htool, hunk⟩ := mem_unknownTools.mp hmem
        rcases mem_cons.mp htask with rfl | htask
        · exact hne (by rw [Session.activeId, hst])
        · obtain ⟨suspended, hsus, rfl⟩ := mem_map.mp htask
          have hin : tool ∈ state.openSuspended.flatMap (·.state.tools) :=
            mem_flatMap.mpr ⟨suspended, mem_filter.mpr ⟨hsus, by simp [hret]⟩, htool⟩
          have hno := List.find?_eq_none.mp hpend tool hin
          refine hno ?_
          simp only [Bool.and_eq_true, Bool.or_eq_true, decide_eq_true_eq]
          exact ⟨⟨hunk, hname⟩, hargs⟩

/-- **A call that must not be dispatched is not.** -/
theorem not_dispatchRecorded (hinv : JournalInv s) {args : Option JsonValue} (href : MustRefuse s call args) (safe : Bool)
    (definition parent : Option String) (now : ℚ) (n : ℕ) :
    ¬ DispatchRecorded s (s.perform ([dispatch call args safe definition parent now].take n)) call := by
  have hsame : ¬ DispatchRecorded s s call := fun h => absurd h.1 (Nat.lt_irrefl _)
  cases n with
  | zero => exact hsame
  | succ n =>
    rw [take_succ_cons, take_nil, Session.perform]
    split
    · exact hsame
    · exact hsame
    · rename_i content h
      have hinv' := (keepsSave_dispatch call args safe definition parent now s content hinv h).inv
      obtain ⟨state', rfl, hres⟩ := dispatch_refused hinv href h
      exact not_dispatchRecorded_of_results hinv' hres

/-! ### What is dispatched -/

/-- The active task has a tool of the call id that is unknown, unless its exit is on the branch, and a call of the
id must not be dispatched. -/
def Marked (s : Session) (c : String) : Prop :=
  (∃ id tool, s.activeId = some id ∧ tool.call.id = c ∧ ((id, tool) ∈ s.allUnknownTools ∨ Confirmed s tool)) ∧
    ∀ (call : ToolCall) (args : Option JsonValue), call.id = c → MustRefuse s call args

section Marks
variable {state : TaskState} {tools : List RecoveryTool} {args : Option JsonValue} {safe : Bool}
  {definition parent : Option String}

/-- A call is let through, with these tools when its callers are marked: the task is running, and its tools of the
call's id belong to the call and neither have a result nor are unknown or changed. -/
structure LetThrough (state : TaskState) (call : ToolCall) (args : Option JsonValue) (safe : Bool)
    (definition parent : Option String) (tools : List RecoveryTool) : Prop where
  running : state.task.status = .running
  pending : pendingTool state call args = none
  callers : markParents state.task.tools.length state.task.tools parent = .ok tools
  owned : ∀ tool ∈ state.task.tools, tool.call.id = call.id → tool.call.name = call.name ∧
    tool.parentToolCallId = parent ∧ changed tool args safe definition = false
  repeatable : ∀ tool ∈ tools, tool.call.id = call.id → tool.result = none ∧ (tool.dispatched = true → tool.safe = true)

theorem marked_of_stored (hinv : JournalInv s) (hsto : s.stored = some state) (htool : tool ∈ state.task.tools)
    (hunk : tool.unknown = true) : Marked s tool.call.id := by
  have hid : s.activeId = some state.task.id := by rw [activeId_eq hinv, hsto]; rfl
  refine ⟨⟨_, tool, hid, rfl, unknown_of_stored hinv hsto mem_cons_self htool hunk⟩, fun call args hcall => .inl ?_⟩
  obtain ⟨entries, status, -, heq⟩ := restoreTask_spec s.branch state.task
  refine ⟨restoreTool entries tool, ?_, (congrArg _ (restoreTool_call entries tool)).trans hcall.symm, ?_⟩
  · rw [Session.activeTools, hinv.state_eq, hsto]
    change _ ∈ (restoreTask s.branch state.task).tools
    rw [heq]
    exact mem_map_of_mem htool
  · rcases restoreTool_cases entries tool with hsame | ⟨_, _, message, -, hres⟩
    · exact .inl (hsame.symm ▸ hunk)
    · exact .inr (by rw [hres]; rfl)

theorem markParents_caller {n : ℕ} {tools tools' : List RecoveryTool} {c : String}
    (h : markParents n tools (some c) = .ok tools') : ∃ tool ∈ tools', tool.call.id = c ∧ tool.unknown = true := by
  cases n with
  | zero => cases h
  | succ n =>
    simp only [markParents] at h
    split at h
    · cases h
    · rename_i caller hfind
      split at h
      · cases h
      · rename_i hactive
        obtain ⟨g, hg, rfl⟩ := markParents_eq_map h
        obtain ⟨hdis, hres⟩ : caller.dispatched = true ∧ caller.result = none := by simpa using hactive
        have hid : caller.call.id = c := by simpa using List.find?_some hfind
        refine ⟨g { caller with safe := false }, mem_map_of_mem ?_, ?_, ?_⟩
        · exact mem_map.mpr ⟨caller, List.mem_of_find?_eq_some hfind, if_pos hid⟩
        · rcases hg { caller with safe := false } with heq | heq <;> rw [heq] <;> exact hid
        · rcases hg { caller with safe := false } with heq | heq <;> rw [heq] <;> simp [RecoveryTool.unknown, hdis, hres]

variable (hinv : JournalInv s) (now : ℚ)
include hinv

theorem marked_append {state' : TaskState} (htool : tool ∈ state'.task.tools) (hunk : tool.unknown = true)
    (h : dispatch call args safe definition parent now s = .ok (some (.record state'))) :
    Marked (s.perform [dispatch call args safe definition parent now]) tool.call.id := by
  have hinv' := (keepsSave_dispatch call args safe definition parent now s _ hinv h).inv
  rw [Session.perform, h]
  exact marked_of_stored hinv' (stored_append s state') htool hunk

variable (hst : s.state = .ok (some state))
include hst

/-- **A dispatch leaves its mark**: a call that is let through as an unsafe one is unknown, and so is its caller. -/
theorem LetThrough.marked (h : LetThrough state call args safe definition parent tools) :
    (safe = false → Marked (s.perform [dispatch call args safe definition parent now]) call.id) ∧
      ∀ c ∈ parent, Marked (s.perform [dispatch call args safe definition parent now]) c := by
  let new : RecoveryTool :=
    { call := call, args := args, safe := safe, definition := definition, dispatched := true, parentToolCallId := parent }
  have hok : dispatch call args safe definition parent now s = .ok (some (.record
      { state with task := { state.task with tools := tools.filter (·.call.id ≠ call.id) ++ [new] } })) := by
    have hnew : dispatchTools state.task call args safe definition parent =
        .ok (tools.filter (·.call.id ≠ call.id) ++ [new]) := by
      rw [dispatchTools, if_neg (not_not.mpr h.running), h.callers]
      dsimp only
      split
      · rename_i old hfind
        obtain ⟨hres, hsafe⟩ := h.repeatable old (List.mem_of_find?_eq_some hfind) (by simpa using List.find?_some hfind)
        rw [if_neg (by simp [hres]), if_neg (by simpa using hsafe)]
      · rfl
    rw [dispatch, hst]
    simp only [h.pending]
    cases hfind : state.task.tools.find? (·.call.id = call.id) with
    | none => simp [update, hst, h.running, hnew]
    | some old =>
      obtain ⟨hname, hparent, hsame⟩ := h.owned old (List.mem_of_find?_eq_some hfind) (by simpa using List.find?_some hfind)
      simp [update, hst, h.running, hnew, hname, hparent, hsame]
  refine ⟨fun hsafe => ?_, fun c hc => ?_⟩
  · have hunk : new.unknown = true := by simp [new, RecoveryTool.unknown, hsafe]
    exact marked_append hinv now (mem_append_right _ mem_cons_self) hunk hok
  · obtain ⟨tool, htool, rfl, hunk⟩ := markParents_caller (hc ▸ h.callers)
    have hne : tool.call.id ≠ call.id := by
      intro heq
      simp only [RecoveryTool.unknown, Bool.and_eq_true] at hunk
      simp [(h.repeatable tool htool heq).2 hunk.1.1] at hunk
    exact marked_append hinv now (mem_append_left _ (mem_filter.mpr ⟨htool, by simpa using hne⟩)) hunk hok

/-- A call that has been dispatched as a safe one and has changed is unknown. -/
theorem changed_marked (hstatus : state.task.status ≠ .completed) (hpend : pendingTool state call args = none)
    (htool : tool ∈ state.task.tools) (hid : tool.call.id = call.id)
    (howner : tool.call.name = call.name ∧ tool.parentToolCallId = parent)
    (hchanged : changed tool args safe definition = true) :
    Marked (s.perform [dispatch call args safe definition parent now]) call.id := by
  have hd : state.task.Distinct := (hinv.openTask hst state.task mem_cons_self).distinct
  have hok : dispatch call args safe definition parent now s = .ok (some (.record { state with task := { state.task with
      tools := changeTool state.task.tools call.id fun tool => { tool with safe := false }
      status := .needsReconciliation } })) := by
    rw [dispatch, hst]
    simp only [hpend]
    cases hfind : state.task.tools.find? (·.call.id = call.id) with
    | none => exact absurd hid (ne_of_find? hfind htool)
    | some old =>
      rw [← eq_of_find? hd hfind htool hid]
      simp [update, hst, hstatus, howner, hchanged]
  let risky : RecoveryTool := { tool with safe := false }
  have hunk : risky.unknown = true := by
    simp only [changed, Bool.and_eq_true] at hchanged
    simp [risky, RecoveryTool.unknown, hchanged]
  have hmem : risky ∈ changeTool state.task.tools call.id fun tool => { tool with safe := false } :=
    mem_map.mpr ⟨tool, htool, if_pos hid⟩
  have hmark := marked_append hinv now hmem hunk hok
  rwa [show risky.call.id = call.id from hid] at hmark

end Marks

/-! ### Runs -/

def Input.settles (i : Input) : Option String := i.op?.bind Op.settles

def Input.isBeginStep (i : Input) : Bool := i.op?.any Op.isBeginStep

def Session.run (o : Options) (s : Session) (is : List Input) : Session := is.foldl (Session.step o) s

/-- What holds of a session `s` of the journal and of every run from it. -/
structure GuardedRun (o : Options) (s : Session) (is : List Input) : Prop where
  /-- A dispatched tool that is not safe and has no result is an unknown one. -/
  listed : ∀ task ∈ s.tasks, ∀ tool ∈ task.tools, tool.dispatched = true → tool.safe = false →
    tool.result = none → (task.id, tool) ∈ s.allUnknownTools
  /-- An unknown tool stays one, until it is settled or its exit is on the branch. -/
  guarded : ∀ id tool, (id, tool) ∈ s.allUnknownTools → (id, tool) ∈ (s.run o is).allUnknownTools ∨
    (∃ is₁ i is₂, is = is₁ ++ i :: is₂ ∧ (id, tool) ∈ (s.run o is₁).allUnknownTools ∧
      i.settles = some tool.call.id ∧ Settled ((s.run o is₁).step o i) id tool.call.id) ∨ Confirmed (s.run o is) tool
  /-- What must not be dispatched is not. -/
  refused : ∀ call args safe definition parent now i,
    i.op? = some (.dispatch call args safe definition parent now) → MustRefuse s call args →
    ¬ DispatchRecorded s (s.step o i) call
  /-- A dispatch that is let through leaves its tool marked if it is not safe, and its caller; a changed one marks
  its tool. -/
  marked : ∀ call args safe definition parent now state, s.state = .ok (some state) →
    let s' := s.step o (.call (.dispatch call args safe definition parent now))
    (∀ tools, LetThrough state call args safe definition parent tools →
      (safe = false → Marked s' call.id) ∧ ∀ c ∈ parent, Marked s' c) ∧
    (state.task.status ≠ .completed → pendingTool state call args = none → ∀ tool ∈ state.task.tools,
      tool.call.id = call.id → tool.call.name = call.name ∧ tool.parentToolCallId = parent →
      changed tool args safe definition = true → Marked s' call.id)
  /-- A result stays until the next step begins or another task is started. -/
  results : (∀ i ∈ is, i.isBeginStep = false) → (s.run o is).activeId = s.activeId →
    ∀ c, resultIn s.activeTools c → resultIn (s.run o is).activeTools c

section Runs
variable (o : Options) {s : Session}

theorem settles_of_effect {op : Op} {c : String} (h : op.effect = .settles c) : op.settles = some c := by
  unfold Op.effect at h
  split at h
  · rename_i hset
    cases h
    exact hset
  · cases h
  · cases h

theorem effect_ne_clears {op : Op} (h : op.isBeginStep = false) : op.effect ≠ .clears := by
  unfold Op.effect
  rw [h]
  cases op.settles <;> simp

section
variable (hinv : JournalInv s)
include hinv

section
variable (h : Along (Session.step o) (fun s i => i.Allowed s) s is)
include h

theorem inv_run : JournalInv (s.run o is) :=
  h.invariant (I := JournalInv) (fun _ _ hs hi => (keeps_step o hs hi).inv) hinv

theorem branch_run : s.branch <+: (s.run o is).branch ∧ s.saves ≤ (s.run o is).saves := by
  induction is generalizing s with
  | nil => exact ⟨prefix_refl _, le_rfl⟩
  | cons i is ih =>
    have hkp := keeps_step o hinv h.1
    obtain ⟨hbra, hsv⟩ := ih hkp.inv h.2
    exact ⟨hkp.grows.1.trans hbra, hkp.grows.2.trans hsv⟩

theorem guarded_run {id : EntryId} (hmem : (id, tool) ∈ s.allUnknownTools) : (id, tool) ∈ (s.run o is).allUnknownTools ∨
    (∃ is₁ i is₂, is = is₁ ++ i :: is₂ ∧ (id, tool) ∈ (s.run o is₁).allUnknownTools ∧
      i.settles = some tool.call.id ∧ Settled ((s.run o is₁).step o i) id tool.call.id) ∨
    Confirmed (s.run o is) tool := by
  induction is generalizing s with
  | nil => exact .inl hmem
  | cons i is ih =>
    have hkp := keeps_step o hinv h.1
    rcases hkp.unknown id tool hmem with hmem' | ⟨heff, hstl⟩ | ⟨e, he, hcon⟩
    · rcases ih hkp.inv h.2 hmem' with h' | ⟨is₁, j, is₂, rfl, hrest⟩ | h'
      · exact .inl h'
      · exact .inr (.inl ⟨i :: is₁, j, is₂, rfl, hrest⟩)
      · exact .inr (.inr h')
    · refine .inr (.inl ⟨[], i, is, rfl, hmem, ?_, hstl⟩)
      unfold Input.settles
      cases hop : i.op? with
      | none =>
        rw [hop] at heff
        cases heff
      | some op =>
        rw [hop] at heff
        exact settles_of_effect heff
    · exact .inr (.inr ⟨e, (branch_run o hkp.inv h.2).1.subset he, hcon⟩)

theorem activeId_run :
    (s.run o is).activeId = s.activeId ∨ ∃ id, (s.run o is).activeId = some id ∧ s.known id = false := by
  induction is generalizing s with
  | nil => exact .inl rfl
  | cons i is ih =>
    have hkp := keeps_step o hinv h.1
    rcases ih hkp.inv h.2 with heq | ⟨id, hid, hkn⟩
    · rcases hkp.active with heq' | ⟨id, hid, hkn⟩
      · exact .inl (heq.trans heq')
      · exact .inr ⟨id, heq.trans hid, hkn⟩
    · refine .inr ⟨id, hid, ?_⟩
      by_contra hk
      rw [known_mono hkp.grows.2 (Bool.not_eq_false _ ▸ hk)] at hkn
      cases hkn

theorem results_run (hstep : ∀ i ∈ is, i.isBeginStep = false) (hact : (s.run o is).activeId = s.activeId) {c : String}
    (hresult : resultIn s.activeTools c) : resultIn (s.run o is).activeTools c := by
  induction is generalizing s with
  | nil => exact hresult
  | cons i is ih =>
    have hkp := keeps_step o hinv h.1
    have hact : ((s.step o i).run o is).activeId = s.activeId := hact
    have hsame : (s.step o i).activeId = s.activeId := by
      rcases activeId_run o hkp.inv h.2 with heq | ⟨id, hid, hkn⟩
      · rw [← heq, hact]
      · rw [hact] at hid
        rw [known_mono hkp.grows.2 (known_activeId hinv hid)] at hkn
        cases hkn
    refine ih hkp.inv h.2 (fun j hj => hstep j (mem_cons_of_mem _ hj)) (hact.trans hsame.symm)
      (hkp.results ?_ hsame c hresult)
    cases hop : i.op? with
    | none => simp
    | some op =>
      refine effect_ne_clears ?_
      have := hstep i mem_cons_self
      rwa [Input.isBeginStep, hop] at this

end

theorem listed_of_inv : ∀ task ∈ s.tasks, ∀ tool ∈ task.tools,
    tool.dispatched = true → tool.safe = false → tool.result = none → (task.id, tool) ∈ s.allUnknownTools := by
  intro task htask tool htool hdis hsafe hresult
  cases hsto : s.stored with
  | none =>
    rw [Session.tasks, hinv.state_eq, hsto] at htask
    cases htask
  | some stored =>
    have hst := hinv.state_some hsto
    rw [Session.tasks, hst] at htask
    rw [Session.allUnknownTools, hst]
    exact mem_unknownTools.mpr ⟨task, htask, (hinv.openTask hst task htask).active, rfl, htool,
      by simp [RecoveryTool.unknown, hdis, hsafe, hresult]⟩

end

end Runs

/-- **Unknown tool effects stay guarded** over every run of the journal on a branch, from every
session that the journal reaches. -/
theorem unknown_guarded (o : Options) {s₀ : Session} (h₀ : s₀.stored = none) (is₁ is₂ : List Input)
    (h₁ : Along (Session.step o) (fun s i => i.Allowed s) s₀ is₁)
    (h₂ : Along (Session.step o) (fun s i => i.Allowed s) (s₀.run o is₁) is₂) : GuardedRun o (s₀.run o is₁) is₂ := by
  have hinv₀ : JournalInv s₀ := fun state h => by rw [h₀] at h; cases h
  have hinv := inv_run o hinv₀ h₁
  refine ⟨listed_of_inv hinv, fun id tool hmem => guarded_run o hinv h₂ hmem, ?_, ?_,
    fun hstep hact c hresult => results_run o hinv h₂ hstep hact hresult⟩
  rotate_left
  · intro call args safe definition parent now state hst
    exact ⟨fun tools h => h.marked hinv now hst, fun hstatus hpend tool htool hid howner hchanged =>
      changed_marked hinv now hst hstatus hpend htool hid howner hchanged⟩
  intro call args safe definition parent now i hi href
  cases i with
  | call op =>
    cases hi
    exact not_dispatchRecorded hinv href safe definition parent now 1
  | crash op n =>
    cases hi
    exact not_dispatchRecorded hinv href safe definition parent now n
  | append e => cases hi
  | appendElsewhere e => cases hi

namespace Reused

/-- A command whose call has the id of another one. -/
def bash (command : String) : ToolCall :=
  { id := "call_1", name := "bash", arguments := .obj [("command", .str command)] }

def dispatched (command : String) : Input :=
  .call (.dispatch (bash command) (some (.obj [("command", .str command)])) false none none 0)

def options : Options := ⟨fun _ => none, fun _ => "", fun _ => .null⟩

def newTask : Input := .call (.start [] none none true)

def exited : Input :=
  .call (.result { toolCallId := "call_1", toolName := "bash", content := [], isError := false }
    (bash "make") false false none)

def nextStep : Input := .call (.beginStep { content := [], stopReason := .pending })

def paused : Session := Session.run options {} [newTask, dispatched "make", newTask]

def recorded : Session := Session.run options {} [newTask, dispatched "make", exited]

/-- A command that is running when another task is started stays guarded. -/
theorem guarded_across_tasks : GuardedRun options (Session.run options {} [newTask, dispatched "make"]) [newTask] :=
  unknown_guarded options rfl _ _ ⟨fun op h => by cases h; trivial, fun op h => by cases h; trivial, trivial⟩
    ⟨fun op h => by cases h; trivial, trivial⟩

/-- **A call id alone does not stop a dispatch**: a command of another task is still unknown when one
of the same call id is dispatched, and the call id of a result is dispatched in the next step. -/
theorem dispatched_again : ((∃ p ∈ paused.allUnknownTools, p.2.call.id = "call_1") ∧
      DispatchRecorded paused (paused.step options (dispatched "ls")) (bash "ls")) ∧
    (∃ tool ∈ recorded.activeTools, tool.call.id = "call_1" ∧ tool.result.isSome) ∧
      (recorded.step options nextStep).activeId = recorded.activeId ∧ DispatchRecorded (recorded.step options nextStep)
        ((recorded.step options nextStep).step options (dispatched "make")) (bash "make") := by
  decide +kernel

end Reused

end TaskRecovery
end EasyPi.CodingAgent
