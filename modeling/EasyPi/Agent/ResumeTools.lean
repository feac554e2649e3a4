/-
# Recovery of a batch of tool calls

`runAgentLoopResumeTools` executes the calls of a recovered response that have no result yet. Its
first part is the batch (`resumeBatch`); the loop then goes on from a turn that has the results of
both, in call order (`recoveredTurn`). Exactly the unresolved calls are prepared, each once, up to
an abort; no result is lost or doubled.
-/
import EasyPi.Agent.Transcript
import EasyPi.Agent.Journal

namespace EasyPi.Agent

open List
namespace Loop

open Async (makes_pure makes_except)

variable {context : AgentContext} {assistant : AssistantMessage} {config : AgentLoopConfig}

/-! ### Starts and executions -/

def startOf? : LoopCall → Option String
  | .emit (.toolExecutionStart toolCallId _ _) => some toolCallId
  | _ => none

def executionOf? : LoopCall → Option String
  | .execute _ call _ => some call.id
  | _ => none

def startsOf (w : LoopWorld) : List String := w.calls.filterMap startOf?

theorem batched_starts (id : String) : Batched (fun c => startOf? c = some id)
    (fun call => if call.id = id then 1 else 0) (fun _ => 0) where
  start call := by
    rw [countP_singleton]
    by_cases h : call.id = id <;> simp [startOf?, h]
  execute _ _ _ := Nat.le_refl 0
  other c hc := by
    refine decide_eq_false fun h => ?_
    unfold startOf? at h
    split at h
    · exact hc
    · cases h

theorem batched_executions (id : String) : Batched (fun c => executionOf? c = some id)
    (fun _ => 0) (fun call => if call.id = id then 1 else 0) where
  start _ := Nat.le_refl 0
  execute assistant call args := by
    rw [countP_singleton]
    by_cases h : call.id = id <;> simp [executionOf?, h]
  other c hc := by
    refine decide_eq_false fun h => ?_
    unfold executionOf? at h
    split at h
    · exact hc
    · cases h

theorem batched_isStart : Batched (fun c => (startOf? c).isSome) (fun _ => 1) (fun _ => 0) where
  start _ := countP_le_length
  execute _ _ _ := Nat.le_refl 0
  other c hc := by
    unfold startOf?
    split
    · exact absurd hc id
    · rfl

/-! ### The batch in order -/

/-- The rules of the loop, with no demand on its calls. -/
abbrev anyCalls : Proc.Rules LoopWorld LoopReply := Async.journal LoopWorld.calls fun _ => True

theorem startsOf_goesOn {w w' : LoopWorld}
    (h : Async.GoesOn LoopWorld.calls (fun c => (startOf? c).isSome) w w') : startsOf w' = startsOf w := by
  obtain ⟨new, hnew, hqt⟩ := h
  have hnil : new.filterMap startOf? = [] := filterMap_eq_nil_iff.mpr fun c hc =>
    Option.not_isSome_iff_eq_none.mp (Bool.eq_false_iff.mp (hqt c hc))
  rw [startsOf, hnew, filterMap_append, hnil, append_nil]
  rfl

section Ordered
variable {α β : Type} {x : Loop α} {V : α → Prop} {U : β → LoopWorld → Prop} {w : LoopWorld}

theorem spec_bind_quiet {f : α → Loop β} (h : Makes (fun c => (startOf? c).isSome) x V 0)
    (hf : ∀ a w', V a → startsOf w' = startsOf w → Async.Spec anyCalls (f a) U w') : Async.Spec anyCalls (x >>= f) U w :=
  Async.spec_bind ((h.spec fun _ _ => trivial).mono fun a w' ⟨ha, hgoes⟩ =>
    hf a w' ha (startsOf_goesOn hgoes))

theorem spec_emitToolExecutionStart {call : ToolCall} : Async.Spec anyCalls (emitToolExecutionStart call)
    (fun _ w' => startsOf w' = startsOf w ++ [call.id]) w := by
  refine spec_callHost_journal trivial fun _ w' hcls => ?_
  rw [startsOf, hcls, filterMap_append]
  rfl

/-- The first calls have been started, as many as there are results. -/
def StartedFirst (calls : List ToolCall) (before : ℕ) (w : LoopWorld) (results : ℕ) (w' : LoopWorld) : Prop :=
  ∃ n ≤ calls.length, results = before + n ∧ startsOf w' = startsOf w ++ (calls.take n).map (·.id)

theorem StartedFirst.cons {call : ToolCall} {calls : List ToolCall} {before results : ℕ}
    {w₁ w' : LoopWorld} (h : StartedFirst calls (before + 1) w₁ results w')
    (hpre : startsOf w₁ = startsOf w ++ [call.id]) : StartedFirst (call :: calls) before w results w' := by
  obtain ⟨n, hn, hres, hsts⟩ := h
  refine ⟨n + 1, Nat.succ_le_succ hn, by omega, ?_⟩
  rw [hsts, hpre, append_assoc]
  rfl

theorem started_executeToolCallsSequential (calls : List ToolCall)
    (finalizedCalls : List FinalizedToolCallOutcome) (messages : List ToolResultMessage) : Async.Spec anyCalls
      (executeToolCallsSequential context assistant config calls finalizedCalls messages)
      (fun batch w' => StartedFirst calls messages.length w batch.messages.length w') w := by
  induction calls generalizing finalizedCalls messages w with
  | nil => exact Async.spec_pure ⟨0, Nat.le_refl 0, rfl, (append_nil _).symm⟩
  | cons call calls ih =>
    unfold executeToolCallsSequential
    refine Async.spec_bind (spec_emitToolExecutionStart.mono fun _ w₁ h₁ => ?_)
    refine spec_bind_quiet (quiet_prepareToolCall batched_isStart) fun prep w₂ hprep h₂ => ?_
    refine spec_bind_quiet (makes_outcomeOf batched_isStart hprep) fun o w₃ _ h₃ => ?_
    refine spec_bind_quiet (quiet_persistToolResult batched_isStart) fun r w₄ _ h₄ => ?_
    refine spec_bind_quiet (quiet_emitToolExecutionEnd batched_isStart) fun _ w₅ _ h₅ => ?_
    refine spec_bind_quiet (quiet_emitToolResultMessage batched_isStart) fun _ w₆ _ h₆ => ?_
    refine spec_bind_quiet quiet_signalAborted fun aborted w₇ _ h₇ => ?_
    have hpre : startsOf w₇ = startsOf w ++ [call.id] := by rw [h₇, h₆, h₅, h₄, h₃, h₂, h₁]
    have hleng : (messages ++ [r.1]).length = messages.length + 1 := by
      rw [length_append, length_singleton]
    split
    · refine Async.spec_pure ⟨1, Nat.succ_le_succ (Nat.zero_le _), hleng, ?_⟩
      rw [hpre]
      rfl
    · refine (ih _ _).mono fun batch w' h => StartedFirst.cons ?_ hpre
      rwa [← hleng]

theorem started_prepareToolCalls (calls : List ToolCall) (entries : List FinalizedToolCallEntry) :
    Async.Spec anyCalls (prepareToolCalls context assistant config calls entries)
      (fun es w' => StartedFirst calls entries.length w es.length w') w := by
  induction calls generalizing entries w with
  | nil => exact Async.spec_pure ⟨0, Nat.le_refl 0, rfl, (append_nil _).symm⟩
  | cons call calls ih =>
    unfold prepareToolCalls
    refine Async.spec_bind (spec_emitToolExecutionStart.mono fun _ w₁ h₁ => ?_)
    refine spec_bind_quiet (quiet_prepareToolCall batched_isStart) fun prep w₂ hprep h₂ => ?_
    refine spec_bind_quiet (quiet_entryOf batched_isStart hprep) fun entry w₃ _ h₃ => ?_
    refine spec_bind_quiet quiet_signalAborted fun aborted w₄ _ h₄ => ?_
    have hpre : startsOf w₄ = startsOf w ++ [call.id] := by rw [h₄, h₃, h₂, h₁]
    have hleng : (entries ++ [entry]).length = entries.length + 1 := by
      rw [length_append, length_singleton]
    split
    · refine Async.spec_pure ⟨1, Nat.succ_le_succ (Nat.zero_le _), hleng, ?_⟩
      rw [hpre]
      rfl
    · refine (ih _).mono fun es w' h => StartedFirst.cons ?_ hpre
      rwa [← hleng]

/-- **A batch starts its first calls in order**, as many as it has results. -/
theorem started_executeToolCalls (fuel : ℕ) (calls : List ToolCall) :
    Async.Spec anyCalls (executeToolCalls fuel context assistant config calls)
      (fun batch w' => StartedFirst calls 0 w batch.messages.length w') w := by
  unfold executeToolCalls
  dsimp only
  split
  · exact started_executeToolCallsSequential calls [] []
  · unfold executeToolCallsParallel
    refine Async.spec_bind ((started_prepareToolCalls calls []).mono fun entries w₁ h₁ => ?_)
    have hrun := @makes_runEntries _ _ _ batched_isStart assistant config fuel entries
    have hzero : (entries.map (entryBound fun _ => 0)).sum = 0 := by
      refine sum_eq_zero fun n hn => ?_
      obtain ⟨entry, -, rfl⟩ := mem_map.mp hn
      cases entry <;> rfl
    rw [hzero] at hrun
    refine (hrun.spec fun _ _ => trivial).mono fun batch w' ⟨hleng, hgoes⟩ => ?_
    obtain ⟨n, hn, hres, hsts⟩ := h₁
    refine ⟨n, hn, hleng.trans hres, ?_⟩
    rw [startsOf_goesOn hgoes, hsts]

end Ordered

/-! ### The recovered batch -/

/-- The first part of `runAgentLoopResumeTools`: the unresolved calls are executed. -/
def resumeBatch (fuel : ℕ) (context : AgentContext) (assistantIndex : ℕ) (assistant : AssistantMessage)
    (completedResults : List ToolResultMessage) (config : AgentLoopConfig) :
    Loop ExecutedToolCallBatch := do
  ExceptT.mk (pure (checkRecovery context assistantIndex assistant completedResults))
  emit .agentStart
  emit .turnStart
  let batch ← executeToolCalls fuel context assistant config (unresolvedCalls assistant completedResults)
  pushNew (batch.messages.map .toolResult)
  return batch

def recoveredTurn (context : AgentContext) (assistantIndex : ℕ) (assistant : AssistantMessage)
    (completedResults : List ToolResultMessage) (batch : ExecutedToolCallBatch) : CompletedTurn :=
  let ordered := orderedResults assistant.toolCalls (completedResults ++ batch.messages)
  { message := assistant
    toolResults := ordered
    context := { context with
      messages := context.messages.take (assistantIndex + 1) ++ ordered.map .toolResult } }

/-- **The loop goes on from the recovered turn**, or the run ends with it. -/
theorem runAgentLoopResumeTools_eq (fuel : ℕ) (index : ℕ) (completed : List ToolResultMessage) :
    runAgentLoopResumeTools fuel context index assistant completed config = (do
      let batch ← resumeBatch fuel context index assistant completed config
      let turn := recoveredTurn context index assistant completed batch
      emit (.turnEnd turn.message turn.toolResults)
      if ← stopAfterRecovery batch turn then emitAgentEnd
      else runLoop fuel turn.context config (some turn)
      Async.read (·.newMessages)) := by
  unfold runAgentLoopResumeTools resumeBatch
  simp only [bind_assoc, pure_bind]
  rfl

theorem boundOf_ids (calls : List ToolCall) (id : String) :
    (calls.map fun call => if call.id = id then 1 else 0).sum = (calls.map (·.id)).count id := by
  induction calls with
  | nil => rfl
  | cons call calls ih =>
    rw [map_cons, sum_cons, ih, map_cons, count_cons, Nat.add_comm]
    simp only [beq_iff_eq]

theorem nodup_of_checkRecovery {index : ℕ} {completed : List ToolResultMessage}
    (h : checkRecovery context index assistant completed = .ok ()) :
    (assistant.toolCalls.map (·.id)).Nodup ∧ validRecovered assistant.toolCalls completed = true := by
  unfold checkRecovery at h
  dsimp only at h
  split_ifs at h with hass hval hstop
  simp only [Bool.or_eq_true, Bool.not_eq_true', decide_eq_false_iff_not, not_or, not_not] at hass
  exact ⟨hass.2, by simpa using hval⟩

theorem nodup_unresolved {completed : List ToolResultMessage} (h : (assistant.toolCalls.map (·.id)).Nodup) :
    ((unresolvedCalls assistant completed).map (·.id)).Nodup :=
  h.sublist (filter_sublist.map _)

theorem makes_resumeBatch {kind : LoopCall → Bool} {starts executions : ToolCall → ℕ} {id : String}
    (h : Batched kind starts executions) (hid : ∀ call, starts call + executions call = if call.id = id then 1 else 0)
    (hpre : kind (.emit .agentStart) = false) (hturn : kind (.emit .turnStart) = false)
    (fuel : ℕ) (index : ℕ) (completed : List ToolResultMessage) :
    Makes kind (resumeBatch fuel context index assistant completed config) (fun _ => True)
      (if id ∈ (unresolvedCalls assistant completed).map (·.id) then 1 else 0) := by
  unfold resumeBatch
  refine (makes_except (V := fun _ => checkRecovery context index assistant completed = .ok ())
    fun _ hchk => hchk).quiet_bind fun _ hchk => ?_
  refine (quiet_emit hpre).quiet_bind fun _ _ => ?_
  refine (quiet_emit hturn).quiet_bind fun _ _ => ?_
  have hbat := @makes_executeToolCalls _ _ _ h context assistant config fuel
    (unresolvedCalls assistant completed)
  have hbd : boundOf starts executions (unresolvedCalls assistant completed) ≤
      if id ∈ (unresolvedCalls assistant completed).map (·.id) then 1 else 0 := by
    rw [boundOf, map_congr_left fun call _ => hid call, boundOf_ids]
    have hnd : ((unresolvedCalls assistant completed).map (·.id)).Nodup :=
      nodup_unresolved (nodup_of_checkRecovery hchk).1
    split
    · exact nodup_iff_count_le_one.mp hnd id
    · rename_i hmem
      rw [count_eq_zero_of_not_mem hmem]
  refine (hbat.bind (m := 0) fun batch _ => ?_).mono (fun _ h => h) hbd
  exact (quiet_pushNew _).quiet_bind fun _ _ => quiet_pure batch

/-! ### The merged results -/

section Merged
variable {calls : List ToolCall} {completed results : List ToolResultMessage}

theorem find?_of_nodup {l : List ToolResultMessage} (h : (l.map (·.toolCallId)).Nodup)
    {r : ToolResultMessage} (hr : r ∈ l) : l.reverse.find? (fun r' => r'.toolCallId = r.toolCallId) = some r := by
  have hsome : (l.reverse.find? fun r' => r'.toolCallId = r.toolCallId).isSome :=
    List.find?_isSome.mpr ⟨r, mem_reverse.mpr hr, by simp⟩
  obtain ⟨r', hr'⟩ := Option.isSome_iff_exists.mp hsome
  have hid : r'.toolCallId = r.toolCallId := by simpa using List.find?_some hr'
  have hmem : r' ∈ l := mem_reverse.mp (mem_of_find?_eq_some hr')
  rw [hr', inj_on_of_nodup_map h hmem hr hid]

theorem map_orderedResults (calls : List ToolCall) (results : List ToolResultMessage) :
    (orderedResults calls results).map (·.toolCallId) =
      (calls.filter fun call => call.id ∈ results.map (·.toolCallId)).map (·.id) := by
  induction calls with
  | nil => rfl
  | cons call calls ih =>
    have hcons : orderedResults (call :: calls) results =
        (results.reverse.find? fun r => r.toolCallId = call.id).toList ++ orderedResults calls results := by
      rw [orderedResults, filterMap_cons]
      cases results.reverse.find? fun r => r.toolCallId = call.id <;> rfl
    rw [hcons, map_append, ih]
    cases hfind : results.reverse.find? fun r => r.toolCallId = call.id with
    | none =>
      have hmem : call.id ∉ results.map (·.toolCallId) := fun hmem => by
        obtain ⟨r, hr, hid⟩ := mem_map.mp hmem
        exact List.find?_eq_none.mp hfind r (mem_reverse.mpr hr) (decide_eq_true hid)
      rw [filter_cons_of_neg (by simpa using hmem)]
      rfl
    | some r =>
      have hid : r.toolCallId = call.id := by simpa using List.find?_some hfind
      have hmem : call.id ∈ results.map (·.toolCallId) :=
        mem_map.mpr ⟨r, mem_reverse.mp (mem_of_find?_eq_some hfind), hid⟩
      rw [filter_cons_of_pos (by simpa using hmem), map_cons, ← hid]
      rfl

theorem orderedResults_perm (hcls : (calls.map (·.id)).Nodup) (hres : (results.map (·.toolCallId)).Nodup)
    (hmem : ∀ r ∈ results, ∃ call ∈ calls, call.id = r.toolCallId) : (orderedResults calls results).Perm results := by
  refine (perm_ext_iff_of_nodup ?_ (List.Nodup.of_map _ hres)).mpr fun r => ?_
  · refine List.Nodup.of_map (f := fun r : ToolResultMessage => r.toolCallId) ?_
    rw [map_orderedResults]
    exact hcls.sublist (filter_sublist.map _)
  · rw [orderedResults, mem_filterMap]
    constructor
    · rintro ⟨call, -, hfind⟩
      exact mem_reverse.mp (mem_of_find?_eq_some hfind)
    · intro hr
      obtain ⟨call, hcall, hid⟩ := hmem r hr
      refine ⟨call, hcall, ?_⟩
      rw [hid]
      exact find?_of_nodup hres hr

theorem mem_unresolved {call : ToolCall} (h : call ∈ unresolvedCalls assistant completed) :
    call ∈ assistant.toolCalls ∧ call.id ∉ completed.map (·.toolCallId) := by
  obtain ⟨hmem, hid⟩ := mem_filter.mp h
  exact ⟨hmem, by simpa using hid⟩

theorem Answers.ids {calls : List ToolCall} {results : List ToolResultMessage} (h : Answers calls results) :
    results.map (·.toolCallId) = calls.map (·.id) := by
  have hfst := congrArg (List.map Prod.fst) h
  rwa [map_map, map_map] at hfst

theorem recovered_perm {index n : ℕ} {messages : List ToolResultMessage}
    (h : checkRecovery context index assistant completed = .ok ())
    (hanss : Answers ((unresolvedCalls assistant completed).take n) messages) :
    (orderedResults assistant.toolCalls (completed ++ messages)).Perm (completed ++ messages) := by
  obtain ⟨hnd, hval⟩ := nodup_of_checkRecovery h
  obtain ⟨hcom, hcls⟩ := of_decide_eq_true hval
  have hids := hanss.ids
  have hunr : ∀ id ∈ messages.map (·.toolCallId), ∃ call ∈ unresolvedCalls assistant completed, call.id = id := by
    intro id hid
    rw [hids] at hid
    obtain ⟨call, hcall, rfl⟩ := mem_map.mp hid
    exact ⟨call, mem_of_mem_take hcall, rfl⟩
  refine orderedResults_perm hnd ?_ fun r hr => ?_
  · rw [map_append]
    refine nodup_append.mpr ⟨hcom, ?_, fun a ha b hb hab => ?_⟩
    · rw [hids]
      exact (nodup_unresolved hnd).sublist ((take_sublist _ _).map _)
    · obtain ⟨call, hcall, rfl⟩ := hunr b hb
      exact (mem_unresolved hcall).2 (hab ▸ ha)
  · rcases mem_append.mp hr with hr | hr
    · obtain ⟨call, hcall, hid, -⟩ := hcls r hr
      exact ⟨call, hcall, hid⟩
    · obtain ⟨call, hcall, hid⟩ := hunr _ (mem_map_of_mem hr)
      exact ⟨call, (mem_unresolved hcall).1, hid⟩

end Merged

/-! ### Runs -/

/-- What is true when the batch has run and its turn is complete. -/
structure Resumed (context : AgentContext) (index : ℕ) (assistant : AssistantMessage)
    (completed : List ToolResultMessage) (batch : ExecutedToolCallBatch) (w : LoopWorld) : Prop where
  accepted : checkRecovery context index assistant completed = .ok ()
  prepared : startsOf w = ((unresolvedCalls assistant completed).take batch.messages.length).map (·.id)
  answers : Answers ((unresolvedCalls assistant completed).take batch.messages.length) batch.messages
  skipped : (unresolvedCalls assistant completed).length ≤ batch.messages.length ∨ w.aborted
  merged : (recoveredTurn context index assistant completed batch).toolResults.Perm
    (completed ++ batch.messages)
  ordered : (recoveredTurn context index assistant completed batch).toolResults.map (·.toolCallId) =
    (assistant.toolCalls.filter fun call =>
      call.id ∈ (completed ++ batch.messages).map (·.toolCallId)).map (·.id)

variable (fuel index : ℕ)

theorem started_resumeBatch (completed : List ToolResultMessage) :
    Async.Spec anyCalls (resumeBatch fuel context index assistant completed config)
      (fun batch w' => StartedFirst (unresolvedCalls assistant completed) 0 {} batch.messages.length w') {} := by
  have hnone : ∀ event, startOf? (.emit event) = none →
      Quiet (fun c => (startOf? c).isSome) (emit event) := fun event h =>
    quiet_emit (by rw [h]; rfl)
  unfold resumeBatch
  refine Async.spec_bind (Async.spec_except fun _ _ => ?_)
  refine spec_bind_quiet (hnone _ rfl) fun _ w₁ _ h₁ => ?_
  refine spec_bind_quiet (hnone _ rfl) fun _ w₂ _ h₂ => ?_
  refine Async.spec_bind ((started_executeToolCalls fuel _).mono fun batch w₃ h₃ => ?_)
  refine spec_bind_quiet (quiet_pushNew _) fun _ w₄ _ h₄ => Async.spec_pure ?_
  obtain ⟨n, hn, hres, hsts⟩ := h₃
  exact ⟨n, hn, hres, by rw [h₄, hsts, h₂, h₁]⟩

/-- The batch answers the first unresolved calls, and all of them unless the signal was aborted. -/
theorem spec_resumeBatch (completed : List ToolResultMessage) : Spec (fun _ => true) (fun _ => True) True
      (resumeBatch fuel context index assistant completed config)
      (fun batch w' => checkRecovery context index assistant completed = .ok () ∧
        BatchOf [] (unresolvedCalls assistant completed) batch.messages w') {} := by
  unfold resumeBatch
  refine spec_bind (spec_except fun _ hchk => ?_)
  refine spec_bind (spec_emit fun w₁ _ => spec_bind (spec_emit fun w₂ _ => ?_))
  have hcls : ∀ c ∈ unresolvedCalls assistant completed, c ∈ assistant.toolCalls := fun c hc =>
    mem_of_mem_filter hc
  refine spec_bind_frame (spec_executeToolCalls (checkRecovery_ok hchk) hcls) fun batch w₃ h₃ _ => ?_
  exact spec_bind (spec_pushNew fun w₄ he₄ => spec_pure ⟨hchk, h₃.evolves he₄.2⟩)

end Loop
end EasyPi.Agent
