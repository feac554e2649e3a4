/-
# How often the agent loop makes a call

Bounds on the calls to the host in the parts of the agent loop: a batch starts and executes each of
its calls once at most.
-/
import EasyPi.Agent.Loop
import EasyPi.Lib.Journal

namespace EasyPi.Agent

open List
namespace Loop

open Async (makes_pure makes_throw makes_except makes_tryCatch makes_finally)

/-- The program makes at most `n` calls of the kind, and returns values of `V` if it does not throw. -/
abbrev Makes {α : Type} (kind : LoopCall → Bool) (x : Loop α) (V : α → Prop) (n : ℕ) : Prop :=
  Async.Makes LoopWorld.calls kind x V n

/-- The program makes no call of the kind. -/
abbrev Quiet {α : Type} (kind : LoopCall → Bool) (x : Loop α) : Prop := Makes kind x (fun _ => True) 0

section Rules
variable {α β : Type} {kind : LoopCall → Bool} {x : Loop α} {V : α → Prop} {n m : ℕ}

theorem quiet_pure (a : α) : Quiet kind (pure a : Loop α) := makes_pure trivial

theorem quiet_signalAborted : Quiet kind signalAborted := Async.makes_read

theorem quiet_newMessages : Quiet kind (Async.read (·.newMessages) : Loop _) := Async.makes_read

theorem quiet_pushNew (ms : List AgentMessage) : Quiet kind (pushNew ms) :=
  Async.makes_act [] fun w r a w' hf => by
    obtain ⟨-, rfl⟩ := Prod.mk.inj (Option.some.inj hf)
    exact (append_nil _).symm

theorem makes_record (call : LoopCall) : Makes kind (record call) (fun _ => True) ([call].countP kind) :=
  Async.makes_act [call] fun w r a w' hf => by
    obtain ⟨-, rfl⟩ := Prod.mk.inj (Option.some.inj hf)
    rfl

theorem makes_callHost (call : LoopCall) (answer : LoopReply → Option α) :
    Makes kind (callHost call answer) (fun _ => True) ([call].countP kind) :=
  (makes_record call).bind (m := 0) fun _ _ => Async.makes_ask

variable {call : LoopCall}

theorem quiet_record (h : kind call = false) : Quiet kind (record call) := by
  have := @makes_record kind call
  rwa [countP_singleton, if_neg (Bool.eq_false_iff.mp h)] at this

theorem quiet_callHost {answer : LoopReply → Option α} (h : kind call = false) : Quiet kind (callHost call answer) := by
  have := @makes_callHost _ kind call answer
  rwa [countP_singleton, if_neg (Bool.eq_false_iff.mp h)] at this

theorem quiet_emit {event : AgentEvent} (h : kind (.emit event) = false) : Quiet kind (emit event) := quiet_callHost h

theorem quiet_forM {γ : Type} {f : γ → Loop Unit} {xs : List γ} (h : ∀ x ∈ xs, Quiet kind (f x)) :
    Quiet kind (xs.forM f) := by
  induction xs with
  | nil => exact quiet_pure ()
  | cons x xs ih =>
    refine (h x mem_cons_self).quiet_bind fun _ _ => ih fun y hy => ?_
    exact h y (mem_cons_of_mem _ hy)

theorem Makes.run (h : Makes kind x V n) (events : List LoopEvent) : (Loop.run x events).2.calls.countP kind ≤ n := by
  have hrun : ∀ (events : List LoopEvent) (s : Proc LoopWorld LoopReply (Except Thrown α) × LoopWorld)
      (m : ℕ), Proc.Makes LoopWorld.calls kind s.1 (Async.Returns V) m →
        s.2.calls.countP kind + m ≤ n → (events.foldl next s).2.calls.countP kind ≤ n := by
    intro events
    induction events with
    | nil => exact fun s m _ hle => Nat.le_trans (Nat.le_add_right _ m) hle
    | cons event events ih =>
      intro s m hs hle
      rw [foldl_cons]
      cases event with
      | abort => exact ih _ m hs hle
      | reply r =>
        rw [next]
        cases hstep : s.1.step s.2 r with
        | none => exact ih s m hs hle
        | some s' =>
          obtain ⟨new, l, hlog, hle', hs'⟩ := hs.step hstep
          refine ih s' l hs' ?_
          rw [hlog, countP_append]
          omega
  refine hrun events _ n h ?_
  rw [countP_nil, Nat.zero_add]

end Rules

/-! ### Good calls -/

theorem spec_callHost_journal {α : Type} {good : List LoopCall → Prop}
    {answer : LoopReply → Option α} {V : α → LoopWorld → Prop} {w : LoopWorld}
    (hgood : good (w.calls ++ [call])) (h : ∀ a w', w'.calls = w.calls ++ [call] → V a w') :
    Async.Spec (Async.journal LoopWorld.calls good) (callHost call answer) V w := by
  have hrec : Async.Spec (Async.journal LoopWorld.calls good) (record call)
      (fun _ w' => w'.calls = w.calls ++ [call]) w := by
    refine Async.wp_modify fun w₁ hr _ => ?_
    have hcls : w₁.calls = w.calls := hr
    have hnew : w₁.calls ++ [call] = w.calls ++ [call] := by rw [hcls]
    refine ⟨show good (w₁.calls ++ [call]) from hnew ▸ hgood, fun _ => ?_⟩
    rintro - ⟨⟩
    exact hnew
  refine Async.spec_bind (hrec.mono fun _ w₁ h₁ => ?_)
  refine Async.wp_ask (fun _ hi => hi) fun w₂ hr _ r _ a _ b hb => ?_
  have hcls : w₂.calls = w₁.calls := hr
  exact h b w₂ (hcls.trans h₁)

theorem run_journal {α : Type} {good : List LoopCall → Prop} {x : Loop α} {V : α → LoopWorld → Prop}
    (h : Async.Spec (Async.journal LoopWorld.calls good) x V {}) (hgood : good [])
    (hV : ∀ a w w', V a w → w'.calls = w.calls → V a w') (events : List LoopEvent) :
    good (run x events).2.calls ∧ ∀ a, (run x events).1 = .pure (.ok a) → V a (run x events).2 := by
  have hrun : ∀ (events : List LoopEvent) (s : Proc LoopWorld LoopReply (Except Thrown α) × LoopWorld),
      Proc.wp (Async.journal LoopWorld.calls good) s.1 (fun r w' => ∀ a, r = .ok a → V a w') s.2 →
      good s.2.calls → Proc.wp (Async.journal LoopWorld.calls good) (events.foldl next s).1
        (fun r w' => ∀ a, r = .ok a → V a w') (events.foldl next s).2 ∧ good (events.foldl next s).2.calls := by
    intro events
    induction events with
    | nil => exact fun s hs hg => ⟨hs, hg⟩
    | cons event events ih =>
      intro s hs hg
      rw [foldl_cons]
      cases event with
      | abort => exact ih _ (Proc.wp_rely hs (fun r w w' hr hc a ha => hV a w w' (hr a ha) hc) rfl) hg
      | reply r =>
        rw [next]
        cases hstep : s.1.step s.2 r with
        | none => exact ih s hs hg
        | some s' =>
          obtain ⟨hg', hs'⟩ := Proc.wp_step hs hg trivial hstep
          exact ih s' (hs' hg') hg'
  obtain ⟨hwp, hg⟩ := hrun events (ExceptT.run x, {}) h hgood
  refine ⟨hg, fun a ha => ?_⟩
  have hpure : Proc.wp (Async.journal LoopWorld.calls good) (run x events).1
      (fun r w' => ∀ a, r = .ok a → V a w') (run x events).2 := hwp
  rw [ha] at hpure
  exact hpure a rfl

/-! ### Batches -/

/-- The calls of a batch other than the starts and the executions. -/
def InBatch : LoopCall → Prop
  | .emit (.toolExecutionUpdate ..) | .emit (.toolExecutionEnd ..)
  | .emit (.messageStart (.toolResult _)) | .emit (.messageEnd (.toolResult _))
  | .admitEffect | .beforeToolCall .. | .admitToolCall .. | .acquire _ | .release
  | .beforeToolDispatch .. | .updateEvents | .afterToolCall .. | .onToolResult .. | .dateNow => True
  | _ => False

/-- How often a call of a batch leads to calls of the kind: when it is started, and executed. -/
structure Batched (kind : LoopCall → Bool) (starts executions : ToolCall → ℕ) : Prop where
  start : ∀ call : ToolCall,
    [LoopCall.emit (.toolExecutionStart call.id call.name call.arguments)].countP kind ≤ starts call
  execute : ∀ assistant call args, [LoopCall.execute assistant call args].countP kind ≤ executions call
  other : ∀ c, InBatch c → kind c = false

def boundOf (starts executions : ToolCall → ℕ) (calls : List ToolCall) : ℕ :=
  (calls.map fun call => starts call + executions call).sum

section Batches
variable {kind : LoopCall → Bool} {starts executions : ToolCall → ℕ} (h : Batched kind starts executions)
  {context : AgentContext} {assistant : AssistantMessage} {config : AgentLoopConfig} {call : ToolCall}
  {prepared : PreparedToolCall}
include h

theorem makes_emitToolExecutionStart : Makes kind (emitToolExecutionStart call) (fun _ => True) (starts call) :=
  (makes_callHost _ _).mono (fun _ => id) (h.start call)

/-- A call that may be executed is the one that was prepared. -/
def PreparedAs (call : ToolCall) (r : ImmediateToolCallOutcome ⊕ PreparedToolCall) : Prop :=
  ∀ p, r = .inr p → p.toolCall = call

omit h in
theorem preparedAs_inl (o : ImmediateToolCallOutcome) : PreparedAs call (.inl o) := by
  rintro p ⟨⟩

theorem quiet_prepareToolCall : Makes kind (prepareToolCall context assistant call config) (PreparedAs call) 0 := by
  unfold prepareToolCall
  split
  · exact makes_pure (preparedAs_inl _)
  refine makes_tryCatch (n := 0) (m := 0) ?_ fun error => makes_pure (preparedAs_inl _)
  refine (makes_except fun _ _ => trivial : Quiet kind _).quiet_bind fun args _ => ?_
  refine (quiet_callHost (h.other _ (by trivial))).quiet_bind fun _ _ => ?_
  refine quiet_signalAborted.quiet_bind fun _ _ => ?_
  split
  · exact makes_pure (preparedAs_inl _)
  split
  · exact makes_pure (preparedAs_inl _)
  refine (makes_except fun _ _ => trivial : Quiet kind _).quiet_bind fun args' _ => ?_
  refine quiet_signalAborted.quiet_bind fun _ _ => ?_
  split
  · exact makes_pure (preparedAs_inl _)
  · refine makes_pure ?_
    rintro p ⟨⟩
    rfl

variable {scheduled : Bool}

theorem quiet_acquireLease {resource : Option ResourceRequest} : Quiet kind (acquireLease scheduled resource) := by
  unfold acquireLease
  split
  · exact quiet_callHost (h.other _ (by trivial))
  · exact quiet_pure _

theorem quiet_releaseLease : Quiet kind (releaseLease scheduled) := by
  unfold releaseLease
  split
  · exact quiet_record (h.other _ (by trivial))
  · exact quiet_pure _

theorem makes_executeTool :
    Makes kind (executeTool assistant prepared) (fun _ => True) (executions prepared.toolCall) := by
  unfold executeTool
  have hexe : Makes kind (callHost (.execute assistant prepared.toolCall prepared.args) isExecuted)
      (fun _ => True) (executions prepared.toolCall) :=
    (makes_callHost _ _).mono (fun _ => id) (h.execute _ _ _)
  refine hexe.bind (m := 0) fun result _ => ?_
  refine (quiet_forM fun update _ => quiet_record (h.other _ (by trivial))).quiet_bind fun _ _ => ?_
  refine (quiet_callHost (h.other _ (by trivial))).quiet_bind fun _ _ => ?_
  split <;> exact quiet_pure _

theorem makes_dispatchToolCall : Makes kind
    (dispatchToolCall assistant prepared scheduled) (fun _ => True) (executions prepared.toolCall) := by
  have hrel : Quiet kind (releaseLease scheduled) := quiet_releaseLease h
  have hrest : Makes kind (do
      let admitted ← callHost .admitEffect isFlag
      if (← signalAborted) || !admitted then
        releaseLease scheduled
        return notStarted "Operation aborted"
      Async.finally_ (executeTool assistant prepared) (releaseLease scheduled))
      (fun _ => True) (executions prepared.toolCall) := by
    refine (quiet_callHost (h.other _ (by trivial))).quiet_bind fun admitted _ => ?_
    refine quiet_signalAborted.quiet_bind fun _ _ => ?_
    split
    · exact hrel.quiet_bind fun _ _ => makes_pure trivial
    · exact makes_finally (makes_executeTool h) hrel
  unfold dispatchToolCall
  refine quiet_signalAborted.quiet_bind fun aborted _ => ?_
  split
  · have hcaught : Quiet kind (tryCatch
        (callHost (.beforeToolDispatch prepared.toolCall prepared.tool prepared.args) isDone)
        fun error => do
          releaseLease scheduled
          throw error) := by
      refine makes_tryCatch (n := 0) (m := 0) (quiet_callHost (h.other _ (by trivial))) fun error => ?_
      exact hrel.quiet_bind fun _ _ => makes_throw error
    exact hcaught.quiet_bind fun _ _ => hrest
  · exact hrest

theorem makes_executePreparedToolCall : Makes kind (executePreparedToolCall assistant prepared config)
    (fun _ => True) (executions prepared.toolCall) := by
  unfold executePreparedToolCall
  dsimp only
  split
  · exact makes_pure trivial
  refine (quiet_callHost (h.other _ (by trivial))).quiet_bind fun admission _ => ?_
  split
  · exact makes_pure trivial
  refine (quiet_acquireLease h).quiet_bind fun granted _ => ?_
  split
  · exact makes_pure trivial
  · exact makes_dispatchToolCall h

theorem quiet_finalizeExecutedToolCall {executed : ExecutedToolCallOutcome} :
    Quiet kind (finalizeExecutedToolCall assistant prepared executed) := by
  refine (makes_tryCatch (n := 0) (m := 0) ?_ fun error => quiet_pure _ : Quiet kind _).quiet_bind
    fun _ _ => quiet_pure _
  refine (quiet_callHost (h.other _ (by trivial))).quiet_bind fun after _ => ?_
  split <;> exact quiet_pure _

theorem makes_executeAndFinalize : Makes kind (executeAndFinalize assistant prepared config)
    (fun _ => True) (executions prepared.toolCall) := by
  unfold executeAndFinalize
  refine (makes_executePreparedToolCall h).bind (m := 0) fun _ _ => ?_
  exact quiet_finalizeExecutedToolCall h

theorem quiet_persistToolResult {o : FinalizedToolCallOutcome} : Quiet kind (persistToolResult o assistant) := by
  unfold persistToolResult
  refine (quiet_callHost (h.other _ (by trivial)) : Quiet kind dateNow).quiet_bind fun now _ => ?_
  exact (quiet_callHost (h.other _ (by trivial))).quiet_bind fun _ _ => quiet_pure _

theorem quiet_emitToolExecutionEnd {o : FinalizedToolCallOutcome} : Quiet kind (emitToolExecutionEnd o) :=
  quiet_emit (h.other _ (by trivial))

theorem quiet_emitToolResultMessage {m : ToolResultMessage} : Quiet kind (emitToolResultMessage m) :=
  (quiet_emit (h.other _ (by trivial))).quiet_bind fun _ _ => quiet_emit (h.other _ (by trivial))

theorem makes_outcomeOf {prep : ImmediateToolCallOutcome ⊕ PreparedToolCall} (hprep : PreparedAs call prep) :
    Makes kind (outcomeOf assistant call config prep) (fun _ => True) (executions call) := by
  cases prep with
  | inl immediate => exact makes_pure trivial
  | inr prepared =>
    have hcall : prepared.toolCall = call := hprep prepared rfl
    rw [← hcall]
    exact makes_executeAndFinalize h

omit h in
theorem boundOf_cons (calls : List ToolCall) : boundOf starts executions (call :: calls) =
    starts call + (executions call + boundOf starts executions calls) := by
  rw [boundOf, map_cons, sum_cons, Nat.add_assoc]
  rfl

theorem makes_failToolCallsFromTruncatedMessage (calls : List ToolCall) (messages : List ToolResultMessage) :
    Makes kind (failToolCallsFromTruncatedMessage assistant calls messages) (fun _ => True)
      (boundOf starts executions calls) := by
  induction calls generalizing messages with
  | nil => exact makes_pure trivial
  | cons call calls ih =>
    unfold failToolCallsFromTruncatedMessage
    rw [boundOf_cons]
    refine (makes_emitToolExecutionStart h).bind fun _ _ => ?_
    refine (quiet_persistToolResult h).quiet_bind fun _ _ => ?_
    refine (quiet_emitToolExecutionEnd h).quiet_bind fun _ _ => ?_
    refine (quiet_emitToolResultMessage h).quiet_bind fun _ _ => ?_
    exact (ih _).mono (fun _ => id) (Nat.le_add_left _ _)

theorem makes_executeToolCallsSequential (calls : List ToolCall)
    (finalizedCalls : List FinalizedToolCallOutcome) (messages : List ToolResultMessage) :
    Makes kind (executeToolCallsSequential context assistant config calls finalizedCalls messages)
      (fun _ => True) (boundOf starts executions calls) := by
  induction calls generalizing finalizedCalls messages with
  | nil => exact makes_pure trivial
  | cons call calls ih =>
    unfold executeToolCallsSequential
    rw [boundOf_cons]
    refine (makes_emitToolExecutionStart h).bind fun _ _ => ?_
    refine (quiet_prepareToolCall h).quiet_bind fun prep hprep => ?_
    refine (makes_outcomeOf h hprep).bind fun o _ => ?_
    refine (quiet_persistToolResult h).quiet_bind fun _ _ => ?_
    refine (quiet_emitToolExecutionEnd h).quiet_bind fun _ _ => ?_
    refine (quiet_emitToolResultMessage h).quiet_bind fun _ _ => ?_
    refine quiet_signalAborted.quiet_bind fun _ _ => ?_
    split
    · exact makes_pure trivial
    · exact ih _ _

/-- An entry that is still to run is of the call. -/
def StillFor (call : ToolCall) (entry : FinalizedToolCallEntry) : Prop := ∀ p, entry = .deferred p → p.toolCall = call

theorem quiet_entryOf {prep : ImmediateToolCallOutcome ⊕ PreparedToolCall} (hprep : PreparedAs call prep) :
    Makes kind (entryOf assistant call prep) (StillFor call) 0 := by
  cases prep with
  | inl immediate =>
    refine (quiet_persistToolResult h).quiet_bind fun _ _ => ?_
    refine (quiet_emitToolExecutionEnd h).quiet_bind fun _ _ => makes_pure ?_
    rintro p ⟨⟩
  | inr prepared =>
    refine makes_pure ?_
    rintro p ⟨⟩
    exact hprep prepared rfl

def EntriesFor (calls : List ToolCall) (entries es : List FinalizedToolCallEntry) : Prop :=
  ∃ n es', es = entries ++ es' ∧ List.Forall₂ StillFor (calls.take n) es'

theorem makes_prepareToolCalls (calls : List ToolCall) (entries : List FinalizedToolCallEntry) :
    Makes kind (prepareToolCalls context assistant config calls entries) (EntriesFor calls entries)
      (calls.map starts).sum := by
  induction calls generalizing entries with
  | nil => exact makes_pure ⟨0, [], (append_nil _).symm, .nil⟩
  | cons call calls ih =>
    unfold prepareToolCalls
    rw [map_cons, sum_cons]
    refine (makes_emitToolExecutionStart h).bind fun _ _ => ?_
    refine (quiet_prepareToolCall h).quiet_bind fun prep hprep => ?_
    refine (quiet_entryOf h hprep).quiet_bind fun entry hent => ?_
    refine quiet_signalAborted.quiet_bind fun _ _ => ?_
    split
    · exact makes_pure ⟨1, [entry], rfl, .cons hent .nil⟩
    · refine (ih (entries ++ [entry])).mono ?_ (Nat.le_refl _)
      rintro es ⟨n, es', rfl, hes'⟩
      exact ⟨n + 1, entry :: es', by rw [append_assoc]; rfl, .cons hent hes'⟩

/-- How often an entry that is still to run leads to calls of the kind. -/
def entryBound (executions : ToolCall → ℕ) : FinalizedToolCallEntry → ℕ
  | .finalized _ => 0
  | .deferred p => executions p.toolCall

theorem makes_runEntry (entry : FinalizedToolCallEntry) :
    Makes kind (runEntry assistant config entry) (fun _ => True) (entryBound executions entry) := by
  cases entry with
  | finalized o => exact makes_pure trivial
  | deferred p =>
    refine (makes_executeAndFinalize h).bind (m := 0) fun o _ => ?_
    refine (quiet_persistToolResult h).quiet_bind fun _ _ => ?_
    exact (quiet_emitToolExecutionEnd h).quiet_bind fun _ _ => quiet_pure _

omit h in
theorem sum_entryBound_le {calls : List ToolCall} {es : List FinalizedToolCallEntry} {n : ℕ}
    (hes : List.Forall₂ StillFor (calls.take n) es) :
    (es.map (entryBound executions)).sum ≤ (calls.map executions).sum := by
  induction calls generalizing n es with
  | nil =>
    rw [take_nil] at hes
    cases hes
    exact Nat.le_refl _
  | cons call calls ih =>
    cases n with
    | zero =>
      cases hes
      exact Nat.zero_le _
    | succ n =>
      obtain ⟨⟩ | ⟨hent, hes⟩ := hes
      rename_i entry es
      have hle : entryBound executions entry ≤ executions call := by
        cases entry with
        | finalized o => exact Nat.zero_le _
        | deferred p => rw [entryBound, hent p rfl]
      rw [map_cons, sum_cons, map_cons, sum_cons]
      exact Nat.add_le_add hle (ih hes)

theorem quiet_emitToolResults (os : List FinalizedToolCallOutcome) (messages : List ToolResultMessage) :
    Makes kind (emitToolResults os messages) (fun ms => ms.length = messages.length + os.length) 0 := by
  induction os generalizing messages with
  | nil => exact makes_pure rfl
  | cons o os ih =>
    unfold emitToolResults
    have hmes : Quiet kind (resultMessage o) := by
      unfold resultMessage
      split
      · exact quiet_pure _
      · exact (quiet_callHost (h.other _ (by trivial)) : Quiet kind dateNow).quiet_bind fun _ _ => quiet_pure _
    refine hmes.quiet_bind fun m _ => ?_
    refine (quiet_emitToolResultMessage h).quiet_bind fun _ _ => ?_
    refine (ih _).mono (fun ms hms => ?_) (Nat.le_refl _)
    rw [hms, length_append, length_singleton, length_cons]
    omega

omit h in
theorem length_fulfilled {rs : List (Except Thrown FinalizedToolCallOutcome)}
    {os : List FinalizedToolCallOutcome} (hf : fulfilled rs = .ok os) : os.length = rs.length := by
  induction rs generalizing os with
  | nil =>
    cases hf
    rfl
  | cons r rs ih =>
    cases r with
    | error error => cases hf
    | ok o =>
      rw [fulfilled] at hf
      cases hrest : fulfilled rs with
      | error error =>
        rw [hrest] at hf
        cases hf
      | ok os' =>
        rw [hrest] at hf
        cases hf
        rw [length_cons, length_cons, ih hrest]

theorem makes_runEntries (fuel : ℕ) (entries : List FinalizedToolCallEntry) :
    Makes kind (do
      let outcomes ← ExceptT.lift (Proc.interleave isPick fuel
        (entries.map fun entry => ExceptT.run (runEntry assistant config entry)))
      let ordered ← ExceptT.mk (pure (fulfilled outcomes))
      let messages ← emitToolResults ordered []
      return { messages, terminate := shouldTerminateToolBatch ordered })
      (fun batch : ExecutedToolCallBatch => batch.messages.length = entries.length)
      (entries.map (entryBound executions)).sum := by
  have hall : Proc.MakesAll LoopWorld.calls kind
      (entries.map fun entry => ExceptT.run (runEntry assistant config entry))
      (entries.map fun entry => (fun _ => True, entryBound executions entry)) := by
    rw [Proc.MakesAll, forall₂_map_left_iff, forall₂_map_right_iff]
    exact forall₂_same.mpr fun entry _ =>
      Proc.Makes.mono (makes_runEntry h entry) (fun _ _ => trivial) (Nat.le_refl _)
  have hrun := @Proc.makes_interleave _ _ _ _ _ _ isPick fuel _ _ hall
  rw [map_map] at hrun
  refine Async.Makes.bind (m := 0) (Async.Makes.lift hrun) fun outcomes hout => ?_
  have hlen := hout.length_eq
  refine (makes_except (V := fun os => os.length = entries.length) fun os hos => ?_).quiet_bind
    fun os hos => ?_
  · rw [length_fulfilled hos, hlen, length_map]
  · refine (quiet_emitToolResults h os []).quiet_bind fun ms hms => makes_pure ?_
    rw [hms, length_nil, Nat.zero_add, hos]

/-- **A batch makes the calls of each of its tool calls**, one after the other or side by side. -/
theorem makes_executeToolCalls (fuel : ℕ) (calls : List ToolCall) :
    Makes kind (executeToolCalls fuel context assistant config calls) (fun _ => True)
      (boundOf starts executions calls) := by
  unfold executeToolCalls
  dsimp only
  split
  · exact makes_executeToolCallsSequential h calls [] []
  · have hsum : boundOf starts executions calls = (calls.map starts).sum + (calls.map executions).sum := by
      rw [boundOf, sum_map_add]
    rw [hsum]
    unfold executeToolCallsParallel
    refine (makes_prepareToolCalls h calls []).bind ?_
    rintro entries ⟨n, es, rfl, hes⟩
    exact (makes_runEntries h fuel _).mono (fun _ _ => trivial) (sum_entryBound_le hes)

end Batches

end Loop
end EasyPi.Agent
