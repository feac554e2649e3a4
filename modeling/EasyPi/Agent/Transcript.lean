/-
# Transcripts of the agent loop

The loop asks the provider only when its transcript is paired: a block is cut
only by an abort, and an aborted run makes no request. The steps of a turn
are followed one by one; `Between` holds before and after each turn, and
`Ended` when the run returns.
-/
import EasyPi.Agent.Pairing

namespace EasyPi.Agent

open List
namespace Loop

section Turn

variable {plain : AgentMessage → Bool} {ok : List AgentMessage → Prop} {base : List AgentMessage} {w : LoopWorld} {fuel : ℕ}
  {s : LoopState}

/-- The transcript of this world is one between two turns. -/
def AtTurn (plain : AgentMessage → Bool) (base : List AgentMessage) (w : LoopWorld) : Prop :=
  Between plain base w.aborted w.newMessages

theorem AtTurn.evolves {w' : LoopWorld} (h : AtTurn plain base w) (he : Evolves w w') : AtTurn plain base w' := by
  unfold AtTurn
  rw [he.1]
  exact h.mono he.2

/-- The messages still to be injected are plain. -/
def PlainPending (plain : AgentMessage → Bool) (s : LoopState) : Prop := ∀ m ∈ s.pendingMessages, plain m

theorem spec_getSteeringMessages : Spec plain ok False getSteeringMessages (fun ms _ => ∀ m ∈ ms, plain m) w := by
  refine spec_callHost trivial fun w' r ms _ hr hms => ?_
  cases r <;> cases hms
  exact all_eq_true.mp hr

theorem spec_getFollowUpMessages : Spec plain ok False getFollowUpMessages (fun ms _ => ∀ m ∈ ms, plain m) w := by
  refine spec_callHost trivial fun w' r ms _ hr hms => ?_
  cases r <;> cases hms
  exact all_eq_true.mp hr

theorem spec_resolveSystemPrompt {snapshot : String} :
    Spec plain ok False (resolveSystemPrompt snapshot) (fun _ _ => True) w := by
  refine spec_tryCatch ?_ fun _ _ => spec_pure trivial
  exact spec_bind (spec_callHost trivial fun _ _ _ _ _ _ => spec_pure trivial)

theorem spec_pollSteering {pending : List AgentMessage} (h : ∀ m ∈ pending, plain m) :
    Spec plain ok False (pollSteering pending) (fun ms _ => ∀ m ∈ ms, plain m) w := by
  unfold pollSteering
  split
  · exact spec_getSteeringMessages
  · exact spec_pure h

theorem spec_prepareNextTurn (h : PlainPending plain s) :
    Spec plain ok False (prepareNextTurn s) (fun s' _ => PlainPending plain s') w := by
  unfold prepareNextTurn
  split
  · exact spec_pure h
  · refine spec_bind (spec_callHost trivial fun w₁ _ update _ _ _ => ?_)
    dsimp only
    refine spec_bind (spec_mono (spec_pollSteering h) fun ms w₂ hms => ?_)
    exact spec_bind (spec_emit fun _ _ => spec_pure hms)

variable {context : AgentContext} {ms : List AgentMessage}

theorem spec_injectMessages (hms : ∀ m ∈ ms, plain m) (h : AtTurn plain base w) :
    Spec plain ok True (injectMessages ms context) (fun _ w' => AtTurn plain base w') w := by
  induction ms generalizing w context with
  | nil => exact spec_pure h
  | cons m ms ih =>
    unfold injectMessages
    refine spec_bind (spec_emit fun w₁ he₁ => spec_bind (spec_emit fun w₂ he₂ => ?_))
    refine spec_bind (spec_pushNew fun w₃ he₃ => ih ?_ ?_)
    · exact fun m' hm' => hms m' (mem_cons_of_mem _ hm')
    · exact Between.inject (h.evolves (he₁.trans (he₂.trans he₃))) (hms m (by simp))

theorem spec_injectPending (hs : PlainPending plain s) (h : AtTurn plain base w) :
    Spec plain ok True (injectPending s) (fun s' w' => s'.pendingMessages = [] ∧ AtTurn plain base w') w := by
  unfold injectPending
  split
  · rename_i hnil
    exact spec_pure ⟨isEmpty_iff.mp hnil, h⟩
  · refine spec_bind (spec_mono (spec_injectMessages hs h) fun context w₁ h₁ => ?_)
    refine spec_bind_frame spec_resolveSystemPrompt fun prompt w₂ _ he => ?_
    exact spec_pure ⟨rfl, h₁.evolves he⟩

theorem spec_bindStep : Spec plain ok False (bindStep s) (fun s' _ => s'.pendingMessages = s.pendingMessages) w := by
  unfold bindStep
  refine spec_bind (spec_callHost trivial fun w₁ _ update _ _ _ => ?_)
  dsimp only
  exact spec_bind (spec_callHost trivial fun w₂ _ _ _ _ _ => spec_pure rfl)

/-! ### The response -/

variable {st : StreamState}

theorem spec_updatePartial {snapshot : AssistantMessage} :
    Spec plain ok False (updatePartial st snapshot) (fun _ _ => True) w := by
  unfold updatePartial
  split
  · exact spec_bind (spec_emit fun _ _ => spec_pure trivial)
  · exact spec_pure trivial

theorem spec_readResponse {stepId : Option String} :
    Spec plain ok False (readResponse stepId fuel st) (fun _ _ => True) w := by
  induction fuel generalizing st w with
  | zero => exact spec_spent
  | succ fuel ih =>
    unfold readResponse
    refine spec_bind (spec_callHost trivial fun w₁ _ event _ _ _ => ?_)
    split
    · exact spec_pure trivial
    · exact spec_pure trivial
    · exact spec_bind (spec_emit fun _ _ => ih)
    · exact spec_bind (spec_mono spec_updatePartial fun _ _ _ => ih)
    · split
      · refine spec_bind (spec_callHost trivial fun w₂ _ _ _ _ _ => ?_)
        exact spec_bind (spec_mono spec_updatePartial fun _ _ _ => ih)
      · exact spec_bind (spec_mono spec_updatePartial fun _ _ _ => ih)

variable {m : AssistantMessage}

theorem spec_endPartial : Spec plain ok False (endPartial st m) (fun _ _ => True) w := by
  unfold endPartial
  split
  · exact spec_pure trivial
  · exact spec_bind (spec_emit fun _ _ => spec_pure trivial)

theorem splitResponse_checkpoint {patterns : ErrorPatterns} {aborted : Bool}
    {m c : AssistantMessage} {completed : OrdMap ℕ AssistantBlock}
    (h : (splitResponse patterns aborted m completed).checkpoint = some c) :
    Executable c ∧ Terminal (splitResponse patterns aborted m completed).message := by
  unfold splitResponse at h ⊢
  dsimp only at h ⊢
  split_ifs at h ⊢ with hif
  cases h
  simp only [Bool.and_eq_true, Bool.not_eq_true', isRetryableAssistantError, decide_eq_true_eq] at hif
  refine ⟨?_, .inl hif.1.2.1.1⟩
  unfold Executable checkpointMessage
  dsimp only
  split <;> decide

/-- What a streamed response leaves: the transcript as it was, paired unless
the run is aborted and the response ends it. -/
structure Streamed (plain : AgentMessage → Bool) (base : List AgentMessage) (r : StreamedAssistantResponse) (w : LoopWorld) :
    Prop where
  transcript : Paired plain base w.newMessages ∨
    w.aborted ∧ Cut plain base w.newMessages ∧ r.checkpoint = none ∧ Terminal r.message
  checkpoint : ∀ c, r.checkpoint = some c → Executable c ∧ Terminal r.message

theorem Streamed.of_aborted (h : AtTurn plain base w) (hm : Terminal m) : Streamed plain base { message := m } w := by
  refine ⟨?_, ?_⟩
  · rcases h with hp | ⟨hab, hc⟩
    · exact .inl hp
    · exact .inr ⟨hab, hc, rfl, hm⟩
  · rintro c ⟨⟩

theorem spec_admitRequest : Spec plain ok False admitRequest (fun b _ => b → w.aborted = false) w := by
  unfold admitRequest
  refine spec_bind (spec_signalAborted fun w₁ he => ?_)
  split
  · exact spec_pure nofun
  · rename_i hab
    refine spec_callHost trivial fun w₂ _ b _ _ _ _ => ?_
    exact Bool.eq_false_iff.mpr fun h => hab (he.2 h)

theorem spec_buildProviderContext : Spec plain ok False (buildProviderContext context) (fun _ _ => True) w :=
  spec_bind (spec_callHost trivial fun _ _ _ _ _ _ =>
    spec_bind (spec_callHost trivial fun _ _ _ _ _ _ => spec_pure trivial))

variable {config : AgentLoopConfig}

variable (hok : ∀ ms, Paired plain base ms → ok ms)

include hok in
theorem spec_streamAssistantResponse (h : AtTurn plain base w) :
    Spec plain ok False (streamAssistantResponse fuel context config) (fun r w' => Streamed plain base r.1 w') w := by
  unfold streamAssistantResponse
  refine spec_bind_frame spec_buildProviderContext fun llmContext w₁ _ he₁ => ?_
  refine spec_bind_frame spec_resolveSystemPrompt fun prompt w₂ _ he₂ => ?_
  refine spec_bind (spec_callHost trivial fun w₃ _ apiKey he₃ _ _ => ?_)
  have h₃ := h.evolves (he₁.trans (he₂.trans he₃))
  refine spec_bind_frame spec_admitRequest fun admitted w₄ hadm he₄ => ?_
  have h₄ := h₃.evolves he₄
  split
  · refine spec_bind_frame spec_dateNow fun now w₅ _ he₅ => ?_
    refine spec_bind (spec_emit fun w₆ he₆ => spec_pure ?_)
    exact .of_aborted (h₄.evolves (he₅.trans he₆)) (.inr rfl)
  · rename_i hadm'
    -- The signal was not aborted before the request, so no block is cut.
    have hpai : Paired plain base w₄.newMessages := by
      have hab := hadm (by simpa using hadm')
      rw [he₄.1]
      exact Between.paired (hab ▸ h₃)
    refine spec_bind (spec_newMessages fun w₅ he₅ => ?_)
    have hp₅ : Paired plain base w₅.newMessages := he₅.1 ▸ hpai
    refine spec_bind (spec_callHost (hok _ hp₅) fun w₆ _ _ he₆ _ _ => ?_)
    refine spec_bind_frame spec_readResponse fun st w₇ _ he₇ => ?_
    refine spec_bind (spec_callHost trivial fun w₈ _ result he₈ _ _ => ?_)
    refine spec_bind (spec_signalAborted fun w₉ he₉ => ?_)
    refine spec_bind_frame spec_endPartial fun messages w₁₀ _ he₁₀ => ?_
    refine spec_bind (spec_signalAborted fun w₁₁ he₁₁ => spec_pure ?_)
    have he := he₆.trans (he₇.trans (he₈.trans (he₉.trans (he₁₀.trans he₁₁))))
    exact ⟨.inl (he.1 ▸ hp₅), fun c hc => splitResponse_checkpoint hc⟩

theorem spec_checkpointBatch {c : AssistantMessage} (hc : Executable c) :
    Spec plain ok False (checkpointBatch fuel context c config) (fun b w' => BatchOf [] c.toolCalls b.messages w') w := by
  unfold checkpointBatch
  split
  · rename_i hnil
    refine spec_pure ⟨0, rfl, .inl ?_⟩
    simp [isEmpty_iff.mp hnil]
  · exact spec_executeToolCalls hc fun _ => id

theorem stopRecovery_terminal {stopped : Bool} (h : Terminal m) : Terminal (stopRecovery stopped m) := by
  unfold stopRecovery
  split
  · exact .inr rfl
  · exact h

/-- The calls of a committed response are answered: a block, complete unless
the signal was aborted. -/
theorem AtTurn.of_batch {a : AssistantMessage} {results : List ToolResultMessage}
    {w : LoopWorld} (h : Paired plain base ms) (hw : w.newMessages = ms ++ [.assistant a] ++ results.map .toolResult)
    (hb : BatchOf [] a.toolCalls results w) : AtTurn plain base w := by
  obtain ⟨n, hn, hlen⟩ := hb
  have := h.between_block hn hlen
  unfold AtTurn
  rw [hw]
  simpa [blockOf] using this

variable {w w' : LoopWorld}

theorem BatchOf.evolves {before calls : List ToolCall} {results : List ToolResultMessage}
    (h : BatchOf before calls results w) (hab : w.aborted → w'.aborted) : BatchOf before calls results w' := by
  obtain ⟨n, hn, hlen⟩ := h
  exact ⟨n, hn, hlen.imp_right hab⟩

theorem spec_commitCheckpoint {c m : AssistantMessage} (h : Paired plain base w.newMessages) (hc : Executable c)
    (hm : Terminal m) : Spec plain ok True (commitCheckpoint fuel config context c m)
      (fun r w' => AtTurn plain base w' ∧ Terminal r.1) w := by
  unfold commitCheckpoint
  refine spec_bind (spec_pushNew fun w₁ he₁ => spec_bind (spec_emit fun w₂ he₂ => ?_))
  refine spec_bind_frame (spec_checkpointBatch hc) fun batch w₃ hb he₃ => ?_
  refine spec_bind (spec_pushNew fun w₄ he₄ => ?_)
  have h₄ : AtTurn plain base
      { w₄ with newMessages := w₄.newMessages ++ batch.messages.map .toolResult } := by
    refine .of_batch (he₁.1 ▸ h) ?_ (hb.evolves he₄.2)
    rw [he₄.1, he₃.1, he₂.1]
  refine spec_bind (spec_signalAborted fun w₅ he₅ => ?_)
  refine spec_bind (spec_emit fun w₆ he₆ => spec_pure ⟨?_, stopRecovery_terminal hm⟩)
  exact h₄.evolves (he₅.trans he₆)

/-- After the response is committed the transcript ends with it. What is
before it is paired, unless the response ends the run. -/
def Committed (plain : AgentMessage → Bool) (base : List AgentMessage) (m : AssistantMessage) (w : LoopWorld) : Prop :=
  ∃ ms, w.newMessages = ms ++ [.assistant m] ∧ (Paired plain base ms ∨ Terminal m ∧ Between plain base w.aborted ms)

theorem Committed.evolves {w' : LoopWorld} (h : Committed plain base m w)
    (he : Evolves w w') : Committed plain base m w' := by
  obtain ⟨ms, hms, hb⟩ := h
  exact ⟨ms, he.1.trans hms, hb.imp_right fun ⟨ht, hb⟩ => ⟨ht, hb.mono he.2⟩⟩

theorem spec_recoverResponse {r : StreamedAssistantResponse} (h : Streamed plain base r w) :
    Spec plain ok True (recoverResponse fuel config context r)
      (fun m w' => Paired plain base w'.newMessages ∨ Terminal m.1 ∧ AtTurn plain base w') w := by
  unfold recoverResponse
  split
  · refine spec_pure ?_
    rcases h.transcript with hp | ⟨hab, hc, -, hm⟩
    · exact .inl hp
    · exact .inr ⟨hm, .inr ⟨hab, hc⟩⟩
  · rename_i c hc
    obtain ⟨hexec, hterm⟩ := h.checkpoint c hc
    have hp : Paired plain base w.newMessages := by
      rcases h.transcript with hp | ⟨-, -, hnone, -⟩
      · exact hp
      · rw [hnone] at hc
        cases hc
    exact spec_mono (spec_commitCheckpoint hp hexec hterm) fun m w' hm => .inr hm.symm

include hok in
theorem spec_commitResponse (h : AtTurn plain base w) : Spec plain ok True (commitResponse fuel s)
      (fun r w' => Committed plain base r.1 w' ∧ r.2.2.pendingMessages = s.pendingMessages) w := by
  unfold commitResponse
  refine spec_bind_frame (spec_streamAssistantResponse hok h) fun (streamed, context) w₁ h₁ _ => ?_
  refine spec_bind (spec_mono (spec_recoverResponse h₁) fun (m, recovered, context) w₂ h₂ => ?_)
  refine spec_bind (spec_pushNew fun w₃ he₃ => spec_bind (spec_emit fun w₄ he₄ => spec_pure ?_))
  refine ⟨Committed.evolves ⟨w₃.newMessages, rfl, ?_⟩ he₄, rfl⟩
  exact h₂.imp (fun hp => he₃.1 ▸ hp) fun ⟨ht, ha⟩ => ⟨ht, ha.evolves he₃⟩

/-! ### Turns and runs -/

def AtEnd (plain : AgentMessage → Bool) (base : List AgentMessage) (w : LoopWorld) : Prop := Ended plain base w.aborted w.newMessages

theorem AtEnd.evolves {w' : LoopWorld} (h : AtEnd plain base w) (he : Evolves w w') : AtEnd plain base w' := by
  unfold AtEnd
  rw [he.1]
  exact h.mono he.2

theorem AtTurn.atEnd (h : AtTurn plain base w) : AtEnd plain base w := .inl h

theorem Committed.atEnd (h : Committed plain base m w) (hm : Terminal m) : AtEnd plain base w := by
  obtain ⟨ms, hms, hb⟩ := h
  exact .inr ⟨ms, m, hms, hb.elim .inl And.right, hm⟩

theorem spec_emitAgentEnd (h : AtEnd plain base w) :
    Spec plain ok False emitAgentEnd (fun _ w' => AtEnd plain base w') w := by
  unfold emitAgentEnd
  refine spec_bind (spec_newMessages fun w₁ he₁ => spec_emit fun w₂ he₂ => ?_)
  exact h.evolves (he₁.trans he₂)

theorem spec_responseBatch (hm : ¬ Terminal m) :
    Spec plain ok False (responseBatch fuel s m) (fun b w' => BatchOf [] m.toolCalls b.messages w') w := by
  unfold responseBatch
  split
  · exact spec_failToolCallsFromTruncatedMessage rfl
  · rename_i hlen
    exact spec_executeToolCalls ⟨fun h => hm (.inl h), fun h => hm (.inr h), hlen⟩ fun _ => id

theorem spec_runToolCalls (hm : ¬ Terminal m) (h : Committed plain base m w) :
    Spec plain ok True (runToolCalls fuel s m) (fun _ w' => AtTurn plain base w') w := by
  obtain ⟨ms, hms, hb⟩ := h
  have hp : Paired plain base ms := hb.resolve_right fun hb => hm hb.1
  unfold runToolCalls
  split
  · rename_i hnil
    have hbat : BatchOf [] m.toolCalls [] w := ⟨0, rfl, .inl (by simp [isEmpty_iff.mp hnil])⟩
    exact spec_pure (.of_batch hp (by simpa using hms) hbat)
  · refine spec_bind_frame (spec_responseBatch hm) fun batch w₁ hbat he₁ => ?_
    refine spec_bind (spec_pushNew fun w₂ he₂ => spec_pure ?_)
    refine .of_batch hp ?_ (hbat.evolves he₂.2)
    rw [he₂.1, he₁.1, hms]

theorem spec_stopNoProgress (h : AtTurn plain base w) :
    Spec plain ok True (stopNoProgress s m) (fun _ w' => AtEnd plain base w') w := by
  unfold stopNoProgress
  refine spec_bind_frame spec_dateNow fun now w₁ _ he₁ => ?_
  refine spec_bind (spec_pushNew fun w₂ he₂ => ?_)
  refine spec_bind (spec_emit fun w₃ he₃ => spec_bind (spec_emit fun w₄ he₄ => ?_))
  refine spec_own (spec_emitAgentEnd (AtEnd.evolves ?_ (he₃.trans he₄)))
  exact .inr ⟨w₂.newMessages, _, rfl, h.evolves (he₁.trans he₂), .inl rfl⟩

/-- What a turn returns: the end of the run, or the state of the next turn. -/
def TurnDone (plain : AgentMessage → Bool) (base : List AgentMessage) (r : Option (LoopState × Bool)) (w : LoopWorld) : Prop :=
  match r with
  | none => AtEnd plain base w
  | some (s, _) => AtTurn plain base w ∧ PlainPending plain s

theorem spec_finishTurn {recovered : List ToolResultMessage} (h : Committed plain base m w) :
    Spec plain ok True (finishTurn fuel s m recovered) (TurnDone plain base) w := by
  unfold finishTurn
  split
  · rename_i hstop
    have hm : Terminal m := by simpa [Terminal] using hstop
    refine spec_bind (spec_emit fun w₁ he₁ => ?_)
    refine spec_bind (spec_own (spec_mono (spec_emitAgentEnd ((h.atEnd hm).evolves he₁)) ?_))
    exact fun _ w₂ h₂ => spec_pure h₂
  · rename_i hstop
    have hm : ¬ Terminal m := by simpa [Terminal] using hstop
    refine spec_bind (spec_mono (spec_runToolCalls hm h) fun (results, more) w₁ h₁ => ?_)
    refine spec_bind (spec_emit fun w₂ he₂ => ?_)
    have h₂ := h₁.evolves he₂
    dsimp only
    split
    · exact spec_bind (spec_mono (spec_stopNoProgress h₂) fun _ w₃ h₃ => spec_pure h₃)
    · refine spec_bind (spec_callHost trivial fun w₃ _ stop he₃ _ _ => ?_)
      have h₃ := h₂.evolves he₃
      split
      · refine spec_bind (spec_own (spec_mono (spec_emitAgentEnd h₃.atEnd) ?_))
        exact fun _ w₄ h₄ => spec_pure h₄
      · refine spec_bind_frame spec_getSteeringMessages fun ms w₄ hms he₄ => spec_pure ?_
        exact ⟨h₃.evolves he₄, hms⟩

include hok in
/-- **A turn keeps the transcript**: its request is made with a paired one,
and afterwards the transcript is one between two turns or the run is over. -/
theorem spec_runTurn (hs : PlainPending plain s)
    (h : AtTurn plain base w) : Spec plain ok True (runTurn fuel s) (TurnDone plain base) w := by
  unfold runTurn
  refine spec_bind_frame (spec_prepareNextTurn hs) fun s₁ w₁ hs₁ he₁ => ?_
  refine spec_bind (spec_mono (spec_injectPending hs₁ (h.evolves he₁)) fun s₂ w₂ ⟨_, h₂⟩ => ?_)
  refine spec_bind_frame spec_bindStep fun s₃ w₃ _ he₃ => ?_
  refine spec_bind (spec_mono (spec_commitResponse hok (h₂.evolves he₃)) ?_)
  rintro ⟨m, recovered, s₄⟩ w₄ ⟨h₄, -⟩
  exact spec_finishTurn h₄

include hok in
theorem spec_innerLoop {hasMore : Bool} (hs : PlainPending plain s) (h : AtTurn plain base w) :
    Spec plain ok True (innerLoop fuel s hasMore) (fun r w' => TurnDone plain base (r.map fun s => (s, false)) w') w := by
  induction fuel generalizing s w hasMore with
  | zero => exact spec_spent
  | succ fuel ih =>
    unfold innerLoop
    split
    · refine spec_bind (spec_mono (spec_runTurn hok hs h) fun r w₁ h₁ => ?_)
      rcases r with - | ⟨s₁, more⟩
      · exact spec_pure h₁
      · exact ih h₁.2 h₁.1
    · exact spec_pure ⟨h, hs⟩

include hok in
theorem spec_outerLoop (hs : PlainPending plain s)
    (h : AtTurn plain base w) : Spec plain ok True (outerLoop fuel s) (fun _ w' => AtEnd plain base w') w := by
  induction fuel generalizing s w with
  | zero => exact spec_spent
  | succ fuel ih =>
    unfold outerLoop
    refine spec_bind (spec_mono (spec_innerLoop hok hs h) fun r w₁ h₁ => ?_)
    rcases r with - | s₁
    · exact spec_pure h₁
    · refine spec_bind_frame spec_getFollowUpMessages fun ms w₂ hms he₂ => ?_
      have h₂ : AtTurn plain base w₂ := AtTurn.evolves h₁.1 he₂
      split
      · exact spec_own (spec_emitAgentEnd h₂.atEnd)
      · exact ih hms h₂

include hok in
theorem spec_runLoop {recovered : Option CompletedTurn} (h : AtTurn plain base w) :
    Spec plain ok True (runLoop fuel context config recovered) (fun _ w' => AtEnd plain base w') w := by
  unfold runLoop
  refine spec_bind_frame spec_getSteeringMessages fun ms w₁ hms he₁ => ?_
  exact spec_outerLoop hok hms (h.evolves he₁)

end Turn

section Run

variable {plain : AgentMessage → Bool} {ok : List AgentMessage → Prop} {w : LoopWorld} {fuel : ℕ} {context : AgentContext}
  {config : AgentLoopConfig}

/-- The returned array is the transcript, which is at its end. -/
def Returns (plain : AgentMessage → Bool) (base : List AgentMessage) (ms : List AgentMessage) (w : LoopWorld) : Prop :=
  Ended plain base w.aborted ms

theorem spec_returned {base : List AgentMessage} (h : AtEnd plain base w) :
    Spec plain ok True (Async.read (·.newMessages)) (Returns plain base) w :=
  spec_newMessages fun _ he => h.evolves he

theorem spec_emitPrompts {prompts : List AgentMessage} : Spec plain ok False (emitPrompts prompts) (fun _ _ => True) w :=
  spec_forM fun _ _ _ => spec_bind (spec_emit fun _ _ => spec_emit fun _ _ => trivial)

theorem Paired.injects {base ms ms' : List AgentMessage} (h : Paired plain base ms)
    (h' : ∀ m ∈ ms', plain m) : Paired plain base (ms ++ ms') := by
  induction ms' generalizing ms with
  | nil => simpa using h
  | cons m ms' ih =>
    have := ih (h.plain (h' m (by simp))) fun m' hm' => h' m' (mem_cons_of_mem _ hm')
    simpa using this

theorem spec_runAgentLoop {prompts : List AgentMessage} (hp : ∀ m ∈ prompts, plain m) :
    Spec plain (Paired plain []) True (runAgentLoop fuel prompts context config) (Returns plain []) {} := by
  unfold runAgentLoop
  refine spec_bind (spec_pushNew fun w₁ he₁ => ?_)
  have h₁ : AtTurn plain [] { w₁ with newMessages := w₁.newMessages ++ prompts } := by
    refine .inl ?_
    rw [he₁.1]
    exact Paired.base.injects hp
  refine spec_bind (spec_emit fun w₂ he₂ => spec_bind (spec_emit fun w₃ he₃ => ?_))
  refine spec_bind_frame spec_emitPrompts fun _ w₄ _ he₄ => ?_
  refine spec_bind_frame spec_resolveSystemPrompt fun _ w₅ _ he₅ => ?_
  have h₅ := h₁.evolves (he₂.trans (he₃.trans (he₄.trans he₅)))
  exact spec_bind (spec_mono (spec_runLoop (fun _ => id) h₅) fun _ _ => spec_returned)

theorem spec_runAgentLoopContinue :
    Spec plain (Paired plain []) True (runAgentLoopContinue fuel context config) (Returns plain []) {} := by
  unfold runAgentLoopContinue
  refine spec_bind (spec_except fun _ _ => ?_)
  refine spec_bind (spec_emit fun w₁ he₁ => spec_bind (spec_emit fun w₂ he₂ => ?_))
  have h₂ : AtTurn plain [] w₂ := AtTurn.evolves (.inl .base) (he₁.trans he₂)
  exact spec_bind (spec_mono (spec_runLoop (fun _ => id) h₂) fun _ _ => spec_returned)

variable {completed : List ToolResultMessage} {assistant : AssistantMessage}

theorem checkRecovery_ok {index : ℕ}
    (h : checkRecovery context index assistant completed = .ok ()) : Executable assistant := by
  unfold checkRecovery at h
  dsimp only at h
  split_ifs at h with h₁ h₂ h₃
  simpa [Executable, not_or, and_assoc] using h₃

/-- The results of a recovered batch: of the first unresolved calls, and of all
unless the signal was aborted. -/
def Recovered (assistant : AssistantMessage) (completed : List ToolResultMessage)
    (aborted : Bool) (results : List ToolResultMessage) : Prop :=
  ∃ n, Answers ((unresolvedCalls assistant completed).take n) results ∧
    ((unresolvedCalls assistant completed).length ≤ n ∨ aborted)

/-- A transcript after the results of a recovered batch that is complete. -/
def PairedAfter (plain : AgentMessage → Bool) (assistant : AssistantMessage) (completed : List ToolResultMessage)
    (ms : List AgentMessage) : Prop :=
  ∃ results, Answers (unresolvedCalls assistant completed) results ∧ Paired plain (results.map .toolResult) ms

/-- What a run returns that starts with a recovered batch. -/
def ReturnsAfter (plain : AgentMessage → Bool) (assistant : AssistantMessage) (completed : List ToolResultMessage)
    (ms : List AgentMessage) (w : LoopWorld) : Prop :=
  ∃ results, Recovered assistant completed w.aborted results ∧ Ended plain (results.map .toolResult) w.aborted ms

theorem spec_stopAfterRecovery {batch : ExecutedToolCallBatch} {turn : CompletedTurn} :
    Spec plain ok False (stopAfterRecovery batch turn) (fun b _ => b ∨ w.aborted = false) w := by
  unfold stopAfterRecovery
  refine spec_bind (spec_signalAborted fun w₁ he => ?_)
  split
  · exact spec_pure (.inl rfl)
  · rename_i hab
    simp only [Bool.or_eq_true, not_or] at hab
    refine spec_callHost trivial fun w₂ _ b _ _ _ => .inr ?_
    exact Bool.eq_false_iff.mpr fun h => hab.1 (he.2 h)

theorem spec_runAgentLoopResumeTools {index : ℕ} : Spec plain (PairedAfter plain assistant completed) True
      (runAgentLoopResumeTools fuel context index assistant completed config)
      (ReturnsAfter plain assistant completed) {} := by
  unfold runAgentLoopResumeTools
  refine spec_bind (spec_except fun _ hchk => ?_)
  refine spec_bind (spec_emit fun w₁ he₁ => spec_bind (spec_emit fun w₂ he₂ => ?_))
  have hcls : ∀ c ∈ unresolvedCalls assistant completed, c ∈ assistant.toolCalls := fun c hc =>
    mem_of_mem_filter hc
  refine spec_bind_frame (spec_executeToolCalls (checkRecovery_ok hchk) hcls) ?_
  rintro batch w₃ ⟨n, hn, hlen⟩ he₃
  dsimp only
  refine spec_bind (spec_pushNew fun w₄ he₄ => spec_bind (spec_emit fun w₅ he₅ => ?_))
  have hnew : w₅.newMessages = batch.messages.map .toolResult := by
    rw [he₅.1, he₄.1, he₃.1, he₂.1, he₁.1]
    rfl
  have h₅ : AtTurn plain (batch.messages.map .toolResult) w₅ := .inl (hnew ▸ .base)
  have hlen₅ := hlen.imp_right fun h => he₅.2 (he₄.2 h)
  refine spec_bind_frame spec_stopAfterRecovery fun stop w₆ hstop he₆ => ?_
  split
  · refine spec_bind_frame (spec_emitAgentEnd (h₅.evolves he₆).atEnd) fun _ w₇ h₇ he₇ => ?_
    refine spec_newMessages fun w₈ he₈ => ⟨_, ⟨n, hn, ?_⟩, h₇.evolves he₈⟩
    exact hlen₅.imp_right (he₆.trans (he₇.trans he₈)).2
  · rename_i hstop'
    have hfull : (unresolvedCalls assistant completed).length ≤ n := by
      refine hlen₅.resolve_right fun h => ?_
      rw [hstop.resolve_left hstop'] at h
      cases h
    have hall : Answers (unresolvedCalls assistant completed) batch.messages := by
      rwa [nil_append, take_of_length_le hfull] at hn
    refine spec_bind (spec_mono (spec_runLoop (fun ms h => ⟨_, hall, h⟩) (h₅.evolves he₆)) ?_)
    intro _ w₇ h₇
    exact spec_newMessages fun w₈ he₈ => ⟨_, ⟨n, hn, .inl hfull⟩, h₇.evolves he₈⟩

/-- The host's answers of an event bring in plain messages only. -/
def PlainEvent (plain : AgentMessage → Bool) : LoopEvent → Bool
  | .abort => true
  | .reply r => PlainReply plain r

/-- What holds during a run: the precondition of the rest, and all calls so far were good. -/
def Sound {α : Type} (plain : AgentMessage → Bool) (ok : List AgentMessage → Prop) (Q : Except Thrown α → LoopWorld → Prop)
    (s : Proc LoopWorld LoopReply (Except Thrown α) × LoopWorld) : Prop :=
  Proc.wp (rules plain ok True) s.1 Q s.2 ∧ ∀ c ∈ s.2.calls, OkCall ok c

theorem Sound.next {α : Type} {Q : Except Thrown α → LoopWorld → Prop}
    {s : Proc LoopWorld LoopReply (Except Thrown α) × LoopWorld} {event : LoopEvent}
    (h : Sound plain ok Q s) (he : PlainEvent plain event)
    (hQ : ∀ r w w', Q r w → Evolves w w' → Q r w') : Sound plain ok Q (next s event) := by
  obtain ⟨p, w⟩ := s
  obtain ⟨hp, hc⟩ := h
  cases event with
  | abort => exact ⟨Proc.wp_rely hp hQ ⟨rfl, fun _ => rfl⟩, hc⟩
  | reply r =>
    change Sound plain ok Q ((p.step w r).getD (p, w))
    cases hs : p.step w r with
    | none => exact ⟨hp, hc⟩
    | some s =>
      obtain ⟨hstep, hrest⟩ := Proc.wp_step hp trivial he hs
      refine ⟨hrest trivial, fun c hmem => ?_⟩
      obtain ⟨new, hnew, hok⟩ := hstep.calls
      rw [Option.getD_some, hnew, mem_append] at hmem
      exact hmem.elim (hc c) (hok c)

variable {events : List LoopEvent}

theorem Sound.run {α : Type} {Q : Except Thrown α → LoopWorld → Prop}
    {s : Proc LoopWorld LoopReply (Except Thrown α) × LoopWorld} (h : Sound plain ok Q s)
    (hQ : ∀ r w w', Q r w → Evolves w w' → Q r w')
    (he : ∀ event ∈ events, PlainEvent plain event) : Sound plain ok Q (events.foldl Loop.next s) := by
  induction events generalizing s with
  | nil => exact h
  | cons event events ih =>
    exact ih (h.next (he event (by simp)) hQ) fun e he' => he e (mem_cons_of_mem _ he')

/-- **What a program of the loop is specified to do, it does in every run**:
all calls it has made are good, and a value it returned has the postcondition. -/
theorem run_spec {α : Type} {x : Loop α} {V : α → LoopWorld → Prop} (h : Spec plain ok True x V {})
    (hV : ∀ a w w', V a w → Evolves w w' → V a w') (he : ∀ event ∈ events, PlainEvent plain event) :
    (∀ c ∈ (run x events).2.calls, OkCall ok c) ∧ ∀ a, (run x events).1 = .pure (.ok a) → V a (run x events).2 := by
  have hsnd : Sound plain ok (fun r w => ∀ a, r = .ok a → V a w) (run x events) := by
    have hinit : Sound plain ok (fun r w => ∀ a, r = .ok a → V a w) (ExceptT.run x, {}) :=
      ⟨h, fun _ hc => absurd hc not_mem_nil⟩
    exact hinit.run (fun r w w' hr he a ha => hV a w w' (hr a ha) he) he
  refine ⟨hsnd.2, fun a ha => ?_⟩
  have hp := hsnd.1
  rw [ha] at hp
  exact hp a rfl

end Run

/-- Every request of a run is made with a good transcript, and what the run
returns is as specified. -/
def Transcribes (p : Loop (List AgentMessage)) (events : List LoopEvent)
    (request : List AgentMessage → Prop) (returned : List AgentMessage → LoopWorld → Prop) : Prop :=
  (∀ model context apiKey ms, .streamFunction model context apiKey ms ∈ (run p events).2.calls → request ms) ∧
  ∀ ms, (run p events).1 = .pure (.ok ms) → returned ms (run p events).2

variable {plain : AgentMessage → Bool}

theorem Spec.transcribes {ok : List AgentMessage → Prop} {p : Loop (List AgentMessage)}
    {V : List AgentMessage → LoopWorld → Prop} (h : Spec plain ok True p V {})
    (hV : ∀ a w w', V a w → Evolves w w' → V a w')
    (he : ∀ event ∈ events, PlainEvent plain event) : Transcribes p events ok V := by
  obtain ⟨hc, hr⟩ := run_spec h hV he
  exact ⟨fun _ _ _ _ hcall => hc _ hcall, hr⟩

theorem Returns.evolves {base ms : List AgentMessage}
    (h : Returns plain base ms w) (he : Evolves w w') : Returns plain base ms w' := Ended.mono h he.2

theorem ReturnsAfter.evolves (h : ReturnsAfter plain assistant completed ms w)
    (he : Evolves w w') : ReturnsAfter plain assistant completed ms w' := by
  obtain ⟨results, ⟨n, hn, hlen⟩, hend⟩ := h
  exact ⟨results, ⟨n, hn, hlen.imp_right he.2⟩, hend.mono he.2⟩

/-- **Transcripts of the agent loop.** With plain prompts, steering and
follow-up messages, whatever the provider, the hooks and the tools do and
whenever the signal is aborted: a request is made only when all calls of the
run are answered, and a run returns with at most one cut block, after an
abort, followed by plain messages, and at most one response that ends the run. -/
theorem agent_loop_transcript (fuel : ℕ) (context : AgentContext) (config : AgentLoopConfig)
    (events : List LoopEvent) (he : ∀ event ∈ events, PlainEvent IsPlain event) :
    (∀ prompts : List AgentMessage, (∀ m ∈ prompts, IsPlain m) →
      Transcribes (runAgentLoop fuel prompts context config) events (Paired IsPlain []) (Returns IsPlain [])) ∧
    Transcribes (runAgentLoopContinue fuel context config) events (Paired IsPlain []) (Returns IsPlain []) ∧
    ∀ (index : ℕ) (assistant : AssistantMessage) (completed : List ToolResultMessage),
      Transcribes (runAgentLoopResumeTools fuel context index assistant completed config) events
        (PairedAfter IsPlain assistant completed) (ReturnsAfter IsPlain assistant completed) := by
  have hsta : ∀ ms w w', Returns IsPlain [] ms w → Evolves w w' → Returns IsPlain [] ms w' :=
    fun _ _ _ h => h.evolves
  refine ⟨fun prompts hp => ?_, ?_, fun index assistant completed => ?_⟩
  · exact (spec_runAgentLoop hp).transcribes hsta he
  · exact spec_runAgentLoopContinue.transcribes hsta he
  · exact spec_runAgentLoopResumeTools.transcribes (fun _ _ _ h => h.evolves) he

/-! ### Runs of one turn -/

/-- A call to the host and its answer take a step each. -/
def answered (r : LoopReply) : List LoopEvent := [.reply r, .reply r]

/-- The run of a context with one message, up to the response to its first
request; `steering` are the messages that wait when it starts. -/
def firstRequest (steering : List AgentMessage) (response : AssistantMessage) : List LoopEvent :=
  answered .done ++ answered .done ++ answered (.messages steering) ++
    steering.flatMap (fun _ => answered .done ++ answered .done ++ [.reply .done]) ++
    (if steering.isEmpty then [] else answered (.text none)) ++
    answered (.update none) ++ answered .done ++ answered (.context []) ++ answered (.context []) ++
    answered (.text none) ++ answered (.text none) ++ [.reply .done] ++ answered (.flag true) ++
    [.reply .done] ++ answered .done ++ answered (.event none) ++ answered (.response response) ++
    [.reply .done] ++ answered .done ++ [.reply .done, .reply .done] ++ answered .done

/-- The end of a run whose response ended it. -/
def lastEvents : List LoopEvent := answered .done ++ [.reply .done] ++ answered .done ++ [.reply .done]

def oneMessage : AgentContext := { messages := [.user [] 0] }

def anyModel : AgentLoopConfig := { model := { api := "api", provider := "provider", id := "m" } }

def callingResponse (stopReason : StopReason) : AssistantMessage :=
  { content := [.toolCall { id := "call", name := "ls" }], stopReason := stopReason }

def failedRun : List LoopEvent := firstRequest [] (callingResponse .error) ++ lastEvents

/-- A response with a call is handed in as a steering message. -/
def steeredRun : List LoopEvent := firstRequest [.assistant (callingResponse .toolUse)] (callingResponse .stop)

/-- A context with the tool that is called. -/
def withTool : AgentContext := { oneMessage with tools := some [{ name := "ls", executionMode := some .sequential }] }

/-- The call is executed, and the run is stopped after its turn. -/
def answeredRun : List LoopEvent :=
  firstRequest [] (callingResponse .toolUse) ++
    map LoopEvent.reply (replicate 3 .done ++ replicate 4 (.before none .null) ++ replicate 3 (.admission none) ++ replicate 2 .done ++
      replicate 3 (.flag true) ++ replicate 2 (.executed [] (.ok {})) ++ replicate 2 .done ++ replicate 2 (.after none) ++
      replicate 2 (.time 0) ++ replicate 12 .done ++ replicate 3 (.flag true) ++ replicate 2 .done)

set_option maxRecDepth 2000 in
/-- A run that answers a batch. -/
theorem agent_loop_transcript_answered : ∃ result : ToolResultMessage, result.toolCallId = "call" ∧ result.isError = false ∧
    (run (runAgentLoopContinue 3 withTool anyModel) answeredRun).1 =
      .pure (.ok [.assistant (callingResponse .toolUse), .toolResult result]) ∧
    Returns IsPlain [] [.assistant (callingResponse .toolUse), .toolResult result]
      (run (runAgentLoopContinue 3 withTool anyModel) answeredRun).2 := by
  have hpl : ∀ event ∈ answeredRun, PlainEvent IsPlain event := all_eq_true.mp rfl
  have h := (agent_loop_transcript 3 withTool anyModel answeredRun hpl).2.1.2
  have hrun : (run (runAgentLoopContinue 3 withTool anyModel) answeredRun).1 = .pure (.ok
      [.assistant (callingResponse .toolUse), .toolResult { toolCallId := "call", toolName := "ls", content := [], isError := false, timestamp := 0 }]) := rfl
  exact ⟨_, rfl, rfl, hrun, h _ hrun⟩

theorem Paired.last_toolCalls {a : AssistantMessage}
    (h : Paired IsPlain [] (ms ++ [.assistant a])) : a.toolCalls = [] := by
  generalize hl : ms ++ [.assistant a] = l at h
  cases h with
  | base => simp at hl
  | @plain ms' m _ hm =>
    obtain ⟨-, hlast⟩ := append_inj' hl rfl
    cases hlast
    cases hm
  | @block ms' a' results _ hr =>
    rcases eq_nil_or_concat results with rfl | ⟨init, r, rfl⟩
    · obtain ⟨-, hlast⟩ := append_inj' hl rfl
      cases hlast
      exact map_eq_nil_iff.mp hr.symm
    · have hspl : ms' ++ blockOf a' (init.concat r) = (ms' ++ blockOf a' init) ++ [.toolResult r] := by simp [blockOf]
      obtain ⟨-, hlast⟩ := append_inj' (hl.trans hspl) rfl
      cases hlast

theorem callingResponse_unpaired (r : StopReason) : ¬ Paired IsPlain [] [.assistant (callingResponse r)] := by
  intro h
  have h' : Paired IsPlain [] ([] ++ [.assistant (callingResponse r)]) := h
  cases h'.last_toolCalls

/-- A response that failed keeps its calls without results, with no abort; and
a response handed in as a steering message is sent to the provider as it is. -/
theorem agent_loop_unanswered :
    ((run (runAgentLoopContinue 3 oneMessage anyModel) failedRun).1 = .pure (.ok [.assistant (callingResponse .error)]) ∧
      (run (runAgentLoopContinue 3 oneMessage anyModel) failedRun).2.aborted = false ∧
      ¬ Paired IsPlain [] [.assistant (callingResponse .error)]) ∧ (∃ model context apiKey,
        .streamFunction model context apiKey [.assistant (callingResponse .toolUse)] ∈
          (run (runAgentLoopContinue 3 oneMessage anyModel) steeredRun).2.calls) ∧
      ¬ Paired IsPlain [] [.assistant (callingResponse .toolUse)] := by
  refine ⟨⟨rfl, rfl, callingResponse_unpaired _⟩, ?_, callingResponse_unpaired _⟩
  exact ⟨_, _, _, mem_of_getElem? (i := 13) rfl⟩

end Loop
end EasyPi.Agent
