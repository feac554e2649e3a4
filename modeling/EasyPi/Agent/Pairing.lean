/-
# Blocks of a transcript

The array `newMessages` of a run of the agent loop is built of blocks: a
response and the results of its tool calls, in call order. `Paired` is such a list, with other
messages between the blocks: the plain ones, which the caller injects; `Cut` is one whose last block lacks results, as an abort may leave it.

`Spec` is the precondition of a program of the loop. The environment may
abort the signal at any time but leaves `newMessages` alone (`Evolves`), and
so do the programs that execute tools, which is why the calls of a batch can
run side by side. A batch answers its calls in order, and all of them unless
the signal was aborted (`spec_executeToolCalls`).
-/
import EasyPi.Agent.Loop

namespace EasyPi.Agent

open List
namespace Loop

open Proc (Rules wp wp_mono wp_frame wp_weaken wp_interleave)

/-! ### Transcripts -/

/-- A message that is neither a response nor a tool result. -/
def IsPlain : AgentMessage → Bool
  | .assistant _ | .toolResult _ => false
  | _ => true

/-- One result for each call, in order and with its id and name. -/
def Answers (calls : List ToolCall) (results : List ToolResultMessage) : Prop :=
  results.map (fun r => (r.toolCallId, r.toolName)) = calls.map fun c => (c.id, c.name)

def blockOf (a : AssistantMessage) (results : List ToolResultMessage) : List AgentMessage :=
  .assistant a :: results.map .toolResult

/-- A transcript that starts with `base` and goes on with plain messages and
with blocks whose calls are all answered. -/
inductive Paired (plain : AgentMessage → Bool) (base : List AgentMessage) : List AgentMessage → Prop where
  | base : Paired plain base base
  | plain {ms : List AgentMessage} {m : AgentMessage} (h : Paired plain base ms) (hm : plain m) :
      Paired plain base (ms ++ [m])
  | block {ms : List AgentMessage} {a : AssistantMessage} {results : List ToolResultMessage}
      (h : Paired plain base ms) (hr : Answers a.toolCalls results) :
      Paired plain base (ms ++ blockOf a results)

/-- A paired transcript, a block whose first calls only are answered, and
plain messages. -/
inductive Cut (plain : AgentMessage → Bool) (base : List AgentMessage) : List AgentMessage → Prop where
  | block {ms : List AgentMessage} {a : AssistantMessage} {results : List ToolResultMessage}
      {n : ℕ} (h : Paired plain base ms) (hn : n < a.toolCalls.length)
      (hr : Answers (a.toolCalls.take n) results) : Cut plain base (ms ++ blockOf a results)
  | plain {ms : List AgentMessage} {m : AgentMessage} (h : Cut plain base ms) (hm : plain m) :
      Cut plain base (ms ++ [m])

/-- A transcript between two turns: only an abort leaves a block cut. -/
def Between (plain : AgentMessage → Bool) (base : List AgentMessage) (aborted : Bool) (ms : List AgentMessage) : Prop :=
  Paired plain base ms ∨ aborted ∧ Cut plain base ms

/-- A response that ends the run, whose calls have no results. -/
def Terminal (m : AssistantMessage) : Prop := m.stopReason = .error ∨ m.stopReason = .aborted

/-- A transcript a run returns: one between two turns, and at most one
response that ends the run. -/
def Ended (plain : AgentMessage → Bool) (base : List AgentMessage) (aborted : Bool) (ms : List AgentMessage) : Prop :=
  Between plain base aborted ms ∨ ∃ init m, ms = init ++ [.assistant m] ∧ Between plain base aborted init ∧ Terminal m

def Executable (a : AssistantMessage) : Prop := a.stopReason ≠ .error ∧ a.stopReason ≠ .aborted ∧ a.stopReason ≠ .length

variable {plain : AgentMessage → Bool} {base ms : List AgentMessage}

theorem Between.mono {b b' : Bool} (h : Between plain base b ms) (hb : b → b') : Between plain base b' ms :=
  h.imp id fun ⟨ha, hc⟩ => ⟨hb ha, hc⟩

theorem Between.inject {b : Bool} {m : AgentMessage}
    (h : Between plain base b ms) (hm : plain m) : Between plain base b (ms ++ [m]) :=
  h.imp (.plain · hm) fun ⟨ha, hc⟩ => ⟨ha, hc.plain hm⟩

theorem Between.paired (h : Between plain base false ms) : Paired plain base ms :=
  h.resolve_right fun h => Bool.false_ne_true h.1

theorem Ended.mono {b b' : Bool} (h : Ended plain base b ms) (hb : b → b') : Ended plain base b' ms := by
  rcases h with h | ⟨init, m, rfl, h, hm⟩
  · exact .inl (h.mono hb)
  · exact .inr ⟨init, m, rfl, h.mono hb, hm⟩

theorem Answers.append {calls calls' : List ToolCall} {results results' : List ToolResultMessage}
    (h : Answers calls results) (h' : Answers calls' results') : Answers (calls ++ calls') (results ++ results') := by
  unfold Answers at *
  rw [map_append, map_append, h, h']

theorem Paired.between_block {a : AssistantMessage}
    {results : List ToolResultMessage} {n : ℕ} {aborted : Bool} (h : Paired plain base ms)
    (hr : Answers (a.toolCalls.take n) results) (hn : a.toolCalls.length ≤ n ∨ aborted) :
    Between plain base aborted (ms ++ blockOf a results) := by
  by_cases hlen : a.toolCalls.length ≤ n
  · rw [take_of_length_le hlen] at hr
    exact .inl (h.block hr)
  · exact .inr ⟨hn.resolve_left hlen, .block h (Nat.lt_of_not_le hlen) hr⟩

/-! ### What the programs may do -/

/-- An answer of the host brings in plain messages only. -/
def PlainReply (plain : AgentMessage → Bool) : LoopReply → Bool
  | .messages ms => ms.all plain
  | _ => true

/-- A call the loop may make: a request only with a good transcript, a tool
only for a response that is complete. -/
def OkCall (ok : List AgentMessage → Prop) : LoopCall → Prop
  | .streamFunction _ _ _ newMessages => ok newMessages
  | .execute assistant call _ => Executable assistant ∧ call ∈ assistant.toolCalls
  | _ => True

/-- What may happen to the world while a program waits. -/
def Evolves (w w' : LoopWorld) : Prop := w'.newMessages = w.newMessages ∧ (w.aborted → w'.aborted)

theorem Evolves.refl (w : LoopWorld) : Evolves w w := ⟨rfl, id⟩

theorem Evolves.trans {w₁ w₂ w₃ : LoopWorld} (h : Evolves w₁ w₂) (h' : Evolves w₂ w₃) : Evolves w₁ w₃ :=
  ⟨h'.1.trans h.1, h'.2 ∘ h.2⟩

/-- What a step of the loop does: it makes good calls, and writes `newMessages`
only if that is its own. -/
structure Step (ok : List AgentMessage → Prop) (own : Prop) (w w' : LoopWorld) : Prop where
  newMessages : own ∨ w'.newMessages = w.newMessages
  aborted : w.aborted → w'.aborted
  calls : ∃ new, w'.calls = w.calls ++ new ∧ ∀ c ∈ new, OkCall ok c

theorem Step.refl (ok : List AgentMessage → Prop) (own : Prop) (w : LoopWorld) : Step ok own w w :=
  ⟨.inr rfl, id, [], by simp⟩

theorem Step.evolves {ok : List AgentMessage → Prop} {w w' : LoopWorld} (h : Step ok False w w') : Evolves w w' :=
  ⟨h.newMessages.resolve_left id, h.aborted⟩

def rules (plain : AgentMessage → Bool) (ok : List AgentMessage → Prop) (own : Prop) : Rules LoopWorld LoopReply where
  reply r := PlainReply plain r
  inv _ := True
  rely := Evolves
  guar := Step ok own
  rely_refl := .refl
  rely_trans := .trans

/-- From this world the program keeps the rules, and a value it returns has
the postcondition. -/
def Spec {α : Type} (plain : AgentMessage → Bool) (ok : List AgentMessage → Prop) (own : Prop)
    (x : Loop α) (V : α → LoopWorld → Prop) (w : LoopWorld) : Prop :=
  wp (rules plain ok own) (ExceptT.run x) (fun r w' => ∀ a, r = .ok a → V a w') w

section Spec

variable {α β : Type} {ok : List AgentMessage → Prop} {own : Prop} {x : Loop α}
  {V V' : α → LoopWorld → Prop} {w : LoopWorld}

theorem spec_pure {a : α} (h : V a w) : Spec plain ok own (pure a) V w := Async.spec_pure h

theorem spec_spent : Spec plain ok own (Async.spent : Loop α) V w := Async.spec_spent

theorem spec_mono (h : Spec plain ok own x V w) (hV : ∀ a w', V a w' → V' a w') : Spec plain ok own x V' w :=
  Async.Spec.mono h hV

theorem spec_bind {f : α → Loop β} {V : β → LoopWorld → Prop}
    (h : Spec plain ok own x (fun a w' => Spec plain ok own (f a) V w') w) : Spec plain ok own (x >>= f) V w :=
  Async.spec_bind h

theorem spec_tryCatch {f : Thrown → Loop α} (h : Spec plain ok own x V w)
    (hf : ∀ error w', Spec plain ok own (f error) V w') : Spec plain ok own (tryCatch x f) V w :=
  Async.spec_tryCatch h hf

theorem spec_finally {last : Loop Unit} {V : α → Prop} (h : Spec plain ok own x (fun a _ => V a) w)
    (hl : ∀ w', Spec plain ok own last (fun _ _ => True) w') :
    Spec plain ok own (Async.finally_ x last) (fun a _ => V a) w := by
  refine Async.wp_finally.mpr (wp_mono h fun r w' hr => wp_mono (hl w') ?_)
  intro _ _ _
  exact hr

theorem spec_frame (h : Spec plain ok False x V w) : Spec plain ok False x (fun a w' => V a w' ∧ Evolves w w') w := by
  refine wp_mono (wp_frame (S := Evolves) Evolves.trans (fun _ _ => id) (fun _ _ => Step.evolves) (.refl w) h) ?_
  rintro r w' ⟨hr, he⟩ a ha
  exact ⟨hr a ha, he⟩

theorem spec_own (h : Spec plain ok False x V w) : Spec plain ok own x V w := by
  unfold Spec at h ⊢
  refine wp_weaken ?_ ?_ ?_ ?_ h
  · exact fun _ => id
  · exact fun _ => id
  · exact fun _ _ => id
  intro w₁ w₂ _ hs
  exact ⟨hs.newMessages.imp False.elim id, hs.aborted, hs.calls⟩

theorem spec_bind_frame {f : α → Loop β} {V' : β → LoopWorld → Prop} (h : Spec plain ok False x V w)
    (hf : ∀ a w', V a w' → Evolves w w' → Spec plain ok own (f a) V' w') : Spec plain ok own (x >>= f) V' w :=
  spec_bind (spec_own (spec_mono (spec_frame h) fun a w' ⟨ha, he⟩ => hf a w' ha he))

theorem spec_except {r : Except Thrown α} (h : ∀ a, r = .ok a → V a w) :
    Spec plain ok own (ExceptT.mk (pure r)) V w := h

theorem spec_record {call : LoopCall} {V : Unit → LoopWorld → Prop} (hc : OkCall ok call)
    (h : ∀ w', Evolves w w' → V () w') : Spec plain ok own (record call) V w := by
  refine Async.wp_modify fun w₁ he _ => ⟨⟨.inr rfl, id, [call], rfl, by simpa using hc⟩, ?_⟩
  rintro - _ ⟨⟩
  exact h _ he

theorem spec_callHost {call : LoopCall} {answer : LoopReply → Option α} (hc : OkCall ok call)
    (h : ∀ w' r a, Evolves w w' → PlainReply plain r → answer r = some a → V a w') :
    Spec plain ok own (callHost call answer) V w := by
  refine spec_bind (spec_record hc fun w₁ he => ?_)
  refine Async.wp_ask (fun w _ => .refl ok own w) fun w₂ he₂ _ r hr a ha b hb => ?_
  subst hb
  have hb : answer r = some b := by
    cases r with
    | failed error => cases ha
    | _ =>
      obtain ⟨b', hb', ⟨⟩⟩ := Option.map_eq_some_iff.mp ha
      exact hb'
  exact h w₂ r b (he.trans he₂) hr hb

theorem spec_signalAborted {V : Bool → LoopWorld → Prop}
    (h : ∀ w', Evolves w w' → V w'.aborted w') : Spec plain ok own signalAborted V w := by
  refine Async.wp_read (fun w _ => .refl ok own w) fun w' he _ => ?_
  rintro _ ⟨⟩
  exact h w' he

theorem spec_newMessages {V : List AgentMessage → LoopWorld → Prop} (h : ∀ w', Evolves w w' → V w'.newMessages w') :
    Spec plain ok own (Async.read (·.newMessages)) V w := by
  refine Async.wp_read (fun w _ => .refl ok own w) fun w' he _ => ?_
  rintro _ ⟨⟩
  exact h w' he

theorem spec_pushNew {ms : List AgentMessage} {V : Unit → LoopWorld → Prop}
    (h : ∀ w', Evolves w w' → V () { w' with newMessages := w'.newMessages ++ ms }) :
    Spec plain ok True (pushNew ms) V w := by
  refine Async.wp_modify fun w₁ he _ => ⟨⟨.inl trivial, id, [], by simp⟩, ?_⟩
  rintro - _ ⟨⟩
  exact h _ he

end Spec

section ToolCalls

variable {ok : List AgentMessage → Prop} {w : LoopWorld} {context : AgentContext}
  {assistant : AssistantMessage} {config : AgentLoopConfig}

/-! ### Tool calls -/

def Names (call : ToolCall) (m : ToolResultMessage) : Prop := m.toolCallId = call.id ∧ m.toolName = call.name

/-- The outcome is of the call, and has its result. -/
def OutcomeOf (call : ToolCall) (o : FinalizedToolCallOutcome) : Prop :=
  o.toolCall = call ∧ ∃ m, o.message = some m ∧ Names call m

variable {call : ToolCall}

theorem Names.answers {m : ToolResultMessage} (h : Names call m) : Answers [call] [m] := by
  simp [Answers, h.1, h.2]

theorem spec_emit {event : AgentEvent} {own : Prop} {V : Unit → LoopWorld → Prop}
    (h : ∀ w', Evolves w w' → V () w') : Spec plain ok own (emit event) V w :=
  spec_callHost trivial fun w' _ _ he _ _ => h w' he

theorem spec_dateNow : Spec plain ok False dateNow (fun _ _ => True) w := spec_callHost trivial fun _ _ _ _ _ _ => trivial

theorem spec_prepareToolCall : Spec plain ok False (prepareToolCall context assistant call config)
      (fun r _ => ∀ p, r = .inr p → p.toolCall = call) w := by
  unfold prepareToolCall
  split
  · exact spec_pure (by rintro p ⟨⟩)
  refine spec_tryCatch ?_ fun error w' => spec_pure (by rintro p ⟨⟩)
  refine spec_bind (spec_except fun args _ => ?_)
  refine spec_bind (spec_callHost trivial fun w₁ _ (before, args') _ _ _ => ?_)
  refine spec_bind (spec_signalAborted fun w₂ _ => ?_)
  split
  · exact spec_pure (by rintro p ⟨⟩)
  split
  · exact spec_pure (by rintro p ⟨⟩)
  refine spec_bind (spec_except fun args'' _ => ?_)
  refine spec_bind (spec_signalAborted fun w₃ _ => ?_)
  split
  · exact spec_pure (by rintro p ⟨⟩)
  · refine spec_pure ?_
    rintro p ⟨⟩
    rfl

variable {scheduled : Bool}

theorem spec_acquireLease {resource : Option ResourceRequest} :
    Spec plain ok False (acquireLease scheduled resource) (fun _ _ => True) w := by
  unfold acquireLease
  split
  · exact spec_callHost trivial fun _ _ _ _ _ _ => trivial
  · exact spec_pure trivial

theorem spec_releaseLease : Spec plain ok False (releaseLease scheduled) (fun _ _ => True) w := by
  unfold releaseLease
  split
  · exact spec_record trivial fun _ _ => trivial
  · exact spec_pure trivial

theorem spec_forM {γ : Type} {f : γ → Loop Unit} {xs : List γ}
    (h : ∀ x ∈ xs, ∀ w, Spec plain ok False (f x) (fun _ _ => True) w) :
    Spec plain ok False (xs.forM f) (fun _ _ => True) w := by
  induction xs generalizing w with
  | nil => exact spec_pure trivial
  | cons x xs ih =>
    refine spec_bind (spec_mono (h x (by simp) w) fun _ w' _ => ih ?_)
    exact fun y hy => h y (mem_cons_of_mem _ hy)

variable {prepared : PreparedToolCall}

section
variable (ha : Executable assistant) (hp : prepared.toolCall ∈ assistant.toolCalls)
include ha hp

theorem spec_executeTool : Spec plain ok False (executeTool assistant prepared) (fun _ _ => True) w := by
  unfold executeTool
  refine spec_bind (spec_callHost ⟨ha, hp⟩ fun w₁ _ (updates, result) _ _ _ => ?_)
  refine spec_bind (spec_mono (spec_forM fun update _ w => spec_record trivial ?_) fun _ w₂ _ => ?_)
  · exact fun _ _ => trivial
  refine spec_bind (spec_callHost trivial fun w₃ _ _ _ _ _ => ?_)
  split <;> exact spec_pure trivial

theorem spec_dispatchToolCall
    : Spec plain ok False (dispatchToolCall assistant prepared scheduled) (fun _ _ => True) w := by
  unfold dispatchToolCall
  have hrest : ∀ w, Spec plain ok False (do
      let admitted ← callHost .admitEffect isFlag
      if (← signalAborted) || !admitted then
        releaseLease scheduled
        return notStarted "Operation aborted"
      Async.finally_ (executeTool assistant prepared) (releaseLease scheduled))
      (fun _ _ => True) w := by
    intro w
    refine spec_bind (spec_callHost trivial fun w₁ _ admitted _ _ _ => ?_)
    refine spec_bind (spec_signalAborted fun w₂ _ => ?_)
    split
    · exact spec_bind (spec_mono spec_releaseLease fun _ _ _ => spec_pure trivial)
    · exact spec_finally (V := fun _ => True) (spec_executeTool ha hp) fun _ => spec_releaseLease
  refine spec_bind (spec_signalAborted fun w₁ _ => ?_)
  split
  · refine spec_bind (spec_tryCatch (spec_callHost trivial fun w₂ _ _ _ _ _ => hrest w₂) ?_)
    intro error w'
    exact spec_bind (spec_mono spec_releaseLease fun _ _ _ => Async.spec_throw error)
  · exact hrest w₁

theorem spec_executePreparedToolCall :
    Spec plain ok False (executePreparedToolCall assistant prepared config) (fun _ _ => True) w := by
  unfold executePreparedToolCall
  dsimp only
  split
  · exact spec_pure trivial
  refine spec_bind (spec_callHost trivial fun w₁ _ admission _ _ _ => ?_)
  split
  · exact spec_pure trivial
  refine spec_bind (spec_mono spec_acquireLease fun granted w₂ _ => ?_)
  split
  · exact spec_pure trivial
  · exact spec_dispatchToolCall ha hp

theorem spec_executeAndFinalize : Spec plain ok False (executeAndFinalize assistant prepared config)
      (fun o _ => o.toolCall = prepared.toolCall ∧ o.message = none) w := by
  unfold executeAndFinalize finalizeExecutedToolCall
  refine spec_bind (spec_mono (spec_executePreparedToolCall ha hp) fun executed w₁ _ => ?_)
  refine spec_bind (spec_tryCatch ?_ fun error w' => spec_pure (spec_pure ⟨rfl, rfl⟩))
  refine spec_bind (spec_callHost trivial fun w₂ _ after _ _ _ => ?_)
  split <;> exact spec_pure (spec_pure ⟨rfl, rfl⟩)

end

theorem spec_outcomeOf {prep : ImmediateToolCallOutcome ⊕ PreparedToolCall}
    (ha : Executable assistant) (hc : call ∈ assistant.toolCalls) (hp : ∀ p, prep = .inr p → p.toolCall = call) :
    Spec plain ok False (outcomeOf assistant call config prep) (fun o _ => o.toolCall = call ∧ o.message = none) w := by
  cases prep with
  | inl immediate => exact spec_pure ⟨rfl, rfl⟩
  | inr prepared =>
    have hcall := hp prepared rfl
    subst hcall
    exact spec_executeAndFinalize ha hc

theorem spec_persistToolResult {o : FinalizedToolCallOutcome} (ho : o.message = none) :
    Spec plain ok False (persistToolResult o assistant)
      (fun r _ => Names o.toolCall r.1 ∧ OutcomeOf o.toolCall r.2) w := by
  unfold persistToolResult
  refine spec_bind (spec_mono spec_dateNow fun now w₁ _ => ?_)
  refine spec_bind (spec_callHost trivial fun w₂ _ _ _ _ _ => spec_pure ?_)
  have hn : Names o.toolCall (createToolResultMessage o now) := by
    simp [Names, createToolResultMessage, ho]
  exact ⟨hn, rfl, _, rfl, hn⟩

theorem spec_emitToolExecutionEnd {o : FinalizedToolCallOutcome} :
    Spec plain ok False (emitToolExecutionEnd o) (fun _ _ => True) w :=
  spec_emit fun _ _ => trivial

theorem spec_emitToolResultMessage {m : ToolResultMessage} :
    Spec plain ok False (emitToolResultMessage m) (fun _ _ => True) w :=
  spec_bind (spec_emit fun _ _ => spec_emit fun _ _ => trivial)

/-- The results a batch returns: those of the calls before, and of the first of `calls`; of all
unless the signal was aborted. -/
def BatchOf (before calls : List ToolCall) (results : List ToolResultMessage) (w : LoopWorld) : Prop :=
  ∃ n, Answers (before ++ calls.take n) results ∧ (calls.length ≤ n ∨ w.aborted)

variable {calls before : List ToolCall} {messages : List ToolResultMessage}

theorem spec_failToolCallsFromTruncatedMessage (h : Answers before messages) :
    Spec plain ok False (failToolCallsFromTruncatedMessage assistant calls messages)
      (fun b w' => BatchOf before calls b.messages w') w := by
  induction calls generalizing before messages w with
  | nil => exact spec_pure ⟨0, by simpa using h, .inl (by simp)⟩
  | cons call calls ih =>
    unfold failToolCallsFromTruncatedMessage
    refine spec_bind (spec_emit fun w₁ _ => ?_)
    refine spec_bind (spec_mono (spec_persistToolResult rfl) fun (m, o) w₂ ⟨hm, _⟩ => ?_)
    refine spec_bind (spec_mono spec_emitToolExecutionEnd fun _ w₃ _ => ?_)
    refine spec_bind (spec_mono spec_emitToolResultMessage fun _ w₄ _ => ?_)
    refine spec_mono (ih (h.append hm.answers)) ?_
    rintro b w₅ ⟨n, hn, hlen⟩
    exact ⟨n + 1, by simpa [immediateOutcome] using hn, hlen.imp_left (by simp)⟩

theorem spec_executeToolCallsSequential {finalized : List FinalizedToolCallOutcome}
    (ha : Executable assistant) (hc : ∀ call ∈ calls, call ∈ assistant.toolCalls) (h : Answers before messages) :
    Spec plain ok False (executeToolCallsSequential context assistant config calls finalized messages)
      (fun b w' => BatchOf before calls b.messages w') w := by
  induction calls generalizing before finalized messages w with
  | nil => exact spec_pure ⟨0, by simpa using h, .inl (by simp)⟩
  | cons call calls ih =>
    unfold executeToolCallsSequential
    refine spec_bind (spec_emit fun w₁ _ => ?_)
    refine spec_bind (spec_mono spec_prepareToolCall fun prep w₂ hprep => ?_)
    have hcall := hc call (by simp)
    refine spec_bind (spec_mono (spec_outcomeOf ha hcall hprep) fun o w₃ ⟨ho, hmsg⟩ => ?_)
    subst ho
    refine spec_bind (spec_mono (spec_persistToolResult hmsg) fun (m, o') w₄ ⟨hm, _⟩ => ?_)
    refine spec_bind (spec_mono spec_emitToolExecutionEnd fun _ w₅ _ => ?_)
    refine spec_bind (spec_mono spec_emitToolResultMessage fun _ w₆ _ => ?_)
    refine spec_bind (spec_signalAborted fun w₇ _ => ?_)
    split
    · rename_i hab
      exact spec_pure ⟨1, by simpa using h.append hm.answers, .inr hab⟩
    · refine spec_mono (ih (fun c hc' => hc c (mem_cons_of_mem _ hc')) (h.append hm.answers)) ?_
      rintro b w₈ ⟨n, hn, hlen⟩
      exact ⟨n + 1, by simpa using hn, hlen.imp_left (by simp)⟩

/-- The entry is of the call: its outcome, or the call prepared. -/
def EntryOf (call : ToolCall) : FinalizedToolCallEntry → Prop
  | .finalized o => OutcomeOf call o
  | .deferred p => p.toolCall = call

theorem spec_entryOf {prep : ImmediateToolCallOutcome ⊕ PreparedToolCall} (hp : ∀ p, prep = .inr p → p.toolCall = call) :
    Spec plain ok False (entryOf assistant call prep) (fun entry _ => EntryOf call entry) w := by
  cases prep with
  | inl immediate =>
    refine spec_bind (spec_mono (spec_persistToolResult rfl) fun (m, o) w₁ ⟨_, ho⟩ => ?_)
    exact spec_bind (spec_mono spec_emitToolExecutionEnd fun _ _ _ => spec_pure ho)
  | inr prepared => exact spec_pure (hp prepared rfl)

theorem spec_prepareToolCalls {entries : List FinalizedToolCallEntry} (h : List.Forall₂ EntryOf before entries) :
    Spec plain ok False (prepareToolCalls context assistant config calls entries)
      (fun es w' => ∃ n, List.Forall₂ EntryOf (before ++ calls.take n) es ∧ (calls.length ≤ n ∨ w'.aborted)) w := by
  induction calls generalizing before entries w with
  | nil => exact spec_pure ⟨0, by simpa using h, .inl (by simp)⟩
  | cons call calls ih =>
    unfold prepareToolCalls
    refine spec_bind (spec_emit fun w₁ _ => ?_)
    refine spec_bind (spec_mono spec_prepareToolCall fun prep w₂ hprep => ?_)
    refine spec_bind (spec_mono (spec_entryOf hprep) fun entry w₃ hent => ?_)
    have h' := rel_append h (List.Forall₂.cons hent .nil)
    refine spec_bind (spec_signalAborted fun w₄ _ => ?_)
    split
    · rename_i hab
      exact spec_pure ⟨1, by simpa using h', .inr hab⟩
    · refine spec_mono (ih h') ?_
      rintro es w₅ ⟨n, hn, hlen⟩
      exact ⟨n + 1, by simpa using hn, hlen.imp_left (by simp)⟩

theorem spec_runEntry {entry : FinalizedToolCallEntry}
    (ha : Executable assistant) (hc : call ∈ assistant.toolCalls) (he : EntryOf call entry) :
    Spec plain ok False (runEntry assistant config entry) (fun o _ => OutcomeOf call o) w := by
  cases entry with
  | finalized o => exact spec_pure he
  | deferred p =>
    have hcall : p.toolCall = call := he
    subst hcall
    refine spec_bind (spec_mono (spec_executeAndFinalize ha hc) fun o w₁ ⟨ho, hmsg⟩ => ?_)
    refine spec_bind (spec_mono (spec_persistToolResult hmsg) fun (m, o') w₂ ⟨_, ho'⟩ => ?_)
    refine spec_bind (spec_mono spec_emitToolExecutionEnd fun _ _ _ => spec_pure ?_)
    exact ho ▸ ho'

/-- What a call that runs among others ends with, if it is not rejected. -/
def SettledAs (call : ToolCall) (r : Except Thrown FinalizedToolCallOutcome) (_ : LoopWorld) : Prop :=
  ∀ o, r = .ok o → OutcomeOf call o

variable {calls : List ToolCall}

theorem wp_runEntries {fuel : ℕ} {entries : List FinalizedToolCallEntry}
    (ha : Executable assistant) (hc : ∀ call ∈ calls, call ∈ assistant.toolCalls)
    (h : List.Forall₂ EntryOf calls entries) : wp (rules plain ok False) (Proc.interleave isPick fuel
      (entries.map fun entry => ExceptT.run (runEntry assistant config entry)))
      (fun rs w' => List.Forall₂ (fun r Q => Q r w') rs (calls.map SettledAs)) w := by
  refine wp_interleave (fun _ _ => Step.evolves) (Step.refl ok False) ?_ fuel ?_
  · intro Q hQ r w₁ w₂ hr _
    obtain ⟨call, _, rfl⟩ := mem_map.mp hQ
    exact hr
  · rw [forall₂_map_left_iff, forall₂_map_right_iff]
    induction h with
    | nil => exact .nil
    | cons he _ ih =>
      refine .cons (spec_runEntry ha (hc _ (by simp)) he) (ih fun c hc' => ?_)
      exact hc c (mem_cons_of_mem _ hc')

theorem fulfilled_outcomes {w : LoopWorld}
    {rs : List (Except Thrown FinalizedToolCallOutcome)} {os : List FinalizedToolCallOutcome}
    (h : List.Forall₂ (fun r Q => Q r w) rs (calls.map SettledAs)) (hf : fulfilled rs = .ok os) :
    List.Forall₂ OutcomeOf calls os := by
  rw [forall₂_map_right_iff] at h
  induction h generalizing os with
  | nil =>
    cases hf
    exact .nil
  | @cons r call rs calls hr _ ih =>
    cases r with
    | error error => cases hf
    | ok o =>
      unfold fulfilled at hf
      cases hrest : fulfilled rs with
      | error error =>
        rw [hrest] at hf
        cases hf
      | ok os' =>
        rw [hrest] at hf
        cases hf
        exact .cons (hr o rfl) (ih hrest)

theorem spec_emitToolResults {os : List FinalizedToolCallOutcome} (h : Answers before messages)
    (ho : List.Forall₂ OutcomeOf calls os) :
    Spec plain ok False (emitToolResults os messages) (fun ms _ => Answers (before ++ calls) ms) w := by
  induction ho generalizing before messages w with
  | nil => exact spec_pure (by simpa using h)
  | @cons call o calls os ho _ ih =>
    obtain ⟨-, m, hm, hname⟩ := ho
    rw [emitToolResults, resultMessage, hm, pure_bind]
    refine spec_bind (spec_mono spec_emitToolResultMessage fun _ w₁ _ => ?_)
    refine spec_mono (ih (h.append hname.answers)) fun ms _ hms => ?_
    simpa using hms

theorem spec_executeToolCallsParallel {fuel : ℕ}
    (ha : Executable assistant) (hc : ∀ call ∈ calls, call ∈ assistant.toolCalls) :
    Spec plain ok False (executeToolCallsParallel fuel context assistant config calls)
      (fun b w' => BatchOf [] calls b.messages w') w := by
  unfold executeToolCallsParallel
  refine spec_bind (spec_mono (spec_prepareToolCalls .nil) ?_)
  rintro entries w₁ ⟨n, hn, hlen⟩
  have hc' : ∀ call ∈ calls.take n, call ∈ assistant.toolCalls := fun c hc' =>
    hc c (mem_of_mem_take hc')
  have hrun : Spec plain ok False (ExceptT.lift (Proc.interleave isPick fuel
      (entries.map fun entry => ExceptT.run (runEntry assistant config entry))))
      (fun rs w' => List.Forall₂ (fun r Q => Q r w') rs ((calls.take n).map SettledAs)) w₁ := by
    refine Async.wp_lift.mpr (wp_mono (wp_runEntries ha hc' hn) ?_)
    rintro rs w₂ hrs _ ⟨⟩
    exact hrs
  refine spec_bind_frame hrun fun rs w₂ hrs he₂ => ?_
  refine spec_bind (spec_except fun os hos => ?_)
  have ho := fulfilled_outcomes hrs hos
  have hnil : Answers [] [] := rfl
  refine spec_bind_frame (spec_emitToolResults hnil ho) fun ms w₃ hms he₃ => ?_
  exact spec_pure ⟨n, hms, hlen.imp_right fun h => he₃.2 (he₂.2 h)⟩

/-- **A batch answers its calls in order**, all of them unless the signal was
aborted, for every behaviour of the tools and in both modes. -/
theorem spec_executeToolCalls {fuel : ℕ} (ha : Executable assistant) (hc : ∀ call ∈ calls, call ∈ assistant.toolCalls) :
    Spec plain ok False (executeToolCalls fuel context assistant config calls)
      (fun b w' => BatchOf [] calls b.messages w') w := by
  unfold executeToolCalls
  dsimp only
  split
  · exact spec_executeToolCallsSequential ha hc rfl
  · exact spec_executeToolCallsParallel ha hc

end ToolCalls

end Loop
end EasyPi.Agent
