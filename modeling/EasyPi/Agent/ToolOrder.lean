/-
# The order of tool results

A batch of tool calls that run at the same time, compared with the same batch one call after
the other. The host answers each call by a function of what has been called before; `Fits`
says that it answers at all and that its gates do not throw. Without an abort both ways end
with one result for each call, in the order of the calls. If the answer to a call does not
depend on the calls before, the results are the same, but for the time that each of them
carries.
-/
import EasyPi.Agent.Pairing
import EasyPi.Lib.Driven

namespace EasyPi.Agent

open List
namespace Loop

/-- A host: its answer to a call after the calls before. -/
abbrev Host := List LoopCall → LoopCall → LoopReply

/-- Programs of the loop with a host, as long as the signal is not aborted. -/
def driver (host : Host) : Driver LoopWorld LoopReply LoopCall where
  log := (·.calls)
  add w made := { w with calls := w.calls ++ made }
  live w := w.aborted = false
  start := {}
  answer := host
  idle := .done
  pick := .pick
  log_add _ _ := rfl
  live_add _ h := h
  live_start := rfl

/-- An answer of the kind the call waits for. The exceptions of `beforeToolCall` and
`afterToolCall` are results of the tool call. -/
def Fits : LoopCall → LoopReply → Prop
  | .emit _, r | .updateEvents, r | .onToolResult .., r | .beforeToolDispatch .., r => r = .done
  | .admitEffect, r => ∃ admitted, r = .flag admitted
  | .admitToolCall .., r => ∃ admission, r = .admission admission
  | .acquire _, r => ∃ granted, r = .lease granted
  | .execute .., r => ∃ updates result, r = .executed updates result
  | .beforeToolCall .., r => (∃ result args, r = .before result args) ∨ ∃ error, r = .failed error
  | .afterToolCall .., r => (∃ result, r = .after result) ∨ ∃ error, r = .failed error
  | .dateNow, r => ∃ now, r = .time now
  | _, r => ∀ i, r ≠ .pick i

theorem Fits.isPick_eq {c : LoopCall} {r : LoopReply} (h : Fits c r) : isPick r = none := by
  cases c <;> cases r <;> simp_all [Fits, isPick]

/-- The calls whose results have been handed over. -/
def resultsOf (log : List LoopCall) : List ToolCall :=
  log.filterMap fun
    | .onToolResult _ _ call _ _ => some call
    | _ => none

theorem resultsOf_append (log log' : List LoopCall) : resultsOf (log ++ log') = resultsOf log ++ resultsOf log' :=
  filterMap_append

/-- The call is not for the time. -/
def NotClock (c : LoopCall) : Prop := c ≠ .dateNow

attribute [local simp] NotClock createToolResultMessage

/-! ### Rules -/

/-- The postcondition of a program that may throw: on its value, or its exception, and on the
results it hands over. -/
def post {α : Type} (V : α → List ToolCall → Prop) (E : Thrown → List ToolCall → Prop) :
    Except Thrown α → List LoopCall → Prop
  | .ok a, made => V a (resultsOf made)
  | .error error, made => E error (resultsOf made)

def Sure {α : Type} (host : Host) (P : LoopCall → Prop) (x : Loop α) (V : α → List ToolCall → Prop)
    (E : Thrown → List ToolCall → Prop) : Prop :=
  ∀ pending, (driver host).Sound P (post V E) (ExceptT.run x) pending []

/-- The exceptions of a program that does not throw. -/
def never : Thrown → List ToolCall → Prop := fun _ _ => False

section

variable {α β : Type} {host : Host} {P : LoopCall → Prop} {x : Loop α}
  {V V' : α → List ToolCall → Prop} {E E' : Thrown → List ToolCall → Prop}

theorem Sure.mono {P' : LoopCall → Prop} (h : Sure host P x V E) (hP : ∀ c, P c → P' c)
    (hV : ∀ a rs, V a rs → V' a rs) (hE : ∀ error rs, E error rs → E' error rs) : Sure host P' x V' E' := by
  refine fun pending => (h pending).mono hP fun r made hr => ?_
  cases r with
  | ok a => exact hV a _ hr
  | error error => exact hE error _ hr

theorem sure_pure {a : α} (h : V a []) : Sure host P (pure a) V E := fun _ => h

theorem sure_except {r : Except Thrown α} (hok : ∀ a, r = .ok a → V a [])
    (herr : ∀ error, r = .error error → E error []) : Sure host P (ExceptT.mk (pure r)) V E := by
  intro pending
  cases r with
  | ok a => exact hok a rfl
  | error error => exact herr error rfl

theorem Sure.after {made : List LoopCall} {V : α → List ToolCall → Prop}
    (h : Sure host P x (fun a rs => V a (resultsOf made ++ rs))
      (fun error rs => E error (resultsOf made ++ rs))) (pending : Option LoopCall) :
    (driver host).Sound P (post V E) (ExceptT.run x) pending made := by
  rw [← append_nil made]
  refine Driver.Sound.after (Driver.Sound.mono (h pending) (fun _ => id) fun r own hr => ?_)
  cases r <;> simpa only [post, resultsOf_append] using hr

variable {f : α → Loop β}

theorem sure_bind {V : β → List ToolCall → Prop}
    (h : Sure host P x (fun a rs => Sure host P (f a) (fun b rs' => V b (rs ++ rs'))
      (fun error rs' => E error (rs ++ rs'))) E) : Sure host P (x >>= f) V E := by
  intro pending
  change (driver host).Sound P (post V E) (ExceptT.run x >>= ExceptT.bindCont f) pending []
  refine Driver.Sound.bind ((h pending).mono (fun _ => id) fun r made hr pending' => ?_)
  cases r with
  | ok a => exact Sure.after hr pending'
  | error error => exact hr

theorem sure_tryCatch {f : Thrown → Loop α}
    (h : Sure host P x V fun error rs => Sure host P (f error) (fun a rs' => V a (rs ++ rs'))
      (fun error' rs' => E error' (rs ++ rs'))) : Sure host P (tryCatch x f) V E := by
  intro pending
  rw [Async.run_tryCatch]
  refine Driver.Sound.bind ((h pending).mono (fun _ => id) fun r made hr pending' => ?_)
  cases r with
  | ok a => exact hr
  | error error => exact Sure.after hr pending'

theorem sure_finally {last : Loop Unit}
    (h : Sure host P x (fun a rs => Sure host P last (fun _ rs' => V a (rs ++ rs')) never) never) :
    Sure host P (Async.finally_ x last) V E := by
  intro pending
  change (driver host).Sound P (post V E) (ExceptT.run x >>= fun r => ExceptT.run last >>= fun _ => pure r)
    pending []
  refine Driver.Sound.bind ((h pending).mono (fun _ => id) fun r made hr pending' => ?_)
  cases r with
  | error error => exact hr.elim
  | ok a =>
    have hlast := @Sure.after _ host P last never made (fun _ rs => V a rs)
      (Sure.mono hr (fun _ => id) (fun _ _ => id) fun _ _ => id) pending'
    refine Driver.Sound.bind (hlast.mono (fun _ => id) fun r' made' hr' _ => ?_)
    cases r' with
    | ok _ => exact hr'
    | error _ => exact hr'.elim

theorem sure_record {call : LoopCall} {V : Unit → List ToolCall → Prop} (hP : P call)
    (h : V () (resultsOf [call])) : Sure host P (record call) V E := by
  intro pending
  refine ⟨fun _ => some (.ok (), [call]), fun w r _ => rfl, fun log => ⟨_, _, rfl, ?_, h⟩⟩
  simpa using hP

theorem sure_callHost {call : LoopCall} {answer : LoopReply → Option α} (hP : P call)
    (h : ∀ log, ∃ r, answerOf answer (host log call) = some r ∧ post V E r [call]) :
    Sure host P (callHost call answer) V E := by
  intro pending
  refine ⟨fun _ => some (.ok (), [call]), fun w r _ => rfl, fun log => ⟨_, _, rfl, by simpa using hP, ?_⟩⟩
  refine ⟨fun r => (answerOf answer r).map fun a => (a, []), fun w r _ => ?_, fun log' => ?_⟩
  · change (answerOf answer r).map (fun a => (a, w)) = _
    rw [Option.map_map]
    refine congrFun (congrArg Option.map (funext fun a => ?_)) _
    simp [driver]
  · obtain ⟨r, hr, hpost⟩ := h log'
    refine ⟨r, [], ?_, by simp, ?_⟩
    · change (answerOf answer (host log' call)).map _ = _
      rw [hr]
      rfl
    · exact hpost

theorem sure_signalAborted {V : Bool → List ToolCall → Prop} (h : V false []) : Sure host P signalAborted V E := by
  intro pending
  refine ⟨fun _ => some (.ok false, []), fun w r hw => ?_, fun log => ⟨_, _, rfl, by simp, h⟩⟩
  have hw : w.aborted = false := hw
  simp only [driver, hw, Option.map_some, append_nil]
  rw [← hw]

end

/-! ### One call -/

section

variable {host : Host} (hhost : ∀ log c, Fits c (host log c)) {context : AgentContext}
  {assistant : AssistantMessage} {config : AgentLoopConfig} {P : LoopCall → Prop}

include hhost

theorem sure_emit {event : AgentEvent} (hP : P (.emit event)) : Sure host P (emit event) (fun _ rs => rs = []) never :=
  sure_callHost hP fun log => ⟨.ok (), by rw [hhost log (.emit event)]; rfl, rfl⟩

variable {call : ToolCall}

theorem sure_prepareToolCall : Sure host NotClock (prepareToolCall context assistant call config)
      (fun r rs => (∀ p, r = .inr p → p.toolCall = call) ∧ rs = []) never := by
  unfold prepareToolCall
  split
  · exact sure_pure ⟨by rintro p ⟨⟩, rfl⟩
  refine sure_tryCatch (Sure.mono (E := fun _ rs => rs = []) ?_ (fun _ => id) (fun _ _ => id) ?_)
  · refine sure_bind (sure_except (fun args _ => ?_) fun _ _ => rfl)
    refine sure_bind (sure_callHost (by simp) fun log => ?_)
    obtain ⟨before, args', hr⟩ | ⟨error, hr⟩ := hhost log (.beforeToolCall assistant call args)
    · refine ⟨.ok (before, args'), by rw [hr]; rfl, ?_⟩
      refine sure_bind (sure_signalAborted ?_)
      simp only [Bool.false_eq_true, if_false]
      split
      · exact sure_pure ⟨by rintro p ⟨⟩, rfl⟩
      refine sure_bind (sure_except (fun args'' _ => ?_) fun _ _ => rfl)
      refine sure_bind (sure_signalAborted ?_)
      simp only [Bool.false_eq_true, if_false]
      refine sure_pure ⟨?_, rfl⟩
      rintro p ⟨⟩
      rfl
    · exact ⟨.error error, by rw [hr]; rfl, rfl⟩
  · rintro error rs rfl
    exact sure_pure ⟨by rintro p ⟨⟩, rfl⟩

variable {scheduled : Bool}

theorem sure_acquireLease {resource : Option ResourceRequest} :
    Sure host NotClock (acquireLease scheduled resource) (fun _ rs => rs = []) never := by
  unfold acquireLease
  split
  · refine sure_callHost (by simp) fun log => ?_
    obtain ⟨granted, hr⟩ := hhost log (.acquire resource)
    exact ⟨.ok granted, by rw [hr]; rfl, rfl⟩
  · exact sure_pure rfl

omit hhost in
theorem sure_releaseLease : Sure host NotClock (releaseLease scheduled) (fun _ rs => rs = []) never := by
  unfold releaseLease
  split
  · exact sure_record (by simp) rfl
  · exact sure_pure rfl

omit hhost in
theorem sure_forM {γ : Type} {f : γ → Loop Unit} {xs : List γ}
    (h : ∀ x ∈ xs, Sure host P (f x) (fun _ rs => rs = []) never) :
    Sure host P (xs.forM f) (fun _ rs => rs = []) never := by
  induction xs with
  | nil => exact sure_pure rfl
  | cons x xs ih =>
    refine sure_bind ((h x mem_cons_self).mono (fun _ => id) ?_ fun _ _ => id)
    rintro _ rs rfl
    exact ih fun y hy => h y (mem_cons_of_mem _ hy)

variable {prepared : PreparedToolCall}

theorem sure_executeTool : Sure host NotClock (executeTool assistant prepared) (fun _ rs => rs = []) never := by
  unfold executeTool
  refine sure_bind (sure_callHost (by simp) fun log => ?_)
  obtain ⟨updates, result, hr⟩ := hhost log (.execute assistant prepared.toolCall prepared.args)
  refine ⟨.ok (updates, result), by rw [hr]; rfl, ?_⟩
  refine sure_bind ((sure_forM fun update _ => sure_record (by simp) rfl).mono
    (fun _ => id) ?_ fun _ _ => id)
  rintro _ rs rfl
  refine sure_bind (sure_callHost (by simp) fun log => ?_)
  refine ⟨.ok (), by rw [hhost log .updateEvents]; rfl, ?_⟩
  split <;> exact sure_pure rfl

theorem sure_dispatchToolCall :
    Sure host NotClock (dispatchToolCall assistant prepared scheduled) (fun _ rs => rs = []) never := by
  unfold dispatchToolCall
  refine sure_bind (sure_signalAborted ?_)
  simp only [Bool.not_false, if_true]
  refine sure_bind (sure_tryCatch (sure_callHost (by simp) fun log => ?_))
  refine ⟨.ok (), by rw [hhost log (.beforeToolDispatch ..)]; rfl, ?_⟩
  refine sure_bind (sure_callHost (by simp) fun log => ?_)
  obtain ⟨admitted, hr⟩ := hhost log .admitEffect
  refine ⟨.ok admitted, by rw [hr]; rfl, ?_⟩
  refine sure_bind (sure_signalAborted ?_)
  split
  · refine sure_bind (sure_releaseLease.mono (fun _ => id) ?_ fun _ _ => id)
    rintro _ rs rfl
    exact sure_pure rfl
  · refine sure_finally ((sure_executeTool hhost).mono (fun _ => id) ?_ fun _ _ => id)
    rintro _ rs rfl
    exact sure_releaseLease.mono (fun _ => id) (fun _ _ h => h) fun _ _ => id

theorem sure_executePreparedToolCall :
    Sure host NotClock (executePreparedToolCall assistant prepared config) (fun _ rs => rs = []) never := by
  unfold executePreparedToolCall
  dsimp only
  split
  · exact sure_pure rfl
  refine sure_bind (sure_callHost (by simp) fun log => ?_)
  obtain ⟨admission, hr⟩ := hhost log (.admitToolCall prepared.toolCall prepared.tool prepared.args)
  refine ⟨.ok admission, by rw [hr]; rfl, ?_⟩
  simp only [post]
  split
  · exact sure_pure rfl
  refine sure_bind ((sure_acquireLease hhost).mono (fun _ => id) ?_ fun _ _ => id)
  rintro granted rs rfl
  split
  · exact sure_pure rfl
  · exact (sure_dispatchToolCall hhost).mono (fun _ => id) (fun _ _ h => h) fun _ _ => id

theorem sure_executeAndFinalize : Sure host NotClock (executeAndFinalize assistant prepared config)
      (fun o rs => (o.toolCall = prepared.toolCall ∧ o.message = none) ∧ rs = []) never := by
  unfold executeAndFinalize
  refine sure_bind ((sure_executePreparedToolCall hhost).mono (fun _ => id) ?_ fun _ _ => id)
  rintro executed rs rfl
  unfold finalizeExecutedToolCall
  refine sure_bind (Sure.mono (V := fun _ rs => rs = []) (E := never) ?_ (fun _ => id) ?_
    fun _ _ => id)
  · refine sure_tryCatch (sure_bind (sure_callHost (by simp) fun log => ?_))
    obtain ⟨after, hr⟩ | ⟨error, hr⟩ := hhost log (.afterToolCall assistant prepared.toolCall
      prepared.args executed.result executed.isError)
    · refine ⟨.ok after, by rw [hr]; rfl, ?_⟩
      cases after <;> exact sure_pure rfl
    · exact ⟨.error error, by rw [hr]; rfl, sure_pure rfl⟩
  · rintro ⟨result, isError⟩ rs rfl
    exact sure_pure ⟨⟨rfl, rfl⟩, rfl⟩

variable {prep : ImmediateToolCallOutcome ⊕ PreparedToolCall}

theorem sure_outcomeOf (hp : ∀ p, prep = .inr p → p.toolCall = call) :
    Sure host NotClock (outcomeOf assistant call config prep)
      (fun o rs => (o.toolCall = call ∧ o.message = none) ∧ rs = []) never := by
  cases prep with
  | inl immediate => exact sure_pure ⟨⟨rfl, rfl⟩, rfl⟩
  | inr prepared =>
    have hcall := hp prepared rfl
    subst hcall
    exact sure_executeAndFinalize hhost

theorem sure_dateNow : Sure host (fun _ => True) dateNow (fun _ rs => rs = []) never := by
  refine sure_callHost trivial fun log => ?_
  obtain ⟨now, hr⟩ := hhost log .dateNow
  exact ⟨.ok now, by rw [hr]; rfl, rfl⟩

/-- The outcome with the message that was handed over. -/
def handed (o : FinalizedToolCallOutcome) (now : ℚ) : FinalizedToolCallOutcome :=
  { o with message := some (createToolResultMessage o now) }

variable {o : FinalizedToolCallOutcome}

theorem sure_persistToolResult : Sure host (fun _ => True) (persistToolResult o assistant)
      (fun r rs => (∃ now, r = (createToolResultMessage o now, handed o now)) ∧ rs = [o.toolCall]) never := by
  unfold persistToolResult
  refine sure_bind ((sure_dateNow hhost).mono (fun _ => id) ?_ fun _ _ => id)
  rintro now rs rfl
  refine sure_bind (sure_callHost trivial fun log => ?_)
  exact ⟨.ok (), by rw [hhost log (.onToolResult ..)]; rfl, sure_pure ⟨⟨now, rfl⟩, rfl⟩⟩

theorem sure_emitToolExecutionEnd : Sure host (fun _ => True) (emitToolExecutionEnd o) (fun _ rs => rs = []) never :=
  sure_emit hhost trivial

theorem sure_emitToolResultMessage {m : ToolResultMessage} :
    Sure host (fun _ => True) (emitToolResultMessage m) (fun _ rs => rs = []) never := by
  unfold emitToolResultMessage
  refine sure_bind ((sure_emit hhost trivial).mono (fun _ => id) ?_ fun _ _ => id)
  rintro _ rs rfl
  exact (sure_emit hhost trivial).mono (fun _ => id) (fun _ _ h => h) fun _ _ => id

end

/-! ### A batch -/

/-- What is known of each call: of how it is prepared, and of its outcome. -/
structure CallSpec (host : Host) (context : AgentContext) (assistant : AssistantMessage)
    (config : AgentLoopConfig) (prepared : ToolCall → ImmediateToolCallOutcome ⊕ PreparedToolCall → Prop)
    (outcome : ToolCall → FinalizedToolCallOutcome → Prop) : Prop where
  prepare : ∀ call, Sure host NotClock (prepareToolCall context assistant call config)
    (fun r rs => prepared call r ∧ rs = []) never
  outcome : ∀ call prep, prepared call prep → Sure host NotClock (outcomeOf assistant call config prep)
      (fun o rs => (outcome call o ∧ o.toolCall = call ∧ o.message = none) ∧ rs = []) never

/-- The outcome of a call whose message has been handed over. -/
def HandedOver (outcome : ToolCall → FinalizedToolCallOutcome → Prop) (call : ToolCall)
    (o' : FinalizedToolCallOutcome) : Prop :=
  ∃ o now, outcome call o ∧ o.toolCall = call ∧ o.message = none ∧ o' = handed o now

section

variable {host : Host} (hhost : ∀ log c, Fits c (host log c)) {context : AgentContext}
  {assistant : AssistantMessage} {config : AgentLoopConfig}
  {prepared : ToolCall → ImmediateToolCallOutcome ⊕ PreparedToolCall → Prop}
  {outcome : ToolCall → FinalizedToolCallOutcome → Prop}
  (h : CallSpec host context assistant config prepared outcome)

include hhost h

variable {calls : List ToolCall}

theorem sure_executeToolCallsSequential
    {finalized : List FinalizedToolCallOutcome} {messages : List ToolResultMessage} :
    Sure host (fun _ => True) (executeToolCallsSequential context assistant config calls finalized messages)
      (fun b rs => ∃ os, List.Forall₂ (HandedOver outcome) calls os ∧
        b.messages.map some = messages.map some ++ os.map (·.message) ∧
        b.terminate = shouldTerminateToolBatch (finalized ++ os) ∧ rs = calls) never := by
  induction calls generalizing finalized messages with
  | nil => exact sure_pure ⟨[], .nil, by simp, by simp, rfl⟩
  | cons call calls ih =>
    unfold executeToolCallsSequential
    refine sure_bind ((sure_emit hhost trivial).mono (fun _ => id) ?_ fun _ _ => id)
    rintro _ rs rfl
    refine sure_bind ((h.prepare call).mono (fun _ _ => trivial) ?_ fun _ _ => id)
    rintro prep rs ⟨hprep, rfl⟩
    refine sure_bind ((h.outcome call prep hprep).mono (fun _ _ => trivial) ?_ fun _ _ => id)
    rintro o rs ⟨⟨ho, hcall, hmsg⟩, rfl⟩
    refine sure_bind ((sure_persistToolResult hhost).mono (fun _ => id) ?_ fun _ _ => id)
    rintro _ rs ⟨⟨now, rfl⟩, rfl⟩
    refine sure_bind ((sure_emitToolExecutionEnd hhost).mono (fun _ => id) ?_ fun _ _ => id)
    rintro _ rs rfl
    refine sure_bind ((sure_emitToolResultMessage hhost).mono (fun _ => id) ?_ fun _ _ => id)
    rintro _ rs rfl
    refine sure_bind (sure_signalAborted ?_)
    simp only [Bool.false_eq_true, if_false]
    refine ih.mono (fun _ => id) ?_ fun _ _ => id
    rintro b rs ⟨os, hos, hmsgs, hter, rfl⟩
    refine ⟨handed o now :: os, .cons ⟨o, now, ho, hcall, hmsg, rfl⟩ hos, ?_, ?_, ?_⟩
    · rw [hmsgs]
      simp [handed]
    · rw [hter]
      simp
    · simp [hcall]

end

/-- The entry is of the call: its outcome, or the call prepared. -/
def EntryFor (prepared : ToolCall → ImmediateToolCallOutcome ⊕ PreparedToolCall → Prop)
    (outcome : ToolCall → FinalizedToolCallOutcome → Prop) (call : ToolCall) :
    FinalizedToolCallEntry → Prop
  | .finalized o => HandedOver outcome call o
  | .deferred p => prepared call (.inr p)

/-- The calls whose results are handed over before any call runs. -/
def early : FinalizedToolCallEntry → List ToolCall
  | .finalized o => [o.toolCall]
  | .deferred _ => []

/-- The calls whose results are handed over when the entry has run. -/
def late (call : ToolCall) : FinalizedToolCallEntry → List ToolCall
  | .finalized _ => []
  | .deferred _ => [call]

variable {entries : List FinalizedToolCallEntry}

theorem early_late_perm {prepared : ToolCall → ImmediateToolCallOutcome ⊕ PreparedToolCall → Prop}
    {outcome : ToolCall → FinalizedToolCallOutcome → Prop}
    (h : List.Forall₂ (EntryFor prepared outcome) calls entries) :
    (entries.flatMap early ++ (List.zipWith late calls entries).flatten).Perm calls := by
  induction h with
  | nil => exact .nil
  | @cons call entry calls entries hent _ ih =>
    cases entry with
    | finalized o =>
      obtain ⟨o', now, -, hcall, -, rfl⟩ := hent
      simpa [early, late, handed, hcall] using ih
    | deferred p =>
      simp only [flatMap_cons, early, late, zipWith_cons_cons, flatten_cons, nil_append, singleton_append]
      exact perm_middle.trans (ih.cons call)

theorem fulfilled_ok (os : List FinalizedToolCallOutcome) : fulfilled (os.map .ok) = .ok os := by
  induction os with
  | nil => rfl
  | cons o os ih =>
    simp only [map_cons, fulfilled, ih]
    rfl

section

variable {host : Host} (hhost : ∀ log c, Fits c (host log c)) {context : AgentContext}
  {assistant : AssistantMessage} {config : AgentLoopConfig}
  {prepared : ToolCall → ImmediateToolCallOutcome ⊕ PreparedToolCall → Prop}
  {outcome : ToolCall → FinalizedToolCallOutcome → Prop}

include hhost

theorem sure_emitToolResults {os : List FinalizedToolCallOutcome} {messages : List ToolResultMessage}
    (hos : ∀ o ∈ os, o.message.isSome) : Sure host (fun _ => True) (emitToolResults os messages)
      (fun ms rs => ms.map some = messages.map some ++ os.map (·.message) ∧ rs = []) never := by
  induction os generalizing messages with
  | nil => exact sure_pure ⟨by simp, rfl⟩
  | cons o os ih =>
    obtain ⟨m, hm⟩ := Option.isSome_iff_exists.mp (hos o mem_cons_self)
    rw [emitToolResults, resultMessage, hm, pure_bind]
    refine sure_bind ((sure_emitToolResultMessage hhost).mono (fun _ => id) ?_ fun _ _ => id)
    rintro _ rs rfl
    refine (ih fun o' ho' => hos o' (mem_cons_of_mem _ ho')).mono (fun _ => id) ?_ fun _ _ => id
    rintro ms rs ⟨hms, rfl⟩
    refine ⟨?_, rfl⟩
    rw [hms]
    simp [hm]

variable (h : CallSpec host context assistant config prepared outcome)

include h

theorem sure_entryOf (hprep : prepared call prep) : Sure host (fun _ => True) (entryOf assistant call prep)
      (fun entry rs => EntryFor prepared outcome call entry ∧ rs = early entry) never := by
  cases prep with
  | inl immediate =>
    obtain ⟨⟨ho, hcall, hmsg⟩, -⟩ := h.outcome call _ hprep none
    refine sure_bind ((sure_persistToolResult hhost).mono (fun _ => id) ?_ fun _ _ => id)
    rintro _ rs ⟨⟨now, rfl⟩, rfl⟩
    refine sure_bind ((sure_emitToolExecutionEnd hhost).mono (fun _ => id) ?_ fun _ _ => id)
    rintro _ rs rfl
    exact sure_pure ⟨⟨_, now, ho, hcall, hmsg, rfl⟩, rfl⟩
  | inr p => exact sure_pure ⟨hprep, rfl⟩

theorem sure_prepareToolCalls : Sure host (fun _ => True) (prepareToolCalls context assistant config calls entries)
      (fun es rs => ∃ new, es = entries ++ new ∧
        List.Forall₂ (EntryFor prepared outcome) calls new ∧ rs = new.flatMap early) never := by
  induction calls generalizing entries with
  | nil => exact sure_pure ⟨[], by simp, .nil, rfl⟩
  | cons call calls ih =>
    unfold prepareToolCalls
    refine sure_bind ((sure_emit hhost trivial).mono (fun _ => id) ?_ fun _ _ => id)
    rintro _ rs rfl
    refine sure_bind ((h.prepare call).mono (fun _ _ => trivial) ?_ fun _ _ => id)
    rintro prep rs ⟨hprep, rfl⟩
    refine sure_bind ((sure_entryOf hhost h hprep).mono (fun _ => id) ?_ fun _ _ => id)
    rintro entry rs ⟨hent, rfl⟩
    refine sure_bind (sure_signalAborted ?_)
    simp only [Bool.false_eq_true, if_false]
    refine ih.mono (fun _ => id) ?_ fun _ _ => id
    rintro es rs ⟨new, rfl, hnew, rfl⟩
    exact ⟨entry :: new, by simp, .cons hent hnew, by simp⟩

theorem sure_runEntry {entry : FinalizedToolCallEntry} (hent : EntryFor prepared outcome call entry) :
    Sure host (fun _ => True) (runEntry assistant config entry)
      (fun o rs => HandedOver outcome call o ∧ rs = late call entry) never := by
  cases entry with
  | finalized o => exact sure_pure ⟨hent, rfl⟩
  | deferred p =>
    have hrun := h.outcome call _ hent
    unfold runEntry
    refine sure_bind (Sure.mono hrun (fun _ _ => trivial) ?_ fun _ _ => id)
    rintro o rs ⟨⟨ho, hcall, hmsg⟩, rfl⟩
    refine sure_bind ((sure_persistToolResult hhost).mono (fun _ => id) ?_ fun _ _ => id)
    rintro _ rs ⟨⟨now, rfl⟩, rfl⟩
    refine sure_bind ((sure_emitToolExecutionEnd hhost).mono (fun _ => id) ?_ fun _ _ => id)
    rintro _ rs rfl
    exact sure_pure ⟨⟨o, now, ho, hcall, hmsg, rfl⟩, by simp [late, hcall]⟩

/-- What each program of the batch returns, with the calls it makes. -/
def EntryPost (outcome : ToolCall → FinalizedToolCallOutcome → Prop) (calls : List ToolCall)
    (entries : List FinalizedToolCallEntry) (i : ℕ) (r : Except Thrown FinalizedToolCallOutcome)
    (made : List LoopCall) : Prop :=
  ∃ (hi : i < calls.length) (hi' : i < entries.length),
    post (fun o rs => HandedOver outcome calls[i] o ∧ rs = late calls[i] entries[i]) never r made

variable {s : Turn LoopCall} {w : LoopWorld}

theorem pool_entries (hents : List.Forall₂ (EntryFor prepared outcome) calls entries) (hw : w.aborted = false) :
    (driver host).Pool (fun _ => True) (EntryPost outcome calls entries) w.calls calls.length
      (entries.map fun entry => ExceptT.run (runEntry assistant config entry))
      (List.replicate calls.length []) s w := by
  have hlen := hents.length_eq
  refine ⟨by rw [length_map, hlen], length_replicate, fun i hi hi' => ?_, hw, ?_⟩
  · rw [length_map] at hi
    rw [getElem_map, getElem_replicate]
    have hent := (forall₂_iff_get.mp hents).2 i (hlen ▸ hi) hi
    exact (sure_runEntry hhost h hent (s.pending i)).mono (fun _ => id)
      fun r made hr => ⟨hlen ▸ hi, hi, hr⟩
  · simp [driver]

omit hhost h in
theorem pool_outcomes (hlen : calls.length = entries.length) {base : List LoopCall}
    {as : List (Except Thrown FinalizedToolCallOutcome)} {owns : List (List LoopCall)}
    (hpool : (driver host).Pool (fun _ => True) (EntryPost outcome calls entries) base calls.length
      (as.map pure) owns s w) : (∃ os, as = os.map .ok ∧ List.Forall₂ (HandedOver outcome) calls os) ∧
      (resultsOf w.calls).Perm (resultsOf base ++ (List.zipWith late calls entries).flatten) := by
  have has : as.length = calls.length := by simpa using hpool.programs
  have hpost : ∀ i (hi : i < as.length) (hi' : i < owns.length), EntryPost outcome calls entries i as[i] owns[i] := by
    intro i hi hi'
    have hsnd := hpool.sound i (by simpa using hi) hi'
    rw [getElem_map] at hsnd
    exact hsnd
  constructor
  · have hall : List.Forall₂ (fun call r => ∃ o, r = .ok o ∧ HandedOver outcome call o) calls as := by
      refine forall₂_iff_get.mpr ⟨has.symm, fun i hi hi' => ?_⟩
      obtain ⟨_, _, hr⟩ := hpost i hi' (hpool.journals ▸ hi)
      simp only [get_eq_getElem]
      cases hr' : as[i] with
      | ok o =>
        rw [hr'] at hr
        exact ⟨o, rfl, hr.1⟩
      | error error =>
        rw [hr'] at hr
        exact hr.elim
    clear hpost hpool has
    generalize calls = cs at hall
    induction hall with
    | nil => exact ⟨[], rfl, .nil⟩
    | cons hfst _ ih =>
      obtain ⟨o, rfl, ho⟩ := hfst
      obtain ⟨os, rfl, hos⟩ := ih
      exact ⟨o :: os, rfl, .cons ho hos⟩
  · have howns : owns.map resultsOf = List.zipWith late calls entries := by
      refine ext_getElem ?_ fun i hi hi' => ?_
      · rw [length_map, length_zipWith, hpool.journals]
        omega
      · rw [length_map] at hi
        have hi' : i < as.length := by rwa [has, ← hpool.journals]
        obtain ⟨_, _, hr⟩ := hpost i hi' hi
        rw [getElem_map, getElem_zipWith]
        cases hr' : as[i] with
        | ok o =>
          rw [hr'] at hr
          exact hr.2
        | error error =>
          rw [hr'] at hr
          exact hr.elim
    have hlog := hpool.log.filterMap (fun
      | LoopCall.onToolResult _ _ call _ _ => some call
      | _ => none)
    refine hlog.trans ?_
    rw [← howns, filterMap_append, filterMap_flatten]
    rfl

/-- How a batch ends: its results are those of outcomes of the calls, in order, and each result has
been handed over once. -/
def BatchEnds (outcome : ToolCall → FinalizedToolCallOutcome → Prop) (calls : List ToolCall)
    (before : List LoopCall) (r : Except Thrown ExecutedToolCallBatch) (w : LoopWorld) : Prop :=
  ∃ b os, r = .ok b ∧ List.Forall₂ (HandedOver outcome) calls os ∧
    b.messages.map some = os.map (·.message) ∧ b.terminate = shouldTerminateToolBatch os ∧
    (resultsOf w.calls).Perm (resultsOf before ++ calls)

theorem settles_sequential (hw : w.aborted = false) : (driver host).Settles (BatchEnds outcome calls w.calls)
      (ExceptT.run (executeToolCallsSequential context assistant config calls [] [])) s w := by
  have hsure : Sure host _ (executeToolCallsSequential context assistant config calls [] []) _ _ :=
    sure_executeToolCallsSequential hhost h
  obtain ⟨r, made, s', w', _, hr, rfl, -, hlog, hgo⟩ := (hsure (s.pending s.current)).run hw
  rw [← Proc.bind_pure' (ExceptT.run _)]
  refine hgo (.ret ?_)
  cases r with
  | error error => exact hr.elim
  | ok b =>
    obtain ⟨os, hos, hmsgs, hter, hrs⟩ := hr
    refine ⟨b, os, rfl, hos, by simpa using hmsgs, hter, ?_⟩
    have hlog : w'.calls = w.calls ++ made := hlog
    have hrs : resultsOf made = calls := hrs
    rw [hlog, resultsOf_append, hrs]

theorem settles_parallel
    (hw : w.aborted = false) : ∃ N, ∀ fuel ≥ N, (driver host).Settles (BatchEnds outcome calls w.calls)
      (ExceptT.run (executeToolCallsParallel fuel context assistant config calls)) s w := by
  have hpre : Sure host _ (prepareToolCalls context assistant config calls []) _ _ := sure_prepareToolCalls hhost h
  obtain ⟨r, made₁, s₁, w₁, _, hr, rfl, hw₁, hlog₁, hgo₁⟩ := (hpre (s.pending s.current)).run hw
  cases r with
  | error error => exact hr.elim
  | ok entries =>
    obtain ⟨_, rfl, hents, hear⟩ := hr
    have hlog₁ : w₁.calls = w.calls ++ made₁ := hlog₁
    -- what follows when all programs have returned
    have hrest : ∀ (as : List (Except Thrown FinalizedToolCallOutcome)) (owns : List (List LoopCall))
        (s' : Turn LoopCall) (w' : LoopWorld),
        (driver host).Pool (fun _ => True) (EntryPost outcome calls entries) w₁.calls calls.length
          (as.map pure) owns s' w' → (driver host).Settles (BatchEnds outcome calls w.calls) (ExceptT.run (do
          let ordered ← ExceptT.mk (pure (fulfilled as))
          let messages ← emitToolResults ordered []
          return { messages, terminate := shouldTerminateToolBatch ordered })) s' w' := by
      intro as owns s' w' hpool
      obtain ⟨⟨os, rfl, hos⟩, hlate⟩ := pool_outcomes hents.length_eq hpool
      rw [fulfilled_ok]
      have hmsg : ∀ o ∈ os, o.message.isSome := by
        intro o ho
        obtain ⟨i, hi, rfl⟩ := mem_iff_getElem.mp ho
        obtain ⟨o', now, -, -, -, heq⟩ := (forall₂_iff_get.mp hos).2 i (hos.length_eq ▸ hi) hi
        rw [get_eq_getElem] at heq
        rw [heq]
        rfl
      have hemit : Sure host _ (emitToolResults os []) _ _ := sure_emitToolResults hhost hmsg
      obtain ⟨r, made₂, s₂, w₂, _, hr, rfl, -, hlog₂, hgo₂⟩ := (hemit (s'.pending s'.current)).run hpool.live
      have hlog₂ : w₂.calls = w'.calls ++ made₂ := hlog₂
      cases r with
      | error error => exact hr.elim
      | ok messages =>
        obtain ⟨hmsgs, hnone⟩ := hr
        have hnone : resultsOf made₂ = [] := hnone
        refine @hgo₂ _ (ExceptT.bindCont _) _ (.ret ?_)
        refine ⟨_, os, rfl, hos, by simpa using hmsgs, rfl, ?_⟩
        rw [hlog₂, resultsOf_append, hnone, append_nil]
        refine hlate.trans ?_
        have hear : resultsOf made₁ = entries.flatMap early := hear
        rw [hlog₁, resultsOf_append, hear, append_assoc]
        exact (early_late_perm hents).append_left _
    have hpick : ∀ i, isPick ((driver host).pick i) = some i := fun _ => rfl
    have hrep : ∀ log pending, isPick ((driver host).reply log pending) = none := by
      intro log pending
      cases pending with
      | none => rfl
      | some c => exact (hhost log c).isPick_eq
    obtain ⟨N, hN⟩ := Driver.settles_interleave hpick hrep hrest
      (pool_entries hhost h hents hw₁)
    refine ⟨N, fun fuel hfuel => @hgo₁ _ (ExceptT.bindCont _) _ ?_⟩
    have hset := hN fuel hfuel
    rw [← Async.run_lift_bind] at hset
    exact hset

end

/-! ### Answers that depend on the call only -/

section

variable {host : Host} {α β : Type}

theorem begins_callHost {call : LoopCall} {answer : LoopReply → Option α} :
    (driver host).BeginsWithCall (ExceptT.run (callHost call answer >>= f)) :=
  ⟨.ok (), [call], by simp, fun _ _ _ => rfl⟩

theorem begins_except {r : Except Thrown α} (hf : ∀ a, (driver host).BeginsWithCall (ExceptT.run (f a))) :
    (driver host).BeginsWithCall (ExceptT.run (ExceptT.mk (pure r) >>= f)) := by
  cases r with
  | ok a => exact hf a
  | error error => trivial

theorem begins_tryCatch {x : Loop α} {f : Thrown → Loop α} (hx : (driver host).BeginsWithCall (ExceptT.run x))
    (hf : ∀ error, (driver host).BeginsWithCall (ExceptT.run (f error))) :
    (driver host).BeginsWithCall (ExceptT.run (tryCatch x f)) := by
  rw [Async.run_tryCatch]
  refine hx.bind fun r => ?_
  cases r with
  | ok a => trivial
  | error error => exact hf error

theorem begins_bind {x : Loop α} (hx : (driver host).BeginsWithCall (ExceptT.run x))
    (hf : ∀ a, (driver host).BeginsWithCall (ExceptT.run (f a))) :
    (driver host).BeginsWithCall (ExceptT.run (x >>= f)) := by
  change (driver host).BeginsWithCall (ExceptT.run x >>= ExceptT.bindCont f)
  refine hx.bind fun r => ?_
  cases r with
  | ok a => exact hf a
  | error error => trivial

variable {context : AgentContext} {assistant : AssistantMessage} {config : AgentLoopConfig}

theorem begins_prepareToolCall :
    (driver host).BeginsWithCall (ExceptT.run (prepareToolCall context assistant call config)) := by
  unfold prepareToolCall
  split
  · trivial
  · exact begins_tryCatch (begins_except fun _ => begins_callHost) fun _ => trivial

theorem begins_outcomeOf : (driver host).BeginsWithCall (ExceptT.run (outcomeOf assistant call config prep)) := by
  cases prep with
  | inl immediate => trivial
  | inr prepared =>
    refine begins_bind ?_ fun executed => ?_
    · unfold executePreparedToolCall
      dsimp only
      split
      · trivial
      · exact begins_callHost
    · exact begins_bind (begins_tryCatch begins_callHost fun _ => trivial) fun _ => trivial

theorem Sure.fixed {x : Loop α} {V : α → Prop} (hans : ∀ c log log', NotClock c → host log c = host log' c)
    (hbeg : (driver host).BeginsWithCall (ExceptT.run x)) (h : Sure host NotClock x (fun a rs => V a ∧ rs = []) never) :
    ∃ a, V a ∧ Sure host NotClock x (fun b rs => b = a ∧ rs = []) never := by
  obtain ⟨r, made, hr, hfix⟩ := (h none).fixed hans hbeg
  cases r with
  | error error => exact hr.elim
  | ok a =>
    obtain ⟨hV, hmade⟩ := hr
    refine ⟨a, hV, fun pending => (hfix pending).mono (fun _ => id) ?_⟩
    rintro _ _ ⟨rfl, rfl⟩
    exact ⟨rfl, hmade⟩

variable (hhost : ∀ log c, Fits c (host log c))

include hhost

theorem callSpec : CallSpec host context assistant config
    (fun call r => ∀ p, r = .inr p → p.toolCall = call) fun _ _ => True where
  prepare _ := sure_prepareToolCall hhost
  outcome _ _ hprep := (sure_outcomeOf hhost hprep).mono (fun _ => id)
    (fun _ _ ⟨⟨hcall, hmsg⟩, hrs⟩ => ⟨⟨trivial, hcall, hmsg⟩, hrs⟩) fun _ _ => id

theorem callSpec_fixed (hans : ∀ c log log', NotClock c → host log c = host log' c) :
    ∃ (prepared : ToolCall → ImmediateToolCallOutcome ⊕ PreparedToolCall) (outcome : ToolCall → FinalizedToolCallOutcome),
      CallSpec host context assistant config (fun call r => r = prepared call) fun call o => o = outcome call := by
  have hprepared : ∀ call, ∃ r, (∀ p, r = .inr p → p.toolCall = call) ∧
      Sure host NotClock (prepareToolCall context assistant call config) (fun b rs => b = r ∧ rs = []) never :=
    fun call => Sure.fixed hans begins_prepareToolCall (sure_prepareToolCall hhost)
  choose prepared hnms hpre using hprepared
  have hout : ∀ call, ∃ o : FinalizedToolCallOutcome, (o.toolCall = call ∧ o.message = none) ∧
      Sure host NotClock (outcomeOf assistant call config (prepared call)) (fun b rs => b = o ∧ rs = []) never :=
    fun call => Sure.fixed hans begins_outcomeOf (sure_outcomeOf hhost (hnms call))
  choose outcome hcall hrun using hout
  refine ⟨prepared, outcome, hpre, ?_⟩
  rintro call _ rfl
  refine (hrun call).mono (fun _ => id) ?_ fun _ _ => id
  rintro o rs ⟨rfl, rfl⟩
  exact ⟨⟨rfl, hcall call⟩, rfl⟩

end

/-! ### The result -/

def untimed (m : ToolResultMessage) : ToolResultMessage := { m with timestamp := 0 }

theorem untimed_createToolResultMessage (h : o.message = none)
    (now : ℚ) : untimed (createToolResultMessage o now) = untimed (createToolResultMessage o 0) := by
  simp [untimed, h]

section

variable {outcome : ToolCall → FinalizedToolCallOutcome → Prop} {calls : List ToolCall}
  {before : List LoopCall} {r : Except Thrown ExecutedToolCallBatch} {w : LoopWorld}

theorem BatchEnds.names (h : BatchEnds outcome calls before r w) :
    ∃ b, r = .ok b ∧ List.Forall₂ Names calls b.messages ∧ (resultsOf w.calls).Perm (resultsOf before ++ calls) := by
  obtain ⟨b, os, rfl, hos, hmsgs, -, hperm⟩ := h
  refine ⟨b, rfl, ?_, hperm⟩
  have hnms : List.Forall₂ (fun call o => ∃ m, o = some m ∧ Names call m) calls
      (b.messages.map some) := by
    rw [hmsgs, forall₂_map_right_iff]
    refine hos.imp fun call o' hend => ?_
    obtain ⟨o, now, -, hcall, hmsg, rfl⟩ := hend
    refine ⟨_, rfl, ?_⟩
    simp [Names, hmsg, hcall]
  rw [forall₂_map_right_iff] at hnms
  refine hnms.imp fun call m hname => ?_
  obtain ⟨m', heq, hm⟩ := hname
  exact Option.some.inj heq ▸ hm

theorem BatchEnds.fixed {f : ToolCall → FinalizedToolCallOutcome}
    (h : BatchEnds (fun call o => o = f call) calls before r w) :
    ∃ b, r = .ok b ∧ b.messages.map untimed = calls.map (fun c => untimed (createToolResultMessage (f c) 0)) ∧
      b.terminate = shouldTerminateToolBatch (calls.map f) ∧ (resultsOf w.calls).Perm (resultsOf before ++ calls) := by
  obtain ⟨b, os, rfl, hos, hmsgs, hter, hperm⟩ := h
  refine ⟨b, rfl, ?_, ?_, hperm⟩
  · have hmap : b.messages.map (fun m => some (untimed m)) =
        calls.map fun c => some (untimed (createToolResultMessage (f c) 0)) := by
      have hmap' := congrArg (List.map (Option.map untimed)) hmsgs
      simp only [map_map] at hmap'
      refine hmap'.trans ?_
      clear hmap' hmsgs hter hperm
      induction hos with
      | nil => rfl
      | cons hfst _ ih =>
        obtain ⟨o, now, rfl, hcall, hmsg, rfl⟩ := hfst
        rw [map_cons, map_cons, ih]
        simp only [Function.comp_apply, handed, Option.map_some]
        rw [untimed_createToolResultMessage hmsg]
    have hinj := congrArg (List.filterMap id) hmap
    simpa [filterMap_map, Function.comp_def] using hinj
  · rw [hter]
    clear hmsgs hter hperm
    have hsame : os.map (·.result.terminate) = (calls.map f).map (·.result.terminate) := by
      induction hos with
      | nil => rfl
      | cons hfst _ ih =>
        obtain ⟨o, now, rfl, -, -, rfl⟩ := hfst
        simp only [map_cons, ih]
        rfl
    have hterm : ∀ os : List FinalizedToolCallOutcome, shouldTerminateToolBatch os =
        (!(os.map (·.result.terminate)).isEmpty && (os.map (·.result.terminate)).all id) := by
      intro os
      simp [shouldTerminateToolBatch]
    rw [hterm, hterm, hsame]

end

/-- **Tool results come in the order of the calls**, in whichever order the calls are executed:
a batch that runs at the same time ends with one result for each call, each handed over once. If
the answer to a call depends on the call only, one call after the other has the same results, but
for their times, and stops the run in the same cases. -/
theorem parallel_ordered {host : Host} (hhost : ∀ log c, Fits c (host log c))
    (context : AgentContext) (assistant : AssistantMessage) (config : AgentLoopConfig)
    (calls : List ToolCall) (w : LoopWorld) (hw : w.aborted = false) : (∃ N, ∀ fuel ≥ N, (driver host).Settles
      (fun r w' => ∃ b, r = .ok b ∧ List.Forall₂ Names calls b.messages ∧
        (resultsOf w'.calls).Perm (resultsOf w.calls ++ calls))
      (ExceptT.run (executeToolCallsParallel fuel context assistant config calls)) {} w) ∧
    ((∀ c log log', NotClock c → host log c = host log' c) → ∃ messages terminate, (∃ N, ∀ fuel ≥ N, (driver host).Settles
        (fun r w' => ∃ b, r = .ok b ∧ b.messages.map untimed = messages ∧ b.terminate = terminate ∧
          (resultsOf w'.calls).Perm (resultsOf w.calls ++ calls))
        (ExceptT.run (executeToolCallsParallel fuel context assistant config calls)) {} w) ∧ (driver host).Settles
        (fun r w' => ∃ b, r = .ok b ∧ b.messages.map untimed = messages ∧ b.terminate = terminate ∧
          (resultsOf w'.calls).Perm (resultsOf w.calls ++ calls))
        (ExceptT.run (executeToolCallsSequential context assistant config calls [] [])) {} w) := by
  refine ⟨?_, fun hans => ?_⟩
  · obtain ⟨N, hN⟩ := settles_parallel hhost (callSpec hhost) hw
    exact ⟨N, fun fuel hfuel => (hN fuel hfuel).mono fun _ _ hends => hends.names⟩
  · obtain ⟨prepared, outcome, hspec⟩ := callSpec_fixed hhost hans
    refine ⟨_, _, ?_, (settles_sequential hhost hspec hw).mono fun _ _ hends => hends.fixed⟩
    obtain ⟨N, hN⟩ := settles_parallel hhost hspec hw
    exact ⟨N, fun fuel hfuel => (hN fuel hfuel).mono fun _ _ hends => hends.fixed⟩

namespace Ticking

/-! A host whose clock shows how many calls have been made, and two calls to a tool, which may not
exist. -/

def host : Host := fun log c =>
  match c with
  | .dateNow => .time log.length
  | .admitEffect => .flag true
  | .admitToolCall .. => .admission none
  | .acquire _ => .lease true
  | .execute .. => .executed [] (.ok {})
  | .beforeToolCall _ _ args => .before none args
  | .afterToolCall .. => .after none
  | _ => .done

def config : AgentLoopConfig := { model := ⟨"", "", ""⟩ }

def calls : List ToolCall := [{ id := "a", name := "missing" }, { id := "b", name := "missing" }]

theorem host_fits (log : List LoopCall) (c : LoopCall) : Fits c (host log c) := by
  cases c <;> simp [Fits, host]

def assistant : AssistantMessage := { content := [], stopReason := .toolUse }

def HasTimes (times : List ℚ) (r : Except Thrown ExecutedToolCallBatch) : Prop :=
  match r with
  | .ok b => b.messages.map (·.timestamp) = times
  | .error _ => False

instance HasTimes.decidable (times : List ℚ) (r : Except Thrown ExecutedToolCallBatch) :
    Decidable (HasTimes times r) := by
  unfold HasTimes
  split <;> infer_instance

theorem sequential_times : (driver host).Settles (fun r _ => HasTimes [2, 8] r)
    (ExceptT.run (executeToolCallsSequential {} assistant config calls [] [])) {} {} := by
  apply Driver.settles_of_evaluate
  decide +kernel

theorem parallel_times : (driver host).Settles (fun r _ => HasTimes [2, 6] r)
    (ExceptT.run (executeToolCallsParallel 1 {} assistant config calls)) {} {} := by
  apply Driver.settles_of_evaluate
  decide +kernel

/-- Both calls are refused at once, but the second of them is refused before the first result has
been emitted, or after: the results carry other times. -/
theorem times_differ : ¬ ∃ messages, (driver host).Settles (fun r _ => ∃ b, r = .ok b ∧ b.messages = messages)
      (ExceptT.run (executeToolCallsParallel 1 {} assistant config calls)) {} {} ∧
    (driver host).Settles (fun r _ => ∃ b, r = .ok b ∧ b.messages = messages)
      (ExceptT.run (executeToolCallsSequential {} assistant config calls [] [])) {} {} := by
  rintro ⟨messages, hpar, hseq⟩
  obtain ⟨_, _, ⟨b, rfl, rfl⟩, htim⟩ := hpar.both parallel_times
  obtain ⟨_, _, ⟨b', rfl, heq⟩, htim'⟩ := hseq.both sequential_times
  simp only [HasTimes] at htim htim'
  rw [heq, htim] at htim'
  simp at htim'

def withTool : AgentContext := { tools := some [{ name := "missing" }] }

/-- Both calls are executed. -/
theorem ticking_ordered : (∃ N, ∀ fuel ≥ N, (driver host).Settles
      (fun r w' => ∃ b, r = .ok b ∧ List.Forall₂ Names calls b.messages ∧
        (resultsOf w'.calls).Perm (resultsOf [] ++ calls))
      (ExceptT.run (executeToolCallsParallel fuel withTool assistant config calls)) {} {}) ∧ ∃ messages terminate,
      (∃ N, ∀ fuel ≥ N, (driver host).Settles
        (fun r w' => ∃ b, r = .ok b ∧ b.messages.map untimed = messages ∧ b.terminate = terminate ∧
          (resultsOf w'.calls).Perm (resultsOf [] ++ calls))
        (ExceptT.run (executeToolCallsParallel fuel withTool assistant config calls)) {} {}) ∧ (driver host).Settles
        (fun r w' => ∃ b, r = .ok b ∧ b.messages.map untimed = messages ∧ b.terminate = terminate ∧
          (resultsOf w'.calls).Perm (resultsOf [] ++ calls))
        (ExceptT.run (executeToolCallsSequential withTool assistant config calls [] [])) {} {} := by
  have h := parallel_ordered host_fits withTool assistant config calls {} rfl
  refine ⟨h.1, h.2 fun c log log' hc => ?_⟩
  cases c <;> first | rfl | exact absurd rfl hc

end Ticking

end Loop
end EasyPi.Agent
