/-
# The no-progress guard

The calls of a run show its turns: between two turns messages are injected, a request starts one,
and a turn that is complete has a fingerprint if it has tool calls (`Mark`). The loop counts equal
fingerprints in a row (`Counted`), resets the count when a message is injected or a turn has no calls
to go on with, and stops the run at the limit: never later, and never for another reason. Between two
turns the clock is read for the message of the guard only, and it is that message which starts next.
-/
import EasyPi.Agent.Journal

namespace EasyPi.Agent

open List
namespace Loop

open Async (makes_pure makes_except makes_spent)

/-! ### What a run shows -/

/-- The fingerprint of a turn: of its action and its outcomes. -/
abbrev Fingerprint := TurnFingerprint × List ResultFingerprint

/-- What happens in a run: a message is injected, a turn ends, the guard stops the run with a message. -/
inductive Mark where
  | injected
  | turn (fingerprint : Option Fingerprint)
  | stopped (message : AgentMessage)

/-- The fingerprint of a turn that is complete and has tool calls. -/
def turnFingerprint? (m : AssistantMessage) (toolResults : List ToolResultMessage) : Option Fingerprint :=
  if m.stopReason = .error || m.stopReason = .aborted || m.toolCalls.isEmpty then none
  else some (fingerprintAssistantTurn m, toolResults.map fingerprintToolResult)

/-- Where a run is: between two turns, in a turn, or about to be stopped. -/
inductive Phase where
  | between
  | inside
  | stopping
  deriving DecidableEq

/-- The marks so far, and where the run is. -/
structure Watched where
  phase : Phase := .between
  marks : List Mark := []

def watch (s : Watched) : LoopCall → Watched
  | .emit (.messageStart m) =>
    match s.phase with
    | .between => { s with marks := s.marks ++ [.injected] }
    | .inside => s
    | .stopping => { phase := .inside, marks := s.marks ++ [.stopped m] }
  | .dateNow => if s.phase = .between then { s with phase := .stopping } else s
  | .prepareRequest .. => { s with phase := .inside }
  | .emit (.turnEnd m toolResults) =>
    { phase := .between, marks := s.marks ++ [.turn (turnFingerprint? m toolResults)] }
  | _ => s

def watched (calls : List LoopCall) : Watched := calls.foldl watch {}

def marksOf (calls : List LoopCall) : List Mark := (watched calls).marks

/-- Turns with the same fingerprint, and nothing between them. -/
def repeated (n : ℕ) (fingerprint : Fingerprint) : List Mark := List.replicate n (.turn (some fingerprint))

/-- **What the guard is for**: no more turns repeat each other than the limit, and where the guard
stops the run, with its own message, it ends, after as many. -/
structure Guarded (marks : List Mark) : Prop where
  notLate : ∀ fingerprint, ¬ repeated (noProgressRepeatLimit + 1) fingerprint <:+: marks
  notSpurious : ∀ before message after, marks = before ++ .stopped message :: after → after = [] ∧
    (∃ config calls now, message = .assistant (noProgressStopMessage config calls now)) ∧
      ∃ fingerprint, repeated noProgressRepeatLimit fingerprint <:+ before

/-- The state of the guard: how many of the last turns repeat each other. -/
structure Counted (s : LoopState) (more : Bool) (marks : List Mark) : Prop where
  running : ∀ message, .stopped message ∉ marks
  below : s.turnFingerprintRepeats < noProgressRepeatLimit
  reset : s.lastTurnFingerprint = none → s.turnFingerprintRepeats = 0
  counted : ∀ fingerprint, s.lastTurnFingerprint = some fingerprint →
    repeated s.turnFingerprintRepeats fingerprint <:+ marks
  all : more = true → s.pendingMessages = [] → ∀ fingerprint n, repeated n fingerprint <:+ marks →
    n ≤ if s.lastTurnFingerprint = some fingerprint then s.turnFingerprintRepeats else 0

/-! ### Marks -/

section Marks
variable {marks : List Mark} {fingerprint : Fingerprint} {n : ℕ}

theorem repeated_suffix_concat {mark : Mark} (h : repeated n fingerprint <:+ marks ++ [mark]) :
    n = 0 ∨ mark = .turn (some fingerprint) ∧ repeated (n - 1) fingerprint <:+ marks := by
  rcases suffix_concat_iff.mp h with hnil | ⟨t, ht, hsuf⟩
  · exact .inl (replicate_eq_nil_iff _ |>.mp hnil)
  · cases n with
    | zero => exact .inl rfl
    | succ n =>
      rw [repeated, replicate_succ'] at ht
      obtain ⟨rfl, hmark⟩ := append_inj' ht rfl
      exact .inr ⟨(singleton_inj.mp hmark).symm, hsuf⟩

theorem guarded_nil : Guarded [] where
  notLate fingerprint h := by
    have hnil := infix_nil.mp h
    rw [repeated, replicate_succ] at hnil
    cases hnil
  notSpurious before message after h := by
    cases before <;> cases h

theorem Guarded.other {mark : Mark} (h : Guarded marks) (hrun : ∀ message, .stopped message ∉ marks)
    (hmark : mark = .injected ∨ mark = .turn none) : Guarded (marks ++ [mark]) where
  notLate fingerprint hinfix := by
    rcases infix_concat_iff.mp hinfix with hsuf | hinfix
    · rcases repeated_suffix_concat hsuf with hzero | ⟨rfl, -⟩
      · cases hzero
      · simp at hmark
    · exact h.notLate fingerprint hinfix
  notSpurious before message after heq := by
    have hmem : Mark.stopped message ∈ marks ++ [mark] := heq ▸ mem_append_right _ mem_cons_self
    rcases mem_append.mp hmem with hmem | hmem
    · exact absurd hmem (hrun message)
    · obtain rfl := mem_singleton.mp hmem
      simp at hmark

/-- **A turn is not one too many** while the count is below the limit. -/
theorem Guarded.turn {s : LoopState} (h : Guarded marks) (hs : Counted s true marks)
    (hpend : s.pendingMessages = []) (fingerprint : Fingerprint) : Guarded (marks ++ [.turn (some fingerprint)]) where
  notLate fingerprint' hinfix := by
    rcases infix_concat_iff.mp hinfix with hsuf | hinfix
    · rcases repeated_suffix_concat hsuf with hzero | ⟨-, hrest⟩
      · cases hzero
      · have hle := hs.all rfl hpend fingerprint' _ hrest
        have hbel := hs.below
        split at hle <;> omega
    · exact h.notLate fingerprint' hinfix
  notSpurious before message after heq := by
    have hmem : Mark.stopped message ∈ marks ++ [.turn (some fingerprint)] := heq ▸ mem_append_right _ mem_cons_self
    rcases mem_append.mp hmem with hmem | hmem
    · exact absurd hmem (hs.running message)
    · cases mem_singleton.mp hmem

theorem Guarded.stop {config : AgentLoopConfig} {calls : List ToolCall} {now : ℚ} (h : Guarded marks)
    (hrun : ∀ message, .stopped message ∉ marks) (hrep : repeated noProgressRepeatLimit fingerprint <:+ marks) :
    Guarded (marks ++ [.stopped (.assistant (noProgressStopMessage config calls now))]) where
  notLate fingerprint' hinfix := by
    rcases infix_concat_iff.mp hinfix with hsuf | hinfix
    · rcases repeated_suffix_concat hsuf with hzero | ⟨hmark, -⟩
      · cases hzero
      · cases hmark
    · exact h.notLate fingerprint' hinfix
  notSpurious before message after heq := by
    rcases eq_nil_or_concat after with rfl | ⟨after', mark, rfl⟩
    · obtain ⟨rfl, hstop⟩ := append_inj' heq rfl
      cases hstop
      exact ⟨rfl, ⟨config, calls, now, rfl⟩, fingerprint, hrep⟩
    · rw [concat_eq_append, ← cons_append, ← append_assoc] at heq
      obtain ⟨hmar, -⟩ := append_inj' heq rfl
      exact absurd (hmar ▸ mem_append_right _ mem_cons_self) (hrun message)

end Marks

/-! ### The count -/

section Count
variable {s : LoopState} {marks : List Mark} {m : AssistantMessage} {toolResults : List ToolResultMessage}
  {more : Bool} {fingerprint : Fingerprint}

theorem zero_lt_limit : 0 < noProgressRepeatLimit := by decide

theorem one_lt_limit : 1 < noProgressRepeatLimit := by decide

theorem counted_start (h : s.lastTurnFingerprint = none) (hrepe : s.turnFingerprintRepeats = 0)
    (hrun : ∀ message, .stopped message ∉ marks) (hlast : ∀ fingerprint, marks.getLast? ≠ some (.turn (some fingerprint))) :
    Counted s more marks where
  running := hrun
  below := by rw [hrepe]; exact zero_lt_limit
  reset _ := hrepe
  counted fingerprint hlast' := by rw [h] at hlast'; cases hlast'
  all _ _ fingerprint n hsuf := by
    cases n with
    | zero => exact Nat.zero_le _
    | succ n =>
      obtain ⟨before, hbef⟩ := hsuf
      refine absurd ?_ (hlast fingerprint)
      rw [← hbef, repeated, replicate_succ', ← append_assoc, List.getLast?_concat]

theorem Counted.again (h : Counted s true marks) (hpend : s.pendingMessages = [])
    (hlast : s.lastTurnFingerprint = some fingerprint) (hlim : s.turnFingerprintRepeats + 1 < noProgressRepeatLimit) :
    Counted { s with turnFingerprintRepeats := s.turnFingerprintRepeats + 1 } more
      (marks ++ [.turn (some fingerprint)]) where
  running message hmem := (mem_append.mp hmem).elim (h.running message) fun hmem => by
    cases mem_singleton.mp hmem
  below := hlim
  reset hnone := by rw [hlast] at hnone; cases hnone
  counted fingerprint' hlast' := by
    obtain rfl := Option.some.inj (hlast.symm.trans hlast')
    rw [repeated, replicate_succ']
    exact suffix_concat_iff.mpr (.inr ⟨_, rfl, h.counted _ hlast⟩)
  all _ _ fingerprint' n hsuf := by
    rcases repeated_suffix_concat hsuf with rfl | ⟨hmark, hrest⟩
    · exact Nat.zero_le _
    · obtain rfl : fingerprint = fingerprint' := by simpa using hmark
      have hle := h.all rfl hpend fingerprint _ hrest
      rw [if_pos hlast] at hle ⊢
      exact Nat.le_add_of_sub_le hle

theorem Counted.first (h : Counted s true marks) (hpend : s.pendingMessages = [])
    (hlast : s.lastTurnFingerprint ≠ some fingerprint) :
    Counted { s with lastTurnFingerprint := some fingerprint, turnFingerprintRepeats := 1 } more
      (marks ++ [.turn (some fingerprint)]) where
  running message hmem := (mem_append.mp hmem).elim (h.running message) fun hmem => by
    cases mem_singleton.mp hmem
  below := one_lt_limit
  reset hnone := by cases hnone
  counted fingerprint' hlast' := by
    obtain rfl := Option.some.inj hlast'
    exact suffix_append marks _
  all _ _ fingerprint' n hsuf := by
    rcases repeated_suffix_concat hsuf with rfl | ⟨hmark, hrest⟩
    · exact Nat.zero_le _
    · obtain rfl : fingerprint = fingerprint' := by simpa using hmark
      have hle := h.all rfl hpend fingerprint _ hrest
      rw [if_neg hlast] at hle
      rw [if_pos rfl]
      exact Nat.le_add_of_sub_le hle

theorem Counted.reset_turn {key : Option Fingerprint} (h : Counted s true marks) (hkey : more = true → key = none) :
    Counted { s with lastTurnFingerprint := none, turnFingerprintRepeats := 0 } more (marks ++ [.turn key]) where
  running message hmem := (mem_append.mp hmem).elim (h.running message) fun hmem => by
    cases mem_singleton.mp hmem
  below := zero_lt_limit
  reset _ := rfl
  counted fingerprint' hlast' := by cases hlast'
  all hmore _ fingerprint' n hsuf := by
    rcases repeated_suffix_concat hsuf with rfl | ⟨hmark, -⟩
    · exact Nat.zero_le _
    · rw [hkey hmore] at hmark
      cases hmark

theorem Counted.pending {messages : List AgentMessage} (h : Counted s more marks)
    (hpend : messages = [] → s.pendingMessages = []) : Counted { s with pendingMessages := messages } more marks :=
  ⟨h.running, h.below, h.reset, h.counted, fun hmore hnil => h.all hmore (hpend hnil)⟩

theorem Counted.relax (h : Counted s more marks) : Counted s false marks :=
  ⟨h.running, h.below, h.reset, h.counted, fun hmore => by cases hmore⟩

theorem Counted.followUp {messages : List AgentMessage} (h : Counted s more marks)
    (hsome : messages ≠ []) : Counted { s with pendingMessages := messages } true marks :=
  ⟨h.running, h.below, h.reset, h.counted, fun _ hnil => absurd hnil hsome⟩

/-- **The guard's record of a turn**: the count, or the limit is reached. -/
theorem counted_noteFingerprint (h : Counted s true marks) (hpend : s.pendingMessages = [])
    (hstop : ¬ (m.stopReason = .error || m.stopReason = .aborted)) :
    (noteFingerprint s m toolResults more).pendingMessages = [] ∧
    if noProgressRepeatLimit ≤ (noteFingerprint s m toolResults more).turnFingerprintRepeats then
      ∃ fingerprint, turnFingerprint? m toolResults = some fingerprint ∧
        repeated noProgressRepeatLimit fingerprint <:+ marks ++ [.turn (turnFingerprint? m toolResults)]
    else Counted (noteFingerprint s m toolResults more) more (marks ++ [.turn (turnFingerprint? m toolResults)]) := by
  unfold noteFingerprint
  by_cases htls : (more && !m.toolCalls.isEmpty) = true
  · rw [if_pos htls]
    obtain ⟨-, hcls⟩ := Bool.and_eq_true_iff.mp htls
    have hkey : turnFingerprint? m toolResults =
        some (fingerprintAssistantTurn m, toolResults.map fingerprintToolResult) := by
      unfold turnFingerprint?
      rw [if_neg]
      simp only [Bool.or_eq_true, not_or] at hstop ⊢
      exact ⟨hstop, by simpa using hcls⟩
    rw [hkey]
    dsimp only
    by_cases hlast : s.lastTurnFingerprint = some (fingerprintAssistantTurn m, toolResults.map fingerprintToolResult)
    · rw [if_pos hlast]
      refine ⟨hpend, ?_⟩
      dsimp only
      split
      · rename_i hlim
        have hbel := h.below
        have hcnt : noProgressRepeatLimit = s.turnFingerprintRepeats + 1 := by omega
        refine ⟨_, rfl, ?_⟩
        rw [hcnt, repeated, replicate_succ']
        exact suffix_concat_iff.mpr (.inr ⟨_, rfl, h.counted _ hlast⟩)
      · rename_i hlim
        exact h.again hpend hlast (Nat.lt_of_not_le hlim)
    · rw [if_neg hlast]
      refine ⟨hpend, ?_⟩
      dsimp only
      rw [if_neg (Nat.not_le_of_lt one_lt_limit)]
      exact h.first hpend hlast
  · rw [if_neg htls]
    refine ⟨hpend, ?_⟩
    dsimp only
    rw [if_neg (Nat.not_le_of_lt zero_lt_limit)]
    refine h.reset_turn fun hmore => ?_
    unfold turnFingerprint?
    rw [if_pos]
    rw [hmore] at htls
    simp only [Bool.or_eq_true]
    exact .inr (by simpa using htls)

end Count

/-! ### Quiet parts -/

/-- The calls that change the marks between two turns. -/
def changes : LoopCall → Bool
  | .emit (.messageStart _) | .emit (.turnEnd ..) | .dateNow | .prepareRequest .. => true
  | _ => false

/-- The calls that change the marks in a turn. -/
def endsTurn : LoopCall → Bool
  | .emit (.turnEnd ..) => true
  | _ => false

theorem watch_of_not_changes {c : LoopCall} (h : changes c = false) (v : Watched) : watch v c = v := by
  unfold watch
  split
  · cases h
  · cases h
  · cases h
  · cases h
  · rfl

theorem watch_of_not_endsTurn {c : LoopCall} (h : endsTurn c = false) {v : Watched}
    (hv : v.phase = .inside) : watch v c = v := by
  obtain ⟨phase, marks⟩ := v
  obtain rfl : phase = .inside := hv
  unfold watch
  split
  · rfl
  · rfl
  · rfl
  · cases h
  · rfl

theorem watched_append (calls : List LoopCall) {new : List LoopCall}
    (h : ∀ c ∈ new, watch (watched calls) c = watched calls) : watched (calls ++ new) = watched calls := by
  rw [watched, foldl_append]
  change new.foldl watch (watched calls) = watched calls
  induction new with
  | nil => rfl
  | cons c new ih =>
    rw [foldl_cons, h c mem_cons_self]
    exact ih fun c' hc' => h c' (mem_cons_of_mem _ hc')

theorem watched_concat (calls : List LoopCall) (call : LoopCall) :
    watched (calls ++ [call]) = watch (watched calls) call := by
  rw [watched, foldl_append]
  rfl

theorem batched_endsTurn : Batched endsTurn (fun _ => 0) (fun _ => 0) where
  start _ := Nat.le_refl 0
  execute _ _ _ := Nat.le_refl 0
  other c hc := by
    unfold endsTurn
    split
    · exact absurd hc id
    · rfl

theorem quiet_batch (calls : List ToolCall) : boundOf (fun _ => 0) (fun _ => 0) calls = 0 := by
  refine sum_eq_zero fun n hn => ?_
  obtain ⟨call, -, rfl⟩ := mem_map.mp hn
  rfl

section Turns
variable {fuel : ℕ} {s : LoopState} {context : AgentContext} {config : AgentLoopConfig} {kind : LoopCall → Bool}

/-- The count of the guard is the same. -/
structure KeepsCount (s s' : LoopState) : Prop where
  last : s'.lastTurnFingerprint = s.lastTurnFingerprint
  repeats : s'.turnFingerprintRepeats = s.turnFingerprintRepeats
  pending : s'.pendingMessages = [] → s.pendingMessages = []

theorem KeepsCount.counted {s' : LoopState} (h : KeepsCount s s') {more : Bool} {marks : List Mark}
    (hs : Counted s more marks) : Counted s' more marks where
  running := hs.running
  below := by rw [h.repeats]; exact hs.below
  reset := by rw [h.repeats, h.last]; exact hs.reset
  counted := by rw [h.repeats, h.last]; exact hs.counted
  all hmore hnil := by rw [h.repeats, h.last]; exact hs.all hmore (h.pending hnil)

theorem quiet_resolveSystemPrompt (h : kind .getSystemPrompt = false) (snapshot : String) :
    Quiet kind (resolveSystemPrompt snapshot) := by
  refine Async.makes_tryCatch (n := 0) (m := 0) ?_ fun _ => quiet_pure _
  exact (quiet_callHost h).quiet_bind fun _ _ => quiet_pure _

theorem quiet_emitAgentEnd (h : ∀ ms, kind (.emit (.agentEnd ms)) = false) : Quiet kind emitAgentEnd :=
  quiet_newMessages.quiet_bind fun ms _ => quiet_emit (h ms)

theorem quiet_prepareNextTurn : Makes changes (prepareNextTurn s) (KeepsCount s) 0 := by
  unfold prepareNextTurn
  split
  · exact makes_pure ⟨rfl, rfl, id⟩
  · refine (quiet_callHost rfl).quiet_bind fun update _ => ?_
    dsimp only
    have hpoll : Makes changes (pollSteering s.pendingMessages) (fun ms => ms = [] → s.pendingMessages = []) 0 := by
      unfold pollSteering
      split
      · rename_i hnil
        exact (quiet_callHost rfl).mono (fun _ _ _ => isEmpty_iff.mp hnil) (Nat.le_refl 0)
      · exact makes_pure id
    refine hpoll.quiet_bind fun ms hms => ?_
    exact (quiet_emit rfl).quiet_bind fun _ _ => makes_pure ⟨rfl, rfl, hms⟩

theorem quiet_updatePartial {st : StreamState} {snapshot : AssistantMessage} :
    Quiet endsTurn (updatePartial st snapshot) := by
  unfold updatePartial
  split
  · exact (quiet_emit rfl).quiet_bind fun _ _ => quiet_pure _
  · exact quiet_pure _

theorem quiet_readResponse {stepId : Option String} {st : StreamState} :
    Quiet endsTurn (readResponse stepId fuel st) := by
  induction fuel generalizing st with
  | zero => exact makes_spent
  | succ fuel ih =>
    unfold readResponse
    refine (quiet_callHost rfl).quiet_bind fun event _ => ?_
    split
    · exact quiet_pure _
    · exact quiet_pure _
    · exact (quiet_emit rfl).quiet_bind fun _ _ => ih
    · exact quiet_updatePartial.quiet_bind fun _ _ => ih
    · split
      · refine (quiet_callHost rfl).quiet_bind fun _ _ => ?_
        exact quiet_updatePartial.quiet_bind fun _ _ => ih
      · exact quiet_updatePartial.quiet_bind fun _ _ => ih

theorem quiet_streamAssistantResponse : Quiet endsTurn (streamAssistantResponse fuel context config) := by
  have hcon : Quiet endsTurn (buildProviderContext context) := by
    refine (quiet_callHost rfl).quiet_bind fun _ _ => ?_
    exact (quiet_callHost rfl).quiet_bind fun _ _ => quiet_pure _
  have hadm : Quiet endsTurn admitRequest := by
    refine quiet_signalAborted.quiet_bind fun _ _ => ?_
    split
    · exact quiet_pure _
    · exact quiet_callHost rfl
  have hend : ∀ st m, Quiet endsTurn (endPartial st m) := by
    intro st m
    unfold endPartial
    split
    · exact quiet_pure _
    · exact (quiet_emit rfl).quiet_bind fun _ _ => quiet_pure _
  unfold streamAssistantResponse
  refine hcon.quiet_bind fun llmContext _ => ?_
  refine (quiet_resolveSystemPrompt rfl _).quiet_bind fun prompt _ => ?_
  refine (quiet_callHost rfl).quiet_bind fun apiKey _ => ?_
  refine hadm.quiet_bind fun admitted _ => ?_
  split
  · refine (quiet_callHost rfl : Quiet endsTurn dateNow).quiet_bind fun now _ => ?_
    exact (quiet_emit rfl).quiet_bind fun _ _ => quiet_pure _
  · refine quiet_newMessages.quiet_bind fun _ _ => ?_
    refine (quiet_callHost rfl).quiet_bind fun _ _ => ?_
    refine quiet_readResponse.quiet_bind fun st _ => ?_
    refine (quiet_callHost rfl).quiet_bind fun result _ => ?_
    refine quiet_signalAborted.quiet_bind fun _ _ => ?_
    refine (hend _ _).quiet_bind fun messages _ => ?_
    exact quiet_signalAborted.quiet_bind fun _ _ => quiet_pure _

theorem quiet_executeToolCalls {assistant : AssistantMessage} (calls : List ToolCall) :
    Quiet endsTurn (executeToolCalls fuel context assistant config calls) := by
  have h := @makes_executeToolCalls _ _ _ batched_endsTurn context assistant config fuel calls
  rwa [quiet_batch] at h

theorem quiet_commitResponse : Makes endsTurn (commitResponse fuel s)
    (fun r => KeepsCount s r.2.2 ∧ r.2.2.pendingMessages = s.pendingMessages) 0 := by
  have hrec : ∀ streamed context, Quiet endsTurn (recoverResponse fuel s.config context streamed) := by
    intro streamed context
    unfold recoverResponse
    split
    · exact quiet_pure _
    · rename_i checkpoint _
      unfold commitCheckpoint
      refine (quiet_pushNew _).quiet_bind fun _ _ => ?_
      refine (quiet_emit rfl).quiet_bind fun _ _ => ?_
      have hbat : Quiet endsTurn
          (checkpointBatch fuel (context.push [.assistant checkpoint]) checkpoint s.config) := by
        unfold checkpointBatch
        split
        · exact quiet_pure _
        · exact quiet_executeToolCalls _
      refine hbat.quiet_bind fun batch _ => ?_
      refine (quiet_pushNew _).quiet_bind fun _ _ => ?_
      refine quiet_signalAborted.quiet_bind fun _ _ => ?_
      exact (quiet_emit rfl).quiet_bind fun _ _ => quiet_pure _
  unfold commitResponse
  refine quiet_streamAssistantResponse.quiet_bind fun r _ => ?_
  refine (hrec _ _).quiet_bind fun r' _ => ?_
  refine (quiet_pushNew _).quiet_bind fun _ _ => ?_
  exact (quiet_emit rfl).quiet_bind fun _ _ => makes_pure ⟨⟨rfl, rfl, id⟩, rfl⟩

theorem quiet_runToolCalls {m : AssistantMessage} : Quiet endsTurn (runToolCalls fuel s m) := by
  have hbat : Quiet endsTurn (responseBatch fuel s m) := by
    unfold responseBatch
    split
    · have h := @makes_failToolCallsFromTruncatedMessage _ _ _ batched_endsTurn m m.toolCalls []
      rwa [quiet_batch] at h
    · exact quiet_executeToolCalls _
  unfold runToolCalls
  split
  · exact quiet_pure _
  · refine hbat.quiet_bind fun batch _ => ?_
    exact (quiet_pushNew _).quiet_bind fun _ _ => quiet_pure _

end Turns

/-! ### Turns of a guarded run -/

/-- The rules of a run that is guarded, while nobody else makes calls. -/
abbrev guarding : Proc.Rules LoopWorld LoopReply := Async.journal LoopWorld.calls fun calls => Guarded (marksOf calls)

/-- What is shown before the next message or request. -/
structure Waits (v : Watched) : Prop where
  phase : v.phase = .between
  guarded : Guarded v.marks
  running : ∀ message, .stopped message ∉ v.marks

/-- Between two turns, `more` if there are calls to go on with. -/
structure BetweenTurns (s : LoopState) (more : Bool) (v : Watched) : Prop where
  phase : v.phase = .between
  guarded : Guarded v.marks
  counted : Counted s more v.marks

/-- Nothing is pending. -/
structure AtTurnOf (s : LoopState) (phase : Phase) (v : Watched) : Prop where
  phase : v.phase = phase
  guarded : Guarded v.marks
  counted : Counted s true v.marks
  pending : s.pendingMessages = []

section Guard
variable {α β : Type} {x : Loop α} {V : α → Prop} {U : β → LoopWorld → Prop} {f : α → Loop β}
  {w : LoopWorld} {s : LoopState} {more : Bool} {fuel : ℕ}

theorem spec_between (hw : Guarded (marksOf w.calls)) (h : Makes changes x V 0) :
    Async.Spec guarding x (fun a w' => V a ∧ watched w'.calls = watched w.calls) w := by
  have hsame : ∀ new, (∀ c ∈ new, changes c = false) → watched (w.calls ++ new) = watched w.calls :=
    fun new hnew => watched_append w.calls fun c hc => watch_of_not_changes (hnew c hc) _
  refine (h.spec fun new hnew => ?_).mono fun a w' ⟨ha, new, hcls, hnew⟩ => ⟨ha, ?_⟩
  · rw [marksOf, hsame new hnew]
    exact hw
  · rw [hcls, hsame new hnew]

theorem bind_between (hw : Guarded (marksOf w.calls)) (h : Makes changes x V 0)
    (hf : ∀ a w', V a → watched w'.calls = watched w.calls → Async.Spec guarding (f a) U w') :
    Async.Spec guarding (x >>= f) U w :=
  Async.spec_bind ((spec_between hw h).mono fun a w' ⟨ha, hw'⟩ => hf a w' ha hw')

theorem bind_inside (hins : (watched w.calls).phase = .inside) (hw : Guarded (marksOf w.calls)) (h : Makes endsTurn x V 0)
    (hf : ∀ a w', V a → watched w'.calls = watched w.calls → Async.Spec guarding (f a) U w') :
    Async.Spec guarding (x >>= f) U w := by
  have hsame : ∀ new, (∀ c ∈ new, endsTurn c = false) → watched (w.calls ++ new) = watched w.calls :=
    fun new hnew => watched_append w.calls fun c hc => watch_of_not_endsTurn (hnew c hc) hins
  refine Async.spec_bind ((h.spec fun new hnew => ?_).mono fun a w' ⟨ha, new, hcls, hnew⟩ => ?_)
  · rw [marksOf, hsame new hnew]
    exact hw
  · exact hf a w' ha (by rw [hcls, hsame new hnew])

theorem bind_shown {call : LoopCall} {answer : LoopReply → Option α} (hw : Guarded (watch (watched w.calls) call).marks)
    (hf : ∀ a w', watched w'.calls = watch (watched w.calls) call → Async.Spec guarding (f a) U w') :
    Async.Spec guarding (callHost call answer >>= f) U w := by
  refine Async.spec_bind (spec_callHost_journal ?_ fun a w' hcls => hf a w' ?_)
  · change Guarded (watched (w.calls ++ [call])).marks
    rwa [watched_concat]
  · rw [hcls, watched_concat]

theorem Waits.inject {v : Watched} (h : Waits v) (m : AgentMessage) :
    Waits (watch v (.emit (.messageStart m))) ∧ ∀ fingerprint,
      (watch v (.emit (.messageStart m))).marks.getLast? ≠ some (.turn (some fingerprint)) := by
  have hwat : watch v (.emit (.messageStart m)) = { v with marks := v.marks ++ [.injected] } := by
    simp only [watch, h.phase]
  rw [hwat]
  refine ⟨⟨h.phase, h.guarded.other h.running (.inl rfl), fun message hmem => ?_⟩, fun fingerprint hlast => ?_⟩
  · rcases mem_append.mp hmem with hmem | hmem
    · exact h.running message hmem
    · cases mem_singleton.mp hmem
  · rw [List.getLast?_concat] at hlast
    cases hlast

theorem guarded_injectMessages {ms : List AgentMessage} {context : AgentContext} (h : Waits (watched w.calls))
    (hlast : ms = [] → ∀ fingerprint, (watched w.calls).marks.getLast? ≠ some (.turn (some fingerprint))) :
    Async.Spec guarding (injectMessages ms context) (fun _ w' => Waits (watched w'.calls) ∧
      ∀ fingerprint, (watched w'.calls).marks.getLast? ≠ some (.turn (some fingerprint))) w := by
  induction ms generalizing w context with
  | nil => exact Async.spec_pure ⟨h, hlast rfl⟩
  | cons m ms ih =>
    unfold injectMessages
    obtain ⟨hwai, hsh⟩ := h.inject m
    refine bind_shown hwai.guarded fun _ w₁ h₁ => ?_
    have hwaits₁ : Waits (watched w₁.calls) := by rw [h₁]; exact hwai
    refine bind_between hwaits₁.guarded (quiet_emit rfl) fun _ w₂ _ h₂ => ?_
    have hwaits₂ : Waits (watched w₂.calls) := by rw [h₂]; exact hwaits₁
    refine bind_between hwaits₂.guarded (quiet_pushNew _) fun _ w₃ _ h₃ => ?_
    rw [← h₁, ← h₂, ← h₃] at hsh
    exact ih (by rw [h₃]; exact hwaits₂) fun _ => hsh

theorem guarded_injectPending (h : BetweenTurns s more (watched w.calls)) (hmore : s.pendingMessages = [] → more = true) :
    Async.Spec guarding (injectPending s) (fun s' w' => AtTurnOf s' .between (watched w'.calls)) w := by
  unfold injectPending
  split
  · rename_i hnil
    have hpend := isEmpty_iff.mp hnil
    have hcntd := h.counted
    rw [hmore hpend] at hcntd
    exact Async.spec_pure ⟨h.phase, h.guarded, hcntd, hpend⟩
  · rename_i hsome
    have hwai : Waits (watched w.calls) := ⟨h.phase, h.guarded, h.counted.running⟩
    refine Async.spec_bind ((guarded_injectMessages hwai fun hnil => ?_).mono fun context w₁ h₁ => ?_)
    · rw [hnil] at hsome
      exact absurd rfl hsome
    · obtain ⟨hwaits₁, hlast⟩ := h₁
      refine bind_between hwaits₁.guarded (quiet_resolveSystemPrompt rfl _) fun prompt w₂ _ h₂ => ?_
      rw [← h₂] at hwaits₁ hlast
      exact Async.spec_pure ⟨hwaits₁.phase, hwaits₁.guarded, counted_start rfl rfl hwaits₁.running hlast, rfl⟩

theorem guarded_bindStep (h : AtTurnOf s .between (watched w.calls)) :
    Async.Spec guarding (bindStep s) (fun s' w' => AtTurnOf s' .inside (watched w'.calls)) w := by
  unfold bindStep
  refine bind_shown h.guarded fun update w₁ h₁ => ?_
  have hstd : AtTurnOf s .inside (watched w₁.calls) := by
    rw [h₁]
    exact ⟨rfl, h.guarded, h.counted, h.pending⟩
  dsimp only
  refine bind_inside hstd.phase hstd.guarded (quiet_callHost rfl) fun _ w₂ _ h₂ => ?_
  rw [← h₂] at hstd
  have hkp : ∀ s' : LoopState, KeepsCount s s' → s'.pendingMessages = s.pendingMessages →
      AtTurnOf s' .inside (watched w₂.calls) := fun s' hk hp =>
    ⟨hstd.phase, hstd.guarded, hk.counted hstd.counted, hp.trans hstd.pending⟩
  exact Async.spec_pure (hkp _ ⟨rfl, rfl, id⟩ rfl)

/-- What a turn leaves: the end of the run, or the state of the next turn. -/
def TurnOver (r : Option (LoopState × Bool)) (w : LoopWorld) : Prop :=
  ∀ s more, r = some (s, more) → BetweenTurns s more (watched w.calls)

theorem turnOver_none : TurnOver none w := by
  rintro s more ⟨⟩

theorem guarded_end (hw : Guarded (marksOf w.calls)) :
    Async.Spec guarding (do emitAgentEnd; return (none : Option (LoopState × Bool))) TurnOver w :=
  bind_between hw (quiet_emitAgentEnd fun _ => rfl) fun _ _ _ _ => Async.spec_pure turnOver_none

theorem guarded_stopNoProgress {m : AssistantMessage} {fingerprint : Fingerprint} (h : Waits (watched w.calls))
    (hrep : repeated noProgressRepeatLimit fingerprint <:+ (watched w.calls).marks) :
    Async.Spec guarding (do stopNoProgress s m; return (none : Option (LoopState × Bool))) TurnOver w := by
  have hwat : watch (watched w.calls) .dateNow = { watched w.calls with phase := .stopping } := if_pos h.phase
  unfold stopNoProgress
  simp only [bind_assoc]
  refine bind_shown (by rw [hwat]; exact h.guarded) fun now w₁ h₁ => ?_
  rw [hwat] at h₁
  have hguarded₁ : Guarded (watched w₁.calls).marks := by
    rw [h₁]
    exact h.guarded
  refine bind_between hguarded₁ (quiet_pushNew _) fun _ w₂ _ h₂ => ?_
  set stopMessage := noProgressStopMessage s.config m.toolCalls now with hstop
  have hshown : watch (watched w₂.calls) (.emit (.messageStart (.assistant stopMessage))) =
      { phase := .inside, marks := (watched w.calls).marks ++ [.stopped (.assistant stopMessage)] } := by
    rw [h₂, h₁]
    rfl
  have hgua : Guarded ((watched w.calls).marks ++ [.stopped (.assistant stopMessage)]) := h.guarded.stop h.running hrep
  refine bind_shown (by rw [hshown]; exact hgua) fun _ w₃ h₃ => ?_
  rw [hshown] at h₃
  have hguarded₃ : Guarded (watched w₃.calls).marks := by
    rw [h₃]
    exact hgua
  refine bind_inside (by rw [h₃]) hguarded₃ (quiet_emit rfl) fun _ w₄ _ h₄ => guarded_end ?_
  rw [marksOf, h₄]
  exact hguarded₃

/-- **The end of a turn**: the count goes on, or the run is over. -/
theorem guarded_finishTurn {m : AssistantMessage} {recovered : List ToolResultMessage}
    (h : AtTurnOf s .inside (watched w.calls)) : Async.Spec guarding (finishTurn fuel s m recovered) TurnOver w := by
  unfold finishTurn
  split
  · rename_i hstop
    have hkey : turnFingerprint? m recovered = none := by
      unfold turnFingerprint?
      rw [if_pos]
      rw [Bool.or_eq_true] at hstop ⊢
      exact .inl (by simpa using hstop)
    have hgua : Guarded (watch (watched w.calls) (.emit (.turnEnd m recovered))).marks := by
      change Guarded ((watched w.calls).marks ++ [.turn (turnFingerprint? m recovered)])
      rw [hkey]
      exact h.guarded.other h.counted.running (.inr rfl)
    refine bind_shown hgua fun _ w₁ h₁ => guarded_end ?_
    rw [marksOf, h₁]
    exact hgua
  · rename_i hstop
    refine bind_inside h.phase h.guarded quiet_runToolCalls fun r w₁ _ h₁ => ?_
    obtain ⟨toolResults, hasMore⟩ := r
    rw [← h₁] at h
    have hgua : Guarded (watch (watched w₁.calls) (.emit (.turnEnd m toolResults))).marks := by
      change Guarded ((watched w₁.calls).marks ++ [.turn (turnFingerprint? m toolResults)])
      cases turnFingerprint? m toolResults with
      | none => exact h.guarded.other h.counted.running (.inr rfl)
      | some fingerprint => exact h.guarded.turn h.counted h.pending fingerprint
    refine bind_shown hgua fun _ w₂ h₂ => ?_
    replace h₂ : watched w₂.calls =
        { phase := .between
          marks := (watched w₁.calls).marks ++ [.turn (turnFingerprint? m toolResults)] } := h₂
    have hmar : (watched w₂.calls).marks =
        (watched w₁.calls).marks ++ [.turn (turnFingerprint? m toolResults)] := by rw [h₂]
    have hguarded₂ : Guarded (watched w₂.calls).marks := by
      rw [hmar]
      exact hgua
    have hrunning₂ : ∀ message, Mark.stopped message ∉ (watched w₂.calls).marks := by
      rw [hmar]
      intro message hmem
      rcases mem_append.mp hmem with hmem | hmem
      · exact h.counted.running message hmem
      · cases mem_singleton.mp hmem
    have hturn : KeepsCount s { s with
        context := s.context.push (toolResults.map .toolResult)
        lastCompletedTurn := some { message := m, toolResults
                                    context := s.context.push (toolResults.map .toolResult) } } :=
      ⟨rfl, rfl, id⟩
    obtain ⟨hpend, hcnt⟩ := @counted_noteFingerprint _ _ m toolResults hasMore
      (hturn.counted h.counted) h.pending (by simpa using hstop)
    rw [← hmar] at hcnt
    dsimp only
    split
    · rename_i hlim
      rw [if_pos hlim] at hcnt
      obtain ⟨fingerprint, -, hsuf⟩ := hcnt
      exact guarded_stopNoProgress ⟨by rw [h₂], hguarded₂, hrunning₂⟩ hsuf
    · rename_i hlim
      rw [if_neg hlim] at hcnt
      refine bind_between hguarded₂ (quiet_callHost rfl) fun stop w₃ _ h₃ => ?_
      rw [← h₃] at hguarded₂ hcnt h₂
      split
      · exact guarded_end hguarded₂
      · refine bind_between hguarded₂ (quiet_callHost rfl) fun messages w₄ _ h₄ => ?_
        refine Async.spec_pure fun s' more hs' => ?_
        obtain ⟨rfl, rfl⟩ := Prod.mk.inj (Option.some.inj hs')
        rw [h₄]
        exact ⟨by rw [h₂], hguarded₂, hcnt.pending fun _ => hpend⟩

/-- **A turn of a guarded run**. -/
theorem guarded_runTurn (h : BetweenTurns s more (watched w.calls)) (hmore : s.pendingMessages = [] → more = true) :
    Async.Spec guarding (runTurn fuel s) TurnOver w := by
  unfold runTurn
  refine bind_between h.guarded quiet_prepareNextTurn fun s₁ w₁ hkp h₁ => ?_
  rw [← h₁] at h
  have hbet : BetweenTurns s₁ more (watched w₁.calls) := ⟨h.phase, h.guarded, hkp.counted h.counted⟩
  refine Async.spec_bind ((guarded_injectPending hbet fun hnil =>
    hmore (hkp.pending hnil)).mono fun s₂ w₂ h₂ => ?_)
  refine Async.spec_bind ((guarded_bindStep h₂).mono fun s₃ w₃ h₃ => ?_)
  refine bind_inside h₃.phase h₃.guarded quiet_commitResponse fun r w₄ hkp' h₄ => ?_
  obtain ⟨message, recovered, s₄⟩ := r
  rw [← h₄] at h₃
  exact guarded_finishTurn
    ⟨h₃.phase, h₃.guarded, hkp'.1.counted h₃.counted, hkp'.2.trans h₃.pending⟩

theorem guarded_innerLoop (h : BetweenTurns s more (watched w.calls)) :
    Async.Spec guarding (innerLoop fuel s more) (fun r w' => ∀ s', r = some s' →
      BetweenTurns s' false (watched w'.calls)) w := by
  induction fuel generalizing s more w with
  | zero => exact Async.spec_spent
  | succ fuel ih =>
    unfold innerLoop
    split
    · rename_i hgo
      have hmore : s.pendingMessages = [] → more = true := by
        intro hnil
        rw [hnil] at hgo
        simpa using hgo
      refine Async.spec_bind ((guarded_runTurn h hmore).mono fun r w₁ h₁ => ?_)
      split
      · exact Async.spec_pure (by rintro s' ⟨⟩)
      · exact ih (h₁ _ _ rfl)
    · refine Async.spec_pure fun s' hs' => ?_
      obtain rfl := Option.some.inj hs'
      exact ⟨h.phase, h.guarded, h.counted.relax⟩

theorem guarded_outerLoop (h : BetweenTurns s true (watched w.calls)) :
    Async.Spec guarding (outerLoop fuel s) (fun _ _ => True) w := by
  induction fuel generalizing s w with
  | zero => exact Async.spec_spent
  | succ fuel ih =>
    unfold outerLoop
    refine Async.spec_bind ((guarded_innerLoop h).mono fun r w₁ h₁ => ?_)
    split
    · exact Async.spec_pure trivial
    · rename_i s₁
      have hover := h₁ s₁ rfl
      refine bind_between hover.guarded (quiet_callHost rfl) fun messages w₂ _ h₂ => ?_
      rw [← h₂] at hover
      split
      · exact (spec_between hover.guarded (quiet_emitAgentEnd fun _ => rfl)).mono
          fun _ _ _ => trivial
      · rename_i hsome
        exact ih ⟨hover.phase, hover.guarded, hover.counted.followUp (by simpa using hsome)⟩

/-- **A run of the loop is guarded**. -/
theorem guarded_runLoop {context : AgentContext} {config : AgentLoopConfig} {recoveredTurn : Option CompletedTurn} :
    Async.Spec guarding (runLoop fuel context config recoveredTurn) (fun _ _ => True) {} := by
  unfold runLoop
  refine bind_between guarded_nil (quiet_callHost rfl) fun messages w _ hw => guarded_outerLoop ?_
  rw [hw]
  exact ⟨rfl, guarded_nil, counted_start rfl rfl (fun _ => not_mem_nil) (by rintro fingerprint ⟨⟩)⟩

end Guard

/-- **The no-progress guard is neither late nor spurious**, whatever the host answers. -/
theorem no_progress_guard (fuel : ℕ) (context : AgentContext) (config : AgentLoopConfig)
    (recoveredTurn : Option CompletedTurn) (events : List LoopEvent) :
    Guarded (marksOf (run (runLoop fuel context config recoveredTurn) events).2.calls) :=
  (@run_journal _ (fun calls => Guarded (marksOf calls)) _ _ guarded_runLoop guarded_nil
    (fun _ _ _ _ _ => trivial) events).1

end Loop
end EasyPi.Agent
