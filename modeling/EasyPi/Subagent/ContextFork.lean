/-
# The forked context of a child

`prepareCollaborationFork` (`packages/subagent/src/context-fork.ts`) selects the part of the parent's
context that a child inherits. Calls that are not answered one by one are dropped, and so are results
that answer nothing. The `structuredClone` at the end copies values and has no counterpart here.
-/
import EasyPi.Ai.Types
import EasyPi.Lib.Except
import Mathlib.Data.List.Flatten

namespace EasyPi.Subagent

open List

inductive CollaborationErrorCode where
  | invalidArguments | unknownAgent | forbidden | limitReached | busy | interrupted | storageError
  | contextUnavailable
  deriving DecidableEq, Repr

structure CollaborationError where
  code : CollaborationErrorCode
  message : String
  deriving DecidableEq, Repr

inductive ForkSelection where
  | all
  | none
  | lastTurns (turns : ℚ)
  deriving DecidableEq

namespace ContextFork

def isUser : AgentMessage → Bool
  | .user .. => true
  | _ => false

def lastAssistant (turn : List AgentMessage) : Option AssistantMessage :=
  (turn.filterMap AgentMessage.assistant?).getLast?

/-- A turn starts with a user message, and its last response has stopped by itself. -/
def isComplete (turn : List AgentMessage) : Bool :=
  turn.head?.any isUser && (lastAssistant turn).any (·.stopReason = .stop)

/-- `finish`: a complete turn is kept. -/
def finish (complete : List (List AgentMessage)) (turn : List AgentMessage) : List (List AgentMessage) :=
  if isComplete turn then complete ++ [turn] else complete

/-- The loop that collects the complete turns. -/
def turnsLoop : List (List AgentMessage) → List AgentMessage → List AgentMessage → List (List AgentMessage)
  | complete, turn, [] => finish complete turn
  | complete, turn, message :: context =>
    if isUser message then turnsLoop (finish complete turn) [message] context
    else turnsLoop complete (turn ++ [message]) context

def leadingResults : List AgentMessage → List ToolResultMessage
  | .toolResult result :: rest => result :: leadingResults rest
  | _ => []

/-- The result has the id and the name of the call. -/
def answers (call : ToolCall) (result : ToolResultMessage) : Bool :=
  result.toolCallId = call.id && result.toolName = call.name

/-- `paired`, and as many results as calls. -/
def isPaired (calls : List ToolCall) (results : List ToolResultMessage) : Bool :=
  calls.all (fun call => (results.filter (answers call)).length = 1) && results.length = calls.length

/-- The loop that pairs calls and results; the messages that the inner loop has taken are skipped. -/
def forkLoop : ℕ → List AgentMessage → Except CollaborationError (List AgentMessage)
  | _, [] => .ok []
  | skipped + 1, _ :: rest => forkLoop skipped rest
  | 0, .toolResult _ :: rest => forkLoop 0 rest
  | 0, .assistant message :: rest =>
    if message.toolCalls = [] then return .assistant message :: (← forkLoop 0 rest)
    else
      let results := leadingResults rest
      if (message.toolCalls.map (·.id)).Nodup then do
        let output ← forkLoop results.length rest
        return if isPaired message.toolCalls results then
          .assistant message :: results.map .toolResult ++ output else output
      else .error ⟨.contextUnavailable, "Ambiguous tool call identities in fork context"⟩
  | 0, message :: rest => return message :: (← forkLoop 0 rest)

def prepareCollaborationFork (context : List AgentMessage) :
    ForkSelection → Except CollaborationError (List AgentMessage)
  | .none => .ok []
  | .all => forkLoop 0 context
  | .lastTurns turns =>
    if turns.isInt ∧ 1 ≤ turns ∧ turns ≤ 999999 then
      let complete := turnsLoop [] [] context
      let count := turns.num.toNat
      if complete.length < count then
        .error ⟨.contextUnavailable, "Requested complete turns are unavailable in effective context"⟩
      else forkLoop 0 (complete.drop (complete.length - count)).flatten
    else .error ⟨.invalidArguments, "Invalid fork turn count"⟩

/-- Each call has exactly one result of its id and name, and there are no other results. -/
structure Answered (calls : List ToolCall) (results : List ToolResultMessage) : Prop where
  once : ∀ call ∈ calls, results.countP (answers call) = 1
  only : ∀ result ∈ results, ∃ call ∈ calls, answers call result = true

/-- A message that is neither a tool result nor a response with calls. -/
def IsPlain : AgentMessage → Prop
  | .toolResult _ => False
  | .assistant message => message.toolCalls = []
  | _ => True

def block (message : AssistantMessage) (results : List ToolResultMessage) : List AgentMessage :=
  .assistant message :: results.map .toolResult

/-- Plain messages, and responses each of which is followed at once by the results of its calls. -/
inductive Paired : List AgentMessage → Prop
  | nil : Paired []
  | plain {message : AgentMessage} {rest : List AgentMessage} (plain : IsPlain message)
      (paired : Paired rest) : Paired (message :: rest)
  | block {message : AssistantMessage} {results : List ToolResultMessage} {rest : List AgentMessage}
      (calls : message.toolCalls ≠ []) (distinct : (message.toolCalls.map (·.id)).Nodup)
      (answered : Answered message.toolCalls results) (paired : Paired rest) :
      Paired (block message results ++ rest)

/-- The plain messages and the answered responses of the context are kept, between the forks of what
stands before them and behind them. -/
structure Keeps (context output : List AgentMessage) : Prop where
  plain : ∀ before message after, context = before ++ message :: after → IsPlain message →
    ∃ outBefore outAfter, output = outBefore ++ message :: outAfter ∧
      prepareCollaborationFork before .all = .ok outBefore ∧ prepareCollaborationFork after .all = .ok outAfter
  block : ∀ before message results after, context = before ++ (block message results ++ after) →
    leadingResults after = [] → message.toolCalls ≠ [] → Answered message.toolCalls results →
    ∃ outBefore outAfter, output = outBefore ++ (block message results ++ outAfter) ∧
      prepareCollaborationFork before .all = .ok outBefore ∧ prepareCollaborationFork after .all = .ok outAfter

/-- A user message and what follows up to the next one. -/
def IsTurn (turn : List AgentMessage) : Prop :=
  ∃ message rest, turn = message :: rest ∧ isUser message = true ∧ ∀ other ∈ rest, isUser other = false

/-- The output is the fork of the last `count` complete turns of the context. -/
def FromLastTurns (context : List AgentMessage) (count : ℕ) (output : List AgentMessage) : Prop :=
  ∃ (lead : List AgentMessage) (turns : List (List AgentMessage)), context = lead ++ turns.flatten ∧ (∀ message ∈ lead, isUser message = false) ∧
    (∀ turn ∈ turns, IsTurn turn) ∧ count ≤ (turns.filter isComplete).length ∧
    ∃ selected, selected = ((turns.filter isComplete).drop ((turns.filter isComplete).length - count)).flatten ∧
      prepareCollaborationFork selected .all = .ok output ∧ Keeps selected output

/-! ### Answers -/

section Answers
variable {calls : List ToolCall} {results : List ToolResultMessage}

theorem id_eq_of_answers {call call' : ToolCall} {result : ToolResultMessage}
    (h : answers call result = true) (h' : answers call' result = true) : call.id = call'.id := by
  simp only [answers, Bool.and_eq_true, decide_eq_true_eq] at h h'
  exact h.1.symm.trans h'.1

theorem length_eq_iff_only (hdst : (calls.map (·.id)).Nodup) (honce : ∀ call ∈ calls, results.countP (answers call) = 1) :
    results.length = calls.length ↔ ∀ result ∈ results, ∃ call ∈ calls, answers call result = true := by
  induction calls generalizing results with
  | nil => simp [length_eq_zero_iff, eq_nil_iff_forall_not_mem]
  | cons call calls ih =>
    rw [map_cons, nodup_cons] at hdst
    -- the results of the other calls are those that do not answer this one
    have hoth : ∀ other ∈ calls, ∀ result, answers other result = true → answers call result = false := by
      intro other hother result hanss
      refine Bool.eq_false_iff.mpr fun hcall => hdst.1 ?_
      rw [id_eq_of_answers hcall hanss]
      exact mem_map_of_mem hother
    have hrest := @ih (results.filter fun result => !answers call result) hdst.2 fun other hother => by
      rw [countP_filter, ← honce other (mem_cons_of_mem _ hother)]
      refine countP_congr fun result _ => ?_
      rw [Bool.and_eq_true]
      exact ⟨And.left, fun h => ⟨h, by rw [hoth other hother result h]; rfl⟩⟩
    have hcnt := length_eq_countP_add_countP (answers call) (l := results)
    have hfil : (results.filter fun result => !answers call result).length =
        results.countP fun result => decide ¬ answers call result = true := by
      rw [← countP_eq_length_filter]
      exact countP_congr fun result _ => by simp
    rw [honce call (mem_cons_self ..), ← hfil] at hcnt
    rw [hcnt, length_cons, Nat.add_comm 1, Nat.add_right_cancel_iff, hrest]
    constructor
    · intro h result hres
      by_cases hcall : answers call result = true
      · exact ⟨call, mem_cons_self .., hcall⟩
      · obtain ⟨other, hother, hanss⟩ := h result (mem_filter.mpr ⟨hres, by simpa using hcall⟩)
        exact ⟨other, mem_cons_of_mem _ hother, hanss⟩
    · intro h result hres
      obtain ⟨hres, hnot⟩ := mem_filter.mp hres
      obtain ⟨other, hother, hanss⟩ := h result hres
      rcases mem_cons.mp hother with rfl | hother
      · rw [hanss] at hnot
        cases hnot
      · exact ⟨other, hother, hanss⟩

theorem isPaired_iff (hdst : (calls.map (·.id)).Nodup) : isPaired calls results = true ↔ Answered calls results := by
  rw [isPaired, Bool.and_eq_true, all_eq_true, decide_eq_true_eq]
  simp only [decide_eq_true_eq, ← countP_eq_length_filter]
  constructor
  · rintro ⟨honce, hlen⟩
    exact ⟨honce, (length_eq_iff_only hdst honce).mp hlen⟩
  · intro h
    exact ⟨h.once, (length_eq_iff_only hdst h.once).mpr h.only⟩

end Answers

/-! ### The loop -/

section Loop
variable {a b rest output : List AgentMessage} {message : AgentMessage}

theorem eq_leadingResults_append : ∀ rest : List AgentMessage,
    rest = (leadingResults rest).map .toolResult ++ rest.drop (leadingResults rest).length ∧
      leadingResults (rest.drop (leadingResults rest).length) = []
  | [] => ⟨rfl, rfl⟩
  | .toolResult result :: rest => by
    obtain ⟨heq, hnil⟩ := eq_leadingResults_append rest
    refine ⟨?_, hnil⟩
    conv_lhs => rw [heq]
    rfl
  | .user .. :: rest => ⟨rfl, rfl⟩
  | .assistant _ :: rest => ⟨rfl, rfl⟩
  | .custom .. :: rest => ⟨rfl, rfl⟩

theorem leadingResults_append (hb : leadingResults b = []) : ∀ a : List AgentMessage,
    leadingResults (a ++ b) = leadingResults a
  | [] => hb
  | .toolResult result :: a => congrArg (result :: ·) (leadingResults_append hb a)
  | .user .. :: _ => rfl
  | .assistant _ :: _ => rfl
  | .custom .. :: _ => rfl

theorem leadingResults_map (results : List ToolResultMessage) (hb : leadingResults b = []) :
    leadingResults (results.map .toolResult ++ b) = results := by
  induction results with
  | nil => exact hb
  | cons result results ih => exact congrArg (result :: ·) ih

theorem forkLoop_eq_drop : ∀ (skipped : ℕ) (rest : List AgentMessage),
    forkLoop skipped rest = forkLoop 0 (rest.drop skipped)
  | 0, _ => rfl
  | _ + 1, [] => rfl
  | skipped + 1, _ :: rest => forkLoop_eq_drop skipped rest

theorem forkLoop_plain (h : IsPlain message) :
    forkLoop 0 (message :: rest) = forkLoop 0 rest >>= fun output => pure (message :: output) := by
  cases message with
  | toolResult _ => exact h.elim
  | assistant m =>
    have hcls : m.toolCalls = [] := h
    rw [forkLoop, if_pos hcls]
  | user => rfl
  | custom => rfl

theorem forkLoop_calls {m : AssistantMessage} (h : m.toolCalls ≠ []) :
    forkLoop 0 (.assistant m :: rest) = .ok output ↔ (m.toolCalls.map (·.id)).Nodup ∧
      ∃ tail, forkLoop (leadingResults rest).length rest = .ok tail ∧
        output = if isPaired m.toolCalls (leadingResults rest) then
          block m (leadingResults rest) ++ tail else tail := by
  rw [forkLoop, if_neg h]
  dsimp only
  split
  · rename_i hdst
    rw [bind_ok_iff]
    simp only [pure_ok_iff, hdst, true_and, block, cons_append]
    refine exists_congr fun tail => and_congr_right fun _ => ⟨Eq.symm, Eq.symm⟩
  · rename_i hrep
    exact iff_of_false (fun h => by cases h) fun h => hrep h.1

theorem message_cases (message : AgentMessage) : IsPlain message ∨ (∃ result, message = .toolResult result) ∨
    ∃ m, message = .assistant m ∧ m.toolCalls ≠ [] := by
  cases message with
  | toolResult result => exact .inr (.inl ⟨result, rfl⟩)
  | assistant m =>
    by_cases h : m.toolCalls = []
    · exact .inl h
    · exact .inr (.inr ⟨m, rfl, h⟩)
  | user => exact .inl trivial
  | custom => exact .inl trivial

theorem leadingResults_plain (h : IsPlain message) : leadingResults (message :: rest) = [] := by
  cases message with
  | toolResult _ => exact h.elim
  | _ => rfl

/-- **Two parts are forked one by one**, if no result stands at the front of the second. -/
theorem forkLoop_append (hb : leadingResults b = []) {skipped : ℕ} (hski : skipped ≤ a.length)
    (h : forkLoop skipped (a ++ b) = .ok output) :
    ∃ x y, output = x ++ y ∧ forkLoop skipped a = .ok x ∧ forkLoop 0 b = .ok y := by
  induction a generalizing skipped output with
  | nil =>
    obtain rfl := Nat.le_zero.mp hski
    exact ⟨[], output, rfl, rfl, h⟩
  | cons message a ih =>
    cases skipped with
    | succ skipped => exact ih (Nat.le_of_succ_le_succ hski) h
    | zero =>
      rw [cons_append] at h
      rcases message_cases message with hpl | ⟨result, rfl⟩ | ⟨m, rfl, hcls⟩
      · rw [forkLoop_plain hpl, bind_ok_iff] at h
        obtain ⟨tail, h, hout⟩ := h
        rw [pure_ok_iff] at hout
        obtain ⟨x, y, rfl, hx, hy⟩ := ih (Nat.zero_le _) h
        refine ⟨message :: x, y, hout.symm, ?_, hy⟩
        rw [forkLoop_plain hpl, hx]
        rfl
      · exact ih (Nat.zero_le _) h
      · rw [forkLoop_calls hcls, leadingResults_append hb] at h
        obtain ⟨hdst, tail, h, rfl⟩ := h
        have hle : (leadingResults a).length ≤ a.length := by
          conv_rhs => rw [(eq_leadingResults_append a).1, length_append, length_map]
          exact Nat.le_add_right _ _
        obtain ⟨x, y, rfl, hx, hy⟩ := ih hle h
        refine ⟨_, y, ?_, (forkLoop_calls hcls).mpr ⟨hdst, x, hx, rfl⟩, hy⟩
        split
        · rw [append_assoc]
        · rfl

/-- **The output is paired**, and a part of the messages. -/
theorem paired_of_forkLoop {skipped : ℕ} {context : List AgentMessage}
    (h : forkLoop skipped context = .ok output) : Paired output ∧ output.Sublist (context.drop skipped) := by
  induction context generalizing skipped output with
  | nil =>
    cases h
    rw [drop_nil]
    exact ⟨.nil, List.Sublist.refl _⟩
  | cons message rest ih =>
    cases skipped with
    | succ skipped => exact ih h
    | zero =>
      rw [drop_zero]
      rcases message_cases message with hpl | ⟨result, rfl⟩ | ⟨m, rfl, hcls⟩
      · rw [forkLoop_plain hpl, bind_ok_iff] at h
        obtain ⟨tail, h, hout⟩ := h
        rw [pure_ok_iff] at hout
        subst hout
        obtain ⟨hpai, hsub⟩ := ih h
        exact ⟨.plain hpl hpai, hsub.cons_cons message⟩
      · obtain ⟨hpai, hsub⟩ := ih h
        exact ⟨hpai, hsub.cons _⟩
      · obtain ⟨hdst, tail, htail, rfl⟩ := (forkLoop_calls hcls).mp h
        obtain ⟨hpai, hsub⟩ := ih htail
        split
        · rename_i hall
          refine ⟨.block hcls hdst ((isPaired_iff hdst).mp hall) hpai, ?_⟩
          rw [block, cons_append]
          conv_rhs => rw [(eq_leadingResults_append rest).1]
          exact ((List.Sublist.refl _).append hsub).cons_cons _
        · exact ⟨hpai, (hsub.trans (drop_sublist _ _)).cons _⟩

theorem leadingResults_of_paired (h : Paired rest) : leadingResults rest = [] := by
  cases h with
  | nil => rfl
  | plain hpl _ => exact leadingResults_plain hpl
  | block => rfl

theorem forkLoop_block {m : AssistantMessage} {results : List ToolResultMessage}
    (hrest : leadingResults rest = []) (hcls : m.toolCalls ≠ [])
    (hans : Answered m.toolCalls results) :
    forkLoop 0 (block m results ++ rest) = .ok output ↔ (m.toolCalls.map (·.id)).Nodup ∧
      ∃ tail, forkLoop 0 rest = .ok tail ∧ output = block m results ++ tail := by
  have hlea := leadingResults_map results hrest
  have hdrop : (results.map AgentMessage.toolResult ++ rest).drop results.length = rest := drop_left' (length_map _)
  rw [block, cons_append, forkLoop_calls hcls, hlea, forkLoop_eq_drop, hdrop]
  refine and_congr_right fun hdst => exists_congr fun tail => and_congr_right fun _ => ?_
  rw [if_pos ((isPaired_iff hdst).mpr hans)]
  rfl

/-- **A paired list is its own fork.** -/
theorem forkLoop_of_paired (h : Paired output) : forkLoop 0 output = .ok output := by
  induction h with
  | nil => rfl
  | plain hpl _ ih =>
    rw [forkLoop_plain hpl, ih]
    rfl
  | block hcls hdst hans hpai ih =>
    exact (forkLoop_block (leadingResults_of_paired hpai) hcls hans).mpr
      ⟨hdst, _, ih, rfl⟩

theorem keeps_of_forkLoop {context : List AgentMessage} (h : forkLoop 0 context = .ok output) : Keeps context output := by
  refine ⟨fun before message after hcon hpl => ?_, fun before m results after hcon haft hcls hans => ?_⟩
  · rw [hcon] at h
    obtain ⟨x, y, rfl, hx, hy⟩ := forkLoop_append (leadingResults_plain hpl) (Nat.zero_le _) h
    rw [forkLoop_plain hpl, bind_ok_iff] at hy
    obtain ⟨tail, hy, hout⟩ := hy
    rw [pure_ok_iff] at hout
    subst hout
    exact ⟨x, tail, rfl, hx, hy⟩
  · rw [hcon] at h
    obtain ⟨x, y, rfl, hx, hy⟩ := forkLoop_append rfl (Nat.zero_le _) h
    obtain ⟨-, tail, htail, rfl⟩ := (forkLoop_block haft hcls hans).mp hy
    exact ⟨x, tail, rfl, hx, htail⟩

end Loop

/-! ### The last turns -/

theorem finish_eq (complete : List (List AgentMessage)) (turn : List AgentMessage) :
    finish complete turn = complete ++ [turn].filter isComplete := by
  rw [finish, filter_singleton]
  cases isComplete turn with
  | true => rfl
  | false => exact (append_nil _).symm

theorem turnsLoop_spec (context : List AgentMessage) : ∃ (lead : List AgentMessage)
    (turns : List (List AgentMessage)), context = lead ++ turns.flatten ∧
    (∀ message ∈ lead, isUser message = false) ∧ (∀ turn ∈ turns, IsTurn turn) ∧
    ∀ complete turn, turnsLoop complete turn context = finish complete (turn ++ lead) ++ turns.filter isComplete := by
  induction context with
  | nil =>
    refine ⟨[], [], rfl, by simp, by simp, fun complete turn => ?_⟩
    rw [turnsLoop, append_nil, filter_nil, append_nil]
  | cons message context ih =>
    obtain ⟨lead, turns, rfl, hlead, htns, hloop⟩ := ih
    by_cases huser : isUser message = true
    · refine ⟨[], (message :: lead) :: turns, rfl, by simp, ?_, fun complete turn => ?_⟩
      · exact forall_mem_cons.mpr ⟨⟨message, lead, rfl, huser, hlead⟩, htns⟩
      · rw [turnsLoop, if_pos huser, hloop, append_nil, singleton_append,
          finish_eq (finish complete turn), append_assoc, ← filter_append]
        rfl
    · refine ⟨message :: lead, turns, rfl, ?_, htns, fun complete turn => ?_⟩
      · exact forall_mem_cons.mpr ⟨Bool.eq_false_iff.mpr huser, hlead⟩
      · rw [turnsLoop, if_neg huser, hloop, append_assoc, singleton_append]

theorem isComplete_of_lead {lead : List AgentMessage} (h : ∀ message ∈ lead, isUser message = false) :
    isComplete lead = false := by
  cases lead with
  | nil => rfl
  | cons message lead =>
    rw [isComplete, List.head?_cons, Option.any_some, h message (mem_cons_self ..), Bool.false_and]

theorem turnsLoop_start (context : List AgentMessage) : ∃ (lead : List AgentMessage)
    (turns : List (List AgentMessage)), context = lead ++ turns.flatten ∧
    (∀ message ∈ lead, isUser message = false) ∧ (∀ turn ∈ turns, IsTurn turn) ∧
    turnsLoop [] [] context = turns.filter isComplete := by
  obtain ⟨lead, turns, hcon, hlead, htns, hloop⟩ := turnsLoop_spec context
  refine ⟨lead, turns, hcon, hlead, htns, ?_⟩
  rw [hloop, nil_append, finish_eq, filter_singleton, isComplete_of_lead hlead]
  rfl

theorem selected_sublist (lead : List AgentMessage) (turns : List (List AgentMessage)) (n : ℕ) :
    ((turns.filter isComplete).drop n).flatten.Sublist (lead ++ turns.flatten) :=
  ((drop_sublist _ _).trans filter_sublist).flatten.trans (sublist_append_right _ _)

theorem fromLastTurns_of_ok {context output : List AgentMessage} {turns : ℚ}
    (h : prepareCollaborationFork context (.lastTurns turns) = .ok output) :
    FromLastTurns context turns.num.toNat output ∧ Paired output ∧ output.Sublist context := by
  rw [prepareCollaborationFork, ite_ok_iff] at h
  obtain ⟨-, h⟩ | ⟨-, h⟩ := h
  · rw [ite_ok_iff] at h
    obtain ⟨-, h⟩ | ⟨henough, h⟩ := h
    · cases h
    · obtain ⟨lead, parts, rfl, hlead, hpts, hcom⟩ := turnsLoop_start context
      rw [hcom] at h henough
      obtain ⟨hpai, hsub⟩ := paired_of_forkLoop h
      exact ⟨⟨lead, parts, rfl, hlead, hpts, Nat.le_of_not_lt henough, _, rfl, h, keeps_of_forkLoop h⟩,
        hpai, hsub.trans (selected_sublist lead parts _)⟩
  · cases h

/-- **A forked context has no dangling tool traffic.** It is a part of the context, each response with
calls is followed at once by their results, and forking it again changes nothing. All plain messages
and answered responses are kept, of the whole context or of its last complete turns. -/
theorem fork_exact (context output : List AgentMessage) (selection : ForkSelection)
    (h : prepareCollaborationFork context selection = .ok output) :
    output.Sublist context ∧ Paired output ∧ prepareCollaborationFork output .all = .ok output ∧
      (selection = .all → Keeps context output) ∧ ∀ n : ℕ, selection = .lastTurns n → FromLastTurns context n output := by
  have hall : output.Sublist context ∧ Paired output := by
    cases selection with
    | all =>
      obtain ⟨hpai, hsub⟩ := paired_of_forkLoop h
      exact ⟨hsub, hpai⟩
    | none =>
      cases h
      exact ⟨nil_sublist _, .nil⟩
    | lastTurns turns =>
      obtain ⟨-, hpai, hsub⟩ := fromLastTurns_of_ok h
      exact ⟨hsub, hpai⟩
  refine ⟨hall.1, hall.2, forkLoop_of_paired hall.2, ?_, ?_⟩
  · rintro rfl
    exact keeps_of_forkLoop h
  · rintro n rfl
    have hlast := (fromLastTurns_of_ok h).1
    rwa [Rat.num_natCast, Int.toNat_natCast] at hlast

/-- A call of a tool, a response that makes it, and its result. -/
def readCall : ToolCall := { id := "call-one", name := "read" }

def readMessage (call : ToolCall) : AgentMessage := .assistant { content := [.toolCall call], stopReason := .toolUse }

def readResult : AgentMessage :=
  .toolResult { toolCallId := "call-one", toolName := "read", content := [], isError := false }

/-- A call that is in flight is not inherited. -/
theorem fork_exact_in_flight :
    [.user [] 0, readMessage readCall, readResult].Sublist [.user [] 0, readMessage readCall, readResult,
        readMessage { id := "call-two", name := "spawn_agent" }] ∧
      Paired [.user [] 0, readMessage readCall, readResult] :=
  have h := fork_exact [.user [] 0, readMessage readCall, readResult,
    readMessage { id := "call-two", name := "spawn_agent" }] [.user [] 0, readMessage readCall, readResult]
    .all rfl
  ⟨h.1, h.2.1⟩

end ContextFork
end EasyPi.Subagent
