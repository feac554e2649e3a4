/-
# Trimming before a local compaction

`trimToolResultsForLocalCompaction` (`packages/coding-agent/src/core/compaction/subsystem/narrative.ts`): the
contents of tool results are replaced, newest first, until the estimate is within the budget. The source writes
to a copy of the list, and a replaced message is a new object.
-/
import Mathlib.Algebra.BigOperators.Group.List.Basic
import EasyPi.CodingAgent.Compaction

namespace EasyPi.CodingAgent.Compaction

open List

/-- `CONTEXT_WINDOW_TRUNCATED_OUTPUT_MESSAGE`. -/
def truncatedOutputMessage : String :=
  "Output exceeded the available model context and was truncated before local compaction"

/-- The message with the replacement as its content, if it is a tool result. -/
def replacement : SessionMessage → SessionMessage
  | .toolResult toolCallId toolName _ =>
    .toolResult toolCallId toolName (some (.blocks [.text truncatedOutputMessage none]))
  | message => message

structure LocalCompactionBudgetError where
  estimatedTokens : ℤ
  messageTokenBudget : ℚ
  replacedToolResults : ℕ

/-- The messages that the loop has passed, and its counters. -/
structure Trimming where
  prepared : List SessionMessage
  estimatedTokens : ℤ
  replacedToolResults : ℕ

/-- `estimatedTokens > effectiveBudget`; no budget is an infinite one. -/
def exceeds (budget : Option ℚ) (estimatedTokens : ℤ) : Bool := budget.any (· < (estimatedTokens : ℚ))

section
variable (J : JsonText)

def totalTokens (messages : List SessionMessage) : ℤ :=
  (messages.map fun message => (estimateTokens J message : ℤ)).sum

def trimMessage (message : SessionMessage) (state : Trimming) : Trimming :=
  match message with
  | .toolResult .. =>
    { prepared := replacement message :: state.prepared
      estimatedTokens := state.estimatedTokens - estimateTokens J message + estimateTokens J (replacement message)
      replacedToolResults := state.replacedToolResults + 1 }
  | _ => { state with prepared := message :: state.prepared }

/-- The loop over the messages, the last one first. -/
def trimLoop (budget : Option ℚ) (force : Bool) : List SessionMessage → Trimming → Trimming
  | [], state => state
  | message :: before, state =>
    if force || exceeds budget state.estimatedTokens then
      trimLoop budget force before (trimMessage J message state)
    else { state with prepared := (message :: before).reverse ++ state.prepared }

def trimToolResultsForLocalCompaction (messages : List SessionMessage) (messageTokenBudget : Option ℚ)
    (force : Bool) : Except LocalCompactionBudgetError (List SessionMessage) :=
  let estimatedTokens := totalTokens J messages
  if messageTokenBudget = none ∧ force = false then .ok messages
  else if force = false ∧ exceeds messageTokenBudget estimatedTokens = false then .ok messages
  else
    let state := trimLoop J messageTokenBudget force messages.reverse ⟨[], estimatedTokens, 0⟩
    match messageTokenBudget.filter (0 < ·) with
    | some budget =>
      if exceeds budget state.estimatedTokens then
        .error ⟨state.estimatedTokens, budget, state.replacedToolResults⟩
      else .ok state.prepared
    | none => .ok state.prepared

variable {J} {budget : Option ℚ} {force : Bool}

/-- The end of a list whose tool results are replaced: all of it if the call is forced, else none that is shorter
would be enough. -/
structure Stops (J : JsonText) (budget : Option ℚ) (force : Bool) (messages front back : List SessionMessage) :
    Prop where
  split : front ++ back = messages
  forced : force = true → front = []
  least : force = false → ∀ front' back', front' ++ back' = messages → back'.length < back.length →
    exceeds budget (totalTokens J (front' ++ back'.map replacement)) = true

theorem trimMessage_spec (message : SessionMessage) (state : Trimming) :
    (trimMessage J message state).prepared = replacement message :: state.prepared ∧
      (trimMessage J message state).estimatedTokens =
        state.estimatedTokens - estimateTokens J message + estimateTokens J (replacement message) := by
  cases message <;> simp [trimMessage, replacement]

theorem trimLoop_stops : ∀ (before back : List SessionMessage) {state : Trimming},
    state.prepared = back.map replacement →
    state.estimatedTokens = totalTokens J (before.reverse ++ back.map replacement) →
    (force = false → ∀ front' back', front' ++ back' = before.reverse ++ back → back'.length < back.length →
      exceeds budget (totalTokens J (front' ++ back'.map replacement)) = true) →
    ∃ front back', Stops J budget force (before.reverse ++ back) front back' ∧
      (trimLoop J budget force before state).prepared = front ++ back'.map replacement ∧
      (trimLoop J budget force before state).estimatedTokens = totalTokens J (front ++ back'.map replacement) ∧
      (force = false → front = [] ∨ exceeds budget (totalTokens J (front ++ back'.map replacement)) = false)
  | [], back, state, hp, ht, hleast =>
    ⟨[], back, ⟨rfl, fun _ => rfl, hleast⟩, hp, ht, fun _ => .inl rfl⟩
  | message :: before, back, state, hp, ht, hleast => by
    unfold trimLoop
    split_ifs with hgo
    · obtain ⟨hprepared, htokens⟩ := trimMessage_spec (J := J) message state
      have hsplit : (message :: before).reverse ++ back = before.reverse ++ message :: back := by simp
      rw [hsplit]
      apply trimLoop_stops before (message :: back)
      · rw [hprepared, hp, map_cons]
      · rw [htokens, ht]
        simp only [totalTokens, reverse_cons, map_append, map_cons, map_nil, sum_append, sum_cons, sum_nil]
        omega
      · intro hf front' back' heq hlt
        by_cases hlen : back'.length < back.length
        · exact hleast hf front' back' (heq.trans hsplit.symm) hlen
        · obtain ⟨rfl, rfl⟩ := append_inj' (heq.trans hsplit.symm) (by simp only [length_cons] at hlt; omega)
          rwa [hf, Bool.false_or, ht] at hgo
    · rw [Bool.or_eq_true, not_or, Bool.not_eq_true, Bool.not_eq_true, ht] at hgo
      exact ⟨_, back, ⟨rfl, by simp [hgo.1], hleast⟩, congrArg _ hp, ht, fun _ => .inr hgo.2⟩

theorem trim_outcome (messages : List SessionMessage) {limit : ℚ} (hpos : 0 < limit) (force : Bool) :
    ∃ front back, Stops J (some limit) force messages front back ∧
      match trimToolResultsForLocalCompaction J messages (some limit) force with
      | .ok prepared => prepared = front ++ back.map replacement ∧
          exceeds (some limit) (totalTokens J prepared) = false
      | .error _ => exceeds (some limit) (totalTokens J (front ++ back.map replacement)) = true ∧
          (force = false → front = []) := by
  unfold trimToolResultsForLocalCompaction
  rw [if_neg (by simp), Option.filter_some_pos (by simpa using hpos)]
  by_cases hfits : force = false ∧ exceeds (some limit) (totalTokens J messages) = false
  · rw [if_pos hfits]
    refine ⟨messages, [], ⟨append_nil _, by simp [hfits.1], fun _ _ _ _ h => ?_⟩, (append_nil _).symm, hfits.2⟩
    exact absurd h (Nat.not_lt_zero _)
  · rw [if_neg hfits]
    obtain ⟨front, back, hstops, hp, ht, henough⟩ := @trimLoop_stops J (some limit) force
      messages.reverse [] ⟨[], totalTokens J messages, 0⟩ rfl (by simp) (by simp)
    rw [reverse_reverse, append_nil] at hstops
    refine ⟨front, back, hstops, ?_⟩
    simp only
    by_cases hover : exceeds (some limit) (totalTokens J (front ++ back.map replacement)) = true
    · rw [ht, if_pos hover]
      exact ⟨hover, fun hf => (henough hf).resolve_right (by simp [hover])⟩
    · rw [ht, if_neg hover]
      rw [Bool.not_eq_true] at hover
      exact ⟨hp, hp ▸ hover⟩

/-! ### Whether it fits -/

/-- The lists that come of the messages by replacing some tool results. -/
def Choice : List SessionMessage → List SessionMessage → Prop :=
  Forall₂ fun message message' => message' = message ∨ message' = replacement message

/-- The estimate when each tool result counts as the smaller of itself and its replacement. -/
def leastTokens (J : JsonText) (messages : List SessionMessage) : ℤ :=
  (messages.map fun message => min (estimateTokens J message : ℤ) (estimateTokens J (replacement message))).sum

theorem leastTokens_le : ∀ {messages prepared : List SessionMessage}, Choice messages prepared →
    leastTokens J messages ≤ totalTokens J prepared
  | _, _, .nil => le_rfl
  | _, _, .cons h hs => by
    have ih := leastTokens_le hs
    simp only [leastTokens, totalTokens, map_cons, sum_cons] at ih ⊢
    refine add_le_add ?_ ih
    rcases h with rfl | rfl
    · exact min_le_left _ _
    · exact min_le_right _ _

theorem exists_leastTokens : ∀ messages : List SessionMessage,
    ∃ prepared, Choice messages prepared ∧ totalTokens J prepared = leastTokens J messages
  | [] => ⟨[], .nil, rfl⟩
  | message :: messages => by
    obtain ⟨prepared, hc, ih⟩ := exists_leastTokens messages
    simp only [leastTokens, totalTokens, map_cons, sum_cons] at ih ⊢
    by_cases h : estimateTokens J message ≤ estimateTokens J (replacement message)
    · exact ⟨message :: prepared, .cons (.inl rfl) hc, by rw [map_cons, sum_cons, ih]; omega⟩
    · exact ⟨replacement message :: prepared, .cons (.inr rfl) hc, by rw [map_cons, sum_cons, ih]; omega⟩

/-- What a call is for: the list that it returns is within the budget, with no more replaced than has to be, and
it gives up only where nothing would have helped. -/
def TrimsWhereItCan (J : JsonText) (messages : List SessionMessage) (limit : ℚ) (force : Bool) : Prop :=
  match trimToolResultsForLocalCompaction J messages (some limit) force with
  | .ok prepared => exceeds (some limit) (totalTokens J prepared) = false ∧
      ∃ front back, Stops J (some limit) force messages front back ∧ prepared = front ++ back.map replacement
  | .error _ => force = false → ∀ prepared, Choice messages prepared →
      exceeds (some limit) (totalTokens J prepared) = true

/-- Newest first is not always good enough, since a short result gets longer by its replacement. -/
theorem trimToolResults_iff (J : JsonText) (messages : List SessionMessage) (limit : ℚ) (hpos : 0 < limit)
    (force : Bool) :
    TrimsWhereItCan J messages limit force ↔
      force = true ∨ exceeds (some limit) (leastTokens J messages) = true ∨
        ∃ front back, front ++ back = messages ∧
          exceeds (some limit) (totalTokens J (front ++ back.map replacement)) = false := by
  obtain ⟨front, back, hstops, houtcome⟩ := trim_outcome (J := J) messages hpos force
  unfold TrimsWhereItCan
  split at houtcome
  · next prepared heq =>
    obtain ⟨rfl, hfits⟩ := houtcome
    exact iff_of_true ⟨hfits, front, back, hstops, rfl⟩ (.inr (.inr ⟨front, back, hstops.split, hfits⟩))
  · next e heq =>
    obtain ⟨hover, hfront⟩ := houtcome
    by_cases hf : force = true
    · exact iff_of_true (fun h => absurd h (by simp [hf])) (.inl hf)
    rw [Bool.not_eq_true] at hf
    constructor
    · intro h
      obtain ⟨prepared, hc, hleast⟩ := exists_leastTokens (J := J) messages
      exact .inr (.inl (hleast ▸ h hf prepared hc))
    · rintro (h | h | ⟨front', back', hsplit, hfits⟩) - prepared hc
      · exact absurd h (by simp [hf])
      · have hmin : (leastTokens J messages : ℚ) ≤ totalTokens J prepared := by exact_mod_cast leastTokens_le hc
        simp only [exceeds, Option.any_some, decide_eq_true_eq] at h ⊢
        exact h.trans_le hmin
      · obtain rfl := hfront hf
        refine absurd ?_ (Bool.eq_false_iff.mp hfits)
        by_cases hlt : back'.length < back.length
        · exact hstops.least hf _ _ hsplit hlt
        · obtain rfl : back = front' ++ back' := hstops.split.trans hsplit.symm
          obtain rfl : front' = [] := length_eq_zero_iff.mp (by simp only [length_append] at hlt; omega)
          exact hover

end

/-- A screenshot and a short answer. -/
def screenshotTurn : List SessionMessage :=
  [.toolResult "1" "screenshot" (some (.blocks [.image "" "image/png"])),
    .toolResult "2" "click" (some (.blocks [.text "ok" none]))]

theorem trimToolResults_iff_screenshot : TrimsWhereItCan JsonText.printed screenshotTurn 50 false :=
  (trimToolResults_iff JsonText.printed screenshotTurn 50 (by norm_num) false).mpr
    (.inr (.inr ⟨[], screenshotTurn, rfl, by decide +kernel⟩))

/-- The answer is replaced first, and the two replacements together are over the budget. -/
theorem trimToolResults_gives_up : ¬TrimsWhereItCan JsonText.printed screenshotTurn 30 false := by
  have hthrows : (trimToolResultsForLocalCompaction JsonText.printed screenshotTurn (some 30) false).isOk = false := by
    decide +kernel
  unfold TrimsWhereItCan
  intro h
  split at h
  · next heq =>
    rw [heq] at hthrows
    exact Bool.noConfusion hthrows
  · have hover := h rfl (screenshotTurn.modifyHead replacement) (.cons (.inr rfl) (.cons (.inl rfl) .nil))
    exact absurd hover (by decide +kernel)

end EasyPi.CodingAgent.Compaction
