/-
# The argument of a grammar tool

`appendGrammarToolInputJsonDelta` of `packages/ai/src/api/constrained-sampling.ts`. Each delta is escaped by itself, also
where the input is cut inside of a surrogate pair; together the deltas are the JSON text of the argument.
-/
import EasyPi.Ai.JsonUnits

namespace EasyPi.JsonUnits

open List

structure GrammarToolInputJsonBuffer where
  input : Text := []
  started : Bool := false
  closed : Bool := false
  deriving DecidableEq

def ascii (text : String) : Text := text.toList.map fun c => UInt16.ofNat c.toNat

def changedAfterClose (inputProperty : Text) : Text :=
  ascii "grammar tool input for property \"" ++ inputProperty ++ ascii "\" changed after it was closed"

def changedNonMonotonically (inputProperty : Text) : Text :=
  ascii "grammar tool input for property \"" ++ inputProperty ++ ascii "\" changed non-monotonically"

/-- The delta or the message of the error, and the buffer afterwards. -/
def appendGrammarToolInputJsonDelta (buffer : GrammarToolInputJsonBuffer) (inputProperty nextInput : Text) (close : Bool) :
    Except Text (Option Text) × GrammarToolInputJsonBuffer :=
  if buffer.closed then
    if close ∧ nextInput = buffer.input then (.ok none, buffer) else (.error (changedAfterClose inputProperty), buffer)
  else if ¬ buffer.input <+: nextInput then (.error (changedNonMonotonically inputProperty), buffer)
  else
    let inputDelta := nextInput.drop buffer.input.length
    if ¬ close ∧ inputDelta = [] then (.ok none, buffer)
    else
      let delta := (if buffer.started then [] else openBrace :: (stringify inputProperty ++ [Tui.colon, quote])) ++
        quoteUnits inputDelta
      if close then (.ok (some (delta ++ [quote, closeBrace])), ⟨nextInput, true, true⟩)
      else (.ok (some delta), ⟨nextInput, true, buffer.closed⟩)

/-- Calls in a row: what they return, and the buffer afterwards. -/
def appendAll (inputProperty : Text) : GrammarToolInputJsonBuffer → List (Text × Bool) →
    List (Except Text (Option Text)) × GrammarToolInputJsonBuffer
  | buffer, [] => ([], buffer)
  | buffer, (nextInput, close) :: calls =>
    let (result, next) := appendGrammarToolInputJsonDelta buffer inputProperty nextInput close
    let (results, last) := appendAll inputProperty next calls
    (result :: results, last)

/-- The text of results, none of which is an error. -/
def deltasOf : List (Except Text (Option Text)) → Option Text
  | [] => some []
  | .error _ :: _ => none
  | .ok delta :: results => (deltasOf results).map (delta.getD [] ++ ·)

def Extends : Text → List Text → Text → Prop
  | input, [], final => input <+: final
  | input, next :: inputs, final => input <+: next ∧ Extends next inputs final

variable {prop input nextInput final text : Text} {inputs : List Text} {buffer : GrammarToolInputJsonBuffer}

/-- What is emitted before the input and behind it. -/
def opening (inputProperty : Text) : Text := openBrace :: (stringify inputProperty ++ [Tui.colon, quote])

/-- The text that was emitted is the beginning of the argument, and the input is spelled so far. -/
structure GrammarToolInputJsonBuffer.Emitted (buffer : GrammarToolInputJsonBuffer) (inputProperty text : Text) : Prop where
  isOpen : buffer.closed = false
  spelled : ∃ body, Spelled buffer.input body ∧ text = (if buffer.started then opening inputProperty else []) ++ body
  unstarted : buffer.started = false → text = []

theorem emitted_start (prop : Text) : ({} : GrammarToolInputJsonBuffer).Emitted prop [] :=
  ⟨rfl, ⟨[], spelled_nil, rfl⟩, fun _ => rfl⟩

section
variable (h : buffer.Emitted prop text)
include h

theorem GrammarToolInputJsonBuffer.Emitted.delta (hext : buffer.input <+: nextInput) :
    ∃ body, Spelled nextInput body ∧ text ++ ((if buffer.started then [] else opening prop) ++
      quoteUnits (nextInput.drop buffer.input.length)) = opening prop ++ body := by
  obtain ⟨-, ⟨body, hbody, htext⟩, hunstarted⟩ := h
  obtain ⟨more, rfl⟩ := hext
  rw [drop_left]
  refine ⟨body ++ quoteUnits more, hbody.append (quoteUnits_spelled more), ?_⟩
  cases hstarted : buffer.started with
  | true =>
    rw [htext, hstarted, if_pos rfl, if_pos rfl, nil_append, append_assoc]
  | false =>
    have hnil := hunstarted hstarted
    rw [htext, hstarted, if_neg Bool.false_ne_true, nil_append] at hnil
    rw [htext, hstarted, if_neg Bool.false_ne_true, if_neg Bool.false_ne_true, hnil]
    rfl

theorem GrammarToolInputJsonBuffer.Emitted.push (hext : buffer.input <+: nextInput) :
    ∃ delta next, appendGrammarToolInputJsonDelta buffer prop nextInput false = (.ok delta, next) ∧
      next.Emitted prop (text ++ delta.getD []) ∧ next.input = nextInput := by
  have hopen : ¬ buffer.closed = true := by simp [h.isOpen]
  obtain ⟨body, hbody, htext⟩ := h.delta hext
  unfold appendGrammarToolInputJsonDelta
  rw [if_neg hopen, if_neg (not_not_intro hext)]
  dsimp only
  by_cases hnil : nextInput.drop buffer.input.length = []
  · have hsame : buffer.input = nextInput := hext.eq_of_length (Nat.le_antisymm hext.length_le (drop_eq_nil_iff.mp hnil))
    rw [if_pos ⟨Bool.false_ne_true, hnil⟩]
    exact ⟨none, buffer, rfl, by rwa [Option.getD_none, append_nil], hsame⟩
  · rw [if_neg fun h => hnil h.2, if_neg Bool.false_ne_true]
    exact ⟨_, _, rfl, ⟨h.isOpen, ⟨body, hbody, htext⟩, fun hfalse => Bool.noConfusion hfalse⟩, rfl⟩

theorem GrammarToolInputJsonBuffer.Emitted.close (hext : buffer.input <+: final) :
    ∃ delta body, appendGrammarToolInputJsonDelta buffer prop final true = (.ok (some delta), ⟨final, true, true⟩) ∧
      Spelled final body ∧ text ++ delta = opening prop ++ (body ++ [quote, closeBrace]) := by
  have hopen : ¬ buffer.closed = true := by simp [h.isOpen]
  obtain ⟨body, hbody, htext⟩ := h.delta hext
  unfold appendGrammarToolInputJsonDelta
  rw [if_neg hopen, if_neg (not_not_intro hext)]
  dsimp only
  rw [if_neg fun h => h.1 rfl, if_pos rfl]
  refine ⟨_, body, rfl, hbody, ?_⟩
  rw [← append_assoc (opening prop), ← htext]
  simp only [append_assoc]
  rfl

end

theorem deltasOf_closed (prop final : Text) (k : ℕ) :
    deltasOf (appendAll prop ⟨final, true, true⟩ (List.replicate k (final, true))).1 = some [] := by
  induction k with
  | zero => rfl
  | succ k ih =>
    have hrepeat : appendGrammarToolInputJsonDelta ⟨final, true, true⟩ prop final true =
        (.ok none, ⟨final, true, true⟩) := (if_pos rfl).trans (if_pos ⟨rfl, rfl⟩)
    rw [replicate_succ, appendAll, hrepeat]
    dsimp only
    rw [deltasOf, ih]
    rfl

/-- **The deltas** are the opening, a spelling of the last input and the end. -/
theorem deltas_spec (k : ℕ) (h : buffer.Emitted prop text) (hext : Extends buffer.input inputs final) :
    ∃ rest body, deltasOf (appendAll prop buffer
        (inputs.map (·, false) ++ List.replicate (k + 1) (final, true))).1 = some rest ∧
      Spelled final body ∧ text ++ rest = opening prop ++ (body ++ [quote, closeBrace]) := by
  induction inputs generalizing buffer text with
  | nil =>
    obtain ⟨delta, body, hclose, hbody, htext⟩ := h.close hext
    rw [map_nil, nil_append, replicate_succ, appendAll, hclose]
    refine ⟨delta, body, ?_, hbody, htext⟩
    dsimp only
    rw [deltasOf, deltasOf_closed]
    exact congrArg some (append_nil delta)
  | cons next inputs ih =>
    obtain ⟨delta, buffer', hpush, hemitted, rfl⟩ := h.push hext.1
    obtain ⟨rest, body, hrest, hbody, htext⟩ := ih hemitted hext.2
    rw [map_cons, cons_append, appendAll, hpush]
    refine ⟨delta.getD [] ++ rest, body, ?_, hbody, by rw [← htext, append_assoc]⟩
    dsimp only
    rw [deltasOf, hrest]
    rfl

theorem Spelled.scanJson_literal {s body : Text} (h : Spelled s body) (t : Text) :
    (JsonUnits.scanJson false (quote :: (body ++ quote :: t))).parts =
      .literal body :: (JsonUnits.scanJson false t).parts := by
  rw [scanJson_open, h.scanJson, scanJson_close]
  exact congrArg (fun b => JsonPart.literal b :: (JsonUnits.scanJson false t).parts) (append_nil body)

theorem parseJson_argument {body : Text} (hbody : Spelled final body) :
    parseJson (opening prop ++ (body ++ [quote, closeBrace])) = some (.object [(prop, .string final)]) := by
  have hname := quoteUnits_spelled prop
  have htext : opening prop ++ (body ++ [quote, closeBrace]) = openBrace :: quote ::
      (quoteUnits prop ++ quote :: Tui.colon :: quote :: (body ++ [quote, closeBrace])) := by
    simp [opening, stringify]
  have hscan : (scanJson false (opening prop ++ (body ++ [quote, closeBrace]))).parts =
      [.unit openBrace, .literal (quoteUnits prop), .unit Tui.colon, .literal body, .unit closeBrace] := by
    rw [htext, scanJson_unit (by decide)]
    dsimp only
    rw [hname.scanJson_literal, scanJson_unit (by decide)]
    dsimp only
    rw [hbody.scanJson_literal]
    rfl
  have htokens : jsonTokens (opening prop ++ (body ++ [quote, closeBrace])) =
      some [.punct openBrace, .string (quoteUnits prop), .punct Tui.colon, .string body, .punct closeBrace] := by
    rw [jsonTokens, hscan]
    rfl
  rw [parseJson, htokens, Option.bind_some]
  simp only [mapM_cons, mapM_nil, decodeToken, hname.decodeLiteral, hbody.decodeLiteral]
  rfl

/-- **The deltas are the JSON text of the argument**, and every other call fails and changes nothing. -/
theorem appendGrammarToolInputJsonDelta_faithful (inputProperty : Text) :
    (∀ (inputs : List Text) (final : Text) (k : ℕ), Extends [] inputs final →
      ∃ text, deltasOf (appendAll inputProperty {} (inputs.map (·, false) ++ List.replicate (k + 1) (final, true))).1 =
        some text ∧ parseJson text = some (.object [(inputProperty, .string final)])) ∧
    ∀ (buffer : GrammarToolInputJsonBuffer) (nextInput : Text) (close : Bool),
      ¬ buffer.input <+: nextInput ∨ buffer.closed = true ∧ nextInput ≠ buffer.input →
      ∃ message, appendGrammarToolInputJsonDelta buffer inputProperty nextInput close = (.error message, buffer) := by
  refine ⟨fun inputs final k hext => ?_, fun buffer nextInput close hbad => ?_⟩
  · obtain ⟨rest, body, hrest, hbody, htext⟩ := deltas_spec k (emitted_start inputProperty) hext
    rw [nil_append] at htext
    exact ⟨rest, hrest, htext ▸ parseJson_argument hbody⟩
  · have hne : nextInput ≠ buffer.input := by
      rintro rfl
      rcases hbad with hext | ⟨-, hne⟩
      · exact hext prefix_rfl
      · exact hne rfl
    unfold appendGrammarToolInputJsonDelta
    by_cases hclosed : buffer.closed = true
    · rw [if_pos hclosed, if_neg fun h => hne h.2]
      exact ⟨_, rfl⟩
    · rw [if_neg hclosed, if_pos (hbad.resolve_right fun h => hclosed h.1)]
      exact ⟨_, rfl⟩

/-- A pair is cut, and then an input does not extend the one before it. -/
theorem appendGrammarToolInputJsonDelta_faithful_pair :
    (∃ text, deltasOf (appendAll [0x70] {} ([[0xD83D]].map (·, false) ++ List.replicate 2 ([0xD83D, 0xDE00], true))).1 =
      some text ∧ parseJson text = some (.object [([0x70], .string [0xD83D, 0xDE00])])) ∧
    ∃ message, appendGrammarToolInputJsonDelta ⟨[0xD83D], true, false⟩ [0x70] [0x61] true =
      (.error message, ⟨[0xD83D], true, false⟩) :=
  ⟨(appendGrammarToolInputJsonDelta_faithful [0x70]).1 [[0xD83D]] [0xD83D, 0xDE00] 1
      ⟨ nil_prefix, by rw [Extends]; exact prefix_append [0xD83D] [0xDE00]⟩,
    (appendGrammarToolInputJsonDelta_faithful [0x70]).2 ⟨[0xD83D], true, false⟩ [0x61] true (.inl (by decide))⟩

end EasyPi.JsonUnits
