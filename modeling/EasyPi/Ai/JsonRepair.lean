/-
# Repaired JSON text

`repairJson` of `packages/ai/src/utils/json-parse.ts`. It asks for the four digits of a unicode escape, but `u` is among the
valid escapes as well: so the digits make no difference, and a literal stays invalid exactly where they are missing.
-/
import EasyPi.Ai.JsonUnits

namespace EasyPi.JsonUnits

open List

open Tui (lowerU)
open CodeUnits (backslash)

def validJsonEscapes : List UInt16 := [quote, backslash, 0x2F, 0x62, 0x66, 0x6E, 0x72, 0x74, lowerU]

def isControlCharacter (c : UInt16) : Bool := c ≤ 0x1F

def escapeControlCharacter (c : UInt16) : Text :=
  if c = 0x08 then [backslash, 0x62]
  else if c = 0x0C then [backslash, 0x66]
  else if c = 0x0A then [backslash, 0x6E]
  else if c = 0x0D then [backslash, 0x72]
  else if c = 0x09 then [backslash, 0x74]
  else hexEscape c

/-- `/^[0-9a-fA-F]{4}$/`. -/
def isUnicodeDigits (digits : Text) : Bool := digits.length = 4 && digits.all fun h => (hexValue h).isSome

/-- The loop of `repairJson`, at the rest of the text. -/
def repairFrom (inString : Bool) : Text → Text
  | [] => []
  | char :: rest =>
    if ¬ inString then char :: repairFrom (char = quote) rest
    else if char = quote then char :: repairFrom false rest
    else if char = backslash then
      match rest with
      | [] => [backslash, backslash]
      | nextChar :: after =>
        if nextChar = lowerU ∧ isUnicodeDigits (after.take 4) then
          backslash :: lowerU :: (after.take 4 ++ repairFrom inString (after.drop 4))
        else if nextChar ∈ validJsonEscapes then backslash :: nextChar :: repairFrom inString after
        else backslash :: backslash :: repairFrom inString (nextChar :: after)
    else (if isControlCharacter char then escapeControlCharacter char else [char]) ++ repairFrom inString rest
  termination_by text => text.length
  decreasing_by all_goals simp_wf; try omega

def repairJson (json : Text) : Text := repairFrom false json

def parseJsonWithRepair (json : Text) : Option (JsonTree Text) :=
  match parseJson json with
  | some value => some value
  | none => if repairJson json ≠ json then parseJson (repairJson json) else none

/-! ### Literals -/

def mendUnit (c : UInt16) : Text := if isControlCharacter c then escapeControlCharacter c else [c]

def mendBody : Text → Text
  | [] => []
  | c :: rest =>
    if c = backslash then
      match rest with
      | [] => [backslash, backslash]
      | e :: rest =>
        if e ∈ validJsonEscapes then backslash :: e :: mendBody rest else backslash :: backslash :: (mendUnit e ++ mendBody rest)
    else mendUnit c ++ mendBody rest

/-- `n` digits are ahead. -/
def digitsAhead : ℕ → Text → Bool
  | 0, _ => true
  | n + 1, h :: rest => (hexValue h).isSome && digitsAhead n rest
  | _ + 1, [] => false

def unicodeComplete : Text → Bool
  | [] => true
  | c :: rest =>
    if c = backslash then
      match rest with
      | [] => true
      | e :: rest => (e ≠ lowerU || digitsAhead 4 rest) && unicodeComplete rest
    else unicodeComplete rest

def isInner : Text → Bool
  | [] => true
  | c :: rest =>
    if c = backslash then
      match rest with
      | [] => true
      | _ :: rest => isInner rest
    else c ≠ quote && isInner rest

namespace JsonPart

def mapBody (f : Text → Text) : JsonPart → JsonPart
  | unit c => unit c
  | literal body => literal (f body)
  | unterminated body => unterminated (f body)

end JsonPart

namespace JsonScan

def mend (scan : JsonScan) : JsonScan :=
  { scan with body := mendBody scan.body, parts := scan.parts.map (.mapBody mendBody) }

/-- The text of a scan that begins inside of a literal or outside. -/
def render (inString : Bool) (scan : JsonScan) : Text :=
  (if inString then scan.body ++ (if scan.closed then [quote] else []) else []) ++ scan.parts.flatMap JsonPart.text

end JsonScan

variable {c e h : UInt16} {x y body text : Text} {scan : JsonScan} {inString : Bool}

theorem mem_validJsonEscapes : e ∈ validJsonEscapes ↔ e = lowerU ∨ (unescape e).isSome := by
  unfold unescape
  simp only [validJsonEscapes, mem_cons, not_mem_nil, or_false]
  split_ifs with h₁ h₂ h₃ h₄ h₅ h₆
  all_goals simp_all
  tauto

theorem of_notMem_escapes (he : e ∉ validJsonEscapes) : e ≠ quote ∧ e ≠ backslash ∧ e ≠ lowerU := by
  refine ⟨?_, ?_, ?_⟩
  all_goals
    rintro rfl
    exact he (by decide)

theorem isControlCharacter_iff : isControlCharacter c = true ↔ c < 0x20 := by
  rw [isControlCharacter, decide_eq_true_iff, UInt16.le_iff_toNat_le, UInt16.lt_iff_toNat_lt]
  exact Nat.lt_succ_iff.symm

theorem mendUnit_spells (hquote : c ≠ quote) (hback : c ≠ backslash) : Spells c (mendUnit c) := by
  unfold mendUnit
  by_cases hctl : isControlCharacter c = true
  · rw [if_pos hctl]
    unfold escapeControlCharacter
    split_ifs with h₁ h₂ h₃ h₄ h₅
    · exact .short (by decide) (by rw [h₁]; rfl)
    · exact .short (by decide) (by rw [h₂]; rfl)
    · exact .short (by decide) (by rw [h₃]; rfl)
    · exact .short (by decide) (by rw [h₄]; rfl)
    · exact .short (by decide) (by rw [h₅]; rfl)
    · exact .hex
  · rw [if_neg hctl]
    exact .plain hquote hback fun h => hctl (isControlCharacter_iff.mpr h)

theorem mendUnit_plain (hctl : ¬ c < 0x20) : mendUnit c = [c] := if_neg fun h => hctl (isControlCharacter_iff.mp h)

theorem mendBody_unit (hback : c ≠ backslash) (x : Text) : mendBody (c :: x) = mendUnit c ++ mendBody x := by
  rw [mendBody.eq_def]
  exact if_neg hback

theorem mendBody_escape (he : e ∈ validJsonEscapes) (x : Text) :
    mendBody (backslash :: e :: x) = backslash :: e :: mendBody x := by
  rw [mendBody, if_pos rfl, if_pos he]

theorem mendBody_invalid (he : e ∉ validJsonEscapes) (x : Text) :
    mendBody (backslash :: e :: x) = backslash :: backslash :: (mendUnit e ++ mendBody x) := by
  rw [mendBody, if_pos rfl, if_neg he]

theorem hexDigit_mend {n : ℕ} (h : n < 16) (x : Text) : mendBody (hexDigit n :: x) = hexDigit n :: mendBody x := by
  obtain ⟨-, -, hback, hctl⟩ := hexDigit_spec h
  rw [mendBody_unit hback, mendUnit_plain hctl]
  rfl

theorem Spells.mendBody (h : Spells c x) (y : Text) : mendBody (x ++ y) = x ++ mendBody y := by
  cases h with
  | plain _ hback hctl =>
    rw [singleton_append, mendBody_unit hback, mendUnit_plain hctl]
  | short _ he => exact mendBody_escape (mem_validJsonEscapes.mpr (.inr (he ▸ rfl))) y
  | hex =>
    have hlt := c.toNat_lt
    simp only [hexEscape, cons_append, nil_append]
    rw [mendBody_escape (by decide), hexDigit_mend (by omega), hexDigit_mend (by omega), hexDigit_mend (by omega),
      hexDigit_mend (by omega)]

theorem mendBody_mendBody (body : Text) (hinner : isInner body = true) : mendBody (mendBody body) = mendBody body := by
  induction body using mendBody.induct with
  | case1 => rfl
  | case2 => rfl
  | case3 e rest he ih =>
    rw [mendBody_escape he, mendBody_escape he, ih hinner]
  | case4 e rest he ih =>
    have hunit : Spells e (mendUnit e) := mendUnit_spells (of_notMem_escapes he).1 (of_notMem_escapes he).2.1
    rw [mendBody_invalid he, mendBody_escape (by decide), hunit.mendBody, ih hinner]
  | case5 c rest hback ih =>
    rw [isInner.eq_def] at hinner
    have hboth := (if_neg hback).symm.trans hinner
    obtain ⟨hquote, hrest⟩ := Bool.and_eq_true _ _ ▸ hboth
    rw [mendBody_unit hback, (mendUnit_spells (of_decide_eq_true hquote) hback).mendBody, ih hrest]

/-! ### Validity -/

theorem decodeLiteral_unit (hback : c ≠ backslash) (x : Text) : (decodeLiteral (c :: x)).isSome =
    (decide (c ≠ quote ∧ ¬ c < 0x20) && (decodeLiteral x).isSome) := by
  rw [decodeLiteral.eq_def]
  dsimp only
  rw [if_neg hback]
  by_cases hbad : c = quote ∨ c < 0x20
  · rw [if_pos hbad, decide_eq_false (by tauto)]
    rfl
  · rw [if_neg hbad, decide_eq_true (not_or.mp hbad), Option.isSome_map, Bool.true_and]

theorem hexValue_plain (hh : (hexValue h).isSome) : h ≠ quote ∧ h ≠ backslash ∧ ¬ h < 0x20 := by
  refine ⟨?_, ?_, fun hlt => ?_⟩
  · rintro rfl
    exact absurd hh (by decide)
  · rintro rfl
    exact absurd hh (by decide)
  · have hle : ∀ d : UInt16, 0x20 ≤ d → ¬ d ≤ h := fun d hd hdh =>
      absurd (UInt16.lt_of_lt_of_le hlt (UInt16.le_trans hd hdh)) (UInt16.lt_irrefl h)
    rw [hexValue, if_neg fun hd => hle 0x30 (by decide) (of_decide_eq_true (Bool.and_eq_true _ _ ▸ hd).1),
      if_neg fun hd => hle 0x61 (by decide) hd.1, if_neg fun hd => hle 0x41 (by decide) hd.1] at hh
    exact absurd hh (by decide)

theorem digits_decode (n : ℕ) (hdigits : digitsAhead n x = true) :
    (decodeLiteral (x.drop n)).isSome = (decodeLiteral x).isSome := by
  induction n generalizing x with
  | zero => rfl
  | succ n ih =>
    cases x with
    | nil => rfl
    | cons h x =>
      obtain ⟨hh, hrest⟩ := Bool.and_eq_true _ _ ▸ hdigits
      obtain ⟨hquote, hback, hctl⟩ := hexValue_plain hh
      rw [drop_succ_cons, ih hrest, decodeLiteral_plain hquote hback hctl, Option.isSome_map]

theorem decodeLiteral_unicode (x : Text) :
    (decodeLiteral (backslash :: lowerU :: x)).isSome = (digitsAhead 4 x && (decodeLiteral x).isSome) := by
  by_cases hdigits : digitsAhead 4 x = true
  · rw [hdigits, Bool.true_and, ← digits_decode 4 hdigits]
    obtain _ | ⟨h₃, _ | ⟨h₂, _ | ⟨h₁, _ | ⟨h₀, rest⟩⟩⟩⟩ := x
    all_goals simp [digitsAhead, Option.isSome_iff_exists] at hdigits
    obtain ⟨⟨d₃, hd₃⟩, ⟨d₂, hd₂⟩, ⟨d₁, hd₁⟩, d₀, hd₀⟩ := hdigits
    rw [decodeLiteral, if_pos rfl, if_pos rfl, hd₃, hd₂, hd₁, hd₀]
    exact Option.isSome_map
  · rw [Bool.eq_false_iff.mpr hdigits, Bool.false_and]
    obtain _ | ⟨h₃, _ | ⟨h₂, _ | ⟨h₁, _ | ⟨h₀, rest⟩⟩⟩⟩ := x
    · rfl
    · rfl
    · rfl
    · rfl
    rw [decodeLiteral, if_pos rfl, if_pos rfl]
    cases hd₃ : hexValue h₃ with
    | none => rfl
    | some d₃ =>
      cases hd₂ : hexValue h₂ with
      | none => rfl
      | some d₂ =>
        cases hd₁ : hexValue h₁ with
        | none => rfl
        | some d₁ =>
          cases hd₀ : hexValue h₀ with
          | none => rfl
          | some d₀ => simp [digitsAhead, hd₃, hd₂, hd₁, hd₀] at hdigits

theorem decodeLiteral_escape (he : e ∈ validJsonEscapes) (x : Text) : (decodeLiteral (backslash :: e :: x)).isSome =
    ((e ≠ lowerU || digitsAhead 4 x) && (decodeLiteral x).isSome) := by
  by_cases hu : e = lowerU
  · rw [hu, decodeLiteral_unicode]
    simp
  · obtain ⟨c, hc⟩ := Option.isSome_iff_exists.mp ((mem_validJsonEscapes.mp he).resolve_left hu)
    have hspell : Spells c [backslash, e] := .short hu hc
    rw [show backslash :: e :: x = [backslash, e] ++ x from rfl, hspell.decodeLiteral, Option.isSome_map]
    simp [hu]

theorem decodeLiteral_invalid (he : e ∉ validJsonEscapes) (x : Text) : decodeLiteral (backslash :: e :: x) = none := by
  rw [mem_validJsonEscapes, not_or, Bool.not_eq_true, Option.isSome_eq_false_iff, Option.isNone_iff_eq_none] at he
  rw [decodeLiteral.eq_def]
  dsimp only
  rw [if_pos rfl, if_neg he.1, he.2]
  rfl

theorem digitsAhead_mendBody (n : ℕ) (x : Text) : digitsAhead n (mendBody x) = digitsAhead n x := by
  induction n generalizing x with
  | zero => rfl
  | succ n ih =>
    cases x with
    | nil => rfl
    | cons c x =>
      by_cases hh : (hexValue c).isSome = true
      · obtain ⟨-, hback, hctl⟩ := hexValue_plain hh
        rw [mendBody_unit hback, mendUnit_plain hctl, singleton_append, digitsAhead, digitsAhead, ih]
      · have hnone : digitsAhead (n + 1) (c :: x) = false := by rw [digitsAhead, Bool.eq_false_iff.mpr hh, Bool.false_and]
        have hback : ∀ y, digitsAhead (n + 1) (backslash :: y) = false := fun y => rfl
        rw [hnone]
        by_cases hb : c = backslash
        · rw [hb]
          cases x with
          | nil => rfl
          | cons e x =>
            by_cases he : e ∈ validJsonEscapes
            · rw [mendBody_escape he, hback]
            · rw [mendBody_invalid he, hback]
        · rw [mendBody_unit hb]
          unfold mendUnit
          by_cases hctl : isControlCharacter c = true
          · rw [if_pos hctl]
            unfold escapeControlCharacter
            split_ifs
            all_goals exact hback _
          · rw [if_neg hctl, singleton_append, digitsAhead, Bool.eq_false_iff.mpr hh, Bool.false_and]

theorem mendBody_valid (body : Text) (hinner : isInner body = true) :
    (decodeLiteral (mendBody body)).isSome = unicodeComplete body := by
  induction body using mendBody.induct with
  | case1 => rfl
  | case2 => rfl
  | case3 e rest he ih =>
    rw [mendBody_escape he, decodeLiteral_escape he, digitsAhead_mendBody, ih hinner]
    rfl
  | case4 e rest he ih =>
    have hunit : Spells e (mendUnit e) := mendUnit_spells (of_notMem_escapes he).1 (of_notMem_escapes he).2.1
    have hu : e ≠ lowerU := (of_notMem_escapes he).2.2
    have hcomplete : unicodeComplete (backslash :: e :: rest) = unicodeComplete rest := by
      rw [unicodeComplete, if_pos rfl, decide_eq_true hu, Bool.true_or, Bool.true_and]
    rw [mendBody_invalid he, decodeLiteral_escape (by decide), decide_eq_true (by decide), Bool.true_or, Bool.true_and,
      hunit.decodeLiteral, Option.isSome_map, ih hinner, hcomplete]
  | case5 c rest hback ih =>
    rw [isInner.eq_def] at hinner
    obtain ⟨hquote, hrest⟩ := Bool.and_eq_true _ _ ▸ ((if_neg hback).symm.trans hinner)
    have hcomplete : unicodeComplete (c :: rest) = unicodeComplete rest := by
      rw [unicodeComplete.eq_def]
      exact if_neg hback
    rw [mendBody_unit hback, (mendUnit_spells (of_decide_eq_true hquote) hback).decodeLiteral, Option.isSome_map, ih hrest,
      hcomplete]

theorem mendBody_of_valid (body : Text) (hvalid : (decodeLiteral body).isSome = true) : mendBody body = body := by
  induction body using mendBody.induct with
  | case1 => rfl
  | case2 => exact absurd hvalid (by decide)
  | case3 e rest he ih =>
    rw [decodeLiteral_escape he] at hvalid
    rw [mendBody_escape he, ih (Bool.and_eq_true _ _ ▸ hvalid).2]
  | case4 e rest he ih =>
    rw [decodeLiteral_invalid he] at hvalid
    exact absurd hvalid Bool.false_ne_true
  | case5 c rest hback ih =>
    rw [decodeLiteral_unit hback] at hvalid
    obtain ⟨hc, hrest⟩ := Bool.and_eq_true _ _ ▸ hvalid
    rw [mendBody_unit hback, mendUnit_plain (of_decide_eq_true hc).2, ih hrest]
    rfl

/-! ### The scan of a repaired text -/

theorem repairFrom_nil (inString : Bool) : repairFrom inString [] = [] := by rw [repairFrom]

theorem repairFrom_backslash : repairFrom true [backslash] = [backslash, backslash] := by
  rw [repairFrom, if_neg (not_not_intro rfl), if_neg (by decide), if_pos rfl]

theorem repairFrom_outside (x : Text) : repairFrom false (c :: x) = c :: repairFrom (c = quote) x := by
  rw [repairFrom.eq_def]
  exact if_pos Bool.false_ne_true

theorem repairFrom_close (x : Text) : repairFrom true (quote :: x) = quote :: repairFrom false x := by
  rw [repairFrom.eq_def]
  exact (if_neg (not_not_intro rfl)).trans (if_pos rfl)

theorem repairFrom_unit (hquote : c ≠ quote) (hback : c ≠ backslash) (x : Text) :
    repairFrom true (c :: x) = mendUnit c ++ repairFrom true x := by
  rw [repairFrom.eq_def]
  exact (if_neg (not_not_intro rfl)).trans ((if_neg hquote).trans (if_neg hback))

theorem repairFrom_digits (n : ℕ) (hdigits : digitsAhead n x = true) :
    x.take n ++ repairFrom true (x.drop n) = repairFrom true x := by
  induction n generalizing x with
  | zero => rfl
  | succ n ih =>
    cases x with
    | nil => exact absurd hdigits Bool.false_ne_true
    | cons h x =>
      obtain ⟨hh, hrest⟩ := Bool.and_eq_true _ _ ▸ hdigits
      obtain ⟨hquote, hback, hctl⟩ := hexValue_plain hh
      rw [take_succ_cons, drop_succ_cons, cons_append, ih hrest, repairFrom_unit hquote hback, mendUnit_plain hctl]
      rfl

theorem digitsAhead_of_isUnicodeDigits (h : isUnicodeDigits (x.take 4) = true) : digitsAhead 4 x = true := by
  obtain _ | ⟨h₃, _ | ⟨h₂, _ | ⟨h₁, _ | ⟨h₀, rest⟩⟩⟩⟩ := x
  · exact h
  · exact absurd h Bool.false_ne_true
  · exact absurd h Bool.false_ne_true
  · exact absurd h Bool.false_ne_true
  · simpa [isUnicodeDigits, digitsAhead] using h

theorem repairFrom_escape (he : e ∈ validJsonEscapes) (x : Text) :
    repairFrom true (backslash :: e :: x) = backslash :: e :: repairFrom true x := by
  rw [repairFrom, if_neg (not_not_intro rfl), if_neg (by decide), if_pos rfl]
  by_cases hdigits : e = lowerU ∧ isUnicodeDigits (x.take 4) = true
  · rw [if_pos hdigits, repairFrom_digits 4 (digitsAhead_of_isUnicodeDigits hdigits.2), hdigits.1]
  · rw [if_neg hdigits, if_pos he]

theorem repairFrom_invalid (he : e ∉ validJsonEscapes) (x : Text) :
    repairFrom true (backslash :: e :: x) = backslash :: backslash :: (mendUnit e ++ repairFrom true x) := by
  obtain ⟨hquote, hback, hu⟩ := of_notMem_escapes he
  rw [repairFrom, if_neg (not_not_intro rfl), if_neg (by decide), if_pos rfl, if_neg fun h => hu h.1, if_neg he,
    repairFrom_unit hquote hback]

namespace JsonScan

variable (scan : JsonScan)

theorem part_text : scan.part.text ++ scan.parts.flatMap JsonPart.text = quote :: scan.render true := by
  unfold part render
  cases scan.closed with
  | true => rfl
  | false => exact congrArg (quote :: · ++ _) (append_nil scan.body).symm

theorem part_mend : scan.part.mapBody mendBody = scan.mend.part := by
  unfold part mend
  cases scan.closed with
  | true => rfl
  | false => rfl

theorem render_into (x : Text) : (scan.into x).render true = x ++ scan.render true := by
  simp only [render, into, if_pos, append_assoc]
  rfl

theorem mend_into (h : ∀ body, mendBody (x ++ body) = y ++ mendBody body) (scan : JsonScan) :
    (scan.into x).mend = scan.mend.into y := by
  rw [mend, into, h]
  rfl

end JsonScan

theorem render_scanJson (inString : Bool) (text : Text) : (scanJson inString text).render inString = text := by
  induction inString, text using scanJson.induct with
  | case1 => rfl
  | case2 => rfl
  | case3 rest ih =>
    rw [scanJson_open]
    exact (JsonScan.part_text _).trans (congrArg _ ih)
  | case4 c rest hquote ih =>
    rw [scanJson_unit hquote]
    exact congrArg (c :: ·) ih
  | case5 rest ih =>
    rw [scanJson_close]
    exact congrArg (quote :: ·) ih
  | case6 => rfl
  | case7 e rest _ ih => rw [scanJson_escape, JsonScan.render_into, ih]; rfl
  | case8 c rest hquote hback ih => rw [scanJson_plain hquote hback, JsonScan.render_into, ih]; rfl

theorem scanJson_repairFrom (inString : Bool) (text : Text) :
    scanJson inString (repairFrom inString text) = (scanJson inString text).mend := by
  induction inString, text using scanJson.induct with
  | case1 | case2 => rw [repairFrom_nil]; rfl
  | case3 rest ih =>
    rw [repairFrom_outside, decide_eq_true rfl, scanJson_open, scanJson_open, ih, ← JsonScan.part_mend]
    rfl
  | case4 c rest hquote ih =>
    rw [repairFrom_outside, decide_eq_false hquote, scanJson_unit hquote, scanJson_unit hquote, ih]
    rfl
  | case5 rest ih =>
    rw [repairFrom_close, scanJson_close, scanJson_close, ih]
    rfl
  | case6 => rw [repairFrom_backslash]; rfl
  | case7 e rest _ ih =>
    rw [scanJson_escape]
    by_cases he : e ∈ validJsonEscapes
    · rw [repairFrom_escape he, scanJson_escape, JsonScan.mend_into (y := [backslash, e]) (mendBody_escape he), ih]
    · have hunit : Spells e (mendUnit e) := mendUnit_spells (of_notMem_escapes he).1 (of_notMem_escapes he).2.1
      rw [repairFrom_invalid he, scanJson_escape, hunit.scanJson, ih, JsonScan.into_into,
        JsonScan.mend_into (y := backslash :: backslash :: mendUnit e) (mendBody_invalid he)]
      rfl
  | case8 c rest hquote hback ih =>
    rw [scanJson_plain hquote hback, repairFrom_unit hquote hback, (mendUnit_spells hquote hback).scanJson, ih,
      JsonScan.mend_into (mendBody_unit hback)]

theorem isInner_scanJson (inString : Bool) (text : Text) : isInner (scanJson inString text).body = true ∧
    ∀ part ∈ (scanJson inString text).parts, ∀ body, part = .literal body ∨ part = .unterminated body → isInner body = true := by
  induction inString, text using scanJson.induct with
  | case1 | case2 => exact ⟨rfl, fun _ h => absurd h not_mem_nil⟩
  | case3 rest ih =>
    rw [scanJson_open]
    refine ⟨rfl, forall_mem_cons.mpr ⟨fun body h => ?_, ih.2⟩⟩
    have hbody : body = (scanJson true rest).body := by
      unfold JsonScan.part at h
      split at h
      · exact (JsonPart.literal.inj (h.resolve_right nofun)).symm
      · exact (JsonPart.unterminated.inj (h.resolve_left nofun)).symm
    exact hbody ▸ ih.1
  | case4 c rest hquote ih =>
    rw [scanJson_unit hquote]
    exact ⟨rfl, forall_mem_cons.mpr ⟨fun body h => absurd h (by simp), ih.2⟩⟩
  | case5 rest ih => exact scanJson_close rest ▸ ⟨rfl, ih.2⟩
  | case6 => exact ⟨rfl, fun _ h => absurd h not_mem_nil⟩
  | case7 e rest _ ih => exact scanJson_escape e rest ▸ ih
  | case8 c rest hquote hback ih =>
    rw [scanJson_plain hquote hback]
    refine ⟨?_, ih.2⟩
    rw [isInner.eq_def]
    exact (if_neg hback).trans ((Bool.and_eq_true _ _).mpr ⟨decide_eq_true hquote, ih.1⟩)

/-! ### What parsing depends on -/

variable {β γ α α' : Type} {f : β → γ} {tokens : List (JsonToken Text)} {parts : List JsonPart}

/-- Two results leave the same tokens, but for the strings. -/
def Agrees (f : β → γ) (a : Option (α × List (JsonToken β))) (b : Option (α' × List (JsonToken γ))) : Prop :=
  b.map Prod.snd = a.map fun r => r.2.map (.map f)

theorem Agrees.bind {δ δ' : Type} {a : Option (α × List (JsonToken β))} {b : Option (α' × List (JsonToken γ))}
    {k : α × List (JsonToken β) → Option (δ × List (JsonToken β))}
    {l : α' × List (JsonToken γ) → Option (δ' × List (JsonToken γ))} (h : Agrees f a b)
    (hk : ∀ x y rest, Agrees f (k (x, rest)) (l (y, rest.map (.map f)))) : Agrees f (a.bind k) (b.bind l) := by
  cases a with
  | none =>
    rw [Option.map_eq_none_iff.mp h]
    rfl
  | some r =>
    obtain ⟨⟨y, rest⟩, rfl, hrest⟩ := Option.map_eq_some_iff.mp h
    subst hrest
    exact hk r.1 y r.2

theorem Agrees.map {δ δ' : Type} {a : Option (α × List (JsonToken β))} {b : Option (α' × List (JsonToken γ))}
    {g : α × List (JsonToken β) → δ × List (JsonToken β)} {g' : α' × List (JsonToken γ) → δ' × List (JsonToken γ)}
    (h : Agrees f a b) (hg : ∀ r, (g r).2 = r.2) (hg' : ∀ r, (g' r).2 = r.2) : Agrees f (a.map g) (b.map g') := by
  have hsnd : Prod.snd ∘ g' = Prod.snd := funext hg'
  have hmap : (fun r => r.2.map (.map f)) ∘ g = fun r => r.2.map (JsonToken.map f) := funext fun r => congrArg _ (hg r)
  rw [Agrees, Option.map_map, Option.map_map, hsnd, hmap]
  exact h

theorem parseMore_agrees {item : List (JsonToken β) → Option (α × List (JsonToken β))}
    {item' : List (JsonToken γ) → Option (α' × List (JsonToken γ))}
    (h : ∀ tokens, Agrees f (item tokens) (item' (tokens.map (.map f)))) (close : UInt16) (n : ℕ)
    (tokens : List (JsonToken β)) :
    Agrees f (parseMore item close n tokens) (parseMore item' close n (tokens.map (.map f))) := by
  induction n generalizing tokens with
  | zero => rfl
  | succ n ih =>
    rcases tokens with _ | ⟨c | w | s, tokens⟩
    · rfl
    · rw [map_cons, JsonToken.map, parseMore, parseMore]
      split_ifs
      · rfl
      · exact (h tokens).bind fun x y rest => (ih rest).map (fun _ => rfl) fun _ => rfl
      · rfl
    · rfl
    · rfl

theorem parseItems_agrees {item : List (JsonToken β) → Option (α × List (JsonToken β))}
    {item' : List (JsonToken γ) → Option (α' × List (JsonToken γ))}
    (h : ∀ tokens, Agrees f (item tokens) (item' (tokens.map (.map f)))) (close : UInt16) (n : ℕ)
    (tokens : List (JsonToken β)) :
    Agrees f (parseItems item close n tokens) (parseItems item' close n (tokens.map (.map f))) := by
  unfold parseItems
  rcases tokens with _ | ⟨c | w | s, tokens⟩
  on_goal 2 =>
    by_cases hc : c = close
    · rw [if_pos (by simp [hc]), if_pos (by simp [JsonToken.map, hc])]
      rfl
    rw [if_neg (by simp [hc]), if_neg (by simp [JsonToken.map, hc])]
  all_goals exact (h _).bind fun x y rest => (parseMore_agrees h close n rest).map (fun _ => rfl) fun _ => rfl

theorem parseMember_agrees {value : List (JsonToken β) → Option (JsonTree β × List (JsonToken β))}
    {value' : List (JsonToken γ) → Option (JsonTree γ × List (JsonToken γ))}
    (h : ∀ tokens, Agrees f (value tokens) (value' (tokens.map (.map f)))) (tokens : List (JsonToken β)) :
    Agrees f (parseMember value tokens) (parseMember value' (tokens.map (.map f))) := by
  rcases tokens with _ | ⟨c | w | s, _ | ⟨c | w | s', tokens⟩⟩
  all_goals try rfl
  rw [map_cons, map_cons, JsonToken.map, JsonToken.map, parseMember, parseMember]
  split_ifs
  · exact (h tokens).map (fun _ => rfl) fun _ => rfl
  · rfl

theorem parseValue_agrees (f : β → γ) (n : ℕ) (tokens : List (JsonToken β)) :
    Agrees f (parseValue n tokens) (parseValue n (tokens.map (.map f))) := by
  induction n generalizing tokens with
  | zero => rfl
  | succ n ih =>
    rcases tokens with _ | ⟨c | w | s, tokens⟩
    · rfl
    · rw [map_cons, JsonToken.map, parseValue, parseValue]
      split_ifs
      · exact (parseItems_agrees ih _ n tokens).map (fun _ => rfl) fun _ => rfl
      · exact (parseItems_agrees (parseMember_agrees ih) _ n tokens).map (fun _ => rfl) fun _ => rfl
      · rfl
    · rw [map_cons, JsonToken.map, parseValue, parseValue]
      split_ifs
      · rfl
      · rfl
    · rfl

theorem parseTokens_map (f : β → γ) (tokens : List (JsonToken β)) :
    (parseTokens (tokens.map (.map f))).isSome = (parseTokens tokens).isSome := by
  have h := parseValue_agrees f (tokens.length + 1) tokens
  unfold parseTokens
  rw [length_map]
  cases hvalue : parseValue (tokens.length + 1) tokens with
  | none =>
    rw [hvalue] at h
    rw [Option.map_eq_none_iff.mp h]
    rfl
  | some r =>
    rw [hvalue] at h
    obtain ⟨⟨y, rest⟩, hvalue', hrest⟩ := Option.map_eq_some_iff.mp h
    subst hrest
    rw [hvalue']
    rcases r with ⟨x, _ | ⟨token, rest⟩⟩
    · rfl
    · rfl

theorem tokensOf_mapBody (g : Text → Text) (parts : List JsonPart) :
    tokensOf (parts.map (.mapBody g)) = (tokensOf parts).map (List.map (.map g)) := by
  have hword : ∀ c, List.map (JsonToken.map g) ∘ wordCons c = wordCons c ∘ List.map (JsonToken.map g) := by
    intro c
    funext tokens
    rcases tokens with _ | ⟨c | w | s, tokens⟩
    all_goals rfl
  induction parts with
  | nil => rfl
  | cons part parts ih =>
    have hbegins : beginsWord (parts.map (.mapBody g)) = beginsWord parts := by
      rcases parts with _ | ⟨c | body | body, parts⟩
      all_goals rfl
    cases part with
    | unit c =>
      rw [map_cons, JsonPart.mapBody, tokensOf, tokensOf, hbegins, ih]
      split_ifs
      · rfl
      · rw [Option.map_map, Option.map_map]
        rfl
      · rw [Option.map_map, Option.map_map, hword]
      · rw [Option.map_map, Option.map_map]
        rfl
    | literal body =>
      rw [map_cons, JsonPart.mapBody, tokensOf, tokensOf, ih, Option.map_map, Option.map_map]
      rfl
    | unterminated body => rfl

theorem string_mem_tokensOf (h : tokensOf parts = some tokens) : .string body ∈ tokens ↔ .literal body ∈ parts := by
  have hword : ∀ c (tokens : List (JsonToken Text)), .string body ∈ wordCons c tokens ↔ .string body ∈ tokens := by
    intro c tokens
    rcases tokens with _ | ⟨c | w | s, tokens⟩
    · rfl
    · rfl
    · simp [wordCons]
    · rfl
  induction parts generalizing tokens with
  | nil =>
    cases h
    exact ⟨fun h => absurd h not_mem_nil, fun h => absurd h not_mem_nil⟩
  | cons part parts ih =>
    cases part with
    | unit c =>
      rw [tokensOf] at h
      split_ifs at h
      · simpa using ih h
      all_goals
        obtain ⟨rest, hrest, rfl⟩ := Option.map_eq_some_iff.mp h
        simpa [hword] using ih hrest
    | literal other =>
      obtain ⟨rest, hrest, rfl⟩ := Option.map_eq_some_iff.mp h
      simpa using or_congr_right (ih hrest)
    | unterminated _ => exact nomatch h

theorem unterminated_notMem (h : tokensOf parts = some tokens) : .unterminated body ∉ parts := by
  induction parts generalizing tokens with
  | nil => exact not_mem_nil
  | cons part parts ih =>
    cases part with
    | unit c =>
      rw [tokensOf] at h
      split_ifs at h
      · simpa using ih h
      all_goals
        obtain ⟨rest, hrest, rfl⟩ := Option.map_eq_some_iff.mp h
        simpa using ih hrest
    | literal other =>
      obtain ⟨rest, hrest, rfl⟩ := Option.map_eq_some_iff.mp h
      simpa using ih hrest
    | unterminated _ => exact nomatch h

theorem decode_tokens (h : ∀ body, .string body ∈ tokens → (decodeLiteral body).isSome) :
    ∃ decoded, tokens.mapM decodeToken = some decoded ∧
      decoded.map (JsonToken.map fun _ => ()) = tokens.map (JsonToken.map fun _ => ()) := by
  induction tokens with
  | nil => exact ⟨[], rfl, rfl⟩
  | cons token tokens ih =>
    obtain ⟨decoded, hdecoded, hkinds⟩ := ih fun body hbody => h body (mem_cons_of_mem _ hbody)
    have hhead : ∃ t, decodeToken token = some t ∧ t.map (fun _ => ()) = token.map fun _ => () := by
      cases token with
      | punct c | word w => exact ⟨_, rfl, rfl⟩
      | string body =>
        obtain ⟨s, hs⟩ := Option.isSome_iff_exists.mp (h body (mem_cons_self ..))
        exact ⟨.string s, by rw [decodeToken, hs, Option.map_some], rfl⟩
    obtain ⟨t, ht, hkind⟩ := hhead
    refine ⟨t :: decoded, ?_, ?_⟩
    · rw [mapM_cons, ht, hdecoded]
      rfl
    · rw [map_cons, map_cons, hkind, hkinds]

theorem valid_of_decode {decoded : List (JsonToken Text)} (h : tokens.mapM decodeToken = some decoded)
    (hbody : .string body ∈ tokens) : (decodeLiteral body).isSome := by
  induction tokens generalizing decoded with
  | nil => exact absurd hbody not_mem_nil
  | cons token tokens ih =>
    rw [mapM_cons] at h
    obtain ⟨t, ht, hrest⟩ := Option.bind_eq_some_iff.mp h
    obtain ⟨rest, hrest, -⟩ := Option.bind_eq_some_iff.mp hrest
    rcases mem_cons.mp hbody with rfl | hbody
    · obtain ⟨s, hs, -⟩ := Option.map_eq_some_iff.mp ht
      exact hs ▸ rfl
    · exact ih hrest hbody

theorem parseJson_isSome_iff : (parseJson text).isSome ↔ ∃ tokens, jsonTokens text = some tokens ∧
    (parseTokens tokens).isSome ∧ ∀ body, .string body ∈ tokens → (decodeLiteral body).isSome := by
  unfold parseJson
  cases jsonTokens text with
  | none => simp
  | some tokens =>
    rw [Option.bind_some]
    constructor
    · intro h
      have hvalid : ∀ body, .string body ∈ tokens → (decodeLiteral body).isSome := by
        intro body hbody
        obtain ⟨value, hvalue⟩ := Option.isSome_iff_exists.mp h
        obtain ⟨decoded, hdecoded, -⟩ := Option.bind_eq_some_iff.mp hvalue
        exact valid_of_decode hdecoded hbody
      obtain ⟨decoded, hdecoded, hkinds⟩ := decode_tokens hvalid
      rw [hdecoded, Option.bind_some, ← parseTokens_map fun _ => (), hkinds, parseTokens_map] at h
      exact ⟨tokens, rfl, h, hvalid⟩
    · rintro ⟨_, htokens, h, hvalid⟩
      cases htokens
      obtain ⟨decoded, hdecoded, hkinds⟩ := decode_tokens hvalid
      rwa [hdecoded, Option.bind_some, ← parseTokens_map fun _ => (), hkinds, parseTokens_map]

/-! ### Repaired texts -/

def JsonPart.Repaired : JsonPart → JsonPart → Prop
  | unit c, part => part = unit c
  | literal body, part => ∃ body', part = literal body' ∧ ((decodeLiteral body).isSome → body' = body)
  | unterminated _, part => ∃ body', part = unterminated body'

structure RepairsLiterals (text repaired : Text) : Prop where
  inPlace : List.Forall₂ JsonPart.Repaired (scanJson false text).parts (scanJson false repaired).parts
  valid : ∀ body, .literal body ∈ (scanJson false repaired).parts → (decodeLiteral body).isSome
  idempotent : repairJson repaired = repaired
  identity : (parseJson text).isSome → repaired = text ∧ parseJsonWithRepair text = parseJson text
  parses : (∃ tokens, jsonTokens text = some tokens ∧ (parseTokens tokens).isSome) → (parseJson repaired).isSome

theorem parts_repairJson (text : Text) : (scanJson false (repairJson text)).parts =
    (scanJson false text).parts.map (.mapBody mendBody) :=
  congrArg JsonScan.parts (scanJson_repairFrom false text)

theorem text_parts (text : Text) : (scanJson false text).parts.flatMap JsonPart.text = text := render_scanJson false text

theorem jsonTokens_repairJson (text : Text) :
    jsonTokens (repairJson text) = (jsonTokens text).map (List.map (.map mendBody)) := by
  rw [jsonTokens, parts_repairJson, tokensOf_mapBody]
  rfl

theorem repairJson_of_parts (h : ∀ part ∈ (scanJson false text).parts, part.mapBody mendBody = part) :
    repairJson text = text := by
  rw [← text_parts (repairJson text), parts_repairJson, map_congr_left h, map_id', text_parts]

theorem repairJson_inPlace (text : Text) :
    List.Forall₂ JsonPart.Repaired (scanJson false text).parts (scanJson false (repairJson text)).parts := by
  rw [parts_repairJson]
  induction (scanJson false text).parts with
  | nil => exact .nil
  | cons part parts ih =>
    refine .cons ?_ ih
    cases part with
    | unit c => exact rfl
    | literal body => exact ⟨mendBody body, rfl, mendBody_of_valid body⟩
    | unterminated body => exact ⟨mendBody body, rfl⟩

theorem repairJson_idempotent (text : Text) : repairJson (repairJson text) = repairJson text := by
  refine repairJson_of_parts fun part hpart => ?_
  rw [parts_repairJson] at hpart
  obtain ⟨before, hbefore, rfl⟩ := mem_map.mp hpart
  have hinner := (isInner_scanJson false text).2 before hbefore
  cases before with
  | unit c => rfl
  | literal body => exact congrArg JsonPart.literal (mendBody_mendBody body (hinner body (.inl rfl)))
  | unterminated body => exact congrArg JsonPart.unterminated (mendBody_mendBody body (hinner body (.inr rfl)))

theorem repairJson_identity (h : (parseJson text).isSome) :
    repairJson text = text ∧ parseJsonWithRepair text = parseJson text := by
  obtain ⟨tokens, htokens, -, hvalid⟩ := parseJson_isSome_iff.mp h
  obtain ⟨value, hvalue⟩ := Option.isSome_iff_exists.mp h
  refine ⟨repairJson_of_parts fun part hpart => ?_, by rw [parseJsonWithRepair, hvalue]⟩
  cases part with
  | unit c => rfl
  | literal body =>
    exact congrArg JsonPart.literal (mendBody_of_valid body (hvalid body ((string_mem_tokensOf htokens).mpr hpart)))
  | unterminated body => exact absurd hpart (unterminated_notMem htokens)

/-- **Repair makes literals valid and changes nothing else** exactly when no terminated literal has a unicode escape without
its digits. -/
theorem repairJson_exact_iff (text : Text) : RepairsLiterals text (repairJson text) ↔
    ∀ body, .literal body ∈ (scanJson false text).parts → unicodeComplete body = true := by
  have hvalid : ∀ body, .literal body ∈ (scanJson false text).parts →
      (decodeLiteral (mendBody body)).isSome = unicodeComplete body := fun body hbody =>
    mendBody_valid body ((isInner_scanJson false text).2 _ hbody body (.inl rfl))
  have hmem : ∀ body, .literal body ∈ (scanJson false (repairJson text)).parts ↔
      ∃ before, .literal before ∈ (scanJson false text).parts ∧ mendBody before = body := by
    intro body
    rw [parts_repairJson, mem_map]
    refine ⟨fun ⟨part, hpart, heq⟩ => ?_, fun ⟨before, hbefore, heq⟩ => ⟨_, hbefore, congrArg JsonPart.literal heq⟩⟩
    cases part with
    | literal before => exact ⟨before, hpart, JsonPart.literal.inj heq⟩
    | unit c => exact nomatch heq
    | unterminated before => exact nomatch heq
  refine ⟨fun h body hbody => ?_, fun h => ?_⟩
  · exact hvalid body hbody ▸ h.valid _ ((hmem _).mpr ⟨body, hbody, rfl⟩)
  have hall : ∀ body, .literal body ∈ (scanJson false (repairJson text)).parts → (decodeLiteral body).isSome := by
    intro body hbody
    obtain ⟨before, hbefore, rfl⟩ := (hmem body).mp hbody
    rw [hvalid before hbefore]
    exact h before hbefore
  refine ⟨repairJson_inPlace text, hall, repairJson_idempotent text, repairJson_identity, fun ⟨tokens, htokens, hparse⟩ => ?_⟩
  have hrepaired : jsonTokens (repairJson text) = some (tokens.map (.map mendBody)) := by
    rw [jsonTokens_repairJson, htokens]
    rfl
  refine parseJson_isSome_iff.mpr ⟨_, hrepaired, (parseTokens_map mendBody tokens).symm ▸ hparse, fun body hbody => ?_⟩
  exact hall body ((string_mem_tokensOf hrepaired).mp hbody)

/-- A literal with two digits behind `\u`. -/
def cutEscape : Text := [quote, backslash, lowerU, 0x31, 0x32, quote]

theorem repairJson_inexact : ¬ ∀ text, RepairsLiterals text (repairJson text) := by
  intro hall
  have hparts : (scanJson false (repairJson cutEscape)).parts = [.literal [backslash, lowerU, 0x31, 0x32]] :=
    (parts_repairJson cutEscape).trans (by decide)
  have hvalid := (hall cutEscape).valid [backslash, lowerU, 0x31, 0x32] (hparts ▸ mem_singleton_self _)
  exact absurd hvalid (by decide)

end EasyPi.JsonUnits
