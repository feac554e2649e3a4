/-
# JSON text in code units

`JSON.parse` and the strings of `JSON.stringify`, on texts of UTF-16 units: half of a surrogate pair is a unit like any
other, and is escaped when it stands alone. A text is scanned into string literals and the units between them, which make
up tokens; a number stays the text that it is written as.
-/
import Mathlib.Data.List.Forall2
import EasyPi.Tui.CodeUnits

namespace EasyPi.JsonUnits

open List

export Tui (Text)
open Tui (isDigit lowerU openBracket closeBracket)
open CodeUnits (space tab lf cr backslash)

def quote : UInt16 := 0x22
def openBrace : UInt16 := 0x7B
def closeBrace : UInt16 := 0x7D
def comma : UInt16 := 0x2C

/-! ### String literals -/

/-- A part of a text, as quotes delimit it: a unit outside of literals, a literal, or one that is not terminated. -/
inductive JsonPart where
  | unit (c : UInt16)
  | literal (body : Text)
  | unterminated (body : Text)
  deriving DecidableEq

def JsonPart.text : JsonPart → Text
  | unit c => [c]
  | literal body => quote :: (body ++ [quote])
  | unterminated body => quote :: body

/-- What a scan finds: the rest of the literal that it begins in, whether that is terminated, and the parts behind it. -/
structure JsonScan where
  body : Text := []
  closed : Bool := true
  parts : List JsonPart := []
  deriving DecidableEq

variable (scan : JsonScan)

def JsonScan.into (units : Text) : JsonScan := { scan with body := units ++ scan.body }

def JsonScan.part : JsonPart := if scan.closed then .literal scan.body else .unterminated scan.body

/-- The scan of a text, from inside of a literal or from outside. A backslash takes the next unit with it. -/
def scanJson : Bool → Text → JsonScan
  | false, [] => {}
  | true, [] => { closed := false }
  | false, c :: rest =>
    if c = quote then { parts := (scanJson true rest).part :: (scanJson true rest).parts }
    else { parts := .unit c :: (scanJson false rest).parts }
  | true, c :: rest =>
    if c = quote then { parts := (scanJson false rest).parts }
    else if c = backslash then
      match rest with
      | [] => { body := [c], closed := false }
      | e :: rest => (scanJson true rest).into [c, e]
    else (scanJson true rest).into [c]

def hexValue (c : UInt16) : Option ℕ :=
  if isDigit c then some (c.toNat - 0x30)
  else if 0x61 ≤ c ∧ c ≤ 0x66 then some (c.toNat - 0x57)
  else if 0x41 ≤ c ∧ c ≤ 0x46 then some (c.toNat - 0x37)
  else none

/-- The unit of an escape, by the letter behind the backslash. -/
def unescape (e : UInt16) : Option UInt16 :=
  if e = quote ∨ e = backslash ∨ e = 0x2F then some e
  else if e = 0x62 then some 0x08
  else if e = 0x66 then some 0x0C
  else if e = 0x6E then some 0x0A
  else if e = 0x72 then some 0x0D
  else if e = 0x74 then some 0x09
  else none

/-- The string of a literal, if it is valid. -/
def decodeLiteral : Text → Option Text
  | [] => some []
  | c :: rest =>
    if c = backslash then
      match rest with
      | [] => none
      | e :: rest =>
        if e = lowerU then
          match rest with
          | h₃ :: h₂ :: h₁ :: h₀ :: rest =>
            (hexValue h₃).bind fun d₃ => (hexValue h₂).bind fun d₂ => (hexValue h₁).bind fun d₁ =>
              (hexValue h₀).bind fun d₀ =>
                (decodeLiteral rest).map (UInt16.ofNat (((d₃ * 16 + d₂) * 16 + d₁) * 16 + d₀) :: ·)
          | _ => none
        else (unescape e).bind fun x => (decodeLiteral rest).map (x :: ·)
    else if c = quote ∨ c < 0x20 then none
    else (decodeLiteral rest).map (c :: ·)

/-! ### `JSON.parse` -/

inductive JsonToken (β : Type) where
  | punct (c : UInt16)
  | word (w : Text)
  | string (s : β)
  deriving DecidableEq

def JsonToken.map {β γ : Type} (f : β → γ) : JsonToken β → JsonToken γ
  | punct c => .punct c
  | word w => .word w
  | string s => .string (f s)

def isPunct (c : UInt16) : Bool := c ∈ [openBracket, closeBracket, openBrace, closeBrace, comma, Tui.colon]

def isJsonSpace (c : UInt16) : Bool := c ∈ [space, tab, lf, cr]

def isWordUnit (c : UInt16) : Bool := !isPunct c && !isJsonSpace c

def wordCons {β : Type} (c : UInt16) : List (JsonToken β) → List (JsonToken β)
  | .word w :: tokens => .word (c :: w) :: tokens
  | tokens => tokens

def beginsWord : List JsonPart → Bool
  | .unit d :: _ => isWordUnit d
  | _ => false

/-- The tokens of parts: a word goes on as far as it can, and a literal must be terminated. -/
def tokensOf : List JsonPart → Option (List (JsonToken Text))
  | [] => some []
  | .unterminated _ :: _ => none
  | .literal body :: parts => (tokensOf parts).map (.string body :: ·)
  | .unit c :: parts =>
    if isJsonSpace c then tokensOf parts
    else if isPunct c then (tokensOf parts).map (.punct c :: ·)
    else if beginsWord parts then (tokensOf parts).map (wordCons c)
    else (tokensOf parts).map (.word [c] :: ·)

def digitsThen (rest : Text → Bool) (w : Text) : Bool := w.takeWhile isDigit ≠ [] && rest (w.dropWhile isDigit)

def isExponent : Text → Bool
  | [] => true
  | c :: w => (c = 0x65 || c = 0x45) && digitsThen List.isEmpty (if w.head? = some 0x2B ∨ w.head? = some 0x2D then w.tail else w)

def isFraction (w : Text) : Bool := if w.head? = some 0x2E then digitsThen isExponent w.tail else isExponent w

def isNumber (w : Text) : Bool :=
  let w := if w.head? = some 0x2D then w.tail else w
  (w.head? ≠ some 0x30 || (w.takeWhile isDigit).length = 1) && digitsThen isFraction w

/-- `true`, `false`, `null` or a number. -/
def isWord (w : Text) : Bool :=
  w = [0x74, 0x72, 0x75, 0x65] || w = [0x66, 0x61, 0x6C, 0x73, 0x65] || w = [0x6E, 0x75, 0x6C, 0x6C] || isNumber w

inductive JsonTree (β : Type) where
  | word (w : Text)
  | string (s : β)
  | array (items : List (JsonTree β))
  | object (members : List (β × JsonTree β))

section
variable {β γ α : Type}

/-- Items behind the first one, each behind a comma, and the closing bracket; `n` bounds their number. -/
def parseMore (item : List (JsonToken β) → Option (α × List (JsonToken β))) (close : UInt16) :
    ℕ → List (JsonToken β) → Option (List α × List (JsonToken β))
  | n + 1, .punct c :: tokens =>
    if c = close then some ([], tokens)
    else if c = comma then
      (item tokens).bind fun (x, rest) => (parseMore item close n rest).map fun (xs, rest) => (x :: xs, rest)
    else none
  | _, _ => none

def parseItems (item : List (JsonToken β) → Option (α × List (JsonToken β))) (close : UInt16) (n : ℕ)
    (tokens : List (JsonToken β)) : Option (List α × List (JsonToken β)) :=
  if tokens.head?.any fun | .punct c => c = close | _ => false then some ([], tokens.tail)
  else (item tokens).bind fun (x, rest) => (parseMore item close n rest).map fun (xs, rest) => (x :: xs, rest)

def parseMember (value : List (JsonToken β) → Option (JsonTree β × List (JsonToken β))) :
    List (JsonToken β) → Option ((β × JsonTree β) × List (JsonToken β))
  | .string key :: .punct c :: tokens =>
    if c = Tui.colon then (value tokens).map fun (x, rest) => ((key, x), rest) else none
  | _ => none

/-- A value at the beginning of tokens; `n` bounds its depth and its items. -/
def parseValue : ℕ → List (JsonToken β) → Option (JsonTree β × List (JsonToken β))
  | n + 1, .punct c :: tokens =>
    if c = openBracket then
      (parseItems (parseValue n) closeBracket n tokens).map fun (items, rest) => (.array items, rest)
    else if c = openBrace then
      (parseItems (parseMember (parseValue n)) closeBrace n tokens).map fun (members, rest) => (.object members, rest)
    else none
  | _ + 1, .word w :: tokens => if isWord w then some (.word w, tokens) else none
  | _ + 1, .string s :: tokens => some (.string s, tokens)
  | _, _ => none

def parseTokens (tokens : List (JsonToken β)) : Option (JsonTree β) :=
  match parseValue (tokens.length + 1) tokens with
  | some (value, []) => some value
  | _ => none
end

/-- The tokens of a text, if its literals are terminated. -/
def jsonTokens (text : Text) : Option (List (JsonToken Text)) := tokensOf (scanJson false text).parts

def decodeToken : JsonToken Text → Option (JsonToken Text)
  | .string body => (decodeLiteral body).map .string
  | .punct c => some (.punct c)
  | .word w => some (.word w)

/-- `JSON.parse`: `none` when it throws. -/
def parseJson (text : Text) : Option (JsonTree Text) :=
  (jsonTokens text).bind fun tokens => (tokens.mapM decodeToken).bind parseTokens

def hexDigit (n : ℕ) : UInt16 := if n < 10 then UInt16.ofNat (0x30 + n) else UInt16.ofNat (0x57 + n)

/-- `\u` and four digits. -/
def hexEscape (c : UInt16) : Text :=
  [backslash, lowerU, hexDigit (c.toNat / 4096), hexDigit (c.toNat / 256 % 16), hexDigit (c.toNat / 16 % 16),
    hexDigit (c.toNat % 16)]

def isHighSurrogate (c : UInt16) : Bool := 0xD800 ≤ c && c ≤ 0xDBFF

def isLowSurrogate (c : UInt16) : Bool := 0xDC00 ≤ c && c ≤ 0xDFFF

/-- A unit inside a literal, when it is no part of a pair. -/
def quoteUnit (c : UInt16) : Text :=
  if c = quote ∨ c = backslash then [backslash, c]
  else if c = 0x08 then [backslash, 0x62]
  else if c = 0x09 then [backslash, 0x74]
  else if c = 0x0A then [backslash, 0x6E]
  else if c = 0x0C then [backslash, 0x66]
  else if c = 0x0D then [backslash, 0x72]
  else if c < 0x20 ∨ isHighSurrogate c ∨ isLowSurrogate c then hexEscape c
  else [c]

/-- `JSON.stringify(s).slice(1, -1)`. -/
def quoteUnits : Text → Text
  | [] => []
  | [c] => quoteUnit c
  | c :: d :: rest =>
    if isHighSurrogate c && isLowSurrogate d then c :: d :: quoteUnits rest else quoteUnit c ++ quoteUnits (d :: rest)

def stringify (s : Text) : Text := quote :: (quoteUnits s ++ [quote])

/-! ### Spellings -/

/-- A unit as it can be written in a literal. -/
inductive Spells (c : UInt16) : Text → Prop
  | plain : c ≠ quote → c ≠ backslash → ¬ c < 0x20 → Spells c [c]
  | short {e : UInt16} : e ≠ lowerU → unescape e = some c → Spells c [backslash, e]
  | hex : Spells c (hexEscape c)

/-- A string as it can be written in a literal. -/
def Spelled (s x : Text) : Prop := ∃ xs, List.Forall₂ Spells s xs ∧ x = xs.flatten

variable {s s' x x' : Text} {c : UInt16}

theorem JsonScan.into_into (x y : Text) : (scan.into y).into x = scan.into (x ++ y) := by
  rw [into, into, into, append_assoc]

theorem hexDigit_spec {n : ℕ} (h : n < 16) :
    hexValue (hexDigit n) = some n ∧ hexDigit n ≠ quote ∧ hexDigit n ≠ backslash ∧ ¬ hexDigit n < 0x20 :=
  (by decide : ∀ n : Fin 16, hexValue (hexDigit n) = some n.val ∧ hexDigit n ≠ quote ∧ hexDigit n ≠ backslash ∧
    ¬ hexDigit n < 0x20) ⟨n, h⟩

theorem scanJson_unit (h : c ≠ quote) (t : Text) :
    scanJson false (c :: t) = { parts := .unit c :: (scanJson false t).parts } := by
  rw [scanJson, if_neg h]

theorem scanJson_open (t : Text) : scanJson false (quote :: t) =
    { parts := (scanJson true t).part :: (scanJson true t).parts } := by
  rw [scanJson, if_pos rfl]

theorem scanJson_close (t : Text) : scanJson true (quote :: t) = { parts := (scanJson false t).parts } := by
  rw [scanJson.eq_def]
  exact if_pos rfl

theorem scanJson_plain (hquote : c ≠ quote) (hback : c ≠ backslash) (t : Text) :
    scanJson true (c :: t) = (scanJson true t).into [c] := by
  rw [scanJson.eq_def]
  exact (if_neg hquote).trans (if_neg hback)

theorem scanJson_escape (e : UInt16) (t : Text) : scanJson true (backslash :: e :: t) = (scanJson true t).into [backslash, e] := by
  rw [scanJson, if_neg (by decide), if_pos rfl]

theorem Spells.scanJson (h : Spells c x) (t : Text) : scanJson true (x ++ t) = (scanJson true t).into x := by
  cases h with
  | plain hquote hback _ => exact scanJson_plain hquote hback t
  | short _ _ => exact scanJson_escape _ t
  | hex =>
    have hplain : ∀ (n : ℕ) (t : Text), n < 16 → JsonUnits.scanJson true (hexDigit n :: t) =
        (JsonUnits.scanJson true t).into [hexDigit n] := fun n t hn =>
      scanJson_plain (hexDigit_spec hn).2.1 (hexDigit_spec hn).2.2.1 t
    have hlt := c.toNat_lt
    simp only [hexEscape, cons_append, nil_append]
    rw [scanJson_escape, hplain _ _ (by omega), hplain _ _ (by omega), hplain _ _ (by omega), hplain _ _ (by omega)]
    simp only [JsonScan.into_into, cons_append, nil_append]

theorem decodeLiteral_plain (hquote : c ≠ quote) (hback : c ≠ backslash) (hctl : ¬ c < 0x20) (t : Text) :
    decodeLiteral (c :: t) = (decodeLiteral t).map (c :: ·) := by
  rw [decodeLiteral.eq_def]
  exact (if_neg hback).trans (if_neg (not_or.mpr ⟨hquote, hctl⟩))

theorem Spells.decodeLiteral (h : Spells c x) (t : Text) : decodeLiteral (x ++ t) = (decodeLiteral t).map (c :: ·) := by
  cases h with
  | plain hquote hback hctl => exact decodeLiteral_plain hquote hback hctl t
  | @short e he hx =>
    have hbind : (unescape e).bind (fun x => (JsonUnits.decodeLiteral t).map (x :: ·)) =
        (JsonUnits.decodeLiteral t).map (c :: ·) := by rw [hx, Option.bind_some]
    rw [cons_append, cons_append, nil_append, JsonUnits.decodeLiteral.eq_def]
    exact (if_pos rfl).trans ((if_neg he).trans hbind)
  | hex =>
    have hlt := c.toNat_lt
    have hvalue : UInt16.ofNat (((c.toNat / 4096 * 16 + c.toNat / 256 % 16) * 16 + c.toNat / 16 % 16) * 16 +
        c.toNat % 16) = c := by
      have hsum : ((c.toNat / 4096 * 16 + c.toNat / 256 % 16) * 16 + c.toNat / 16 % 16) * 16 + c.toNat % 16 =
          c.toNat := by omega
      rw [hsum, UInt16.ofNat_toNat]
    simp only [hexEscape, cons_append, nil_append]
    rw [JsonUnits.decodeLiteral, if_pos rfl, if_pos rfl, (hexDigit_spec (by omega)).1, (hexDigit_spec (by omega)).1, (hexDigit_spec (by omega)).1,
      (hexDigit_spec (by omega)).1]
    dsimp only [Option.bind_some]
    rw [hvalue]

theorem spelled_nil : Spelled [] [] := ⟨[], .nil, rfl⟩

theorem Spelled.append (h : Spelled s x) (h' : Spelled s' x') : Spelled (s ++ s') (x ++ x') := by
  obtain ⟨xs, hxs, rfl⟩ := h
  obtain ⟨ys, hys, rfl⟩ := h'
  exact ⟨xs ++ ys, rel_append hxs hys, flatten_append.symm⟩

theorem Spells.spelled (h : Spells c x) : Spelled [c] x := ⟨[x], .cons h .nil, (append_nil x).symm⟩

theorem Spelled.scanJson (h : Spelled s x) (t : Text) : scanJson true (x ++ t) = (scanJson true t).into x := by
  obtain ⟨xs, hxs, rfl⟩ := h
  induction hxs with
  | nil => rfl
  | cons hc _ ih => rw [flatten_cons, append_assoc, hc.scanJson, ih, JsonScan.into_into]

theorem Spelled.decodeLiteral (h : Spelled s x) : decodeLiteral x = some s := by
  obtain ⟨xs, hxs, rfl⟩ := h
  induction hxs with
  | nil => rfl
  | cons hc _ ih => rw [flatten_cons, hc.decodeLiteral, ih, Option.map_some]

theorem quoteUnit_spells (c : UInt16) : Spells c (quoteUnit c) := by
  unfold quoteUnit
  by_cases h : c = quote ∨ c = backslash
  · rw [if_pos h]
    rcases h with rfl | rfl
    · exact .short (by decide) (by decide)
    · exact .short (by decide) (by decide)
  rw [if_neg h]
  split_ifs with h₁ h₂ h₃ h₄ h₅ hhex
  · exact .short (by decide) (by rw [h₁]; rfl)
  · exact .short (by decide) (by rw [h₂]; rfl)
  · exact .short (by decide) (by rw [h₃]; rfl)
  · exact .short (by decide) (by rw [h₄]; rfl)
  · exact .short (by decide) (by rw [h₅]; rfl)
  · exact .hex
  · exact .plain (fun hc => h (.inl hc)) (fun hc => h (.inr hc)) fun hc => hhex (.inl hc)

theorem surrogate_spells (h : isHighSurrogate c || isLowSurrogate c) : Spells c [c] := by
  have hle : 0xD800 ≤ c := by
    rcases Bool.or_eq_true _ _ ▸ h with h | h
    · exact of_decide_eq_true (Bool.and_eq_true _ _ ▸ h).1
    · exact UInt16.le_trans (by decide) (of_decide_eq_true (Bool.and_eq_true _ _ ▸ h).1)
  refine .plain ?_ ?_ fun hlt => absurd (UInt16.lt_of_le_of_lt hle hlt) (by decide)
  · rintro rfl
    exact absurd hle (by decide)
  · rintro rfl
    exact absurd hle (by decide)

/-- **Strings are spelled** by `JSON.stringify`. -/
theorem quoteUnits_spelled (s : Text) : Spelled s (quoteUnits s) := by
  induction s using quoteUnits.induct with
  | case1 => exact spelled_nil
  | case2 c => exact (quoteUnit_spells c).spelled
  | case3 c d rest hpair ih =>
    rw [quoteUnits, if_pos hpair]
    obtain ⟨hc, hd⟩ := Bool.and_eq_true _ _ ▸ hpair
    exact (surrogate_spells (by simp [hc])).spelled.append ((surrogate_spells (by simp [hd])).spelled.append ih)
  | case4 c d rest hpair ih =>
    rw [quoteUnits, if_neg hpair]
    exact (quoteUnit_spells c).spelled.append ih

end EasyPi.JsonUnits
