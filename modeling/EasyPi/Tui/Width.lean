/-
# The width of text in a terminal

`graphemeWidth` and `visibleWidth` of `packages/tui/src/utils.ts`. What the runtime and its tables know about Unicode is
a parameter: how a text falls into graphemes and words, the properties of code points that the regular expressions
name, and the width of a code point by itself. The cache of widths is left out.
-/
import Mathlib.Algebra.GroupWithZero.Nat
import EasyPi.CodingAgent.EditMatching
import EasyPi.Tui.Ansi

namespace EasyPi.Tui

open List

open CodingAgent.EditDiff (trim trimEnd codePoints)

/-- The number of a code point, written as one unit or as a pair of surrogates. -/
def codePointAt : Text → ℕ
  | [high, low] => 0x10000 + (high.toNat - 0xD800) * 0x400 + (low.toNat - 0xDC00)
  | [c] => c.toNat
  | _ => 0

/-- `[...text]`, as the numbers of the code points. -/
def codePointsOf (text : Text) : List ℕ := (codePoints text).map codePointAt

/-- `\p{Control}`. -/
def isControl (cp : ℕ) : Bool := cp ≤ 0x1F || (0x7F ≤ cp && cp ≤ 0x9F)

/-- `\p{Surrogate}`. -/
def isSurrogate (cp : ℕ) : Bool := 0xD800 ≤ cp && cp ≤ 0xDFFF

def isPrintable (c : UInt16) : Bool := 0x20 ≤ c && c ≤ 0x7E

def isPrintableAscii (text : Text) : Bool := text.all isPrintable

def isWhitespaceChar (char : Text) : Bool := char.any isWhiteSpace

def couldBeEmoji (segment : Text) : Bool :=
  let cp := (codePointsOf segment).headD 0
  (0x1F000 ≤ cp && cp ≤ 0x1FBFF) || (0x2300 ≤ cp && cp ≤ 0x23FF) || (0x2600 ≤ cp && cp ≤ 0x27BF) ||
    (0x2B50 ≤ cp && cp ≤ 0x2B55) || segment.contains 0xFE0F || 2 < segment.length

/-! ### Unicode -/

/-- What the code takes from `Intl.Segmenter`, from the properties in its regular expressions and from
`get-east-asian-width`. -/
structure Unicode where
  /-- The segments of granularity `grapheme`. -/
  graphemes : Text → List Text
  /-- The segments of granularity `word`, and whether they are like words. -/
  words : Text → List (Text × Bool)
  isDefaultIgnorable : ℕ → Bool
  isFormat : ℕ → Bool
  isMark : ℕ → Bool
  isSpacingMark : ℕ → Bool
  /-- The scripts of `cjkBreakRegex`. -/
  isCjk : ℕ → Bool
  isRgiEmoji : Text → Bool
  eastAsianWidth : ℕ → ℕ

namespace Unicode

variable (u : Unicode)

/-- A code point of `terminalSpacingMarkRegex`. -/
def isTerminalSpacingMark (cp : ℕ) : Bool :=
  (u.isSpacingMark cp && !(cp = 0x1734 || cp = 0x302E || cp = 0x302F)) ||
    cp = 0x065F || cp = 0x0F7F || cp = 0x102B || cp = 0x102C || cp = 0x1031 || (0x1033 ≤ cp && cp ≤ 0x1035) ||
    cp = 0x1038 || (0x103A ≤ cp && cp ≤ 0x103E)

/-- A code point of `zeroWidthRegex`. -/
def isZeroWidth (cp : ℕ) : Bool := u.isDefaultIgnorable cp || isControl cp || u.isMark cp || isSurrogate cp

/-- A code point of `leadingNonPrintingRegex` and `nonPrintingCharRegex`. -/
def isNonPrinting (cp : ℕ) : Bool := u.isZeroWidth cp || u.isFormat cp

/-- `cjkBreakRegex.test`. -/
def cjkBreak (text : Text) : Bool := (codePointsOf text).any u.isCjk

/-- The width that the code points behind the base of a grapheme add. -/
def trailingWidth : Bool → List ℕ → ℕ
  | _, [] => 0
  | followsMark, cp :: rest =>
    if u.isTerminalSpacingMark cp then 1 + trailingWidth false rest
    else if u.isMark cp then trailingWidth true rest
    else if u.isNonPrinting cp then trailingWidth followsMark rest
    else if followsMark || (0xFF00 ≤ cp && cp ≤ 0xFFEF) then u.eastAsianWidth cp + trailingWidth false rest
    else if cp = 0x0E33 || cp = 0x0EB3 then 1 + trailingWidth false rest
    else trailingWidth false rest

def graphemeWidth (segment : Text) : ℕ :=
  let cps := codePointsOf segment
  if segment.length = 1 ∧ isPrintableAscii segment then 1
  else if segment = [tab] then 3
  else if cps ≠ [] ∧ cps.all u.isTerminalSpacingMark then cps.length
  else if cps ≠ [] ∧ cps.all u.isZeroWidth then 0
  else if couldBeEmoji segment ∧ u.isRgiEmoji segment then 2
  else
    match cps.dropWhile u.isNonPrinting with
    | [] => 0
    | cp :: rest =>
      if 0x1F1E6 ≤ cp ∧ cp ≤ 0x1F1FF then 2 else u.eastAsianWidth cp + u.trailingWidth false rest

def visibleWidth (str : Text) : ℕ :=
  if str = [] then 0
  else if isPrintableAscii str then str.length
  else
    let clean := stripTerminalSequences (str.flatMap fun c => if c = tab then [space, space, space] else [c])
    if isPrintableAscii clean then clean.length else ((u.graphemes clean).map u.graphemeWidth).sum

/-! ### Segmentation -/

/-- What `Intl.Segmenter` promises: the graphemes of a text are its parts, none is empty, and a text that is made of
consecutive graphemes of another falls into these. -/
structure LawfulGraphemes : Prop where
  flatten : ∀ text, (u.graphemes text).flatten = text
  ne_nil : ∀ text, ∀ g ∈ u.graphemes text, g ≠ []
  of_infix : ∀ text part, part <:+: u.graphemes text → u.graphemes part.flatten = part

variable {u}

theorem LawfulGraphemes.self (h : u.LawfulGraphemes) {text g : Text} (hg : g ∈ u.graphemes text) :
    u.graphemes g = [g] := by
  obtain ⟨before, behind, hpts⟩ := append_of_mem hg
  have hin : [g] <:+: u.graphemes text := ⟨before, behind, by rw [hpts, append_assoc]; rfl⟩
  simpa using h.of_infix text [g] hin

@[simp] theorem visibleWidth_nil : u.visibleWidth [] = 0 := rfl

end Unicode

def isHebrew (c : UInt16) : Bool := 0x5D0 ≤ c && c ≤ 0x5EA

def isBasicLetter (c : UInt16) : Bool :=
  isDigit c || (0x41 ≤ c && c ≤ 0x5A) || c = underscore || (0x61 ≤ c && c ≤ 0x7A) || (0xC0 ≤ c && c ≤ 0x24F) ||
    isHebrew c

/-- The words of a basic text: runs of letters and other units. An apostrophe belongs to the Hebrew letter before it. -/
def basicWords : Text → List (Text × Bool)
  | [] => []
  | c :: rest =>
    match basicWords rest with
    | (word, isWordLike) :: more =>
      if isBasicLetter c ∧ (isWordLike ∨ isHebrew c ∧ word = [0x27]) then (c :: word, true) :: more
      else ([c], isBasicLetter c) :: (word, isWordLike) :: more
    | [] => [([c], isBasicLetter c)]

/-- Unicode for basic texts, in which every unit is a grapheme: Latin and Hebrew letters, ideographs and kana. -/
def basicUnicode : Unicode where
  graphemes text := text.map ([·])
  words := basicWords
  isDefaultIgnorable cp := cp = 0xAD || (0x200B ≤ cp && cp ≤ 0x200F) || (0x2060 ≤ cp && cp ≤ 0x206F) || cp = 0xFEFF
  isFormat cp := cp = 0xAD || (0x200B ≤ cp && cp ≤ 0x200F) || (0x2060 ≤ cp && cp ≤ 0x2064) || cp = 0xFEFF
  isMark cp := 0x300 ≤ cp && cp ≤ 0x36F
  isSpacingMark _ := false
  isCjk cp := (0x3041 ≤ cp && cp ≤ 0x30FF) || (0x3400 ≤ cp && cp ≤ 0x9FFF) || (0xAC00 ≤ cp && cp ≤ 0xD7A3)
  isRgiEmoji _ := false
  eastAsianWidth cp :=
    if (0x1100 ≤ cp && cp ≤ 0x115F) || (0x2E80 ≤ cp && cp ≤ 0x303E) || (0x3041 ≤ cp && cp ≤ 0xA4CF) ||
      (0xAC00 ≤ cp && cp ≤ 0xD7A3) || (0xF900 ≤ cp && cp ≤ 0xFAFF) || (0xFF01 ≤ cp && cp ≤ 0xFF60) then 2 else 1

theorem basicUnicode_lawful : basicUnicode.LawfulGraphemes where
  flatten text := by
    change (text.map ([·])).flatten = text
    exact flatMap_singleton' text
  ne_nil text g hg := by
    obtain ⟨c, -, rfl⟩ := mem_map.mp hg
    exact cons_ne_nil _ _
  of_infix text part hpart := by
    obtain ⟨before, behind, hpts⟩ := hpart
    have hun : ∀ g ∈ part, ∃ c, g = [c] := by
      intro g hg
      have hmem : g ∈ basicUnicode.graphemes text := by
        rw [← hpts]
        exact mem_append_left _ (mem_append_right _ hg)
      obtain ⟨c, -, rfl⟩ := mem_map.mp hmem
      exact ⟨c, rfl⟩
    clear hpts
    induction part with
    | nil => rfl
    | cons g part ih =>
      obtain ⟨⟨c, rfl⟩, hpart⟩ := forall_mem_cons.mp hun
      exact congrArg ([c] :: ·) (ih hpart)

end EasyPi.Tui
