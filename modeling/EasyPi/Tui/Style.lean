/-
# The styles of a terminal

A terminal that knows the SGR attributes 1-5, 7-9, 22-25, 27-29 and 0, the colours, and OSC 8 hyperlinks, and ignores
every other sequence. Printing a text gives each unit that is shown the style at its place.
-/
import EasyPi.Tui.Ansi

namespace EasyPi.Tui

inductive Color where
  | basic (n : ℕ)
  | bright (n : ℕ)
  | indexed (n : ℕ)
  | rgb (r g b : ℕ)
  deriving DecidableEq

structure Attributes where
  bold : Bool := false
  dim : Bool := false
  italic : Bool := false
  underline : Bool := false
  blink : Bool := false
  inverse : Bool := false
  hidden : Bool := false
  strikethrough : Bool := false
  fg : Option Color := none
  bg : Option Color := none
  deriving DecidableEq

structure Link where
  params : Text
  url : Text
  deriving DecidableEq

structure Style where
  attributes : Attributes := {}
  link : Option Link := none
  deriving DecidableEq

def Attributes.selectOne (a : Attributes) : ℕ → Attributes
  | 0 => {}
  | 1 => { a with bold := true }
  | 2 => { a with dim := true }
  | 3 => { a with italic := true }
  | 4 => { a with underline := true }
  | 5 => { a with blink := true }
  | 7 => { a with inverse := true }
  | 8 => { a with hidden := true }
  | 9 => { a with strikethrough := true }
  | 22 => { a with bold := false, dim := false }
  | 23 => { a with italic := false }
  | 24 => { a with underline := false }
  | 25 => { a with blink := false }
  | 27 => { a with inverse := false }
  | 28 => { a with hidden := false }
  | 29 => { a with strikethrough := false }
  | 39 => { a with fg := none }
  | 49 => { a with bg := none }
  | n =>
    if 30 ≤ n ∧ n ≤ 37 then { a with fg := some (.basic (n - 30)) }
    else if 90 ≤ n ∧ n ≤ 97 then { a with fg := some (.bright (n - 90)) }
    else if 40 ≤ n ∧ n ≤ 47 then { a with bg := some (.basic (n - 40)) }
    else if 100 ≤ n ∧ n ≤ 107 then { a with bg := some (.bright (n - 100)) }
    else a

/-- The parameters of an SGR sequence in order. -/
def Attributes.select : Attributes → List ℕ → Attributes
  | a, [] => a
  | a, 38 :: 5 :: n :: rest => select { a with fg := some (.indexed n) } rest
  | a, 38 :: 2 :: r :: g :: b :: rest => select { a with fg := some (.rgb r g b) } rest
  | a, 48 :: 5 :: n :: rest => select { a with bg := some (.indexed n) } rest
  | a, 48 :: 2 :: r :: g :: b :: rest => select { a with bg := some (.rgb r g b) } rest
  | a, n :: rest => select (a.selectOne n) rest

/-- The numbers between semicolons; nothing is zero. -/
def numbers (params : Text) : List ℕ := (params.splitOn semicolon).map parseInt

/-- The parameters of `ESC [ … m`. -/
def sgrParams (sequence : Text) : Option (List ℕ) :=
  let params := (sequence.drop 2).dropLast
  if [esc, openBracket] <+: sequence ∧ sequence.getLast? = some lowerM ∧
      params.all fun c => isDigit c || c = semicolon then
    some (numbers params)
  else none

def osc8 : Text := [esc, closeBracket, 0x38, semicolon]

/-- A sequence without the `BEL` or `ESC \` at its end. -/
def dropTerminator (sequence : Text) : Text :=
  if sequence.getLast? = some bel then sequence.dropLast else sequence.dropLast.dropLast

/-- The link of `ESC ] 8 ; … ; …`, which is none when the URL is empty. -/
def linkOf (sequence : Text) : Option (Option Link) :=
  let body := dropTerminator (sequence.drop 4)
  if osc8 <+: sequence ∧ semicolon ∈ body then
    let params := body.takeWhile (· ≠ semicolon)
    let url := body.drop (params.length + 1)
    some (if url = [] then none else some ⟨params, url⟩)
  else none

/-! ### Printing -/

namespace Style

/-- A sequence sets the link or selects attributes, or does neither. -/
def sequence (s : Style) (sequence : Text) : Style :=
  match linkOf sequence with
  | some link => { s with link := link }
  | none =>
    match sgrParams sequence with
    | some params => { s with attributes := s.attributes.select params }
    | none => s

def piece (s : Style) : AnsiPiece → Style
  | .code seq => s.sequence seq
  | .unit _ => s

end Style

def styleAfter (s : Style) (ps : List AnsiPiece) : Style := ps.foldl Style.piece s

/-- The units that are shown, each with its style. -/
def printed : Style → List AnsiPiece → List (UInt16 × Style)
  | _, [] => []
  | s, .code seq :: ps => printed (s.sequence seq) ps
  | s, .unit c :: ps => (c, s) :: printed s ps

/-- A text is printed from the default style on. -/
def print (text : Text) : List (UInt16 × Style) := printed {} (pieces text)

def styleOf (text : Text) : Style := styleAfter {} (pieces text)

variable {s : Style} {ps qs : List AnsiPiece} {seq : Text} {c : UInt16}

@[simp] theorem styleAfter_code : styleAfter s (.code seq :: ps) = styleAfter (s.sequence seq) ps := rfl

theorem Style.link_sequence : (s.sequence seq).link = (linkOf seq).getD s.link := by
  unfold Style.sequence
  cases linkOf seq with
  | some link => rfl
  | none => cases sgrParams seq <;> rfl

theorem styleAfter_append : styleAfter s (ps ++ qs) = styleAfter (styleAfter s ps) qs := List.foldl_append

theorem printed_append : printed s (ps ++ qs) = printed s ps ++ printed (styleAfter s ps) qs := by
  induction ps generalizing s with
  | nil => rfl
  | cons piece ps ih =>
    cases piece with
    | code seq => exact ih
    | unit c => exact congrArg ((c, s) :: ·) ih

theorem printed_shown : (printed s ps).map Prod.fst = ps.flatMap AnsiPiece.shown := by
  induction ps generalizing s with
  | nil => rfl
  | cons piece ps ih =>
    cases piece with
    | code seq => exact ih
    | unit c => exact congrArg (c :: ·) ih

theorem length_printed : (printed s ps).length = (ps.flatMap AnsiPiece.shown).length := by
  rw [← printed_shown, List.length_map]

theorem styleAfter_units (text : Text) : styleAfter s (text.map .unit) = s := by
  induction text with
  | nil => rfl
  | cons c text ih => exact ih

section
variable {a : Text} (h : Recognised a) (b : Text)

include h in
theorem styleOf_append : styleOf (a ++ b) = styleAfter (styleOf a) (pieces b) := by
  rw [styleOf, pieces_append h, styleAfter_append, styleOf]

include h in
theorem print_append : print (a ++ b) = print a ++ printed (styleOf a) (pieces b) := by
  rw [print, pieces_append h, printed_append, print, styleOf]

end

end EasyPi.Tui
