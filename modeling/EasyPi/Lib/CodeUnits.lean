/-
# Code units

A UTF-16 string as the list of its code units, the units that more than one module names, and the
white space that `trim` takes away.
-/
import Mathlib.Data.List.Basic

namespace EasyPi.CodeUnits

abbrev Text := List UInt16

/-- A condition on the units of a text is decided on the text, not on all units. -/
instance (priority := 2000) decidableUnits (p : UInt16 → Prop) [DecidablePred p] (t : Text) : Decidable (∀ c ∈ t, p c) :=
  List.decidableBAll p t

def tab : UInt16 := 0x09
def lf : UInt16 := 0x0A
def cr : UInt16 := 0x0D
def space : UInt16 := 0x20
def semicolon : UInt16 := 0x3B
def less : UInt16 := 0x3C
def backslash : UInt16 := 0x5C

/-- The white space and line terminators that `trim` and `trimEnd` strip. -/
def isWhiteSpace (c : UInt16) : Bool :=
  (0x9 ≤ c && c ≤ 0xD) || c = 0x20 || c = 0xA0 || c = 0x1680 || (0x2000 ≤ c && c ≤ 0x200A) ||
    c = 0x2028 || c = 0x2029 || c = 0x202F || c = 0x205F || c = 0x3000 || c = 0xFEFF

/-- The same for a character. -/
def isSpace (c : Char) : Bool := c.toNat < 0x10000 && isWhiteSpace c.toNat.toUInt16

end EasyPi.CodeUnits
