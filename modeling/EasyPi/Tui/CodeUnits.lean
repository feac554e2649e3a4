/-
# Code units of terminal texts

The texts of the terminal are UTF-16 strings: lists of code units. Here are the units that escape sequences are made
of, and `slice`.
-/
import EasyPi.Lib.CodeUnits

namespace EasyPi.Tui

export CodeUnits (Text tab lf cr space semicolon less backslash isWhiteSpace)

def bel : UInt16 := 0x07
def esc : UInt16 := 0x1B
def colon : UInt16 := 0x3A
def upperM : UInt16 := 0x4D
def upperO : UInt16 := 0x4F
def upperP : UInt16 := 0x50
def openBracket : UInt16 := 0x5B
def closeBracket : UInt16 := 0x5D
def underscore : UInt16 := 0x5F
def lowerM : UInt16 := 0x6D
def lowerU : UInt16 := 0x75

def isDigit (c : UInt16) : Bool := 0x30 ≤ c && c ≤ 0x39

def parseInt (digits : Text) : ℕ := digits.foldl (fun n c => 10 * n + (c.toNat - 0x30)) 0

/-- `text.slice(start, end)`, of `start ≤ end`. -/
def slice (text : Text) (start stop : ℕ) : Text := (text.take stop).drop start

end EasyPi.Tui
