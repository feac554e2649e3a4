/-
# Tracking the hyperlinks of a text

`parseOsc8Hyperlink` and `getActiveOsc8Close` of `packages/tui/src/utils.ts`.
-/
import Mathlib.Data.List.Infix
import EasyPi.Lib.TextLines
import EasyPi.Tui.Style

namespace EasyPi.Tui

open List

inductive Osc8Terminator where
  | bel | st
  deriving DecidableEq

def Osc8Terminator.text : Osc8Terminator → Text
  | .bel => [Tui.bel]
  | .st => [esc, backslash]

structure ActiveHyperlink where
  params : Text
  url : Text
  terminator : Osc8Terminator
  deriving DecidableEq

def ActiveHyperlink.link (hyperlink : ActiveHyperlink) : Link := ⟨hyperlink.params, hyperlink.url⟩

/-- `parseOsc8Hyperlink`; `undefined` is `none`, and `null` is `some none`. -/
def parseOsc8Hyperlink (ansiCode : Text) : Option (Option ActiveHyperlink) :=
  if osc8 <+: ansiCode then
    let terminator := if [bel] <:+ ansiCode then Osc8Terminator.bel else .st
    let body := slice ansiCode 4 (ansiCode.length - terminator.text.length)
    match body.findIdx? (· = semicolon) with
    | none => none
    | some separatorIndex =>
      let params := body.take separatorIndex
      let url := body.drop (separatorIndex + 1)
      some (if url = [] then none else some ⟨params, url, terminator⟩)
  else none

def formatOsc8Close (terminator : Osc8Terminator) : Text := osc8 ++ semicolon :: terminator.text

/-- What a sequence leaves of the active hyperlink. -/
def updateHyperlink (active : Option ActiveHyperlink) : AnsiPiece → Option ActiveHyperlink
  | .code seq => (parseOsc8Hyperlink seq).getD active
  | .unit _ => active

def getActiveOsc8Close (text : Text) : Text :=
  if osc8 <:+: text then
    match (pieces text).foldl updateHyperlink none with
    | some hyperlink => formatOsc8Close hyperlink.terminator
    | none => []
  else []

/-! ### The active hyperlink -/

theorem dropTerminator_eq (text : Text) (n : ℕ) (h : n < text.length) : dropTerminator (text.drop n) =
      slice text n (text.length - (if [bel] <:+ text then Osc8Terminator.bel else .st).text.length) := by
  have hlast : (text.drop n).getLast? = some bel ↔ [bel] <:+ text := by
    rw [List.getLast?_drop, if_neg (by omega), List.getLast?_eq_some_iff]
    constructor
    · rintro ⟨before, hbef⟩
      exact ⟨before, hbef.symm⟩
    · rintro ⟨before, hbef⟩
      exact ⟨before, hbef.symm⟩
  unfold dropTerminator slice
  by_cases hbel : [bel] <:+ text
  · rw [if_pos (hlast.mpr hbel), if_pos hbel, dropLast_eq_take, length_drop, drop_take]
    congr 1
    change _ = text.length - 1 - n
    omega
  · rw [if_neg (mt hlast.mp hbel), if_neg hbel, dropLast_eq_take, dropLast_eq_take, length_take,
      length_drop, take_take, drop_take]
    congr 1
    change _ = text.length - 2 - n
    omega

/-- **The code parses hyperlinks as the terminal does.** -/
theorem linkOf_eq (seq : Text) : linkOf seq = (parseOsc8Hyperlink seq).map (Option.map ActiveHyperlink.link) := by
  unfold linkOf parseOsc8Hyperlink
  dsimp only
  by_cases hosc : osc8 <+: seq
  · have hbody : dropTerminator (seq.drop 4) =
        slice seq 4 (seq.length - (if [bel] <:+ seq then Osc8Terminator.bel else .st).text.length) := by
      by_cases hlen : 4 < seq.length
      · exact dropTerminator_eq seq 4 hlen
      · have hnil : ∀ n, slice seq 4 n = [] := fun n => drop_eq_nil_of_le (by rw [length_take]; omega)
        rw [hnil, drop_eq_nil_of_le (by omega)]
        rfl
    rw [if_pos hosc, ← hbody]
    generalize dropTerminator (seq.drop 4) = body
    by_cases hmem : semicolon ∈ body
    · have hidx : body.findIdx? (· = semicolon) = some (body.findIdx (· = semicolon)) :=
        List.findIdx?_eq_some_of_exists ⟨semicolon, hmem, decide_eq_true rfl⟩
      have hle : body.findIdx (· = semicolon) ≤ body.length := findIdx_le_length
      have hpar : body.takeWhile (· ≠ semicolon) = body.take (body.findIdx (· = semicolon)) := by
        rw [takeWhile_eq_take_findIdx_not]
        simp
      rw [if_pos ⟨hosc, hmem⟩, hidx, hpar, length_take, Nat.min_eq_left hle]
      dsimp only [Option.map_some]
      congr 1
      split <;> rfl
    · have hidx : body.findIdx? (· = semicolon) = none :=
        List.findIdx?_eq_none_iff.mpr fun c hc => decide_eq_false (ne_of_mem_of_not_mem hc hmem)
      rw [if_neg (fun h => hmem h.2), hidx]
      rfl
  · rw [if_neg (fun h => hosc h.1), if_neg hosc]
    rfl

theorem updateHyperlink_code (active : Option ActiveHyperlink) (seq : Text) :
    updateHyperlink active (.code seq) = (parseOsc8Hyperlink seq).getD active := rfl

theorem link_foldl (active : Option ActiveHyperlink) (s : Style) (ps : List AnsiPiece)
    (h : s.link = active.map ActiveHyperlink.link) :
    (styleAfter s ps).link = (ps.foldl updateHyperlink active).map ActiveHyperlink.link := by
  induction ps generalizing s active with
  | nil => exact h
  | cons piece ps ih =>
    cases piece with
    | unit c => exact ih active s h
    | code seq =>
      refine ih _ (s.sequence seq) ?_
      rw [Style.link_sequence, linkOf_eq, updateHyperlink_code]
      cases parseOsc8Hyperlink seq with
      | none => exact h
      | some hyperlink => rfl

theorem infix_of_mem_pieces {text : Text} {piece : AnsiPiece} (h : piece ∈ pieces text) : piece.text <:+: text := by
  obtain ⟨before, behind, hpie⟩ := append_of_mem h
  refine ⟨textOfPieces before, textOfPieces behind, ?_⟩
  conv_rhs => rw [← textOfPieces_pieces text, hpie]
  simp [textOfPieces]

theorem foldl_updateHyperlink_none {text : Text} (h : ¬ osc8 <:+: text) :
    (pieces text).foldl updateHyperlink none = none := by
  have hall : ∀ piece ∈ pieces text, updateHyperlink none piece = none := by
    intro piece hpc
    cases piece with
    | unit c => rfl
    | code seq =>
      have hseq : ¬ osc8 <+: seq := fun hpre => h (hpre.isInfix.trans (infix_of_mem_pieces hpc))
      have hprs : parseOsc8Hyperlink seq = none := if_neg hseq
      rw [updateHyperlink_code, hprs]
      rfl
  generalize pieces text = ps at hall
  induction ps with
  | nil => rfl
  | cons piece ps ih =>
    obtain ⟨hpc, hps⟩ := forall_mem_cons.mp hall
    rw [foldl_cons, hpc]
    exact ih hps

theorem getActiveOsc8Close_eq (text : Text) : getActiveOsc8Close text =
    (((pieces text).foldl updateHyperlink none).map fun hyperlink => formatOsc8Close hyperlink.terminator).getD [] := by
  unfold getActiveOsc8Close
  split
  · cases (pieces text).foldl updateHyperlink none <;> rfl
  · rename_i h
    rw [foldl_updateHyperlink_none h]
    rfl

end EasyPi.Tui
