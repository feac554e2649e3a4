/-
# Escape sequences in rendered text

`ansiCodeLength`, `extractAnsiCode` and `stripTerminalSequences` of `packages/tui/src/utils.ts`. The loops of the source
over a text that skip the escape sequences in it are recursions over its pieces: an escape sequence, or a unit
that begins none.
-/
import Mathlib.Tactic.Common
import EasyPi.Tui.CodeUnits

namespace EasyPi.Tui

open List

/-! ### The length of a sequence -/

/-- What ends a CSI sequence: `m`, `G`, `K`, `H` or `J`. -/
def isCsiEnd (c : UInt16) : Bool := c = 0x6D || c = 0x47 || c = 0x4B || c = 0x48 || c = 0x4A

/-- The length of a text up to what ends a CSI sequence. -/
def csiLength (text : Text) : Option ℕ := (text.findIdx? isCsiEnd).map (· + 1)

/-- The length of a text up to `BEL` or `ESC \`. -/
def stringLength : Text → Option ℕ
  | [] => none
  | c :: rest =>
    if c = bel then some 1
    else if c = esc ∧ rest.head? = some backslash then some 2
    else (stringLength rest).map (· + 1)

/-- `ansiCodeLength`, of the text from a position on. -/
def ansiCodeLength : Text → ℕ
  | c :: next :: rest =>
    if c ≠ esc then 0
    else if next = openBracket then ((csiLength rest).map (· + 2)).getD 0
    else if next = closeBracket ∨ next = underscore then ((stringLength rest).map (· + 2)).getD 0
    else 0
  | _ => 0

section
variable {text rest : Text} {n : ℕ} {c : UInt16}

section
variable (h : csiLength text = some n)
include h

theorem csiLength_le : n ≤ text.length := by
  unfold csiLength at h
  obtain ⟨i, hi, rfl⟩ := Option.map_eq_some_iff.mp h
  have hlt := (List.findIdx?_eq_some_iff_getElem.mp hi).1
  omega

theorem csiLength_append (rest : Text) : csiLength (text ++ rest) = some n := by
  unfold csiLength at h ⊢
  obtain ⟨i, hi, rfl⟩ := Option.map_eq_some_iff.mp h
  rw [List.findIdx?_append, hi]
  rfl

theorem csiLength_take : csiLength (text.take n) = some n := by
  unfold csiLength at h ⊢
  obtain ⟨i, hi, rfl⟩ := Option.map_eq_some_iff.mp h
  obtain ⟨hlt, hend, hbef⟩ := List.findIdx?_eq_some_iff_getElem.mp hi
  rw [Option.map_eq_some_iff]
  refine ⟨i, List.findIdx?_eq_some_iff_getElem.mpr ⟨?_, ?_, fun j hj => ?_⟩, rfl⟩
  · rw [length_take]
    omega
  · rwa [getElem_take]
  · rw [getElem_take]
    exact hbef j hj

end

section
variable (h : stringLength text = some n)
include h

theorem stringLength_le : n ≤ text.length := by
  induction text generalizing n with
  | nil => cases h
  | cons c rest ih =>
    unfold stringLength at h
    rw [length_cons]
    split at h
    · cases h
      omega
    · split at h
      · rename_i hst
        cases h
        have hpos : 0 < rest.length := by
          cases rest with
          | nil => exact absurd hst.2 (by simp)
          | cons d rest => exact Nat.succ_pos _
        omega
      · obtain ⟨m, hm, rfl⟩ := Option.map_eq_some_iff.mp h
        have hle := ih hm
        omega

theorem stringLength_append (rest : Text) : stringLength (text ++ rest) = some n := by
  induction text generalizing n with
  | nil => cases h
  | cons c tail ih =>
    unfold stringLength at h
    rw [cons_append, stringLength]
    by_cases hbel : c = bel
    · rwa [if_pos hbel] at h ⊢
    rw [if_neg hbel] at h ⊢
    by_cases hst : c = esc ∧ tail.head? = some backslash
    · have happ : c = esc ∧ (tail ++ rest).head? = some backslash := ⟨hst.1, by rw [List.head?_append, hst.2]; rfl⟩
      rw [if_pos hst] at h
      rw [if_pos happ]
      exact h
    · rw [if_neg hst] at h
      obtain ⟨m, hm, rfl⟩ := Option.map_eq_some_iff.mp h
      have hne : tail ≠ [] := by
        rintro rfl
        cases hm
      have happ : ¬ (c = esc ∧ (tail ++ rest).head? = some backslash) := by
        rwa [List.head?_append_of_ne_nil _ hne]
      rw [if_neg happ, ih hm]
      rfl

theorem stringLength_take : stringLength (text.take n) = some n := by
  induction text generalizing n with
  | nil => cases h
  | cons c rest ih =>
    unfold stringLength at h
    by_cases hbel : c = bel
    · rw [if_pos hbel] at h
      cases h
      rw [take_succ_cons, stringLength, if_pos hbel]
    rw [if_neg hbel] at h
    by_cases hst : c = esc ∧ rest.head? = some backslash
    · rw [if_pos hst] at h
      cases h
      obtain ⟨tail, rfl⟩ : ∃ tail, rest = backslash :: tail := by
        cases rest with
        | nil => exact absurd hst.2 (by simp)
        | cons d tail => exact ⟨tail, by rw [Option.some.inj hst.2]⟩
      simp [stringLength, hst.1, show esc ≠ bel by decide]
    · rw [if_neg hst] at h
      obtain ⟨m, hm, rfl⟩ := Option.map_eq_some_iff.mp h
      have htake : ¬ (c = esc ∧ (rest.take m).head? = some backslash) := by
        rw [List.head?_take]
        intro hand
        split at hand
        · cases hand.2
        · exact hst hand
      rw [take_succ_cons, stringLength, if_neg hbel, if_neg htake, ih hm]
      rfl

end

theorem ansiCodeLength_csi (h : csiLength rest = some n) : ansiCodeLength (esc :: openBracket :: rest) = n + 2 := by
  rw [ansiCodeLength, if_neg (not_not_intro rfl), if_pos rfl, h]
  rfl

theorem ansiCodeLength_string {next : UInt16} (hnext : next = closeBracket ∨ next = underscore)
    (h : stringLength rest = some n) : ansiCodeLength (esc :: next :: rest) = n + 2 := by
  have hcsi : next ≠ openBracket := by
    rcases hnext with rfl | rfl
    · decide
    · decide
  rw [ansiCodeLength, if_neg (not_not_intro rfl), if_neg hcsi, if_pos hnext, h]
  rfl

/-- **The sequences** are CSI sequences and strings up to their ends. -/
theorem ansiCodeLength_cases (h : ansiCodeLength text ≠ 0) :
    (∃ rest n, text = esc :: openBracket :: rest ∧ csiLength rest = some n) ∨
      ∃ next rest n, (next = closeBracket ∨ next = underscore) ∧ text = esc :: next :: rest ∧
        stringLength rest = some n := by
  match text with
  | [] => exact absurd rfl h
  | [c] => exact absurd rfl h
  | c :: next :: rest =>
    rw [ansiCodeLength] at h
    by_cases hc : c ≠ esc
    · rw [if_pos hc] at h
      exact absurd rfl h
    rw [if_neg hc] at h
    obtain rfl : c = esc := not_not.mp hc
    by_cases hcsi : next = openBracket
    · rw [if_pos hcsi] at h
      subst hcsi
      cases hrest : csiLength rest with
      | none =>
        rw [hrest] at h
        exact absurd rfl h
      | some n => exact Or.inl ⟨rest, n, rfl, hrest⟩
    rw [if_neg hcsi] at h
    by_cases hstr : next = closeBracket ∨ next = underscore
    · rw [if_pos hstr] at h
      cases hrest : stringLength rest with
      | none =>
        rw [hrest] at h
        exact absurd rfl h
      | some n => exact Or.inr ⟨next, rest, n, hstr, rfl, hrest⟩
    · rw [if_neg hstr] at h
      exact absurd rfl h

theorem ansiCodeLength_le (text : Text) : ansiCodeLength text ≤ text.length := by
  by_cases h : ansiCodeLength text = 0
  · omega
  rcases ansiCodeLength_cases h with ⟨rest, n, rfl, hn⟩ | ⟨next, rest, n, hnext, rfl, hn⟩
  · rw [ansiCodeLength_csi hn]
    exact Nat.add_le_add_right (csiLength_le hn) 2
  · rw [ansiCodeLength_string hnext hn]
    exact Nat.add_le_add_right (stringLength_le hn) 2

theorem ansiCodeLength_append (h : ansiCodeLength text ≠ 0) (rest : Text) :
    ansiCodeLength (text ++ rest) = ansiCodeLength text := by
  rcases ansiCodeLength_cases h with ⟨tail, n, rfl, hn⟩ | ⟨next, tail, n, hnext, rfl, hn⟩
  · rw [cons_append, cons_append, ansiCodeLength_csi hn, ansiCodeLength_csi (csiLength_append hn rest)]
  · rw [cons_append, cons_append, ansiCodeLength_string hnext hn,
      ansiCodeLength_string hnext (stringLength_append hn rest)]

theorem ansiCodeLength_take (h : ansiCodeLength text ≠ 0) :
    ansiCodeLength (text.take (ansiCodeLength text)) = ansiCodeLength text := by
  rcases ansiCodeLength_cases h with ⟨tail, n, rfl, hn⟩ | ⟨next, tail, n, hnext, rfl, hn⟩
  · rw [ansiCodeLength_csi hn]
    exact ansiCodeLength_csi (csiLength_take hn)
  · rw [ansiCodeLength_string hnext hn]
    exact ansiCodeLength_string hnext (stringLength_take hn)

theorem ansiCodeLength_plain (h : c ≠ esc) (rest : Text) : ansiCodeLength (c :: rest) = 0 := by
  cases rest with
  | nil => rfl
  | cons next rest => rw [ansiCodeLength, if_pos h]

end

/-! ### Pieces -/

/-- A piece of a text: an escape sequence, or a unit that begins none. -/
inductive AnsiPiece where
  | code (sequence : Text)
  | unit (c : UInt16)
  deriving DecidableEq

namespace AnsiPiece

def text : AnsiPiece → Text
  | code sequence => sequence
  | unit c => [c]

def shown : AnsiPiece → Text
  | code _ => []
  | unit c => [c]

/-- A piece with every `ESC` in a sequence that `ansiCodeLength` knows. -/
def Recognised : AnsiPiece → Prop
  | code sequence => sequence ≠ [] ∧ ansiCodeLength sequence = sequence.length
  | unit c => c ≠ esc

instance : DecidablePred Recognised := fun piece => by
  unfold Recognised
  split <;> infer_instance

end AnsiPiece

theorem AnsiPiece.recognised_code_iff {seq : Text} : (code seq).Recognised ↔
    (∃ rest, seq = esc :: openBracket :: rest ∧ csiLength rest = some rest.length) ∨
      ∃ next rest, (next = closeBracket ∨ next = underscore) ∧ seq = esc :: next :: rest ∧
        stringLength rest = some rest.length := by
  constructor
  · rintro ⟨hne, hlen⟩
    have hpos : ansiCodeLength seq ≠ 0 := by
      rw [hlen]
      exact mt length_eq_zero_iff.mp hne
    rcases ansiCodeLength_cases hpos with ⟨rest, n, rfl, hn⟩ | ⟨next, rest, n, hnext, rfl, hn⟩
    · rw [ansiCodeLength_csi hn] at hlen
      exact Or.inl ⟨rest, rfl, hn.trans (congrArg some (Nat.add_right_cancel hlen))⟩
    · rw [ansiCodeLength_string hnext hn] at hlen
      exact Or.inr ⟨next, rest, hnext, rfl, hn.trans (congrArg some (Nat.add_right_cancel hlen))⟩
  · rintro (⟨rest, rfl, hrest⟩ | ⟨next, rest, hnext, rfl, hrest⟩)
    · exact ⟨cons_ne_nil _ _, ansiCodeLength_csi hrest⟩
    · exact ⟨cons_ne_nil _ _, ansiCodeLength_string hnext hrest⟩

/-- The pieces of a text of at most `n` units. -/
def piecesWithin : ℕ → Text → List AnsiPiece
  | 0, _ => []
  | _, [] => []
  | n + 1, c :: rest =>
    if ansiCodeLength (c :: rest) = 0 then .unit c :: piecesWithin n rest
    else .code ((c :: rest).take (ansiCodeLength (c :: rest))) ::
      piecesWithin n ((c :: rest).drop (ansiCodeLength (c :: rest)))

/-- The pieces of a text, as a scan with `extractAnsiCode` finds them. -/
def pieces (text : Text) : List AnsiPiece := piecesWithin text.length text

def textOfPieces (ps : List AnsiPiece) : Text := ps.flatMap AnsiPiece.text

def stripTerminalSequences (text : Text) : Text := (pieces text).flatMap AnsiPiece.shown

/-- Each `ESC` of a text begins or ends a sequence that `ansiCodeLength` knows. -/
def Recognised (text : Text) : Prop := ∀ piece ∈ pieces text, piece.Recognised

instance : DecidablePred Recognised := fun text =>
  inferInstanceAs (Decidable (∀ piece ∈ pieces text, piece.Recognised))

variable {text rest : Text} {c : UInt16}

theorem piecesWithin_eq {m k : ℕ} (hm : text.length ≤ m) (hk : text.length ≤ k) :
    piecesWithin m text = piecesWithin k text := by
  induction m generalizing k text with
  | zero =>
    have hnil : text = [] := length_eq_zero_iff.mp (by omega)
    subst hnil
    cases k <;> rfl
  | succ m ih =>
    cases text with
    | nil => cases k <;> rfl
    | cons c rest =>
      cases k with
      | zero => exact absurd hk (by simp)
      | succ k =>
        rw [length_cons] at hm hk
        have hdrop : ((c :: rest).drop (ansiCodeLength (c :: rest))).length =
            rest.length + 1 - ansiCodeLength (c :: rest) := by rw [length_drop, length_cons]
        unfold piecesWithin
        by_cases hcode : ansiCodeLength (c :: rest) = 0
        · rw [if_pos hcode, if_pos hcode, ih (by omega) (by omega : rest.length ≤ k)]
        · rw [if_neg hcode, if_neg hcode, ih (by omega) (by omega : _ ≤ k)]

theorem pieces_unit (h : ansiCodeLength (c :: rest) = 0) : pieces (c :: rest) = .unit c :: pieces rest := by
  change piecesWithin (rest.length + 1) (c :: rest) = _
  unfold piecesWithin
  rw [if_pos h]
  rfl

theorem pieces_code (h : ansiCodeLength text ≠ 0) :
    pieces text = .code (text.take (ansiCodeLength text)) :: pieces (text.drop (ansiCodeLength text)) := by
  cases text with
  | nil => exact absurd rfl h
  | cons c rest =>
    change piecesWithin (rest.length + 1) (c :: rest) = _
    unfold piecesWithin
    rw [if_neg h]
    congr 1
    apply piecesWithin_eq _ (Nat.le_refl _)
    rw [length_drop, length_cons]
    omega

/-- **The scan by cases.** The pieces of the empty text, of a unit and of a sequence. -/
theorem pieces_induction {motive : Text → Prop} (nil : motive [])
    (unit : ∀ c rest, ansiCodeLength (c :: rest) = 0 → motive rest → motive (c :: rest))
    (code : ∀ text, ansiCodeLength text ≠ 0 → motive (text.drop (ansiCodeLength text)) → motive text) (text : Text) :
    motive text := by
  induction hn : text.length using Nat.strongRecOn generalizing text with
  | _ n ih =>
    subst hn
    cases text with
    | nil => exact nil
    | cons c rest =>
      by_cases hcode : ansiCodeLength (c :: rest) = 0
      · exact unit c rest hcode (ih _ (by simp) rest rfl)
      · refine code _ hcode (ih _ ?_ _ rfl)
        rw [length_drop, length_cons]
        omega

theorem textOfPieces_pieces (text : Text) : textOfPieces (pieces text) = text := by
  induction text using pieces_induction with
  | nil => rfl
  | unit c rest h ih =>
    rw [pieces_unit h]
    exact congrArg (c :: ·) ih
  | code text h ih =>
    rw [pieces_code h]
    exact (congrArg (text.take _ ++ ·) ih).trans (take_append_drop _ _)

theorem pieces_append (h : Recognised text) (rest : Text) : pieces (text ++ rest) = pieces text ++ pieces rest := by
  induction text using pieces_induction with
  | nil => rfl
  | unit c tail hunit ih =>
    unfold Recognised at h
    rw [pieces_unit hunit, forall_mem_cons] at h
    have hpl : ansiCodeLength (c :: (tail ++ rest)) = 0 := ansiCodeLength_plain h.1 _
    rw [cons_append, pieces_unit hpl, pieces_unit hunit, cons_append, ih h.2]
  | code text hcode ih =>
    unfold Recognised at h
    rw [pieces_code hcode, forall_mem_cons] at h
    have hlen := ansiCodeLength_append hcode rest
    have hle := ansiCodeLength_le text
    rw [pieces_code (by rwa [hlen]), pieces_code hcode, hlen, take_append_of_le_length hle,
      drop_append_of_le_length hle, ih h.2, cons_append]

theorem recognised_append (ht : Recognised text) (hr : Recognised rest) : Recognised (text ++ rest) := by
  unfold Recognised
  rw [pieces_append ht]
  intro piece hpc
  rcases mem_append.mp hpc with hp | hp
  · exact ht piece hp
  · exact hr piece hp

theorem stripTerminalSequences_append (h : Recognised text) (rest : Text) :
    stripTerminalSequences (text ++ rest) = stripTerminalSequences text ++ stripTerminalSequences rest := by
  unfold stripTerminalSequences
  rw [pieces_append h, flatMap_append]

theorem pieces_textOfPieces {ps : List AnsiPiece} (h : ∀ piece ∈ ps, piece.Recognised) :
    pieces (textOfPieces ps) = ps := by
  induction ps with
  | nil => rfl
  | cons piece ps ih =>
    obtain ⟨hpc, hps⟩ := forall_mem_cons.mp h
    change pieces (piece.text ++ textOfPieces ps) = _
    cases piece with
    | unit c =>
      have hpl : ansiCodeLength (c :: textOfPieces ps) = 0 := ansiCodeLength_plain hpc _
      exact (pieces_unit hpl).trans (congrArg (AnsiPiece.unit c :: ·) (ih hps))
    | code code =>
      obtain ⟨hne, hcode⟩ := hpc
      have hpos : ansiCodeLength code ≠ 0 := by
        rw [hcode]
        exact Nat.pos_iff_ne_zero.mp (length_pos_iff.mpr hne)
      have hlen : ansiCodeLength (code ++ textOfPieces ps) = code.length := (ansiCodeLength_append hpos _).trans hcode
      change pieces (code ++ textOfPieces ps) = _
      rw [pieces_code (by rw [hlen, ← hcode]; exact hpos), hlen, take_left, drop_left, ih hps]

theorem recognised_nil : Recognised [] := fun _ hpc => absurd hpc not_mem_nil

theorem recognised_code {seq : Text} (h : (AnsiPiece.code seq).Recognised) : pieces seq = [.code seq] ∧ Recognised seq := by
  have hpie : pieces (textOfPieces [.code seq]) = [.code seq] :=
    pieces_textOfPieces fun piece hpc => by rw [mem_singleton.mp hpc]; exact h
  have htext : textOfPieces [.code seq] = seq := append_nil seq
  rw [htext] at hpie
  refine ⟨hpie, fun piece hpc => ?_⟩
  rw [hpie, mem_singleton] at hpc
  rw [hpc]
  exact h

theorem pieces_plain (h : esc ∉ text) : pieces text = text.map .unit := by
  induction text with
  | nil => rfl
  | cons c rest ih =>
    rw [mem_cons, not_or] at h
    obtain ⟨hc, hrest⟩ := h
    rw [pieces_unit (ansiCodeLength_plain (Ne.symm hc) rest), ih hrest, map_cons]

theorem recognised_plain (h : esc ∉ text) : Recognised text := by
  unfold Recognised
  rw [pieces_plain h]
  intro piece hpc
  obtain ⟨c, hc, rfl⟩ := mem_map.mp hpc
  exact fun heq => h (heq ▸ hc)

theorem esc_notMem_spaces (n : ℕ) : esc ∉ List.replicate n space :=
  fun hmem => absurd (eq_of_mem_replicate hmem) (by decide)

theorem stripTerminalSequences_plain (h : esc ∉ text) : stripTerminalSequences text = text := by
  unfold stripTerminalSequences
  rw [pieces_plain h, flatMap_map]
  exact flatMap_singleton' text

end EasyPi.Tui
