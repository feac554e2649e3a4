/-
# Control sequences in rendered text

Text with complete control sequences: CSI sequences with any final byte, and OSC and APC strings. `ansiCodeLength` knows
five final bytes of CSI sequences and looks for one of them however far behind a sequence it does not know. So what is
printed survives exactly when such a sequence swallows nothing but sequences.
-/
import EasyPi.Tui.Graphemes

namespace EasyPi.Tui

open List

inductive ControlPart where
  | printable (text : Text)
  | csi (parameters intermediates : Text) (final : UInt16)
  | string (kind : UInt16) (body terminator : Text)
  deriving DecidableEq

namespace ControlPart

def text : ControlPart → Text
  | printable text => text
  | csi parameters intermediates final => esc :: openBracket :: (parameters ++ intermediates ++ [final])
  | string kind body terminator => esc :: kind :: (body ++ terminator)

def shown : ControlPart → Text
  | printable text => text
  | _ => []

/-- The body of a string ends at the first `BEL` or `ESC`. -/
def WellFormed : ControlPart → Prop
  | printable text => ∀ c ∈ text, 0x20 ≤ c
  | csi parameters intermediates final => (∀ c ∈ parameters, 0x30 ≤ c ∧ c ≤ 0x3F) ∧
      (∀ c ∈ intermediates, 0x20 ≤ c ∧ c ≤ 0x2F) ∧ 0x40 ≤ final ∧ final ≤ 0x7E
  | string kind body terminator => (kind = closeBracket ∨ kind = underscore) ∧ (∀ c ∈ body, c ≠ bel ∧ c ≠ esc) ∧
      (terminator = [bel] ∨ terminator = [esc, backslash])

end ControlPart

def textOfParts (parts : List ControlPart) : Text := parts.flatMap ControlPart.text

attribute [local simp] textOfParts ControlPart.text

def shownOfParts (parts : List ControlPart) : Text := parts.flatMap ControlPart.shown

/-- Nothing printed is swallowed, and no string is cut. `inside` says that the scanner looks for the end of a CSI sequence
that it does not know: the next one that it knows must come before anything printed, and before a string with such an end
in its body. -/
def OnlySequencesSwallowed (inside : Bool) : List ControlPart → Prop
  | [] => inside = false
  | .printable text :: parts => (inside = true → text = []) ∧ OnlySequencesSwallowed inside parts
  | .csi _ _ final :: parts => OnlySequencesSwallowed (!isCsiEnd final) parts
  | .string _ body _ :: parts =>
    (inside = true → ∀ c ∈ body, isCsiEnd c = false) ∧ OnlySequencesSwallowed inside parts

/-! ### What the scanner does -/

variable {x rest body terminator : Text} {kind c : UInt16} {part : ControlPart} {parts : List ControlPart}

theorem stripTerminalSequences_code {seq : Text} (h : (AnsiPiece.code seq).Recognised) (rest : Text) :
    stripTerminalSequences (seq ++ rest) = stripTerminalSequences rest := by
  obtain ⟨hpie, hrec⟩ := recognised_code h
  have hnil : stripTerminalSequences seq = [] := by
    rw [stripTerminalSequences, hpie]
    rfl
  rw [stripTerminalSequences_append hrec, hnil, nil_append]

section
variable (hx : ∀ c ∈ x, isCsiEnd c = false)
include hx

theorem csiLength_concat (hc : isCsiEnd c = true) : csiLength (x ++ [c]) = some (x ++ [c]).length := by
  have hnone : x.findIdx? isCsiEnd = none := List.findIdx?_eq_none_iff.mpr hx
  rw [csiLength, List.findIdx?_append, hnone, length_append]
  simp [hc]

theorem strip_csi (hc : isCsiEnd c = true) (rest : Text) :
    stripTerminalSequences (esc :: openBracket :: (x ++ c :: rest)) = stripTerminalSequences rest := by
  have hcode : (AnsiPiece.code (esc :: openBracket :: (x ++ [c]))).Recognised :=
    AnsiPiece.recognised_code_iff.mpr (.inl ⟨x ++ [c], rfl, csiLength_concat hx hc⟩)
  have hstrip := stripTerminalSequences_code hcode rest
  rwa [cons_append, cons_append, append_assoc, singleton_append] at hstrip

theorem esc_mem_strip : esc ∈ stripTerminalSequences (esc :: openBracket :: x) := by
  have hnone : csiLength x = none := by rw [csiLength, List.findIdx?_eq_none_iff.mpr hx, Option.map_none]
  have hzero : ansiCodeLength (esc :: openBracket :: x) = 0 := by
    rw [ansiCodeLength, if_neg (not_not_intro rfl), if_pos rfl, hnone]
    rfl
  rw [stripTerminalSequences, pieces_unit hzero]
  exact mem_cons_self ..

end

theorem strip_plain (hx : esc ∉ x) (rest : Text) : stripTerminalSequences (x ++ rest) = x ++ stripTerminalSequences rest := by
  rw [stripTerminalSequences_append (recognised_plain hx), stripTerminalSequences_plain hx]

theorem stringLength_body (hbody : ∀ c ∈ body, c ≠ bel ∧ c ≠ esc)
    (hend : terminator = [bel] ∨ terminator = [esc, backslash]) :
    stringLength (body ++ terminator) = some (body ++ terminator).length := by
  induction body with
  | nil =>
    rcases hend with rfl | rfl
    · rfl
    · rfl
  | cons c body ih =>
    obtain ⟨⟨hbel, hesc⟩, hrest⟩ := forall_mem_cons.mp hbody
    rw [cons_append, stringLength, if_neg hbel, if_neg (fun h => hesc h.1), ih hrest]
    rfl

theorem strip_string (h : (ControlPart.string kind body terminator).WellFormed) (rest : Text) :
    stripTerminalSequences ((ControlPart.string kind body terminator).text ++ rest) = stripTerminalSequences rest :=
  stripTerminalSequences_code
    (AnsiPiece.recognised_code_iff.mpr (.inr ⟨kind, body ++ terminator, h.1, rfl, stringLength_body h.2.1 h.2.2⟩)) rest

theorem control_of_cut (hbody : ∀ c ∈ body, c ≠ bel ∧ c ≠ esc)
    (hend : terminator = [bel] ∨ terminator = [esc, backslash]) (rest : Text) :
    ∃ c ∈ stripTerminalSequences (body ++ terminator ++ rest), c < 0x20 := by
  have hesc : esc ∉ body := fun hmem => (hbody esc hmem).2 rfl
  rw [append_assoc, strip_plain hesc]
  rcases hend with rfl | rfl
  · refine ⟨bel, mem_append_right _ ?_, by decide⟩
    rw [strip_plain (by decide)]
    exact mem_append_left _ (mem_singleton_self _)
  · refine ⟨esc, mem_append_right _ ?_, by decide⟩
    have hzero : ansiCodeLength ([esc, backslash] ++ rest) = 0 := rfl
    have hpie : pieces ([esc, backslash] ++ rest) = .unit esc :: pieces ([backslash] ++ rest) := pieces_unit hzero
    rw [stripTerminalSequences, hpie]
    exact mem_cons_self ..

/-! ### Parts -/

variable {text : Text}

theorem esc_notMem_printable (h : (ControlPart.printable text).WellFormed) : esc ∉ text :=
  fun hmem => absurd (h esc hmem) (by decide)

theorem not_isCsiEnd_of_le (h : c ≤ 0x3F) : isCsiEnd c = false := by
  refine Bool.eq_false_iff.mpr fun hend => ?_
  simp only [isCsiEnd, Bool.or_eq_true, decide_eq_true_eq] at hend
  rcases hend with (((rfl | rfl) | rfl) | rfl) | rfl
  all_goals exact absurd h (by decide)

theorem csi_inner {parameters intermediates : Text} {final : UInt16}
    (h : (ControlPart.csi parameters intermediates final).WellFormed) :
    ∀ c ∈ parameters ++ intermediates, isCsiEnd c = false := by
  intro c hc
  rcases mem_append.mp hc with hc | hc
  · exact not_isCsiEnd_of_le (h.1 c hc).2
  · exact not_isCsiEnd_of_le (UInt16.le_trans (h.2.1 c hc).2 (by decide))

variable (h : ∀ part ∈ parts, part.WellFormed)

include h in
theorem shownOfParts_printable : ∀ c ∈ shownOfParts parts, 0x20 ≤ c := by
  intro c hc
  obtain ⟨part, hpart, hc⟩ := mem_flatMap.mp hc
  cases part with
  | printable text => exact h _ hpart c hc
  | csi parameters intermediates final | string kind body terminator => exact absurd hc not_mem_nil

/-- The text behind a CSI sequence that has not ended yet, or the text of parts alone. -/
def scanned (inside : Bool) (x : Text) (parts : List ControlPart) : Text :=
  if inside then esc :: openBracket :: (x ++ textOfParts parts) else textOfParts parts

/-- What is left of parts, as the scanner comes to them: nothing is added that could stand in for what is lost, and it is
what the parts print exactly when only sequences were swallowed. -/
def Left (text : Text) (inside : Bool) (parts : List ControlPart) : Prop :=
  ((∀ c ∈ text, 0x20 ≤ c) → text.length ≤ (shownOfParts parts).length) ∧
    (text = shownOfParts parts ↔ OnlySequencesSwallowed inside parts)

include h in
theorem left_of_control {inside : Bool}
    (hc : ∃ c ∈ text, c < 0x20) (hno : ¬ OnlySequencesSwallowed inside parts) : Left text inside parts := by
  obtain ⟨c, hmem, hlt⟩ := hc
  refine ⟨fun hall => absurd (hall c hmem) (UInt16.not_le.mpr hlt), fun heq => ?_, fun hyes => absurd hyes hno⟩
  exact absurd (shownOfParts_printable h c (heq ▸ hmem)) (UInt16.not_le.mpr hlt)

include h in
theorem left_of_lost {inside : Bool} (hlt : (∀ c ∈ text, 0x20 ≤ c) → text.length < (shownOfParts parts).length)
    (hno : ¬ OnlySequencesSwallowed inside parts) : Left text inside parts := by
  refine ⟨fun hall => Nat.le_of_lt (hlt hall), fun heq => ?_, fun hyes => absurd hyes hno⟩
  have hless := hlt (heq ▸ shownOfParts_printable h)
  rw [heq] at hless
  exact absurd hless (Nat.lt_irrefl _)

theorem first_end_cases (text : Text) : (∀ c ∈ text, isCsiEnd c = false) ∨
    ∃ a c b, text = a ++ c :: b ∧ (∀ c ∈ a, isCsiEnd c = false) ∧ isCsiEnd c = true := by
  cases hfind : text.find? isCsiEnd with
  | none =>
    rw [List.find?_eq_none] at hfind
    exact .inl fun c hc => Bool.eq_false_iff.mpr (hfind c hc)
  | some c =>
    obtain ⟨hc, a, b, htext, ha⟩ := List.find?_eq_some_iff_append.mp hfind
    exact .inr ⟨a, c, b, htext, fun d hd => by simpa using ha d hd, hc⟩

theorem forall_append_ends {y : Text} (hx : ∀ c ∈ x, isCsiEnd c = false) (hy : ∀ c ∈ y, isCsiEnd c = false) :
    ∀ c ∈ x ++ y, isCsiEnd c = false := forall_mem_append.mpr ⟨hx, hy⟩

theorem scanned_swallow (part : ControlPart) (parts : List ControlPart) :
    scanned true x (part :: parts) = scanned true (x ++ part.text) parts := by
  simp [scanned]

include h in
/-- **The scan of parts**, by the kinds of parts. -/
theorem left_scanned (inside : Bool) (hx : ∀ c ∈ x, isCsiEnd c = false) :
    Left (stripTerminalSequences (scanned inside x parts)) inside parts := by
  induction parts generalizing inside x with
  | nil =>
    cases inside with
    | false => exact ⟨fun _ => Nat.le_refl _, fun _ => rfl, fun _ => rfl⟩
    | true =>
      have hesc := esc_mem_strip hx
      rw [← append_nil x] at hesc
      exact left_of_control h ⟨esc, hesc, by decide⟩ (fun hno => Bool.noConfusion hno)
  | cons part parts ih =>
    obtain ⟨hpart, hparts⟩ := forall_mem_cons.mp h
    have hnext : ∀ inside (x : Text), (∀ c ∈ x, isCsiEnd c = false) →
        Left (stripTerminalSequences (scanned inside x parts)) inside parts := fun inside x hx => ih hparts inside hx
    have hall : ∀ c ∈ ([] : Text), isCsiEnd c = false := fun c hc => absurd hc not_mem_nil
    cases part with
    | printable text =>
      have hshown : shownOfParts (.printable text :: parts) = text ++ shownOfParts parts := rfl
      have hplain : stripTerminalSequences (text ++ textOfParts parts) = text ++ stripTerminalSequences (textOfParts parts) :=
        strip_plain (esc_notMem_printable hpart) _
      obtain ⟨hle, hiff⟩ := hnext false [] hall
      cases inside with
      | false =>
        have hscanned : scanned false x (.printable text :: parts) = text ++ textOfParts parts := rfl
        rw [hscanned, hplain]
        refine ⟨fun hall => ?_, ?_⟩
        · rw [hshown, length_append, length_append]
          exact Nat.add_le_add_left (hle (forall_mem_append.mp hall).2) _
        · rw [hshown, append_cancel_left_eq, OnlySequencesSwallowed]
          exact hiff.trans ⟨fun hyes => ⟨fun h => Bool.noConfusion h, hyes⟩, And.right⟩
      | true =>
        by_cases hnil : text = []
        · subst hnil
          obtain ⟨hle, hiff⟩ := hnext true x hx
          rw [scanned_swallow, ControlPart.text, append_nil]
          exact ⟨hle, hiff.trans ⟨fun hyes => ⟨fun _ => rfl, hyes⟩, And.right⟩⟩
        have hno : ¬ OnlySequencesSwallowed true (.printable text :: parts) := fun hyes => hnil (hyes.1 rfl)
        have hpos : 0 < text.length := length_pos_iff.mpr hnil
        refine left_of_lost h (fun hall => ?_) hno
        rw [hshown, length_append]
        rcases first_end_cases text with hends | ⟨a, c, b, rfl, ha, hc⟩
        · rw [scanned_swallow] at hall ⊢
          have hless := (hnext true _ (forall_append_ends hx hends)).1 hall
          exact Nat.lt_of_le_of_lt hless (Nat.lt_add_of_pos_left hpos)
        · have hesc : esc ∉ b := fun hmem => esc_notMem_printable hpart (by simp [hmem])
          have hscanned : scanned true x (.printable (a ++ c :: b) :: parts) =
              esc :: openBracket :: (x ++ a ++ c :: (b ++ textOfParts parts)) := by
            simp [scanned]
          rw [hscanned, strip_csi (forall_append_ends hx ha) hc, strip_plain hesc] at hall ⊢
          have hless := hle (forall_mem_append.mp hall).2
          rw [length_append, length_append, length_cons]
          have hless : (stripTerminalSequences (textOfParts parts)).length ≤ _ := hless
          omega
    | csi parameters intermediates final =>
      have hinner := csi_inner hpart
      -- the bytes that were swallowed before, or the start of this sequence, come to its final byte
      obtain ⟨y, hy, hscanned⟩ : ∃ y : Text, (∀ c ∈ y, isCsiEnd c = false) ∧
          scanned inside x (.csi parameters intermediates final :: parts) =
            esc :: openBracket :: (y ++ final :: textOfParts parts) := by
        cases inside with
        | false => exact ⟨_, hinner, by simp [scanned]⟩
        | true =>
          refine ⟨x ++ [esc, openBracket] ++ (parameters ++ intermediates), ?_, ?_⟩
          · exact forall_append_ends (forall_append_ends hx (by decide)) hinner
          · simp [scanned]
      rw [hscanned]
      cases hfinal : isCsiEnd final with
      | true =>
        rw [strip_csi hy hfinal]
        rw [Left, OnlySequencesSwallowed, hfinal]
        exact hnext false [] hall
      | false =>
        have hleft := hnext true (y ++ [final]) (forall_append_ends hy (by simpa using hfinal))
        rw [scanned, if_pos rfl, append_assoc, singleton_append] at hleft
        rw [Left, OnlySequencesSwallowed, hfinal]
        exact hleft
    | string kind body terminator =>
      obtain ⟨hkind, hbody, hend⟩ := hpart
      cases inside with
      | false =>
        have hleft := hnext false [] hall
        have hscanned : scanned false x (.string kind body terminator :: parts) =
            (ControlPart.string kind body terminator).text ++ textOfParts parts := rfl
        rw [hscanned, strip_string ⟨hkind, hbody, hend⟩]
        exact ⟨hleft.1, hleft.2.trans ⟨fun hyes => ⟨fun h => Bool.noConfusion h, hyes⟩, And.right⟩⟩
      | true =>
        rcases first_end_cases body with hends | ⟨a, c, b, rfl, ha, hc⟩
        · have htext : ∀ c ∈ (ControlPart.string kind body terminator).text, isCsiEnd c = false := by
            have hfirst : isCsiEnd kind = false := by
              rcases hkind with rfl | rfl
              · rfl
              · rfl
            have hlast : ∀ c ∈ terminator, isCsiEnd c = false := by
              rcases hend with rfl | rfl
              · decide
              · decide
            exact forall_mem_cons.mpr ⟨by decide, forall_mem_cons.mpr ⟨hfirst, forall_append_ends hends hlast⟩⟩
          rw [scanned_swallow]
          obtain ⟨hle, hiff⟩ := hnext true _ (forall_append_ends hx htext)
          exact ⟨hle, hiff.trans ⟨fun hyes => ⟨fun _ => hends, hyes⟩, And.right⟩⟩
        · have hscanned : scanned true x (.string kind (a ++ c :: b) terminator :: parts) =
              esc :: openBracket :: (x ++ (esc :: kind :: a) ++ c :: (b ++ terminator ++ textOfParts parts)) := by
            simp [scanned]
          have hstart : ∀ c ∈ esc :: kind :: a, isCsiEnd c = false := by
            refine forall_mem_cons.mpr ⟨by decide, forall_mem_cons.mpr ⟨?_, ha⟩⟩
            rcases hkind with rfl | rfl
            · rfl
            · rfl
          have hrest : ∀ d ∈ b, d ≠ bel ∧ d ≠ esc :=
            fun d hd => hbody d (mem_append_right _ (mem_cons_of_mem _ hd))
          have hcut := control_of_cut hrest hend (textOfParts parts)
          refine left_of_control h ?_ fun hyes => ?_
          · rw [hscanned, strip_csi (forall_append_ends hx hstart) hc]
            exact hcut
          · rw [hyes.1 rfl c (by simp)] at hc
            cases hc

/-! ### What is printed -/

theorem recognised_of_notMem (h : esc ∉ stripTerminalSequences text) : Recognised text := by
  induction text using pieces_induction with
  | nil => exact recognised_nil
  | unit c rest hunit ih =>
    rw [stripTerminalSequences, pieces_unit hunit] at h
    obtain ⟨hc, hrest⟩ := not_or.mp (mt mem_cons.mpr h)
    rw [Recognised, pieces_unit hunit]
    exact forall_mem_cons.mpr ⟨Ne.symm hc, ih hrest⟩
  | code text hcode ih =>
    rw [stripTerminalSequences, pieces_code hcode] at h
    rw [Recognised, pieces_code hcode]
    refine forall_mem_cons.mpr ⟨⟨?_, ?_⟩, ih h⟩
    · rw [Ne, take_eq_nil_iff, not_or]
      refine ⟨hcode, ?_⟩
      rintro rfl
      exact hcode rfl
    · rw [ansiCodeLength_take hcode, length_take, Nat.min_eq_left (ansiCodeLength_le text)]

theorem visibleWidth_of_strip (u : Unicode) {text shown : Text} (hstrip : stripTerminalSequences text = shown)
    (hshown : ∀ c ∈ shown, 0x20 ≤ c) : u.visibleWidth text = u.visibleWidth shown := by
  have hesc : esc ∉ shown := fun hmem => absurd (hshown esc hmem) (by decide)
  have htab : tab ∉ shown := fun hmem => absurd (hshown tab hmem) (by decide)
  have hclean : stripTerminalSequences (expandTabs text) = shown := by
    have hrec : Recognised text := recognised_of_notMem (by rwa [hstrip])
    rw [stripTerminalSequences_expandTabs hrec, hstrip, Unicode.expandTabs_of_not_mem htab]
  have hplain : stripTerminalSequences (expandTabs shown) = shown := by
    rw [Unicode.expandTabs_of_not_mem htab, stripTerminalSequences_plain hesc]
  by_cases hasc : isPrintableAscii text = true
  · have hsame := stripTerminalSequences_plain (Unicode.esc_not_mem_printable hasc).1
    rw [← hstrip, hsame]
  by_cases hnil : text = []
  · rw [← hstrip, hnil]
    rfl
  have hdef : ∀ t, u.visibleWidth t = if t = [] then 0 else if isPrintableAscii t then t.length
      else if isPrintableAscii (stripTerminalSequences (expandTabs t)) then (stripTerminalSequences (expandTabs t)).length
      else ((u.graphemes (stripTerminalSequences (expandTabs t))).map u.graphemeWidth).sum := fun t => rfl
  rw [hdef, hdef, if_neg hnil, if_neg hasc, hclean, hplain]
  by_cases hempty : shown = []
  · rw [if_pos hempty, hempty]
    rfl
  · rw [if_neg hempty]
    split
    · rfl
    · rfl

/-- **Sequences are recognised exactly** when nothing but sequences is swallowed. -/
theorem stripTerminalSequences_exact_iff (parts : List ControlPart) (h : ∀ part ∈ parts, part.WellFormed) :
    (stripTerminalSequences (textOfParts parts) = shownOfParts parts ∧
      ∀ u : Unicode, u.visibleWidth (textOfParts parts) = u.visibleWidth (shownOfParts parts)) ↔
      OnlySequencesSwallowed false parts := by
  have hiff := (left_scanned h false (fun c hc => absurd hc (@not_mem_nil _ c))).2
  refine ⟨fun hall => hiff.mp hall.1, fun hyes => ?_⟩
  have hstrip : stripTerminalSequences (textOfParts parts) = shownOfParts parts := hiff.mpr hyes
  exact ⟨hstrip, fun u => visibleWidth_of_strip u hstrip (shownOfParts_printable h)⟩

/-- The cursor goes up, and `Ho` follows. -/
def cursorUp : List ControlPart := [.csi [0x32] [] 0x41, .printable [0x48, 0x6F]]

theorem cursorUp_wellFormed : ∀ part ∈ cursorUp, part.WellFormed :=
  forall_mem_cons.mpr ⟨⟨by decide, by decide, by decide⟩, forall_mem_singleton.mpr
    (by decide : ∀ c ∈ ([0x48, 0x6F] : Text), 0x20 ≤ c)⟩

/-- The cursor goes up, the display is erased, and `Ho` follows. -/
def erased : List ControlPart := [.csi [0x32] [] 0x41, .csi [] [] 0x4A, .printable [0x48, 0x6F]]

theorem erased_wellFormed : ∀ part ∈ erased, part.WellFormed := by
  have hpri : ∀ c ∈ ([0x48, 0x6F] : Text), 0x20 ≤ c := by decide
  simp [erased, ControlPart.WellFormed, hpri]

theorem stripTerminalSequences_exact_cursorUp : ¬ OnlySequencesSwallowed false cursorUp ∧
    stripTerminalSequences (textOfParts erased) = shownOfParts erased :=
  ⟨fun hyes => absurd ((stripTerminalSequences_exact_iff cursorUp cursorUp_wellFormed).mpr hyes).1 (by decide),
    ((stripTerminalSequences_exact_iff erased erased_wellFormed).mpr ⟨nofun, rfl⟩).1⟩

theorem stripTerminalSequences_inexact : ¬ ∀ parts : List ControlPart, (∀ part ∈ parts, part.WellFormed) →
    stripTerminalSequences (textOfParts parts) = shownOfParts parts :=
  fun hall => absurd (hall cursorUp cursorUp_wellFormed) (by decide)

end EasyPi.Tui
