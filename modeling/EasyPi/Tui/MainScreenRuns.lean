/-
# The screen is the last frame

After each frame the screen shows its lines from `previousViewportTop` on, and the cursor
is where `hardwareCursorRow` says. The invariant fails at one place: the cursor marker is
looked for in the last `height` lines of the frame, and after the frame has become shorter
the viewport begins below the first of them. `positionHardwareCursor` then notes a row that
is not on the screen, and every later move starts from the wrong row.
-/
import Mathlib.Data.List.GetD
import EasyPi.Tui.MainScreen
import EasyPi.Lib.Runs

namespace EasyPi.Tui

open List

variable {Glyph Cell : Type*} {g : GlyphMap Glyph Cell} {z : TerminalSize Cell}

variable (g z) in
def docOf (lines : List (Line Glyph)) : ℕ → TerminalRow Cell :=
  fun i => Terminal.rowOf z (lineCells g (lines.getD i []))

attribute [local simp] TerminalCommand.KeepsMargin

theorem docOf_of_le {lines : List (Line Glyph)} {i : ℕ} (h : lines.length ≤ i) :
    docOf g z lines i = Terminal.blankRow z := by
  simp only [docOf, getD_eq_default _ _ h]
  rfl

theorem docOf_nil : docOf g z ([] : List (Line Glyph)) = fun _ => Terminal.blankRow z := by
  funext i
  exact docOf_of_le (Nat.zero_le i)

/-! ### Which lines have changed -/

theorem find?_range_reverse {p : ℕ → Bool} {m l : ℕ} (h : (List.range m).reverse.find? p = some l) :
    p l = true ∧ l < m ∧ ∀ i, l < i → i < m → p i = false := by
  induction m with
  | zero => simp at h
  | succ m ih =>
    rw [range_succ, reverse_append, reverse_singleton, singleton_append, List.find?_cons] at h
    split at h
    · rename_i hm
      obtain rfl := Option.some.inj h
      exact ⟨hm, Nat.lt_succ_self _, fun i hlt hle => absurd hlt (by omega)⟩
    · rename_i hm
      obtain ⟨hl, hlt, hnone⟩ := ih h
      refine ⟨hl, by omega, fun i hi hm' => ?_⟩
      obtain heq | hne := Nat.eq_or_lt_of_le (Nat.lt_succ_iff.mp hm')
      · rw [heq]
        simpa using hm
      · exact hnone i hi hne

section

variable [DecidableEq Glyph]

omit [DecidableEq Glyph] in
theorem getD_eq_of_max_le {previousLines new : List (Line Glyph)} {i : ℕ}
    (h : max new.length previousLines.length ≤ i) : previousLines.getD i [] = new.getD i [] := by
  rw [getD_eq_default _ _ (by omega), getD_eq_default _ _ (by omega)]

theorem changedRange_eq_none {previousLines new : List (Line Glyph)} (h : changedRange previousLines new = none) :
    new.length ≤ previousLines.length ∧ ∀ i, previousLines.getD i [] = new.getD i [] := by
  unfold changedRange at h
  dsimp only at h
  split at h
  · cases h
  rename_i hlen
  refine ⟨by omega, fun i => ?_⟩
  have hnone : (List.range (max new.length previousLines.length)).find?
      (fun i => decide (previousLines.getD i [] ≠ new.getD i [])) = none := by
    split at h
    · cases h
    · rename_i hpair
      cases hfst : (List.range (max new.length previousLines.length)).find?
          (fun i => decide (previousLines.getD i [] ≠ new.getD i [])) with
      | none => rfl
      | some first =>
        have hmem : first ∈ (List.range (max new.length previousLines.length)).reverse :=
          mem_reverse.mpr (mem_of_find?_eq_some hfst)
        have hsome := List.find?_isSome.mpr ⟨first, hmem, List.find?_some hfst⟩
        obtain ⟨last, hlast⟩ := Option.isSome_iff_exists.mp hsome
        exact absurd hlast (hpair first last hfst)
  obtain hlt | hge := Nat.lt_or_ge i (max new.length previousLines.length)
  · have := List.find?_eq_none.mp hnone i (mem_range.mpr hlt)
    simpa using this
  · exact getD_eq_of_max_le hge

theorem changedRange_eq_some {previousLines new : List (Line Glyph)} {firstChanged lastChanged : ℕ}
    (h : changedRange previousLines new = some (firstChanged, lastChanged)) :
    firstChanged ≤ lastChanged ∧ lastChanged < max new.length previousLines.length ∧
      (previousLines.length < new.length → lastChanged = new.length - 1) ∧
      (∀ i < firstChanged, previousLines.getD i [] = new.getD i []) ∧
      ∀ i, lastChanged < i → previousLines.getD i [] = new.getD i [] := by
  unfold changedRange at h
  dsimp only at h
  split at h
  · -- lines have been appended
    rename_i hlen
    obtain ⟨rfl, rfl⟩ := Prod.mk.inj (Option.some.inj h)
    cases hfst : (List.range (max new.length previousLines.length)).find?
        (fun i => decide (previousLines.getD i [] ≠ new.getD i [])) with
    | none =>
      have heq : ∀ i, previousLines.getD i [] = new.getD i [] := by
        intro i
        obtain hlt | hge := Nat.lt_or_ge i (max new.length previousLines.length)
        · have := List.find?_eq_none.mp hfst i (mem_range.mpr hlt)
          simpa using this
        · exact getD_eq_of_max_le hge
      refine ⟨?_, by omega, fun _ => rfl, fun i _ => heq i, fun i _ => heq i⟩
      simp only [Option.getD_none]
      omega
    | some first =>
      obtain ⟨hdiff, hmem, hbef⟩ := List.find?_range_eq_some.mp hfst
      rw [mem_range] at hmem
      simp only [Option.getD_some]
      refine ⟨by omega, by omega, fun _ => trivial, fun i hi => ?_, fun i hi => ?_⟩
      · simpa using hbef i hi
      · exact getD_eq_of_max_le (by omega)
  · rename_i hlen
    split at h
    · rename_i first last hfst hlast
      obtain ⟨rfl, rfl⟩ := Prod.mk.inj (Option.some.inj h)
      obtain ⟨hdiff, hmem, hbef⟩ := List.find?_range_eq_some.mp hfst
      obtain ⟨hdiff', hlt, haft⟩ := find?_range_reverse hlast
      refine ⟨?_, hlt, fun hlt' => absurd hlt' hlen, fun i hi => ?_, fun i hi => ?_⟩
      · by_contra hgt
        have hsame := hbef _ (Nat.lt_of_not_le hgt)
        rw [hdiff'] at hsame
        cases hsame
      · simpa using hbef i hi
      · obtain hlt' | hge := Nat.lt_or_ge i (max new.length previousLines.length)
        · simpa using haft i hi hlt'
        · exact getD_eq_of_max_le hge
    · cases h

end

/-! ### Moves and prints -/

namespace MainScreen

variable {s : MainScreen Glyph} {t : Terminal Cell} {doc : ℕ → TerminalRow Cell} {top cursor : ℕ}

theorem shows_moveRows (h : t.Shows z doc top cursor) (target : ℕ) (htop : top ≤ target)
    (hbot : target < top + z.height) (lineDiff : ℤ) (hdiff : lineDiff = target - cursor) :
    (t.run z (moveRows lineDiff)).Shows z doc top target ∧ (t.run z (moveRows lineDiff)).col = t.col := by
  have hle := h.top_le
  unfold moveRows
  split
  · refine ⟨?_, rfl⟩
    have hdown := h.cursorDown (n := lineDiff.toNat) (by omega)
    rwa [show cursor + lineDiff.toNat = target by omega] at hdown
  · split
    · refine ⟨?_, rfl⟩
      have hup := h.cursorUp (n := (-lineDiff).toNat) (by omega)
      rwa [show cursor - (-lineDiff).toNat = target by omega] at hup
    · refine ⟨?_, rfl⟩
      rwa [show cursor = target by omega] at h

theorem shows_printLines (h : t.Shows z doc top cursor) (hcol : t.col = 0) {erase : Bool}
    {lines : List (Line Glyph)} (hne : lines ≠ []) (hlen : ∀ line ∈ lines, (lineCells g line).length ≤ z.width)
    (hbel : ∀ i, top + z.height ≤ i → doc i = Terminal.blankRow z)
    (hbl : erase = false → ∀ i, cursor ≤ i → doc i = Terminal.blankRow z) : (t.run z (printLines g erase lines)).Shows z
      (Terminal.overwrite doc cursor (lines.map fun line => Terminal.rowOf z (lineCells g line)))
      (max top (cursor + lines.length - z.height)) (cursor + lines.length - 1) := by
  cases lines with
  | nil => exact absurd rfl hne
  | cons line lines =>
    have hlt := h.lt_bottom
    have hfst := h.printLine hcol (hlen line mem_cons_self)
      fun he => hbl he cursor (Nat.le_refl _)
    have hrest := hfst.printNext erase (lines.map (lineCells g)) (fun cells hc => ?_) (fun i hi => ?_) (fun he i hi => ?_)
    · rw [map_map, length_map] at hrest
      rw [map_cons, Terminal.overwrite_cons, length_cons]
      simp only [printLines, Terminal.run_append]
      rw [show cursor + (lines.length + 1) - z.height = cursor + lines.length + 1 - z.height by omega,
        show cursor + (lines.length + 1) - 1 = cursor + lines.length by omega]
      exact hrest
    · obtain ⟨found, hfnd, rfl⟩ := mem_map.mp hc
      exact hlen found (mem_cons_of_mem _ hfnd)
    · rw [Function.update_of_ne (by omega)]
      exact hbel i hi
    · rw [Function.update_of_ne (by omega)]
      exact hbl he i (by omega)

theorem shows_position (h : t.Shows z doc s.previousViewportTop s.hardwareCursorRow)
    {cursorPos : Option (ℕ × ℕ)} {totalLines : ℕ}
    (hpos : ∀ row col, cursorPos = some (row, col) → row < totalLines ∧ s.previousViewportTop ≤ row)
    (hfits : totalLines ≤ s.previousViewportTop + z.height) {result : MainScreen Glyph × List (TerminalCommand Cell)}
    (hres : s.positionHardwareCursor cursorPos totalLines = result) :
    (t.run z result.2).Shows z doc s.previousViewportTop result.1.hardwareCursorRow ∧
      (totalLines = 0 → (t.run z result.2).col = t.col) := by
  subst hres
  unfold positionHardwareCursor
  split
  · exact ⟨h, fun _ => rfl⟩
  · rename_i row col
    obtain ⟨hlt, htop⟩ := hpos row col rfl
    rw [if_neg (by omega)]
    have hmove := (shows_moveRows h (min row (totalLines - 1)) (by omega) (by omega)
      (((min row (totalLines - 1) : ℕ) : ℤ) - s.hardwareCursorRow) rfl).1
    simp only [Terminal.run_append]
    exact ⟨hmove.cursorColumn _, fun hzero => absurd hlt (by omega)⟩

/-! ### The invariant -/

variable (g z) in
/-- The screen shows the lines of the last frame from the viewport top on, with the cursor in the
row that is noted, and they fit. -/
structure MainScreenInv (s : MainScreen Glyph) (t : Terminal Cell) (lines : List (Line Glyph)) :
    Prop where
  previous : s.previousLines = lines
  resets : ∀ line ∈ lines, line ≠ []
  width : s.previousWidth = 0 ∨ s.previousWidth = z.width
  height : s.previousHeight = 0 ∨ s.previousHeight = z.height
  shows : t.Shows z (docOf g z lines) s.previousViewportTop s.hardwareCursorRow
  fits : lines.length ≤ s.previousViewportTop + z.height
  top : s.previousViewportTop = 0 ∨ s.previousViewportTop < lines.length
  empty : lines = [] → t.col = 0 ∧ s.hardwareCursorRow = 0

theorem MainScreenInv.init (hheight : 0 < z.height) :
    MainScreenInv g z ({} : MainScreen Glyph) (Terminal.clean z) [] := by
  refine ⟨rfl, by simp, .inl rfl, .inl rfl, ?_, Nat.zero_le _, .inl rfl, fun _ => ⟨rfl, rfl⟩⟩
  rw [docOf_nil]
  exact Terminal.shows_clean hheight

theorem shows_printAll (h : t.Shows z (fun _ => Terminal.blankRow z) 0 0) (hcol : t.col = 0)
    {lines : List (Line Glyph)} (hlen : ∀ line ∈ lines, (lineCells g line).length ≤ z.width) :
    (t.run z (printLines g false lines)).Shows z (docOf g z lines) (lines.length - z.height)
      (lines.length - 1) ∧ (lines = [] → (t.run z (printLines g false lines)).col = 0) := by
  cases hlns : lines with
  | nil =>
    rw [docOf_nil, length_nil, Nat.zero_sub, Nat.zero_sub]
    exact ⟨h, fun _ => hcol⟩
  | cons first rest =>
    rw [← hlns]
    have hpri : (t.run z (printLines g false lines)).Shows z _ _ _ :=
      shows_printLines h hcol (by simp [hlns]) hlen (fun _ _ => rfl) (fun _ _ _ => rfl)
    rw [Nat.zero_add, Nat.zero_max] at hpri
    refine ⟨hpri.congr fun i _ _ => ?_, fun hnil => by simp [hlns] at hnil⟩
    simp only [Terminal.overwrite, Nat.zero_le, if_true, Nat.sub_zero, docOf, List.getElem?_map, getD_eq_getElem?_getD]
    cases lines[i]? <;> rfl

variable {lines new : List (Line Glyph)} {cursorPos : Option (ℕ × ℕ)}

/-- What is known of a frame: its lines fit into the width and end with a reset, and the cursor is
in one of the last lines. -/
structure FrameFits (g : GlyphMap Glyph Cell) (z : TerminalSize Cell) (newLines : List (Line Glyph))
    (cursorPos : Option (ℕ × ℕ)) : Prop where
  resets : ∀ line ∈ newLines, line ≠ []
  width : ∀ line ∈ newLines, (lineCells g line).length ≤ z.width
  cursor : ∀ row col, cursorPos = some (row, col) → row < newLines.length ∧ newLines.length - z.height ≤ row

theorem position_eq (s : MainScreen Glyph) (cursorPos : Option (ℕ × ℕ)) (totalLines : ℕ) :
    (@positionHardwareCursor Glyph Cell s cursorPos totalLines).1 = { s with
      hardwareCursorRow := (@positionHardwareCursor Glyph Cell s cursorPos totalLines).1.hardwareCursorRow } := by
  unfold positionHardwareCursor
  split
  · rfl
  · split <;> rfl

theorem inv_position (hfrm : FrameFits g z new cursorPos)
    (h : t.Shows z (docOf g z new) s.previousViewportTop s.hardwareCursorRow)
    (hcur : ∀ row col, cursorPos = some (row, col) → s.previousViewportTop ≤ row)
    (hfits : new.length ≤ s.previousViewportTop + z.height)
    (htop : s.previousViewportTop = 0 ∨ s.previousViewportTop < new.length)
    (hemp : new = [] → t.col = 0 ∧ s.hardwareCursorRow = 0) {result : MainScreen Glyph × List (TerminalCommand Cell)}
    (hres : s.positionHardwareCursor cursorPos new.length = result)
    {final : MainScreen Glyph} (hlns : final.previousLines = new)
    (hwidth : final.previousWidth = 0 ∨ final.previousWidth = z.width)
    (hheight : final.previousHeight = 0 ∨ final.previousHeight = z.height)
    (hview : final.previousViewportTop = s.previousViewportTop)
    (hrow : final.hardwareCursorRow = result.1.hardwareCursorRow) : MainScreenInv g z final (t.run z result.2) new := by
  obtain ⟨hpos, hkeep⟩ := shows_position h
    (fun row col hc => ⟨(hfrm.cursor row col hc).1, hcur row col hc⟩) hfits hres
  refine ⟨hlns, hfrm.resets, hwidth, hheight, ?_, ?_, ?_, fun hnil => ?_⟩
  · rw [hview, hrow]
    exact hpos
  · rw [hview]
    exact hfits
  · rw [hview]
    exact htop
  · obtain ⟨hcol, hzero⟩ := hemp hnil
    have hnone : result.1.hardwareCursorRow = s.hardwareCursorRow := by
      rw [← hres]
      unfold positionHardwareCursor
      split
      · rfl
      · rw [if_pos (by simp [hnil])]
    exact ⟨(hkeep (by simp [hnil])).trans hcol, hrow.trans (hnone.trans hzero)⟩

/-- **A full redraw**, from an empty screen. -/
theorem inv_fullRender (hfrm : FrameFits g z new cursorPos) (clear : Bool)
    (hsta : (t.run z (if clear then [.eraseScreen, .home, .eraseScrollback] else [])).Shows z
      (fun _ => Terminal.blankRow z) 0 0)
    (hcol : (t.run z (if clear then [.eraseScreen, .home, .eraseScrollback] else [])).col = 0) :
    MainScreenInv g z (s.fullRender g z clear new cursorPos).1
      (t.run z (s.fullRender g z clear new cursorPos).2) new := by
  obtain ⟨hpri, hemp⟩ := shows_printAll hsta hcol hfrm.width
  have htop : max z.height new.length - z.height = new.length - z.height := by omega
  have hheight := hsta.below
  simp only [fullRender, htop, Terminal.run_append]
  refine inv_position hfrm hpri (fun row col hc => (hfrm.cursor row col hc).2) ?_ ?_ ?_
    rfl rfl (.inr rfl) (.inr rfl) ?_ rfl
  · simp only
    omega
  · simp only
    omega
  · intro hnil
    exact ⟨hemp hnil, by simp [hnil]⟩
  · simp only
    rw [position_eq]

/-! ### Lines that are gone -/

theorem keepsMargin_ite {p : Prop} [Decidable p] {commands : List (TerminalCommand Cell)}
    (h : ∀ c ∈ commands, c.KeepsMargin) : ∀ c ∈ if p then commands else [], c.KeepsMargin := by
  split
  · exact h
  · simp

theorem shows_moveBack (h : t.Shows z doc top cursor) (n : ℕ) (hn : top + n ≤ cursor) :
    (t.run z (if 0 < n then [.cursorUp n] else [])).Shows z doc top (cursor - n) := by
  split
  · exact h.cursorUp hn
  · exact h.withCursor (by omega)

theorem shows_clearRows (h : t.Shows z doc top cursor) {extraLines : ℕ}
    (hbot : cursor + extraLines ≤ top + z.height) (k : ℕ) (hk : k ≤ extraLines) :
    (t.run z ((List.range k).flatMap fun i => [.carriageReturn, .eraseLine] ++
        if i < extraLines - 1 then [.cursorDown 1] else [])).Shows z
      (Terminal.overwrite doc cursor (List.replicate k (Terminal.blankRow z)))
      top (cursor + min k (extraLines - 1)) := by
  induction k with
  | zero =>
    rw [show List.replicate 0 (Terminal.blankRow z) = [] from rfl, Terminal.overwrite_nil, Nat.zero_min]
    exact h
  | succ k ih =>
    have hprev := ih (by omega)
    rw [Nat.min_eq_left (by omega)] at hprev
    rw [range_succ, flatMap_append, flatMap_singleton, Terminal.run_append,
      Terminal.run_append, replicate_succ', Terminal.overwrite_concat, length_replicate]
    have hera := hprev.carriageReturn.eraseLine
    split
    · have hdown := hera.cursorDown (n := 1) (by omega)
      rwa [show cursor + min (k + 1) (extraLines - 1) = cursor + k + 1 by omega]
    · rwa [show cursor + min (k + 1) (extraLines - 1) = cursor + k by omega]

theorem overwrite_blank {lines new : List (Line Glyph)} {start n : ℕ}
    (hbef : ∀ i < start, lines.getD i [] = new.getD i [])
    (hsta : new.length ≤ start) (hend : lines.length ≤ start + n) :
    Terminal.overwrite (docOf g z lines) start (List.replicate n (Terminal.blankRow z)) = docOf g z new := by
  funext i
  simp only [Terminal.overwrite, List.getElem?_replicate]
  split
  · rw [docOf_of_le (show new.length ≤ i by omega)]
    split
    · rfl
    · exact docOf_of_le (show lines.length ≤ i by omega)
  · rw [docOf, docOf, hbef i (by omega)]

theorem viewportTop_eq (hheight : s.previousHeight = 0 ∨ s.previousHeight = z.height) :
    s.viewportTop z = s.previousViewportTop := by
  have hsame : s.heightChanged z = false := by
    obtain h | h := hheight <;> simp [heightChanged, h]
  simp [viewportTop, hsame]

theorem inv_renderDeleted (h : MainScreenInv g z s t lines) (hfrm : FrameFits g z new cursorPos)
    (hcur : ∀ row col, cursorPos = some (row, col) → s.previousViewportTop ≤ row)
    (hfewer : new.length < lines.length) (hview : s.previousViewportTop ≤ new.length - 1)
    (hsame : ∀ i < new.length, lines.getD i [] = new.getD i []) : MainScreenInv g z (s.renderDeleted z new cursorPos).1
      (t.run z (s.renderDeleted z new cursorPos).2) new := by
  have hfits := h.fits
  have hlt := h.shows.lt_bottom
  have hview' := viewportTop_eq h.height
  have hpre : s.previousLines.length = lines.length := by rw [h.previous]
  simp only [renderDeleted, hview', hpre, hfewer, if_true, Terminal.run_append]
  obtain ⟨hmove, -⟩ := shows_moveRows h.shows (new.length - 1) hview (by omega)
    (((new.length - 1 : ℕ) : ℤ) - s.previousViewportTop -
      (s.hardwareCursorRow - s.previousViewportTop)) (by omega)
  have hext : 0 < lines.length - new.length := by omega
  generalize hoff : (if new.length = 0 then 0 else 1) = clearStartOffset
  have hbef : new.length - 1 + clearStartOffset = new.length := by
    rw [← hoff]
    split <;> omega
  have hret := hmove.carriageReturn
  -- the cursor goes to the first row that is gone
  have hsta : (((t.run z (moveRows (((new.length - 1 : ℕ) : ℤ) - s.previousViewportTop -
      (s.hardwareCursorRow - s.previousViewportTop)))).run z [.carriageReturn]).run z
      (if (decide (0 < lines.length - new.length) && decide (0 < clearStartOffset)) = true then
        [.cursorDown clearStartOffset] else [])).Shows z (docOf g z lines) s.previousViewportTop
      new.length := by
    split
    · exact (hret.cursorDown (n := clearStartOffset) (by omega)).withCursor hbef
    · rename_i hno
      simp only [Bool.and_eq_true, decide_eq_true_eq] at hno
      exact hret.withCursor (by omega)
  have hcle := shows_clearRows hsta (show new.length + (lines.length - new.length) ≤
    s.previousViewportTop + z.height by omega) _ (Nat.le_refl _)
  rw [overwrite_blank hsame (Nat.le_refl _) (by omega), Nat.min_eq_right (by omega)] at hcle
  refine @inv_position _ _ g z { s with
      cursorRow := new.length - 1, hardwareCursorRow := new.length - 1 } _ _ _ hfrm ?_
    hcur ?_ ?_ ?_ _ rfl _ rfl (.inr rfl) (.inr rfl) rfl rfl
  · exact (shows_moveBack hcle (lines.length - new.length - 1 + clearStartOffset)
      (by omega)).withCursor (by simp only; omega)
  · simp only
    omega
  · have htop := h.top
    simp only
    omega
  · intro hnil
    refine ⟨?_, by simp [hnil]⟩
    rw [← Terminal.run_append, ← Terminal.run_append, ← Terminal.run_append]
    refine Terminal.col_run ?_ rfl
    simp only [forall_mem_append, forall_mem_flatMap]
    exact ⟨keepsMargin_ite (by simp), fun _ _ => ⟨by simp,
        keepsMargin_ite (by simp)⟩,
      keepsMargin_ite (by simp), by simp⟩

/-! ### Lines that have changed -/

section

variable [DecidableEq Glyph]

theorem eq_of_changedRange_eq_none (h : MainScreenInv g z s t lines)
    (hran : changedRange s.previousLines new = none) : new = lines := by
  rw [h.previous] at hran
  obtain ⟨hle, hsame⟩ := changedRange_eq_none hran
  have hlen : new.length = lines.length := by
    by_contra hne
    have hlt : new.length < lines.length := by omega
    have hlast := hsame new.length
    rw [getD_eq_default new _ (Nat.le_refl _), getD_eq_getElem _ _ hlt] at hlast
    exact h.resets _ (getElem_mem hlt) hlast
  refine ext_getElem hlen fun i hi hi' => ?_
  have heq := hsame i
  rw [getD_eq_getElem _ _ hi, getD_eq_getElem _ _ hi'] at heq
  exact heq.symm

theorem inv_renderUnchanged (h : MainScreenInv g z s t lines) (hfrm : FrameFits g z new cursorPos)
    (hcur : ∀ row col, cursorPos = some (row, col) → s.previousViewportTop ≤ row)
    (hran : changedRange s.previousLines new = none) : MainScreenInv g z (s.renderUnchanged z new cursorPos).1
      (t.run z (s.renderUnchanged z new cursorPos).2) new := by
  obtain rfl := eq_of_changedRange_eq_none h hran
  obtain ⟨hlns, hwidth⟩ : (s.renderUnchanged z new cursorPos).1.previousLines = new ∧
      (s.renderUnchanged z new cursorPos).1.previousWidth = s.previousWidth := by
    simp only [renderUnchanged]
    rw [position_eq]
    exact ⟨h.previous, rfl⟩
  exact inv_position hfrm h.shows hcur h.fits h.top h.empty rfl hlns (hwidth ▸ h.width)
    (.inr rfl) (viewportTop_eq h.height) rfl

end

theorem scrollTo_eq (h : s.viewportTop z = s.previousViewportTop) {moveTargetRow : ℕ}
    (htgt : moveTargetRow < s.previousViewportTop + z.height) :
    (s.scrollTo z moveTargetRow : List (TerminalCommand Cell) × ℕ × ℕ) =
      ([], s.previousViewportTop, s.hardwareCursorRow) := by
  simp only [scrollTo, h]
  exact if_neg (by omega)

variable {first last : ℕ}

theorem overwrite_chunk (hfst : first ≤ last) (hlast : last < new.length)
    (hbef : ∀ i < first, lines.getD i [] = new.getD i []) {i : ℕ} (hi : i ≤ last) :
    Terminal.overwrite (docOf g z lines) first (((new.drop first).take (last + 1 - first)).map
        fun line => Terminal.rowOf z (lineCells g line)) i = docOf g z new i := by
  unfold Terminal.overwrite
  split
  · rw [List.getElem?_map, List.getElem?_take_of_lt (by omega), List.getElem?_drop,
      show first + (i - first) = i by omega, List.getElem?_eq_getElem (by omega), Option.map_some,
      Option.getD_some, docOf, getD_eq_getElem _ _ (by omega)]
  · rw [docOf, docOf, hbef i (by omega)]

theorem overwrite_chunk_of_lt (hfst : first ≤ last) {i : ℕ} (hi : last < i) : Terminal.overwrite (docOf g z lines) first
      (((new.drop first).take (last + 1 - first)).map
        fun line => Terminal.rowOf z (lineCells g line)) i = docOf g z lines i := by
  unfold Terminal.overwrite
  rw [if_pos (by omega), List.getElem?_eq_none]
  · rfl
  · rw [length_map, length_take]
    omega

theorem shows_start (h : t.Shows z doc top cursor) {appendStart : Bool} {first : ℕ}
    (hcol : appendStart = true → 0 < first ∧ top ≤ first - 1 ∧ first - 1 < top + z.height)
    (hin : appendStart = false → top ≤ first ∧ first < top + z.height)
    (hbel : ∀ i, top + z.height ≤ i → doc i = Terminal.blankRow z) (lineDiff : ℤ)
    (hdiff : lineDiff = (if appendStart then first - 1 else first : ℕ) - cursor) : ((t.run z (moveRows lineDiff)).run z
        (if appendStart then [.carriageReturn, .lineFeed] else [.carriageReturn])).Shows z doc
      (max top (first + 1 - z.height)) first ∧ ((t.run z (moveRows lineDiff)).run z
        (if appendStart then [.carriageReturn, .lineFeed] else [.carriageReturn])).col = 0 := by
  cases appendStart with
  | false =>
    obtain ⟨htop, hlt⟩ := hin rfl
    rw [show max top (first + 1 - z.height) = top by omega]
    exact ⟨(shows_moveRows h first htop hlt lineDiff hdiff).1.carriageReturn, rfl⟩
  | true =>
    obtain ⟨hpos, htop, hlt⟩ := hcol rfl
    have hmove := (shows_moveRows h (first - 1) htop hlt lineDiff hdiff).1.carriageReturn
    have hfeed := hmove.lineFeed fun heq => hbel _ (by omega)
    rw [show first - 1 + 2 - z.height = first + 1 - z.height by omega, show first - 1 + 1 = first by omega] at hfeed
    exact ⟨hfeed, Terminal.lineFeed_col _⟩

theorem shows_clearExtra (h : t.Shows z doc top cursor) {n extraLines : ℕ} (hcur : cursor ≤ n - 1)
    (hn : 0 < n) (hbot : n + extraLines ≤ top + z.height) :
    (t.run z ((if cursor < n - 1 then [.cursorDown (n - 1 - cursor)] else []) ++
        (List.replicate extraLines [.carriageReturn, .lineFeed, .eraseLine]).flatten ++ [.cursorUp extraLines])).Shows z
      (Terminal.overwrite doc n (List.replicate extraLines (Terminal.blankRow z))) top (n - 1) := by
  have hle := h.top_le
  have hdown : (t.run z (if cursor < n - 1 then [.cursorDown (n - 1 - cursor)] else [])).Shows z doc
      top (n - 1) := by
    split
    · exact (h.cursorDown (n := n - 1 - cursor) (by omega)).withCursor (by omega)
    · exact h.withCursor (by omega)
  have hera := hdown.eraseNext extraLines (by omega)
  rw [show n - 1 + 1 = n by omega] at hera
  rw [Terminal.run_append, Terminal.run_append]
  exact (hera.cursorUp (n := extraLines) (by omega)).withCursor (by omega)

theorem first_le (hrese : ∀ line ∈ new, line ≠ []) {first : ℕ} (hfst : first < new.length)
    (hbef : ∀ i < first, lines.getD i [] = new.getD i []) : first ≤ lines.length := by
  by_contra hgt
  have hlt : lines.length < new.length := by omega
  have hsame := hbef lines.length (by omega)
  rw [getD_eq_default _ _ (Nat.le_refl _), getD_eq_getElem _ _ hlt] at hsame
  exact hrese _ (getElem_mem hlt) hsame.symm

theorem shows_chunk (h : t.Shows z (docOf g z lines) (max top (first + 1 - z.height)) first) (hcol : t.col = 0)
    (hwidth : ∀ line ∈ new, (lineCells g line).length ≤ z.width) (hle : first ≤ last)
    (hlast : last < new.length) (hfits : lines.length ≤ top + z.height) :
    (t.run z (printLines g true ((new.drop first).take (last + 1 - first)))).Shows z
      (Terminal.overwrite (docOf g z lines) first (((new.drop first).take (last + 1 - first)).map
          fun line => Terminal.rowOf z (lineCells g line))) (max top (last + 1 - z.height)) last := by
  have hlen : ((new.drop first).take (last + 1 - first)).length = last + 1 - first := by
    rw [length_take, length_drop]
    omega
  have hpri : (t.run z (printLines g true ((new.drop first).take (last + 1 - first)))).Shows z
      _ _ _ := shows_printLines h hcol
    (by
      intro hnil
      rw [hnil, length_nil] at hlen
      omega)
    (fun line hline => hwidth line (mem_of_mem_drop (mem_of_mem_take hline)))
    (fun i hi => docOf_of_le (by omega)) (fun he => by cases he)
  rw [hlen, show first + (last + 1 - first) = last + 1 by omega,
    show max (max top (first + 1 - z.height)) (last + 1 - z.height) = max top (last + 1 - z.height) by omega] at hpri
  exact hpri

theorem shows_extra {last renderEnd : ℕ} (hren : min last (new.length - 1) = renderEnd)
    (h : t.Shows z doc (max top (renderEnd + 1 - z.height)) renderEnd)
    (hprin : ∀ i ≤ renderEnd, doc i = docOf g z new i) (hrest : ∀ i, renderEnd < i → doc i = docOf g z lines i)
    (haft : ∀ i, last < i → lines.getD i [] = new.getD i [])
    (hne : 0 < new.length) (hfits : lines.length ≤ top + z.height) : (t.run z (if new.length < lines.length then
      (if renderEnd < new.length - 1 then [.cursorDown (new.length - 1 - renderEnd)]
        else []) ++ (List.replicate (lines.length - new.length) [.carriageReturn, .lineFeed, .eraseLine]).flatten ++
      [.cursorUp (lines.length - new.length)] else [])).Shows z (docOf g z new)
      (max top ((if (decide (new.length < lines.length) &&
        decide (renderEnd < new.length - 1)) = true then new.length - 1 else renderEnd) + 1 - z.height))
      (if (decide (new.length < lines.length) &&
        decide (renderEnd < new.length - 1)) = true then new.length - 1 else renderEnd) := by
  have hunc : ∀ i, last < i → docOf g z lines i = docOf g z new i := by
    intro i hi
    rw [docOf, docOf, haft i hi]
  by_cases hfewer : new.length < lines.length
  · have hfin : (if (decide (new.length < lines.length) &&
        decide (renderEnd < new.length - 1)) = true then new.length - 1
        else renderEnd) = new.length - 1 := by
      simp only [hfewer, decide_true, Bool.true_and, decide_eq_true_eq]
      split <;> omega
    rw [hfin, if_pos hfewer]
    rw [show max top (renderEnd + 1 - z.height) = top by omega] at h
    rw [show max top (new.length - 1 + 1 - z.height) = top by omega]
    refine (shows_clearExtra h (by omega) hne (by omega)).congr fun i _ _ => ?_
    simp only [Terminal.overwrite, List.getElem?_replicate]
    split
    · rw [docOf_of_le (show new.length ≤ i by omega)]
      split
      · rfl
      · exact (hrest i (by omega)).trans (docOf_of_le (by omega))
    · obtain hgt | hle := Nat.lt_or_ge renderEnd i
      · exact (hrest i hgt).trans (hunc i (by omega))
      · exact hprin i hle
  · have hfin : (if (decide (new.length < lines.length) &&
        decide (renderEnd < new.length - 1)) = true then new.length - 1
        else renderEnd) = renderEnd := by
      simp [hfewer]
    rw [hfin, if_neg hfewer]
    refine h.congr fun i _ _ => ?_
    obtain hgt | hle := Nat.lt_or_ge renderEnd i
    · rw [hrest i hgt]
      obtain hlt | hge := Nat.lt_or_ge last i
      · exact hunc i hlt
      · rw [docOf_of_le (show lines.length ≤ i by omega), docOf_of_le (show new.length ≤ i by omega)]
    · exact hprin i hle

theorem inv_renderChanged (h : MainScreenInv g z s t lines) (hfrm : FrameFits g z new cursorPos)
    (hcur : ∀ row col, cursorPos = some (row, col) → s.previousViewportTop ≤ row) {first last : ℕ} (hle : first ≤ last)
    (hgrow : lines.length < new.length → last = new.length - 1) (hbef : ∀ i < first, lines.getD i [] = new.getD i [])
    (haft : ∀ i, last < i → lines.getD i [] = new.getD i [])
    (hfst : first < new.length) (hview : s.previousViewportTop ≤ first) :
    MainScreenInv g z (s.renderChanged g z first last new cursorPos).1
      (t.run z (s.renderChanged g z first last new cursorPos).2) new := by
  have hfits := h.fits
  have htop := h.top
  have hheight := h.shows.below
  have hpre : s.previousLines.length = lines.length := by rw [h.previous]
  have hlns := first_le hfrm.resets hfst hbef
  simp only [renderChanged, hpre]
  generalize happ : (decide (lines.length < new.length) && decide (first = lines.length) &&
    decide (0 < first)) = appendStart
  have happe : appendStart = true → lines.length < new.length ∧ first = lines.length ∧ 0 < first := by
    intro ha
    simpa [ha, and_assoc] using happ
  have hins : appendStart = false → first < s.previousViewportTop + z.height := by
    intro ha
    rw [ha] at happ
    simp only [Bool.and_eq_false_iff, decide_eq_false_iff_not] at happ
    omega
  have htgt : (if appendStart = true then first - 1 else first) < s.previousViewportTop + z.height := by
    cases appendStart with
    | false => exact hins rfl
    | true =>
      have := happe rfl
      rw [if_pos rfl]
      omega
  rw [scrollTo_eq (viewportTop_eq h.height) htgt]
  simp only [Terminal.run_append, Terminal.run_nil]
  obtain ⟨hsta, hcol⟩ := shows_start h.shows
    (fun ha => by have := happe ha; omega) (fun ha => ⟨hview, hins ha⟩)
    (fun i hi => docOf_of_le (show lines.length ≤ i by omega))
    (((if appendStart = true then first - 1 else first : ℕ) : ℤ) - s.previousViewportTop -
      (s.hardwareCursorRow - s.previousViewportTop)) (by omega)
  have hpri := shows_chunk hsta hcol hfrm.width
    (show first ≤ min last (new.length - 1) by omega) (by omega) hfits
  have hext := shows_extra rfl hpri
    (fun i hi => overwrite_chunk (by omega) (by omega) hbef hi)
    (fun i hi => overwrite_chunk_of_lt (by omega) hi) haft (by omega) hfits
  have hfin : (if (decide (new.length < lines.length) &&
      decide (min last (new.length - 1) < new.length - 1)) = true then new.length - 1
      else min last (new.length - 1)) < new.length := by
    split <;> omega
  have hgrown : lines.length < new.length → (if (decide (new.length < lines.length) &&
      decide (min last (new.length - 1) < new.length - 1)) = true then new.length - 1
      else min last (new.length - 1)) = new.length - 1 := by
    intro hlt
    have := hgrow hlt
    split <;> omega
  generalize (if (decide (new.length < lines.length) &&
      decide (min last (new.length - 1) < new.length - 1)) = true then new.length - 1
      else min last (new.length - 1)) = finalCursorRow at hext hfin hgrown ⊢
  refine inv_position hfrm hext (fun row col hc => ?_) ?_ ?_ (fun hnil => ?_) rfl rfl (.inr rfl) (.inr rfl) ?_ rfl
  · have := hcur row col hc
    have := (hfrm.cursor row col hc).2
    simp only
    omega
  · simp only
    omega
  · simp only
    omega
  · simp [hnil] at hfst
  · simp only
    rw [position_eq]

end MainScreen

/-! ### Frames -/

section

variable [DecidableEq Glyph]

variable (g z) in
/-- The rows of a frame: its lines as they are printed. -/
def frameRow (lines : List (Line Glyph)) : ℕ → TerminalRow Cell := docOf g z (lines.map (normalizeTerminalOutput g))

omit [DecidableEq Glyph] in
theorem lineCells_append (line line' : Line Glyph) :
    lineCells g (line ++ line') = lineCells g line ++ lineCells g line' :=
  flatMap_append

omit [DecidableEq Glyph] in
theorem lineCells_reset (line : Line Glyph) : lineCells g (line ++ segmentReset) = lineCells g line := by
  rw [lineCells_append]
  exact append_nil _

omit [DecidableEq Glyph] in
theorem normalize_append (line line' : Line Glyph) :
    normalizeTerminalOutput g (line ++ line') = normalizeTerminalOutput g line ++ normalizeTerminalOutput g line' :=
  flatMap_append

theorem lineCells_erase (line : Line Glyph) :
    lineCells g (normalizeTerminalOutput g (line.erase cursorMarker)) = lineCells g (normalizeTerminalOutput g line) := by
  by_cases hmem : cursorMarker ∈ line
  · obtain ⟨before, after, -, rfl, hera⟩ := exists_erase_eq hmem
    rw [hera]
    simp only [normalize_append, lineCells_append]
    rfl
  · rw [erase_of_not_mem hmem]

theorem extractCursorPosition_spec (lines : List (Line Glyph)) (height : ℕ) :
    (extractCursorPosition g lines height).2.length = lines.length ∧ (∀ i, lineCells g (normalizeTerminalOutput g
          ((extractCursorPosition g lines height).2.getD i [])) =
        lineCells g (normalizeTerminalOutput g (lines.getD i []))) ∧
      ∀ row col, (extractCursorPosition g lines height).1 = some (row, col) →
        row < lines.length ∧ lines.length - height ≤ row := by
  unfold extractCursorPosition
  dsimp only
  split
  · exact ⟨rfl, fun _ => rfl, fun row col h => by cases h⟩
  · rename_i row hfind
    obtain ⟨hrow, hlt, -⟩ := find?_range_reverse hfind
    simp only [Bool.and_eq_true, decide_eq_true_eq] at hrow
    refine ⟨length_set, fun i => ?_, fun row' col h => ?_⟩
    · by_cases heq : row = i
      · subst heq
        rw [getD_eq_getElem _ _ (by simpa using hlt), getElem_set_self, lineCells_erase]
      · simp only [getD_eq_getElem?_getD, List.getElem?_set_ne heq]
    · obtain ⟨rfl, -⟩ := Prod.mk.inj (Option.some.inj h)
      exact ⟨hlt, hrow.1⟩

theorem frameLines_fits {lines : List (Line Glyph)} (height : ℕ)
    (hwidth : ∀ line ∈ lines, visibleWidth g line ≤ z.width) (hheight : height = z.height) :
    MainScreen.FrameFits g z (frameLines g lines height).2 (frameLines g lines height).1 := by
  obtain ⟨hlen, hcel, hcur⟩ := extractCursorPosition_spec (g := g) lines height
  simp only [frameLines, applyLineResets]
  refine ⟨fun line hline => ?_, fun line hline => ?_, fun row col hc => ?_⟩
  · obtain ⟨line, -, rfl⟩ := mem_map.mp hline
    simp [segmentReset]
  · obtain ⟨found, hfnd, rfl⟩ := mem_map.mp hline
    obtain ⟨i, hi, rfl⟩ := mem_iff_getElem.mp hfnd
    have hsame := hcel i
    rw [getD_eq_getElem _ _ hi, getD_eq_getElem _ _ (hlen ▸ hi)] at hsame
    rw [lineCells_reset, hsame]
    exact hwidth _ (getElem_mem _)
  · rw [length_map, hlen, ← hheight]
    exact hcur row col hc

theorem docOf_frameLines (lines : List (Line Glyph)) (height : ℕ) :
    docOf g z (frameLines g lines height).2 = frameRow g z lines := by
  obtain ⟨hlen, hcel, -⟩ := extractCursorPosition_spec (g := g) lines height
  funext i
  simp only [frameLines, applyLineResets, frameRow]
  obtain hlt | hge := Nat.lt_or_ge i lines.length
  · have hsame := hcel i
    rw [getD_eq_getElem _ _ (hlen ▸ hlt), getD_eq_getElem _ _ hlt] at hsame
    rw [docOf, docOf, getD_eq_getElem _ _ (by simpa [hlen] using hlt),
      getD_eq_getElem _ _ (by simpa using hlt), getElem_map, getElem_map, lineCells_reset, hsame]
  · rw [docOf_of_le (by simpa [hlen] using hge), docOf_of_le (by simpa using hge)]

/-! ### Runs -/

namespace MainScreen

variable {s : MainScreen Glyph} {t : Terminal Cell} {lines : List (Line Glyph)}

variable (g z) in
/-- A frame that is not redrawn in full has its cursor marker, if any, on the screen as it is. -/
def CursorVisible (termux : Bool) (s : MainScreen Glyph) (frame : Frame Glyph) : Prop :=
  (∃ clear, s.renderPath z termux frame.clearOnShrink (frameLines g frame.lines z.height).2 = .full clear) ∨
    ∀ p ∈ (frameLines g frame.lines z.height).1, s.previousViewportTop ≤ p.1

theorem renderPath_cases (h : MainScreenInv g z s t lines) {termux clearOnShrink : Bool}
    {new : List (Line Glyph)} {path : RenderPath} (hpath : s.renderPath z termux clearOnShrink new = path) :
    (path = .full false ∧ lines = []) ∨ path = .full true ∨
    (path = .unchanged ∧ changedRange s.previousLines new = none) ∨
    (path = .deleted ∧ new.length < lines.length ∧ s.previousViewportTop ≤ new.length - 1 ∧
      ∀ i < new.length, lines.getD i [] = new.getD i []) ∨ ∃ first last, path = .changed first last ∧
      changedRange lines new = some (first, last) ∧ first < new.length ∧ s.previousViewportTop ≤ first := by
  have hpre := h.previous
  have hview := viewportTop_eq h.height
  unfold renderPath at hpath
  split at hpath
  · rename_i hemp
    simp only [Bool.and_eq_true, decide_eq_true_eq] at hemp
    exact .inl ⟨hpath.symm, hpre.symm.trans hemp.1.1⟩
  split at hpath
  · exact .inr (.inl hpath.symm)
  split at hpath
  · exact .inr (.inl hpath.symm)
  split at hpath
  · exact .inr (.inl hpath.symm)
  split at hpath
  · rename_i hnone
    exact .inr (.inr (.inl ⟨hpath.symm, hnone⟩))
  rename_i first last hran
  rw [hpre] at hran
  obtain ⟨hle, hlast, -, hbef, -⟩ := changedRange_eq_some hran
  simp only [hpre, hview] at hpath
  split at hpath
  · rename_i hgone
    split at hpath
    · exact .inr (.inl hpath.symm)
    · rename_i hin
      simp only [Bool.and_eq_true, Bool.or_eq_true, decide_eq_true_eq, not_and, not_or] at hin
      have hfewer : new.length < lines.length := by omega
      exact .inr (.inr (.inr (.inl ⟨hpath.symm, hfewer, by have := hin hfewer; omega, fun i hi => hbef i (by omega)⟩)))
  · split at hpath
    · exact .inr (.inl hpath.symm)
    · exact .inr (.inr (.inr (.inr ⟨first, last, hpath.symm, hran, by omega, by omega⟩)))

/-- **One frame.** -/
theorem inv_doRender (h : MainScreenInv g z s t lines) (termux : Bool) {frame : Frame Glyph}
    (hwidth : ∀ line ∈ frame.lines, visibleWidth g line ≤ z.width) (hvisible : CursorVisible g z termux s frame) :
    ∃ s' commands, s.doRender g z termux frame = some (s', commands) ∧
      MainScreenInv g z s' (t.run z commands) (frameLines g frame.lines z.height).2 := by
  have hfrm := frameLines_fits z.height hwidth rfl
  have hheight : 0 < z.height := Nat.zero_lt_of_lt h.shows.below
  unfold doRender
  dsimp only
  unfold CursorVisible at hvisible
  generalize (frameLines g frame.lines z.height).2 = new at hfrm hvisible
  generalize (frameLines g frame.lines z.height).1 = cursorPos at hfrm hvisible
  have hcur : ∀ {path : RenderPath}, s.renderPath z termux frame.clearOnShrink new = path →
      (∀ clear, path ≠ .full clear) → ∀ row col, cursorPos = some (row, col) → s.previousViewportTop ≤ row := by
    intro path hpath hne row col hc
    obtain ⟨clear, hfull⟩ | hin := hvisible
    · exact absurd (hpath.symm.trans hfull) (hne clear)
    · exact hin (row, col) hc
  generalize hpath : s.renderPath z termux frame.clearOnShrink new = path
  obtain ⟨rfl, hnil⟩ | rfl | ⟨rfl, hnone⟩ | ⟨rfl, hfewer, hview, hsame⟩ |
    ⟨first, last, rfl, hran, hfst, hview⟩ := renderPath_cases h hpath
  · -- the first frame, on a screen that is still empty
    obtain ⟨hcol, hrow⟩ := h.empty hnil
    have htop : s.previousViewportTop = 0 := by
      have := h.top
      simpa [hnil] using this
    have hsho := h.shows
    rw [hnil, docOf_nil, htop, hrow] at hsho
    exact ⟨_, _, rfl, inv_fullRender hfrm false hsho hcol⟩
  · exact ⟨_, _, rfl, inv_fullRender hfrm true (Terminal.shows_clear hheight t) rfl⟩
  · exact ⟨_, _, rfl, inv_renderUnchanged h hfrm (hcur hpath (by simp)) hnone⟩
  · exact ⟨_, _, rfl, inv_renderDeleted h hfrm (hcur hpath (by simp)) hfewer hview hsame⟩
  · obtain ⟨hle, -, hgrow, hbef, haft⟩ := changedRange_eq_some hran
    simp only
    rw [if_pos (all_eq_true.mpr fun line hline => decide_eq_true (hfrm.width line
      (mem_of_mem_drop (mem_of_mem_take hline))))]
    exact ⟨_, _, rfl, inv_renderChanged h hfrm (hcur hpath (by simp)) hle hgrow hbef haft
      hfst hview⟩

variable (g z) in
/-- The frames of a run, one after the other. -/
def renderAll (termux : Bool) (s : MainScreen Glyph) (t : Terminal Cell) :
    List (Frame Glyph) → Option (MainScreen Glyph × Terminal Cell)
  | [] => some (s, t)
  | frame :: frames =>
    match s.doRender g z termux frame with
    | none => none
    | some (s, commands) => renderAll termux s (t.run z commands) frames

variable (g z) in
/-- The cursor marker is on the screen in each frame of a run that is not redrawn in full. -/
def CursorsVisible (termux : Bool) (s : MainScreen Glyph) : List (Frame Glyph) → Prop
  | [] => True
  | frame :: frames => CursorVisible g z termux s frame ∧ match s.doRender g z termux frame with
    | none => True
    | some (s, _) => CursorsVisible termux s frames

instance CursorVisible.decidable (termux : Bool) (s : MainScreen Glyph) (frame : Frame Glyph) :
    Decidable (CursorVisible g z termux s frame) :=
  inferInstanceAs (Decidable (_ ∨ _))

instance CursorsVisible.decidable (termux : Bool) (s : MainScreen Glyph) :
    (frames : List (Frame Glyph)) → Decidable (CursorsVisible g z termux s frames)
  | [] => .isTrue trivial
  | frame :: frames =>
    have : Decidable (match s.doRender g z termux frame with
        | none => True
        | some (s, _) => CursorsVisible g z termux s frames) :=
      match s.doRender g z termux frame with
      | none => .isTrue trivial
      | some (s, _) => CursorsVisible.decidable termux s frames
    inferInstanceAs (Decidable (_ ∧ _))

theorem inv_renderAll (h : MainScreenInv g z s t lines) (termux : Bool) {frames : List (Frame Glyph)}
    (hwidth : ∀ frame ∈ frames, ∀ line ∈ frame.lines, visibleWidth g line ≤ z.width)
    (hvisible : CursorsVisible g z termux s frames) :
    ∃ s' t', renderAll g z termux s t frames = some (s', t') ∧ MainScreenInv g z s' t'
        (frames.foldl (fun _ frame => (frameLines g frame.lines z.height).2) lines) := by
  induction frames generalizing s t lines with
  | nil => exact ⟨s, t, rfl, h⟩
  | cons frame frames ih =>
    obtain ⟨hfst, hrest⟩ := hvisible
    obtain ⟨s', commands, hren, hinv⟩ := inv_doRender h termux (hwidth frame mem_cons_self) hfst
    simp only [hren] at hrest
    simp only [renderAll, hren, foldl_cons]
    exact ih hinv (fun f hf => hwidth f (mem_cons_of_mem _ hf)) hrest

/-- **Each row of the screen shows its line of the newest frame**, and the cursor is in the row that
is noted, which is on the screen. -/
theorem screen_shows_last_frame (hheight : 0 < z.height) (termux : Bool)
    (frames : List (Frame Glyph)) (frame : Frame Glyph)
    (hwidth : ∀ f ∈ frames ++ [frame], ∀ line ∈ f.lines, visibleWidth g line ≤ z.width)
    (hvisible : CursorsVisible g z termux {} (frames ++ [frame])) :
    ∃ s t, renderAll g z termux {} (Terminal.clean z) (frames ++ [frame]) = some (s, t) ∧
      (∀ r < z.height, t.screen r = frameRow g z frame.lines (s.previousViewportTop + r)) ∧
      s.previousViewportTop ≤ s.hardwareCursorRow ∧ t.row = s.hardwareCursorRow - s.previousViewportTop := by
  obtain ⟨s, t, hrun, hinv⟩ := inv_renderAll (MainScreenInv.init hheight) termux hwidth hvisible
  have hsho := hinv.shows
  rw [foldl_append, foldl_cons, foldl_nil, docOf_frameLines] at hsho
  have hrow := hsho.row
  exact ⟨s, t, hrun, hsho.rows, hsho.top_le, by omega⟩

end MainScreen

end

namespace Shrunk

/-! Four lines in two rows, then three of them with the cursor marker in the second line, which is
in the last two lines of the frame but not on the screen. -/

def glyphs : GlyphMap Char Char := ⟨fun c => [c], fun c => [c]⟩

def size : TerminalSize Char := ⟨4, 2, ' '⟩

def long : Frame Char := ⟨[[.glyph 'a'], [.glyph 'b'], [.glyph 'c'], [.glyph 'd']], false⟩

def shorter : Frame Char := ⟨[[.glyph 'a'], [cursorMarker, .glyph 'b'], [.glyph 'c']], false⟩

def edited : Frame Char := ⟨[[.glyph 'a'], [cursorMarker, .glyph 'b'], [.glyph 'x']], false⟩

def followed : Frame Char := ⟨[[.glyph 'a'], [.glyph 'b'], [cursorMarker, .glyph 'x']], false⟩

theorem followed_shows_last_line : ∃ s t,
    MainScreen.renderAll glyphs size false {} (Terminal.clean size) ([long] ++ [followed]) = some (s, t) ∧
    (∀ r < size.height, t.screen r = frameRow glyphs size followed.lines (s.previousViewportTop + r)) ∧
    s.previousViewportTop ≤ s.hardwareCursorRow ∧ t.row = s.hardwareCursorRow - s.previousViewportTop :=
  MainScreen.screen_shows_last_frame (by decide) false [long] followed (by decide +kernel) (by decide +kernel)

/-- The noted row is above the screen, and the next change is printed one row too low. -/
theorem marker_above_screen : (∃ s t, MainScreen.renderAll glyphs size false {} (Terminal.clean size) [long, shorter] =
        some (s, t) ∧ s.hardwareCursorRow < s.previousViewportTop) ∧
    ∃ s t, MainScreen.renderAll glyphs size false {} (Terminal.clean size) [long, shorter, edited] = some (s, t) ∧
      t.screen 0 0 = 'c' ∧ frameRow glyphs size edited.lines (s.previousViewportTop + 0) 0 = 'x' := by
  exact ⟨⟨_, _, rfl, by decide +kernel⟩, ⟨_, _, rfl, by decide +kernel, by decide +kernel⟩⟩

end Shrunk

end EasyPi.Tui
