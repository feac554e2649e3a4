/-
# Truncation to a width

`truncateToWidth` of `packages/tui/src/utils.ts`. Text of printable ASCII is cut by its length. The other paths walk
through the graphemes, or through the escape sequences, tabs and graphemes, and decide in one pass what is kept and
whether the text overflows. Sequences wait until the grapheme behind them is kept.
-/
import EasyPi.Tui.Graphemes
import EasyPi.Tui.StyleTracker

namespace EasyPi.Tui

open List

/-- The variables of the loops of `truncateFragmentToWidth`; `done` when the loop is left. -/
structure Fragment where
  text : Text := []
  pendingAnsi : Text := []
  width : ℕ := 0
  done : Bool := false

variable (u : Unicode)

def Fragment.item (maxWidth : ℕ) (f : Fragment) : Item → Fragment
  | .code seq => if f.done then f else { f with pendingAnsi := f.pendingAnsi ++ seq }
  | .glyph g =>
    if f.done then f
    else if maxWidth < f.width + u.graphemeWidth g then { f with done := true }
    else { f with text := f.text ++ f.pendingAnsi ++ g, pendingAnsi := [], width := f.width + u.graphemeWidth g }

/-- `truncateFragmentToWidth`; what it returns is the text and the width. -/
def truncateFragmentToWidth (text : Text) (maxWidth : ℕ) : Text × ℕ :=
  if maxWidth = 0 ∨ text = [] then ([], 0)
  else if isPrintableAscii text then (text.take maxWidth, (text.take maxWidth).length)
  else
    let items := if esc ∉ text ∧ tab ∉ text then (u.graphemes text).map .glyph else itemsOf u true text
    let f := items.foldl (Fragment.item u maxWidth) {}
    (f.text, f.width)

/-! ### The loops -/

def resetSequence : Text := [esc, openBracket, 0x30, lowerM]

def padded (pad : Bool) (n : ℕ) (text : Text) : Text := if pad then text ++ List.replicate n space else text

def finalizeTruncatedResult (kept : Text) (keptWidth : ℕ) (ellipsis : Text) (ellipsisWidth maxWidth : ℕ) (pad : Bool) :
    Text :=
  let close := getActiveOsc8Close kept
  padded pad (maxWidth - (keptWidth + ellipsisWidth))
    (if ellipsis ≠ [] then kept ++ close ++ resetSequence ++ ellipsis ++ resetSequence
     else kept ++ close ++ resetSequence)

/-- The variables of the loops of `truncateToWidth`. -/
structure Scan where
  result : Text := []
  pendingAnsi : Text := []
  visibleSoFar : ℕ := 0
  keptWidth : ℕ := 0
  keepContiguousPrefix : Bool := true
  overflowed : Bool := false

variable (targetWidth maxWidth : ℕ)

def Scan.plain (st : Scan) (g : Text) : Scan :=
  if st.overflowed then st
  else
    let width := u.graphemeWidth g
    let kept :=
      if st.keepContiguousPrefix ∧ st.keptWidth + width ≤ targetWidth then
        { st with result := st.result ++ g, keptWidth := st.keptWidth + width }
      else { st with keepContiguousPrefix := false }
    { kept with
      visibleSoFar := st.visibleSoFar + width
      overflowed := maxWidth < st.visibleSoFar + width }

/-- The body of the loop over escape sequences, tabs and graphemes. -/
def Scan.styled (st : Scan) : Item → Scan
  | .code seq => if st.overflowed then st else { st with pendingAnsi := st.pendingAnsi ++ seq }
  | .glyph g =>
    if st.overflowed then st
    else
      let width := u.graphemeWidth g
      let kept :=
        if st.keepContiguousPrefix ∧ st.keptWidth + width ≤ targetWidth then
          { st with result := st.result ++ st.pendingAnsi ++ g, pendingAnsi := [], keptWidth := st.keptWidth + width }
        else { st with keepContiguousPrefix := false, pendingAnsi := [] }
      { kept with
        visibleSoFar := st.visibleSoFar + width
        overflowed := maxWidth < st.visibleSoFar + width }

variable (text ellipsis : Text) (ellipsisWidth : ℕ) (pad : Bool)

def Scan.finish (st : Scan) : Text :=
  if st.overflowed then finalizeTruncatedResult st.result st.keptWidth ellipsis ellipsisWidth maxWidth pad
  else padded pad (maxWidth - st.visibleSoFar) text

def truncateAscii : Text :=
  let targetWidth := maxWidth - ellipsisWidth
  if text.length ≤ maxWidth then padded pad (maxWidth - text.length) text
  else finalizeTruncatedResult (text.take targetWidth) targetWidth ellipsis ellipsisWidth maxWidth pad

/-- The path of text without escape sequences and tabs. -/
def truncatePlain : Text :=
  ((u.graphemes text).foldl (Scan.plain u (maxWidth - ellipsisWidth) maxWidth) {}).finish maxWidth text ellipsis
    ellipsisWidth pad

/-- The path of text with escape sequences or tabs. -/
def truncateStyled : Text :=
  ((itemsOf u true text).foldl (Scan.styled u (maxWidth - ellipsisWidth) maxWidth) {}).finish maxWidth text ellipsis
    ellipsisWidth pad

def truncateToWidth : Text :=
  if maxWidth = 0 then []
  else if text = [] then padded pad maxWidth []
  else
    let ellipsisWidth := u.visibleWidth ellipsis
    if maxWidth ≤ ellipsisWidth then
      let textWidth := u.visibleWidth text
      if textWidth ≤ maxWidth then padded pad (maxWidth - textWidth) text
      else
        let clippedEllipsis := truncateFragmentToWidth u ellipsis maxWidth
        if clippedEllipsis.2 = 0 then padded pad maxWidth []
        else finalizeTruncatedResult [] 0 clippedEllipsis.1 clippedEllipsis.2 maxWidth pad
    else if isPrintableAscii text then truncateAscii maxWidth text ellipsis ellipsisWidth pad
    else if esc ∉ text ∧ tab ∉ text then truncatePlain u maxWidth text ellipsis ellipsisWidth pad
    else truncateStyled u maxWidth text ellipsis ellipsisWidth pad

/-! ### What the loops keep -/

section
variable {u targetWidth maxWidth} {st : Scan} {items : List Item} {limit : ℕ}

theorem styled_overflowed (h : st.overflowed = true) (item : Item) : st.styled u targetWidth maxWidth item = st := by
  unfold Scan.styled
  cases item with
  | code seq => exact if_pos h
  | glyph g => exact if_pos h

theorem foldl_styled_overflowed (h : st.overflowed = true) (items : List Item) :
    items.foldl (Scan.styled u targetWidth maxWidth) st = st := by
  induction items with
  | nil => rfl
  | cons item items ih => rw [foldl_cons, styled_overflowed h, ih]

/-- What a loop says behind a state: the longest part that fits is kept, with the sequences before its graphemes, and
the text overflows when it is too wide. -/
structure Scanned (u : Unicode) (targetWidth maxWidth : ℕ) (st : Scan) (items : List Item) (last : Scan) : Prop where
  overflowed : last.overflowed = true ↔ maxWidth < st.visibleSoFar + weightOf u.graphemeWidth (glyphsOf items)
  visible : last.overflowed = false → last.visibleSoFar = st.visibleSoFar + weightOf u.graphemeWidth (glyphsOf items)
  kept : ∃ kept, kept <+: items ∧ (glyphsOf kept = [] → kept = []) ∧
    glyphsOf kept = (if st.keepContiguousPrefix then
      fitting u.graphemeWidth (targetWidth - st.keptWidth) (glyphsOf items) else []) ∧
    last.result = st.result ++ (if kept = [] then [] else st.pendingAnsi ++ textOfItems kept) ∧
    last.keptWidth = st.keptWidth + weightOf u.graphemeWidth (glyphsOf kept)

theorem glyphsOf_glyph (g : Text) (items : List Item) : glyphsOf (.glyph g :: items) = g :: glyphsOf items := rfl

theorem textOfItems_cons (item : Item) (items : List Item) :
    textOfItems (item :: items) = item.text ++ textOfItems items := rfl

/-- **The loop over a styled text**, from any of its states on. -/
theorem scanStyled_spec (hle : targetWidth ≤ maxWidth) (items : List Item) (st : Scan) (hopen : st.overflowed = false)
    (hvis : st.visibleSoFar ≤ maxWidth)
    (hwd : st.keepContiguousPrefix = true → st.keptWidth = st.visibleSoFar ∧ st.keptWidth ≤ targetWidth) :
    Scanned u targetWidth maxWidth st items (items.foldl (Scan.styled u targetWidth maxWidth) st) := by
  induction items generalizing st with
  | nil =>
    refine ⟨?_, fun _ => rfl, [], prefix_rfl, fun _ => rfl, (ite_self _).symm, ?_, rfl⟩
    · rw [foldl_nil, hopen]
      exact ⟨fun h => absurd h Bool.false_ne_true, fun h => absurd h (Nat.not_lt_of_le hvis)⟩
    · rw [if_pos rfl, append_nil]
      rfl
  | cons item items ih =>
    rw [foldl_cons]
    cases item with
    | code seq =>
      have hstep : st.styled u targetWidth maxWidth (.code seq) = { st with pendingAnsi := st.pendingAnsi ++ seq } :=
        if_neg (by simp [hopen])
      obtain ⟨hove, hlast, kept, hpre, hends, hgl, hres, hkept⟩ :=
        ih { st with pendingAnsi := st.pendingAnsi ++ seq } hopen hvis hwd
      rw [hstep]
      refine ⟨hove, hlast, ?_⟩
      by_cases hnil : kept = []
      · subst hnil
        exact ⟨[], nil_prefix, fun _ => rfl, hgl, hres, hkept⟩
      · refine ⟨.code seq :: kept, (prefix_cons_inj _).mpr hpre, fun h => absurd (hends h) hnil, hgl, ?_, hkept⟩
        rw [hres, if_neg hnil, if_neg (cons_ne_nil _ _), textOfItems_cons, append_assoc]
        rfl
    | glyph g =>
      have hwei : weightOf u.graphemeWidth (glyphsOf (.glyph g :: items)) =
          u.graphemeWidth g + weightOf u.graphemeWidth (glyphsOf items) := weightOf_cons
      by_cases hfits : st.keepContiguousPrefix = true ∧ st.keptWidth + u.graphemeWidth g ≤ targetWidth
      · obtain ⟨hkeep, hroom⟩ := hfits
        obtain ⟨hsame, -⟩ := hwd hkeep
        have hin : ¬ maxWidth < st.visibleSoFar + u.graphemeWidth g := by omega
        have hstep : st.styled u targetWidth maxWidth (.glyph g) =
            { st with
              result := st.result ++ st.pendingAnsi ++ g
              pendingAnsi := []
              keptWidth := st.keptWidth + u.graphemeWidth g
              visibleSoFar := st.visibleSoFar + u.graphemeWidth g
              overflowed := false } := by
          unfold Scan.styled
          dsimp only
          rw [if_neg (by simp [hopen]), if_pos ⟨hkeep, hroom⟩, decide_eq_false hin]
        rw [hstep]
        obtain ⟨hove, hlast, kept, hpre, -, hgl, hres, hkept⟩ :=
          ih { st with
            result := st.result ++ st.pendingAnsi ++ g
            pendingAnsi := []
            keptWidth := st.keptWidth + u.graphemeWidth g
            visibleSoFar := st.visibleSoFar + u.graphemeWidth g
            overflowed := false } rfl (Nat.le_of_not_lt hin)
            (fun _ => ⟨congrArg (· + u.graphemeWidth g) hsame, hroom⟩)
        dsimp only at hove hlast hgl hres hkept
        refine ⟨?_, ?_, .glyph g :: kept, (prefix_cons_inj _).mpr hpre, fun h => absurd h (cons_ne_nil _ _), ?_, ?_, ?_⟩
        · rw [hwei, ← Nat.add_assoc]
          exact hove
        · rw [hwei, ← Nat.add_assoc]
          exact hlast
        · rw [glyphsOf_glyph, glyphsOf_glyph, hgl, if_pos hkeep, if_pos hkeep, fitting, if_pos (by omega), Nat.sub_add_eq]
        · rw [hres, if_neg (cons_ne_nil _ _), textOfItems_cons, append_assoc, append_assoc, nil_append]
          congr 2
          split
          · rename_i hnil
            rw [hnil]
            rfl
          · rfl
        · rw [hkept, glyphsOf_glyph, weightOf_cons, Nat.add_assoc]
      · have hstep : st.styled u targetWidth maxWidth (.glyph g) =
            { st with
              keepContiguousPrefix := false
              pendingAnsi := []
              visibleSoFar := st.visibleSoFar + u.graphemeWidth g
              overflowed := maxWidth < st.visibleSoFar + u.graphemeWidth g } := by
          unfold Scan.styled
          dsimp only
          rw [if_neg (by simp [hopen]), if_neg hfits]
        have hnone : (if st.keepContiguousPrefix then
            fitting u.graphemeWidth (targetWidth - st.keptWidth) (glyphsOf (.glyph g :: items)) else []) = [] := by
          by_cases hkeep : st.keepContiguousPrefix = true
          · have hroom : ¬ u.graphemeWidth g ≤ targetWidth - st.keptWidth := fun h => hfits ⟨hkeep, by
              have hle := (hwd hkeep).2
              omega⟩
            rw [if_pos hkeep, glyphsOf_glyph, fitting, if_neg hroom]
          · rw [if_neg hkeep]
        by_cases hover : maxWidth < st.visibleSoFar + u.graphemeWidth g
        · rw [hstep, foldl_styled_overflowed (decide_eq_true hover)]
          refine ⟨?_, fun h => ?_, [], nil_prefix, fun _ => rfl, hnone.symm, ?_, rfl⟩
          · rw [decide_eq_true hover, hwei]
            exact ⟨fun _ => by omega, fun _ => rfl⟩
          · dsimp only at h
            rw [decide_eq_true hover] at h
            cases h
          · rw [if_pos rfl, append_nil]
        · rw [hstep, decide_eq_false hover]
          obtain ⟨hove, hlast, kept, hpre, hends, hgl, hres, hkept⟩ :=
            ih { st with
              keepContiguousPrefix := false
              pendingAnsi := []
              visibleSoFar := st.visibleSoFar + u.graphemeWidth g
              overflowed := false } rfl (Nat.le_of_not_lt hover) (fun h => absurd h Bool.false_ne_true)
          dsimp only at hove hlast hgl hres hkept
          rw [if_neg Bool.false_ne_true] at hgl
          obtain rfl := hends hgl
          refine ⟨?_, ?_, [], nil_prefix, fun _ => rfl, hnone.symm, hres, hkept⟩
          · rw [hwei, ← Nat.add_assoc]
            exact hove
          · rw [hwei, ← Nat.add_assoc]
            exact hlast

theorem scanStyled_start (hle : targetWidth ≤ maxWidth) (items : List Item) :
    let last := items.foldl (Scan.styled u targetWidth maxWidth) {}
    (last.overflowed = true ↔ maxWidth < weightOf u.graphemeWidth (glyphsOf items)) ∧
      (last.overflowed = false → last.visibleSoFar = weightOf u.graphemeWidth (glyphsOf items)) ∧
      ∃ kept, kept <+: items ∧ glyphsOf kept = fitting u.graphemeWidth targetWidth (glyphsOf items) ∧
        last.result = textOfItems kept ∧ last.keptWidth = weightOf u.graphemeWidth (glyphsOf kept) := by
  obtain ⟨hove, hlast, kept, hpre, -, hgl, hres, hkept⟩ :=
    scanStyled_spec hle items {} rfl (Nat.zero_le _) fun _ => ⟨rfl, Nat.zero_le _⟩
  rw [Nat.zero_add] at hove hlast hkept
  refine ⟨hove, hlast, kept, hpre, hgl, ?_, hkept⟩
  rw [hres]
  split
  · rename_i hnil
    rw [hnil]
    rfl
  · rfl

/-! ### The paths agree -/

theorem foldl_plain (gs : List Text) (st : Scan) (hpend : st.pendingAnsi = []) :
    gs.foldl (Scan.plain u targetWidth maxWidth) st = (gs.map Item.glyph).foldl (Scan.styled u targetWidth maxWidth) st := by
  induction gs generalizing st with
  | nil => rfl
  | cons g gs ih =>
    have hstep : st.plain u targetWidth maxWidth g = st.styled u targetWidth maxWidth (.glyph g) := by
      unfold Scan.plain Scan.styled
      dsimp only
      rw [hpend, append_nil]
    have hnext : (st.styled u targetWidth maxWidth (.glyph g)).pendingAnsi = [] := by
      unfold Scan.styled
      dsimp only
      split
      · exact hpend
      · dsimp only
        split
        · rfl
        · rfl
    rw [map_cons, foldl_cons, foldl_cons, hstep, ih _ hnext]

theorem itemsOf_plain (hu : u.LawfulGraphemes) {text : Text} (hesc : esc ∉ text) (htab : tab ∉ text) :
    itemsOf u true text = (u.graphemes text).map .glyph := by
  have hchu : ∀ run, chunksFrom true run (text.map .unit) = flushRun (run ++ text) := by
    clear hesc
    induction text with
    | nil =>
      intro run
      rw [append_nil]
      rfl
    | cons c text ih =>
      intro run
      rw [mem_cons, not_or] at htab
      rw [map_cons, chunksFrom, if_neg (by simpa using Ne.symm htab.1), ih htab.2, append_assoc, singleton_append]
  unfold itemsOf chunks
  rw [pieces_plain hesc, hchu, nil_append, flushRun]
  split
  · rename_i hnil
    rw [hnil, Unicode.graphemes_nil hu]
    rfl
  · exact flatMap_singleton _ _

theorem truncatePlain_eq (hu : u.LawfulGraphemes) {text : Text} (hesc : esc ∉ text) (htab : tab ∉ text)
    (ellipsis : Text) (ellipsisWidth : ℕ) (pad : Bool) :
    truncatePlain u maxWidth text ellipsis ellipsisWidth pad = truncateStyled u maxWidth text ellipsis ellipsisWidth pad := by
  unfold truncatePlain truncateStyled
  rw [foldl_plain _ _ rfl, itemsOf_plain hu hesc htab]

theorem isPrintableAscii_take {text : Text} (h : isPrintableAscii text = true) (n : ℕ) :
    isPrintableAscii (text.take n) = true :=
  all_eq_true.mpr fun c hc => all_eq_true.mp h c (mem_of_mem_take hc)

theorem fitting_printable {text : Text} (h : isPrintableAscii text = true) (limit : ℕ) :
    fitting u.graphemeWidth limit (text.map ([·])) = (text.take limit).map ([·]) := by
  induction text generalizing limit with
  | nil => rw [take_nil]; rfl
  | cons c text ih =>
    obtain ⟨hc, htext⟩ : isPrintable c = true ∧ isPrintableAscii text = true := by simpa [isPrintableAscii] using h
    rw [map_cons, fitting, Unicode.graphemeWidth_printable hc]
    cases limit with
    | zero => rfl
    | succ limit => rw [if_pos (Nat.le_add_left 1 limit), Nat.add_sub_cancel, ih htext, take_succ_cons, map_cons]

theorem textOfItems_glyphs (gs : List Text) : textOfItems (gs.map .glyph) = gs.flatten := by
  unfold textOfItems
  rw [flatMap_map]
  exact flatMap_id

theorem glyphsOf_glyphs (gs : List Text) : glyphsOf (gs.map .glyph) = gs := by
  unfold glyphsOf
  rw [flatMap_map]
  exact flatMap_singleton' gs

theorem truncateAscii_eq (ha : u.AsciiGraphemes) {text : Text} (h : isPrintableAscii text = true) (ellipsis : Text)
    (ellipsisWidth : ℕ) (pad : Bool) :
    truncateAscii maxWidth text ellipsis ellipsisWidth pad = truncatePlain u maxWidth text ellipsis ellipsisWidth pad := by
  obtain ⟨hove, hlast, kept, hpre, hgl, hres, hkept⟩ :=
    scanStyled_start (u := u) (Nat.sub_le maxWidth ellipsisWidth) ((text.map ([·])).map .glyph)
  unfold truncateAscii truncatePlain
  rw [ha text h, foldl_plain _ _ rfl]
  rw [glyphsOf_glyphs, Unicode.weightOf_printable h] at hove hlast
  obtain ⟨gs, -, rfl⟩ := prefix_map_iff.mp hpre
  rw [glyphsOf_glyphs] at hgl hkept
  rw [glyphsOf_glyphs, fitting_printable h] at hgl
  have hres' : (((text.map ([·])).map Item.glyph).foldl (Scan.styled u (maxWidth - ellipsisWidth) maxWidth) {}).result =
      text.take (maxWidth - ellipsisWidth) := by
    rw [hres, textOfItems_glyphs, hgl]
    exact flatMap_singleton' _
  unfold Scan.finish
  dsimp only
  by_cases hfits : text.length ≤ maxWidth
  · have hin := Bool.eq_false_iff.mpr (mt hove.mp (Nat.not_lt_of_le hfits))
    rw [if_pos hfits, hin, if_neg Bool.false_ne_true, hlast hin]
  · have hlen : (text.take (maxWidth - ellipsisWidth)).length = maxWidth - ellipsisWidth := by
      rw [length_take]
      omega
    have htake : isPrintableAscii (text.take (maxWidth - ellipsisWidth)) = true := isPrintableAscii_take h _
    rw [if_neg hfits, hove.mpr (Nat.lt_of_not_le hfits), if_pos rfl, hres', hkept, hgl,
      Unicode.weightOf_printable htake, hlen]

/-! ### The clipped ellipsis -/

/-- The loops over the ellipsis and over a text that may take all the width. -/
structure Fragment.Matches (f : Fragment) (st : Scan) : Prop where
  text : st.result = f.text
  width : st.keptWidth = f.width
  done : st.overflowed = f.done
  going : f.done = false → st.pendingAnsi = f.pendingAnsi ∧ st.visibleSoFar = f.width ∧ st.keepContiguousPrefix = true

theorem Fragment.Matches.item {f : Fragment} (h : f.Matches st) (item : Item) :
    (f.item u maxWidth item).Matches (st.styled u maxWidth maxWidth item) := by
  obtain ⟨htext, hwd, hdone, hgoi⟩ := h
  by_cases hf : f.done = true
  · have hkp : f.item u maxWidth item = f := by
      cases item with
      | code seq => exact if_pos hf
      | glyph g => exact if_pos hf
    rw [hkp, styled_overflowed (hdone.trans hf)]
    exact ⟨htext, hwd, hdone, hgoi⟩
  obtain ⟨hpend, hvis, hkeep⟩ := hgoi (Bool.eq_false_iff.mpr hf)
  have hst : ¬ st.overflowed = true := by rwa [hdone]
  unfold Fragment.item Scan.styled
  cases item with
  | code seq =>
    dsimp only
    rw [if_neg hf, if_neg hst]
    exact ⟨htext, hwd, hdone, fun _ => ⟨congrArg (· ++ seq) hpend, hvis, hkeep⟩⟩
  | glyph g =>
    dsimp only
    rw [if_neg hf, if_neg hst, hwd, hvis]
    by_cases hwide : maxWidth < f.width + u.graphemeWidth g
    · rw [if_pos hwide, if_neg fun h => absurd h.2 (Nat.not_le_of_lt hwide), decide_eq_true hwide]
      exact ⟨htext, rfl, rfl, fun h => absurd h.symm Bool.false_ne_true⟩
    · rw [if_neg hwide, if_pos ⟨hkeep, Nat.le_of_not_lt hwide⟩, decide_eq_false hwide, htext, hpend]
      exact ⟨rfl, rfl, (Bool.eq_false_iff.mpr hf).symm, fun _ => ⟨rfl, rfl, hkeep⟩⟩

theorem Fragment.Matches.foldl (items : List Item) {f : Fragment} (h : f.Matches st) :
    (items.foldl (Fragment.item u maxWidth) f).Matches (items.foldl (Scan.styled u maxWidth maxWidth) st) := by
  induction items generalizing f st with
  | nil => exact h
  | cons item items ih => exact ih (h.item item)

/-- **The clipped ellipsis** is the longest part that fits, with the sequences before its graphemes. -/
theorem truncateFragmentToWidth_spec (hu : u.LawfulGraphemes) (ha : u.AsciiGraphemes) (text : Text)
    (hmax : 0 < maxWidth) : ∃ kept, kept <+: itemsOf u true text ∧
      glyphsOf kept = fitting u.graphemeWidth maxWidth (glyphsOf (itemsOf u true text)) ∧
      truncateFragmentToWidth u text maxWidth = (textOfItems kept, weightOf u.graphemeWidth (glyphsOf kept)) := by
  have hloop : ∀ items : List Item, ∃ kept, kept <+: items ∧
      glyphsOf kept = fitting u.graphemeWidth maxWidth (glyphsOf items) ∧
      ((items.foldl (Fragment.item u maxWidth) {}).text, (items.foldl (Fragment.item u maxWidth) {}).width) =
        (textOfItems kept, weightOf u.graphemeWidth (glyphsOf kept)) := by
    intro items
    obtain ⟨-, -, kept, hpre, hgl, hres, hkept⟩ := scanStyled_start (u := u) (Nat.le_refl maxWidth) items
    have hloo : (items.foldl (Fragment.item u maxWidth) {}).Matches
        (items.foldl (Scan.styled u maxWidth maxWidth) {}) := .foldl items ⟨rfl, rfl, rfl, fun _ => ⟨rfl, rfl, rfl⟩⟩
    exact ⟨kept, hpre, hgl, Prod.ext (hloo.text.symm.trans hres) (hloo.width.symm.trans hkept)⟩
  unfold truncateFragmentToWidth
  by_cases hnil : text = []
  · subst hnil
    exact ⟨[], nil_prefix, rfl, if_pos (Or.inr rfl)⟩
  rw [if_neg (not_or.mpr ⟨Nat.pos_iff_ne_zero.mp hmax, hnil⟩)]
  by_cases hasc : isPrintableAscii text = true
  · obtain ⟨hesc, htab⟩ := Unicode.esc_not_mem_printable hasc
    have htake : isPrintableAscii (text.take maxWidth) = true := isPrintableAscii_take hasc maxWidth
    rw [if_pos hasc, itemsOf_plain hu hesc htab, ha text hasc, glyphsOf_glyphs, fitting_printable hasc]
    refine ⟨((text.take maxWidth).map ([·])).map .glyph, ?_, glyphsOf_glyphs _, ?_⟩
    · exact (( take_prefix _ _).map _).map _
    · rw [textOfItems_glyphs, glyphsOf_glyphs, Unicode.weightOf_printable htake]
      congr 1
      exact (flatMap_singleton' _).symm
  rw [if_neg hasc]
  dsimp only
  by_cases hpl : esc ∉ text ∧ tab ∉ text
  · rw [if_pos hpl, ← itemsOf_plain hu hpl.1 hpl.2]
    exact hloop _
  · rw [if_neg hpl]
    exact hloop _

/-! ### The result -/

theorem sequence_resetSequence (s : Style) : s.sequence resetSequence = { s with attributes := {} } := by
  have hlink : linkOf resetSequence = none := by decide
  have hsgr : sgrParams resetSequence = some [0] := by decide
  rw [Style.sequence, hlink, hsgr]
  rfl

theorem sequence_formatOsc8Close (s : Style) (terminator : Osc8Terminator) :
    s.sequence (formatOsc8Close terminator) = { s with link := none } := by
  have hlink : linkOf (formatOsc8Close terminator) = some none := by cases terminator <;> decide
  rw [Style.sequence, hlink]

theorem getActiveOsc8Close_spec (text : Text) :
    Recognised (getActiveOsc8Close text) ∧ stripTerminalSequences (getActiveOsc8Close text) = [] ∧
      styleAfter (styleOf text) (pieces (getActiveOsc8Close text)) = { styleOf text with link := none } := by
  have hlink : (styleOf text).link = _ := link_foldl none {} (pieces text) rfl
  rw [getActiveOsc8Close_eq]
  cases hfold : (pieces text).foldl updateHyperlink none with
  | none =>
    rw [hfold] at hlink
    refine ⟨recognised_nil, rfl, ?_⟩
    generalize styleOf text = last at hlink
    cases last
    cases hlink
    rfl
  | some hyperlink =>
    have hcode : (AnsiPiece.code (formatOsc8Close hyperlink.terminator)).Recognised := by
      cases hyperlink.terminator <;> decide
    obtain ⟨hpie, hrcg⟩ := recognised_code hcode
    change Recognised (formatOsc8Close hyperlink.terminator) ∧
      (pieces (formatOsc8Close hyperlink.terminator)).flatMap AnsiPiece.shown = [] ∧
      styleAfter (styleOf text) (pieces (formatOsc8Close hyperlink.terminator)) = _
    rw [hpie]
    exact ⟨hrcg, rfl, sequence_formatOsc8Close _ _⟩

/-- **A cut text**: it shows what is kept and the ellipsis, the styles of what is kept are as before, and behind it there
are no attributes, and no link but that of the ellipsis. -/
theorem finalizeTruncatedResult_spec {kept ellipsis : Text} (hkept : Recognised kept) (hell : Recognised ellipsis)
    (keptWidth ellipsisWidth maxWidth : ℕ) (pad : Bool) :
    let result := finalizeTruncatedResult kept keptWidth ellipsis ellipsisWidth maxWidth pad
    Recognised result ∧ stripTerminalSequences result = stripTerminalSequences kept ++ stripTerminalSequences ellipsis ++
        List.replicate (if pad then maxWidth - (keptWidth + ellipsisWidth) else 0) space ∧
      print kept <+: print result ∧ (styleOf result).attributes = {} ∧
      (styleOf result).link = (styleOf ellipsis).link := by
  obtain ⟨hclo, hclos, hcloseStyle⟩ := getActiveOsc8Close_spec kept
  obtain ⟨hrese, hreset⟩ := recognised_code (show (AnsiPiece.code resetSequence).Recognised by decide)
  have hpad : ∀ text, padded pad (maxWidth - (keptWidth + ellipsisWidth)) text =
      text ++ List.replicate (if pad then maxWidth - (keptWidth + ellipsisWidth) else 0) space := by
    intro text
    unfold padded
    cases pad
    · exact (append_nil text).symm
    · rfl
  have hresetShown : stripTerminalSequences resetSequence = [] := by decide
  -- up to the first reset, behind which the style is the default
  have hfro := recognised_append (recognised_append hkept hclo) hreset
  have hfron : stripTerminalSequences (kept ++ getActiveOsc8Close kept ++ resetSequence) =
      stripTerminalSequences kept := by
    rw [stripTerminalSequences_append (recognised_append hkept hclo), stripTerminalSequences_append hkept, hclos,
      hresetShown, append_nil, append_nil]
  have hfrontStyle : styleOf (kept ++ getActiveOsc8Close kept ++ resetSequence) = {} := by
    rw [styleOf_append (recognised_append hkept hclo), styleOf_append hkept, hcloseStyle, hrese, styleAfter_code,
      sequence_resetSequence]
    rfl
  have hfrontPrint : print kept <+: print (kept ++ getActiveOsc8Close kept ++ resetSequence) := by
    rw [print_append (recognised_append hkept hclo), print_append hkept, append_assoc]
    exact prefix_append _ _
  -- what is put behind it keeps what is printed
  have hbeh : ∀ behind : Text, Recognised behind →
      let result := kept ++ getActiveOsc8Close kept ++ resetSequence ++ behind
      Recognised result ∧ stripTerminalSequences result = stripTerminalSequences kept ++ stripTerminalSequences behind ∧
        print kept <+: print result ∧ styleOf result = styleOf behind := by
    intro behind hrcg
    refine ⟨recognised_append hfro hrcg, ?_, ?_, ?_⟩
    · rw [stripTerminalSequences_append hfro, hfron]
    · rw [print_append hfro]
      exact hfrontPrint.trans (prefix_append _ _)
    · rw [styleOf_append hfro, hfrontStyle]
      rfl
  unfold finalizeTruncatedResult
  dsimp only
  rw [hpad]
  generalize (if pad then maxWidth - (keptWidth + ellipsisWidth) else 0) = n
  have hspaces := recognised_plain (esc_notMem_spaces n)
  have hspa := pieces_plain (esc_notMem_spaces n)
  have hspac : stripTerminalSequences (List.replicate n space) = List.replicate n space :=
    stripTerminalSequences_plain (esc_notMem_spaces n)
  by_cases hnil : ellipsis = []
  · subst hnil
    rw [if_neg (not_not_intro rfl)]
    obtain ⟨hres, hsh, hpri, hsty⟩ := hbeh _ hspaces
    have hdef : styleOf (List.replicate n space) = {} := by
      rw [styleOf, hspa, styleAfter_units]
    rw [hsty, hdef]
    refine ⟨hres, ?_, hpri, rfl, rfl⟩
    rw [hsh, hspac]
    exact (congrArg (· ++ List.replicate n space) (append_nil _)).symm
  · rw [if_pos hnil, append_assoc, append_assoc]
    have hend : Recognised (ellipsis ++ resetSequence) := recognised_append hell hreset
    rw [← append_assoc ellipsis]
    obtain ⟨hres, hsh, hpri, hsty⟩ := hbeh _ (recognised_append hend hspaces)
    have hlast : styleOf (ellipsis ++ resetSequence ++ List.replicate n space) =
        { styleOf ellipsis with attributes := {} } := by
      rw [styleOf_append hend, styleOf_append hell, hrese, styleAfter_code, sequence_resetSequence,
        hspa, styleAfter_units]
      rfl
    rw [hsty, hlast]
    refine ⟨hres, ?_, hpri, rfl, rfl⟩
    rw [hsh, stripTerminalSequences_append hend, stripTerminalSequences_append hell, hresetShown, hspac,
      append_nil, append_assoc]

end

end EasyPi.Tui
