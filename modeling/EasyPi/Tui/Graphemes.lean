/-
# The graphemes of a styled text

The code segments a text between its escape sequences, or between its escape sequences and tabs. The segments in
a row are the graphemes of what is shown when segmentation is compatible with putting the parts together; then their
widths add up to the visible width.
-/
import EasyPi.Lib.Fitting
import EasyPi.Tui.Width

namespace EasyPi.Tui

open List

/-! ### Chunks and items -/

/-- A part of a text: an escape sequence, a tab that stands for itself, or a run of other units. -/
inductive Chunk where
  | code (seq : Text)
  | tab
  | run (text : Text)
  deriving DecidableEq

def flushRun (run : Text) : List Chunk := if run = [] then [] else [.run run]

/-- The chunks of pieces behind a run that is not over. -/
def chunksFrom (tabs : Bool) : Text → List AnsiPiece → List Chunk
  | run, [] => flushRun run
  | run, .code seq :: ps => flushRun run ++ .code seq :: chunksFrom tabs [] ps
  | run, .unit c :: ps =>
    if tabs && c = tab then flushRun run ++ .tab :: chunksFrom tabs [] ps else chunksFrom tabs (run ++ [c]) ps

/-- The chunks of a text; with `tabs`, its tabs stand for themselves. -/
def chunks (tabs : Bool) (text : Text) : List Chunk := chunksFrom tabs [] (pieces text)

inductive Item where
  | code (seq : Text)
  | glyph (g : Text)
  deriving DecidableEq

namespace Item

def text : Item → Text
  | code seq => seq
  | glyph g => g

def glyphs : Item → List Text
  | code _ => []
  | glyph g => [g]

def pieces : Item → List AnsiPiece
  | code seq => [.code seq]
  | glyph g => g.map .unit

end Item

def Chunk.items (u : Unicode) : Chunk → List Item
  | .code seq => [.code seq]
  | .tab => [.glyph [Tui.tab]]
  | .run text => (u.graphemes text).map .glyph

/-- The escape sequences of a text, and the graphemes between them. -/
def itemsOf (u : Unicode) (tabs : Bool) (text : Text) : List Item := (chunks tabs text).flatMap (Chunk.items u)

def textOfItems (items : List Item) : Text := items.flatMap Item.text

def glyphsOf (items : List Item) : List Text := items.flatMap Item.glyphs

def piecesOf (items : List Item) : List AnsiPiece := items.flatMap Item.pieces

variable (a b : List Item)

@[simp] theorem glyphsOf_append : glyphsOf (a ++ b) = glyphsOf a ++ glyphsOf b := flatMap_append

@[simp] theorem textOfItems_append : textOfItems (a ++ b) = textOfItems a ++ textOfItems b :=
  flatMap_append

@[simp] theorem piecesOf_append : piecesOf (a ++ b) = piecesOf a ++ piecesOf b := flatMap_append

theorem piecesOf_glyphs (gs : List Text) : piecesOf (gs.map .glyph) = gs.flatten.map .unit := by
  unfold piecesOf
  rw [flatMap_map, map_flatten]
  rfl

variable {u : Unicode} {text : Text}

theorem piecesOf_itemsFrom (hu : u.LawfulGraphemes) (tabs : Bool) (run : Text) (ps : List AnsiPiece) :
    piecesOf ((chunksFrom tabs run ps).flatMap (Chunk.items u)) = run.map .unit ++ ps := by
  have hflu : ∀ run, piecesOf ((flushRun run).flatMap (Chunk.items u)) = run.map .unit := by
    intro run
    unfold flushRun
    by_cases hrun : run = []
    · rw [if_pos hrun, hrun]
      rfl
    · rw [if_neg hrun, flatMap_singleton]
      change piecesOf ((u.graphemes run).map .glyph) = _
      rw [piecesOf_glyphs, hu.flatten]
  induction ps generalizing run with
  | nil =>
    rw [append_nil]
    exact hflu run
  | cons piece ps ih =>
    cases piece with
    | code seq =>
      unfold chunksFrom
      rw [flatMap_append, piecesOf_append, hflu, flatMap_cons, piecesOf_append, ih]
      rfl
    | unit c =>
      unfold chunksFrom
      by_cases htab : (tabs && c = tab) = true
      · rw [if_pos htab, flatMap_append, piecesOf_append, hflu, flatMap_cons, piecesOf_append, ih]
        rw [Bool.and_eq_true, decide_eq_true_eq] at htab
        rw [htab.2]
        rfl
      · rw [if_neg htab, ih, map_append, append_assoc]
        rfl

theorem piecesOf_itemsOf (hu : u.LawfulGraphemes) (tabs : Bool) (text : Text) :
    piecesOf (itemsOf u tabs text) = pieces text := piecesOf_itemsFrom hu tabs [] (pieces text)

theorem textOfPieces_piecesOf (items : List Item) : textOfPieces (piecesOf items) = textOfItems items := by
  unfold textOfPieces piecesOf textOfItems
  rw [flatMap_assoc]
  congr 1
  funext item
  cases item with
  | code seq => exact append_nil seq
  | glyph g =>
    change (g.map AnsiPiece.unit).flatMap AnsiPiece.text = g
    rw [flatMap_map]
    exact flatMap_singleton' g

theorem shown_piecesOf (items : List Item) : (piecesOf items).flatMap AnsiPiece.shown = (glyphsOf items).flatten := by
  induction items with
  | nil => rfl
  | cons item items ih =>
    cases item with
    | code seq => exact ih
    | glyph g =>
      change ((g.map AnsiPiece.unit) ++ piecesOf items).flatMap AnsiPiece.shown = g ++ (glyphsOf items).flatten
      rw [flatMap_append, ih, flatMap_map]
      congr 1
      exact flatMap_singleton' g

theorem textOfItems_itemsOf (hu : u.LawfulGraphemes) (tabs : Bool) (text : Text) :
    textOfItems (itemsOf u tabs text) = text := by
  rw [← textOfPieces_piecesOf, piecesOf_itemsOf hu, textOfPieces_pieces]

theorem stripTerminalSequences_eq (hu : u.LawfulGraphemes) (tabs : Bool) (text : Text) :
    stripTerminalSequences text = (glyphsOf (itemsOf u tabs text)).flatten := by
  rw [← shown_piecesOf, piecesOf_itemsOf hu, stripTerminalSequences]

theorem pieces_start (hu : u.LawfulGraphemes) (h : Recognised text) {tabs : Bool} {kept : List Item}
    (hpre : kept <+: itemsOf u tabs text) : pieces (textOfItems kept) = piecesOf kept ∧ Recognised (textOfItems kept) := by
  have hrcg : ∀ piece ∈ piecesOf kept, piece.Recognised := by
    obtain ⟨rest, hrest⟩ := hpre
    intro piece hpc
    refine h piece ?_
    rw [← piecesOf_itemsOf hu tabs text, ← hrest, piecesOf_append]
    exact mem_append_left _ hpc
  have hpie := pieces_textOfPieces hrcg
  rw [textOfPieces_piecesOf] at hpie
  exact ⟨hpie, fun piece hpc => hrcg piece (hpie ▸ hpc)⟩

/-! ### Tabs as spaces -/

/-- `text.replace(/\t/g, "   ")`. -/
def expandTabs (text : Text) : Text := text.flatMap fun c => if c = tab then [space, space, space] else [c]

theorem expandTabs_append (a b : Text) : expandTabs (a ++ b) = expandTabs a ++ expandTabs b := flatMap_append

theorem expandTabs_cons {c : UInt16} (hc : c ≠ tab) (rest : Text) : expandTabs (c :: rest) = c :: expandTabs rest := by
  unfold expandTabs
  rw [flatMap_cons, if_neg hc, singleton_append]

theorem expandTabs_tab (rest : Text) : expandTabs (tab :: rest) = space :: space :: space :: expandTabs rest := rfl

theorem mem_expandTabs {c : UInt16} (h : c ∈ expandTabs text) : c ∈ text ∨ c = space := by
  obtain ⟨d, hd, hc⟩ := mem_flatMap.mp h
  split at hc
  · exact Or.inr (by simpa using hc)
  · rw [mem_singleton] at hc
    exact Or.inl (hc ▸ hd)

theorem csiLength_eq_length_iff : csiLength text = some text.length ↔
    ∃ body c, text = body ++ [c] ∧ isCsiEnd c = true ∧ ∀ d ∈ body, isCsiEnd d = false := by
  unfold csiLength
  constructor
  · intro h
    obtain ⟨i, hi, hlen⟩ := Option.map_eq_some_iff.mp h
    obtain ⟨hlt, hend, hbef⟩ := List.findIdx?_eq_some_iff_getElem.mp hi
    have hlast : i = text.length - 1 := by omega
    subst hlast
    have hne : text ≠ [] := length_pos_iff.mp (by omega)
    refine ⟨text.dropLast, text.getLast hne, (dropLast_append_getLast hne).symm, ?_, fun d hd => ?_⟩
    · rw [getLast_eq_getElem]
      exact hend
    · obtain ⟨j, hj, rfl⟩ := getElem_of_mem hd
      rw [getElem_dropLast]
      rw [length_dropLast] at hj
      exact Bool.eq_false_iff.mpr (hbef j hj)
  · rintro ⟨body, c, rfl, hend, hbody⟩
    have hnone : body.findIdx? isCsiEnd = none := List.findIdx?_eq_none_iff.mpr hbody
    rw [List.findIdx?_append, hnone]
    simp [List.findIdx?_cons, hend]

theorem csiLength_expandTabs (h : csiLength text = some text.length) :
    csiLength (expandTabs text) = some (expandTabs text).length := by
  obtain ⟨body, c, rfl, hend, hbody⟩ := csiLength_eq_length_iff.mp h
  have hc : c ≠ tab := by
    rintro rfl
    cases hend
  refine csiLength_eq_length_iff.mpr ⟨expandTabs body, c, ?_, hend, fun d hd => ?_⟩
  · rw [expandTabs_append, expandTabs_cons hc]
    rfl
  · rcases mem_expandTabs hd with hmem | rfl
    · exact hbody d hmem
    · rfl

theorem head?_expandTabs : (expandTabs text).head? = some backslash ↔ text.head? = some backslash := by
  cases text with
  | nil => exact Iff.rfl
  | cons c rest =>
    by_cases hc : c = tab
    · subst hc
      rw [expandTabs_tab, List.head?_cons, List.head?_cons]
      decide
    · rw [expandTabs_cons hc]
      rfl

theorem stringLength_expandTabs (h : stringLength text = some text.length) :
    stringLength (expandTabs text) = some (expandTabs text).length := by
  induction text with
  | nil => cases h
  | cons c rest ih =>
    unfold stringLength at h
    rw [length_cons] at h
    by_cases hbel : c = bel
    · rw [if_pos hbel] at h
      have hrest : rest = [] := length_eq_zero_iff.mp (by injection h; omega)
      subst hrest hbel
      rfl
    rw [if_neg hbel] at h
    by_cases hst : c = esc ∧ rest.head? = some backslash
    · rw [if_pos hst] at h
      obtain ⟨hesc, hhead⟩ := hst
      cases rest with
      | nil => cases hhead
      | cons d rest =>
        have hrest : rest = [] := by
          rw [length_cons] at h
          exact length_eq_zero_iff.mp (by injection h; omega)
        subst hrest hesc
        obtain rfl : d = backslash := Option.some.inj hhead
        rfl
    · rw [if_neg hst] at h
      obtain ⟨n, hn, hlen⟩ := Option.map_eq_some_iff.mp h
      obtain rfl : n = rest.length := by omega
      have hexp := ih hn
      by_cases hc : c = tab
      · subst hc
        have hbl : ∀ t, stringLength t = some t.length → stringLength (space :: t) = some (space :: t).length := by
          intro t ht
          have hspa : ¬ (space = esc ∧ t.head? = some backslash) := fun h => absurd h.1 (by decide)
          rw [stringLength, if_neg (by decide), if_neg hspa, ht]
          rfl
        exact hbl _ (hbl _ (hbl _ hexp))
      · have hst' : ¬ (c = esc ∧ (expandTabs rest).head? = some backslash) := fun h => hst ⟨h.1, head?_expandTabs.mp h.2⟩
        rw [expandTabs_cons hc, stringLength, if_neg hbel, if_neg hst', hexp]
        rfl

theorem recognised_expandTabs {seq : Text} (h : (AnsiPiece.code seq).Recognised) :
    (AnsiPiece.code (expandTabs seq)).Recognised := by
  rw [AnsiPiece.recognised_code_iff] at h ⊢
  rcases h with ⟨rest, rfl, hrest⟩ | ⟨next, rest, hnext, rfl, hrest⟩
  · exact Or.inl ⟨expandTabs rest, rfl, csiLength_expandTabs hrest⟩
  · refine Or.inr ⟨next, expandTabs rest, hnext, ?_, stringLength_expandTabs hrest⟩
    have htab : next ≠ tab := by
      rcases hnext with rfl | rfl
      · decide
      · decide
    rw [expandTabs_cons (by decide), expandTabs_cons htab]

/-- The piece of a text when its tabs are spaces. -/
def AnsiPiece.expandTabs : AnsiPiece → List AnsiPiece
  | .code seq => [.code (Tui.expandTabs seq)]
  | .unit c => (Tui.expandTabs [c]).map .unit

/-- **Tabs can be expanded before the sequences are taken out.** -/
theorem stripTerminalSequences_expandTabs (h : Recognised text) :
    stripTerminalSequences (expandTabs text) = expandTabs (stripTerminalSequences text) := by
  have htext : textOfPieces ((pieces text).flatMap AnsiPiece.expandTabs) = expandTabs text := by
    conv_rhs => rw [← textOfPieces_pieces text]
    unfold textOfPieces expandTabs
    rw [flatMap_assoc, flatMap_assoc]
    congr 1
    funext piece
    cases piece with
    | code seq => exact append_nil _
    | unit c =>
      change ((Tui.expandTabs [c]).map AnsiPiece.unit).flatMap AnsiPiece.text = Tui.expandTabs [c]
      rw [flatMap_map]
      exact flatMap_singleton' _
  have hrcg : ∀ piece ∈ (pieces text).flatMap AnsiPiece.expandTabs, piece.Recognised := by
    intro piece hpc
    obtain ⟨old, hold, hnew⟩ := mem_flatMap.mp hpc
    have hrec := h old hold
    cases old with
    | code seq =>
      rw [mem_singleton.mp hnew]
      exact recognised_expandTabs hrec
    | unit c =>
      obtain ⟨d, hd, rfl⟩ := mem_map.mp hnew
      rcases mem_expandTabs hd with hmem | rfl
      · rw [mem_singleton.mp hmem]
        exact hrec
      · exact (by decide : space ≠ esc)
  unfold stripTerminalSequences
  rw [← htext, pieces_textOfPieces hrcg]
  unfold expandTabs
  rw [flatMap_assoc, flatMap_assoc]
  congr 1
  funext piece
  cases piece with
  | code seq => rfl
  | unit c =>
    change ((Tui.expandTabs [c]).map AnsiPiece.unit).flatMap AnsiPiece.shown = Tui.expandTabs [c]
    rw [flatMap_map]
    exact flatMap_singleton' _

/-! ### Widths -/

namespace Unicode

variable (u : Unicode)

/-- Printable ASCII units are graphemes by themselves. -/
def AsciiGraphemes : Prop := ∀ text, isPrintableAscii text = true → u.graphemes text = text.map ([·])

def cell (g : Text) : List Text := if g = [tab] then [[space], [space], [space]] else [g]

/-- Graphemes that stand in a row stay the graphemes of their text. -/
def Joins (gs : List Text) : Prop := u.graphemes (expandTabs gs.flatten) = gs.flatMap cell

variable {u}

theorem graphemes_nil (hu : u.LawfulGraphemes) : u.graphemes [] = [] := by
  have hfla := hu.flatten []
  have hne := hu.ne_nil []
  cases h : u.graphemes [] with
  | nil => rfl
  | cons g gs =>
    rw [h] at hfla hne
    exact absurd (append_eq_nil_iff.mp hfla).1 (hne g (mem_cons_self ..))

theorem graphemeWidth_printable {c : UInt16} (hc : isPrintable c = true) : u.graphemeWidth [c] = 1 := by
  unfold graphemeWidth
  dsimp only
  rw [if_pos ⟨rfl, by simpa [isPrintableAscii] using hc⟩]

theorem graphemeWidth_tab : u.graphemeWidth [tab] = 3 := by
  unfold graphemeWidth
  dsimp only
  rw [if_neg (by decide), if_pos rfl]

theorem weightOf_printable (h : isPrintableAscii text = true) :
    weightOf u.graphemeWidth (text.map ([·])) = text.length := by
  induction text with
  | nil => rfl
  | cons c text ih =>
    obtain ⟨hc, htext⟩ : isPrintable c = true ∧ isPrintableAscii text = true := by simpa [isPrintableAscii] using h
    rw [map_cons, weightOf_cons, graphemeWidth_printable hc, ih htext, length_cons, Nat.add_comm]

theorem weightOf_cell (gs : List Text) : weightOf u.graphemeWidth (gs.flatMap cell) = weightOf u.graphemeWidth gs := by
  induction gs with
  | nil => rfl
  | cons g gs ih =>
    rw [flatMap_cons, weightOf_append, ih, weightOf_cons]
    congr 1
    unfold cell
    split
    · rename_i h
      have hspa : u.graphemeWidth [space] = 1 := graphemeWidth_printable (by decide)
      rw [weightOf_cons, weightOf_cons, weightOf_cons, weightOf_nil, hspa, h, graphemeWidth_tab]
    · rw [weightOf_cons, weightOf_nil, Nat.add_zero]

theorem esc_not_mem_printable (h : isPrintableAscii text = true) : esc ∉ text ∧ tab ∉ text :=
  ⟨fun hmem => absurd (all_eq_true.mp h esc hmem) (by decide), fun hmem => absurd (all_eq_true.mp h tab hmem) (by decide)⟩

theorem expandTabs_of_not_mem (h : tab ∉ text) : expandTabs text = text := by
  induction text with
  | nil => rfl
  | cons c text ih =>
    rw [mem_cons, not_or] at h
    rw [expandTabs_cons (Ne.symm h.1), ih h.2]

/-- **The visible width** is that of the graphemes of what is shown. -/
theorem visibleWidth_eq (hu : u.LawfulGraphemes) (ha : u.AsciiGraphemes) (h : Recognised text) :
    u.visibleWidth text = weightOf u.graphemeWidth (u.graphemes (expandTabs (stripTerminalSequences text))) := by
  have hcle : ∀ t, (if isPrintableAscii t = true then t.length else weightOf u.graphemeWidth (u.graphemes t)) =
      weightOf u.graphemeWidth (u.graphemes t) := by
    intro t
    by_cases hasc : isPrintableAscii t = true
    · rw [if_pos hasc, ha t hasc, weightOf_printable hasc]
    · rw [if_neg hasc]
  have hstr := stripTerminalSequences_expandTabs h
  unfold visibleWidth
  by_cases hnil : text = []
  · subst hnil
    rw [if_pos rfl]
    change 0 = weightOf u.graphemeWidth (u.graphemes [])
    rw [graphemes_nil hu, weightOf_nil]
  rw [if_neg hnil]
  by_cases hasc : isPrintableAscii text = true
  · obtain ⟨hesc, htab⟩ := esc_not_mem_printable hasc
    rw [if_pos hasc, stripTerminalSequences_plain hesc, expandTabs_of_not_mem htab, ha text hasc, weightOf_printable hasc]
  · rw [if_neg hasc, ← hstr]
    exact hcle _

theorem visibleWidth_of_joins (hu : u.LawfulGraphemes) (ha : u.AsciiGraphemes) {gs : List Text}
    (h : Recognised text) (hstr : stripTerminalSequences text = gs.flatten) (hjoi : u.Joins gs) :
    u.visibleWidth text = weightOf u.graphemeWidth gs := by
  rw [visibleWidth_eq hu ha h, hstr, hjoi, weightOf_cell]

end Unicode

theorem basicUnicode_ascii : basicUnicode.AsciiGraphemes := fun _ _ => rfl

theorem basicUnicode_visibleWidth (hesc : esc ∉ text) (htab : tab ∉ text) :
    basicUnicode.visibleWidth text = (text.map fun c => basicUnicode.graphemeWidth [c]).sum := by
  rw [Unicode.visibleWidth_eq basicUnicode_lawful basicUnicode_ascii (recognised_plain hesc),
    stripTerminalSequences_plain hesc, Unicode.expandTabs_of_not_mem htab]
  change ((text.map ([·])).map _).sum = _
  rw [map_map]
  rfl

theorem basicUnicode_joins {gs : List Text} (h : ∀ g ∈ gs, ∃ c, g = [c]) : basicUnicode.Joins gs := by
  induction gs with
  | nil => rfl
  | cons g gs ih =>
    obtain ⟨⟨c, rfl⟩, hgs⟩ := forall_mem_cons.mp h
    have hrest := ih hgs
    unfold Unicode.Joins at hrest ⊢
    rw [flatten_cons, expandTabs_append, flatMap_cons, ← hrest]
    change (expandTabs [c] ++ expandTabs gs.flatten).map _ = _ ++ (expandTabs gs.flatten).map _
    rw [map_append]
    congr 1
    by_cases hc : c = tab
    · subst hc
      rfl
    · have hne : [c] ≠ [tab] := fun heq => hc (List.cons.inj heq).1
      rw [expandTabs_cons hc, Unicode.cell, if_neg hne]
      rfl

end EasyPi.Tui
