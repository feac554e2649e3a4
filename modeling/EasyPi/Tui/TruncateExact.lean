/-
# Exact truncation

A truncated text is never too wide. A text that fits is left as it is; of any other, the longest part that leaves room
for the ellipsis is kept, with its styles. A link that the ellipsis opens is not closed.
-/
import EasyPi.Tui.Truncate

namespace EasyPi.Tui

open List Unicode

/-- Segmentation is compatible with putting a part of a text, a part of the ellipsis and blanks in a row. -/
def Compatible (u : Unicode) (text ellipsis : Text) : Prop :=
  ∀ (kept part : List Text) (n : ℕ), kept <+: glyphsOf (itemsOf u true text) →
    part <+: glyphsOf (itemsOf u true ellipsis) → u.Joins (kept ++ part ++ List.replicate n [space])

/-- How a text that is too wide is cut: what is kept of it, and the part of the ellipsis behind it. -/
def CutText (u : Unicode) (text ellipsis : Text) (maxWidth : ℕ) (pad : Bool) (result : Text) : Prop :=
  ∃ (kept : List Text) (part : List Item), part <+: itemsOf u true ellipsis ∧
    (if u.visibleWidth ellipsis < maxWidth then
      LongestFitting u.graphemeWidth (maxWidth - u.visibleWidth ellipsis) (glyphsOf (itemsOf u true text)) kept ∧
        part = itemsOf u true ellipsis
    else
      kept = [] ∧ ∃ fits, LongestFitting u.graphemeWidth maxWidth (glyphsOf (itemsOf u true ellipsis)) fits ∧
        glyphsOf part = if weightOf u.graphemeWidth fits = 0 then [] else fits) ∧
    stripTerminalSequences result = kept.flatten ++ (glyphsOf part).flatten ++
      List.replicate (if pad then maxWidth - weightOf u.graphemeWidth (kept ++ glyphsOf part) else 0) space ∧
    (print result).take kept.flatten.length = (print text).take kept.flatten.length ∧
    (styleOf result).attributes = {} ∧ (styleOf result).link = (styleOf (textOfItems part)).link

variable {u : Unicode} {text ellipsis : Text} {maxWidth : ℕ} {pad : Bool}

theorem glyphsOf_start {kept items : List Item} (h : kept <+: items) : glyphsOf kept <+: glyphsOf items := by
  obtain ⟨rest, rfl⟩ := h
  rw [glyphsOf_append]
  exact prefix_append _ _

theorem flatten_spaces (n : ℕ) : (List.replicate n [space]).flatten = List.replicate n space := by
  induction n with
  | zero => rfl
  | succ n ih => rw [replicate_succ, flatten_cons, ih]; rfl

section
variable (hu : u.LawfulGraphemes) (ha : u.AsciiGraphemes)
include hu ha

theorem visibleWidth_compatible (h : Compatible u text ellipsis)
    {result : Text} (hres : Recognised result) {kept part : List Text} {n : ℕ}
    (hkept : kept <+: glyphsOf (itemsOf u true text)) (hpart : part <+: glyphsOf (itemsOf u true ellipsis))
    (hsh : stripTerminalSequences result = kept.flatten ++ part.flatten ++ List.replicate n space) :
    u.visibleWidth result = weightOf u.graphemeWidth (kept ++ part) + n := by
  have hfla : stripTerminalSequences result = (kept ++ part ++ List.replicate n [space]).flatten := by
    rw [hsh, flatten_append, flatten_append, flatten_spaces]
  have hspac : u.graphemeWidth [space] = 1 := graphemeWidth_printable (by decide)
  rw [visibleWidth_of_joins hu ha hres hfla (h kept part n hkept hpart), weightOf_append, weightOf_replicate, hspac,
    Nat.mul_one]

theorem visibleWidth_padded (h : Compatible u text ellipsis)
    (ht : Recognised text) (n : ℕ) : u.visibleWidth (text ++ List.replicate n space) =
      weightOf u.graphemeWidth (glyphsOf (itemsOf u true text)) + n := by
  have hsh : stripTerminalSequences (text ++ List.replicate n space) =
      (glyphsOf (itemsOf u true text)).flatten ++ ([] : List Text).flatten ++ List.replicate n space := by
    rw [stripTerminalSequences_append ht, stripTerminalSequences_eq hu true text,
      stripTerminalSequences_plain (esc_notMem_spaces _), flatten_nil, append_nil]
  rw [visibleWidth_compatible hu ha h (recognised_append ht (recognised_plain (esc_notMem_spaces n))) prefix_rfl nil_prefix hsh,
    append_nil]

theorem visibleWidth_text (h : Compatible u text ellipsis)
    (ht : Recognised text) : u.visibleWidth text = weightOf u.graphemeWidth (glyphsOf (itemsOf u true text)) := by
  have hwd := visibleWidth_padded hu ha h ht 0
  rwa [replicate_zero, append_nil] at hwd

theorem truncate_paths (text ellipsis : Text) (width : ℕ) :
    (if isPrintableAscii text then truncateAscii maxWidth text ellipsis width pad
    else if esc ∉ text ∧ tab ∉ text then truncatePlain u maxWidth text ellipsis width pad
    else truncateStyled u maxWidth text ellipsis width pad) = truncateStyled u maxWidth text ellipsis width pad := by
  by_cases hasc : isPrintableAscii text = true
  · obtain ⟨hesc, htab⟩ := esc_not_mem_printable hasc
    rw [if_pos hasc, truncateAscii_eq ha hasc, truncatePlain_eq hu hesc htab]
  rw [if_neg hasc]
  by_cases hpl : esc ∉ text ∧ tab ∉ text
  · rw [if_pos hpl, truncatePlain_eq hu hpl.1 hpl.2]
  · rw [if_neg hpl]

end

theorem truncateStyled_fits (hwd : weightOf u.graphemeWidth (glyphsOf (itemsOf u true text)) ≤ maxWidth)
    (width : ℕ) : truncateStyled u maxWidth text ellipsis width pad =
      padded pad (maxWidth - weightOf u.graphemeWidth (glyphsOf (itemsOf u true text))) text := by
  obtain ⟨hover, hlast, -⟩ := scanStyled_start (u := u) (Nat.sub_le maxWidth width) (itemsOf u true text)
  have hin := Bool.eq_false_iff.mpr (mt hover.mp (Nat.not_lt_of_le hwd))
  unfold truncateStyled Scan.finish
  rw [hin, if_neg Bool.false_ne_true, hlast hin]

theorem truncateStyled_cut (hwd : maxWidth < weightOf u.graphemeWidth (glyphsOf (itemsOf u true text)))
    (ellipsis : Text) (width : ℕ) (pad : Bool) : ∃ kept, kept <+: itemsOf u true text ∧
      glyphsOf kept = fitting u.graphemeWidth (maxWidth - width) (glyphsOf (itemsOf u true text)) ∧
      truncateStyled u maxWidth text ellipsis width pad =
        finalizeTruncatedResult (textOfItems kept) (weightOf u.graphemeWidth (glyphsOf kept)) ellipsis width
          maxWidth pad := by
  obtain ⟨hover, -, kept, hpre, hgl, hres, hkept⟩ :=
    scanStyled_start (u := u) (Nat.sub_le maxWidth width) (itemsOf u true text)
  refine ⟨kept, hpre, hgl, ?_⟩
  unfold truncateStyled Scan.finish
  rw [hover.mpr hwd, if_pos rfl, hres, hkept]

section
variable (hu : u.LawfulGraphemes)
include hu

theorem strip_start (ht : Recognised text) {kept : List Item} (h : kept <+: itemsOf u true text) :
    stripTerminalSequences (textOfItems kept) = (glyphsOf kept).flatten := by
  unfold stripTerminalSequences
  rw [(pieces_start hu ht h).1, shown_piecesOf]

theorem print_take (ht : Recognised text) {kept : List Item} (h : kept <+: itemsOf u true text)
    {result : Text} (hres : print (textOfItems kept) <+: print result) :
    (print result).take (glyphsOf kept).flatten.length = (print text).take (glyphsOf kept).flatten.length := by
  have htext : print (textOfItems kept) <+: print text := by
    obtain ⟨rest, hrest⟩ := h
    rw [← textOfItems_itemsOf hu true text, ← hrest, textOfItems_append,
      print_append (pieces_start hu ht ⟨rest, hrest⟩).2]
    exact prefix_append _ _
  have hlen : (print (textOfItems kept)).length = (glyphsOf kept).flatten.length := by
    rw [← strip_start hu ht h]
    exact length_printed
  rw [← hlen, ← prefix_iff_eq_take.mp hres, ← prefix_iff_eq_take.mp htext]

section
variable (ha : u.AsciiGraphemes)
include ha

theorem finalize_parts (h : Compatible u text ellipsis)
    (ht : Recognised text) (he : Recognised ellipsis) {kept part : List Item} (hkept : kept <+: itemsOf u true text)
    (hpart : part <+: itemsOf u true ellipsis)
    (hroom : weightOf u.graphemeWidth (glyphsOf kept ++ glyphsOf part) ≤ maxWidth) (pad : Bool) :
    let result := finalizeTruncatedResult (textOfItems kept) (weightOf u.graphemeWidth (glyphsOf kept)) (textOfItems part)
      (weightOf u.graphemeWidth (glyphsOf part)) maxWidth pad
    u.visibleWidth result ≤ maxWidth ∧ (pad = true → u.visibleWidth result = maxWidth) ∧
      stripTerminalSequences result = (glyphsOf kept).flatten ++ (glyphsOf part).flatten ++
        List.replicate (if pad then maxWidth - weightOf u.graphemeWidth (glyphsOf kept ++ glyphsOf part) else 0) space ∧
      (print result).take (glyphsOf kept).flatten.length = (print text).take (glyphsOf kept).flatten.length ∧
      (styleOf result).attributes = {} ∧ (styleOf result).link = (styleOf (textOfItems part)).link := by
  obtain ⟨hres, hsh, hpri, hattr, hlink⟩ :=
    finalizeTruncatedResult_spec (pieces_start hu ht hkept).2 (pieces_start hu he hpart).2
      (weightOf u.graphemeWidth (glyphsOf kept)) (weightOf u.graphemeWidth (glyphsOf part)) maxWidth pad
  rw [strip_start hu ht hkept, strip_start hu he hpart, ← weightOf_append] at hsh
  have hwd := visibleWidth_compatible hu ha h hres (glyphsOf_start hkept) (glyphsOf_start hpart) hsh
  refine ⟨?_, fun hpad => ?_, hsh, print_take hu ht hkept hpri, hattr, hlink⟩
  · rw [hwd]
    split <;> omega
  · rw [hwd, if_pos hpad]
    omega

theorem visibleWidth_ellipsis (h : Compatible u text ellipsis) (he : Recognised ellipsis) :
    u.visibleWidth ellipsis = weightOf u.graphemeWidth (glyphsOf (itemsOf u true ellipsis)) := by
  have hsh : stripTerminalSequences ellipsis = ([] : List Text).flatten ++
      (glyphsOf (itemsOf u true ellipsis)).flatten ++ List.replicate 0 space := by
    rw [stripTerminalSequences_eq hu true ellipsis]
    exact (append_nil _).symm
  rw [visibleWidth_compatible hu ha h he nil_prefix prefix_rfl hsh, nil_append, Nat.add_zero]

/-- **A text that is too wide** is cut. -/
theorem truncateToWidth_cut (h : Compatible u text ellipsis)
    (ht : Recognised text) (he : Recognised ellipsis) (hmax : 0 < maxWidth) (hwd : maxWidth < u.visibleWidth text)
    (pad : Bool) :
    let result := truncateToWidth u maxWidth text ellipsis pad
    u.visibleWidth result ≤ maxWidth ∧ (pad = true → u.visibleWidth result = maxWidth) ∧
      CutText u text ellipsis maxWidth pad result := by
  have hne : text ≠ [] := fun hnil => by
    rw [hnil, visibleWidth_nil] at hwd
    exact absurd hwd (Nat.not_lt_zero _)
  have hgl := visibleWidth_text hu ha h ht
  have hell := visibleWidth_ellipsis hu ha h he
  unfold truncateToWidth
  rw [if_neg (Nat.pos_iff_ne_zero.mp hmax), if_neg hne]
  dsimp only
  by_cases hroom : u.visibleWidth ellipsis < maxWidth
  · rw [if_neg (Nat.not_le_of_lt hroom), truncate_paths hu ha]
    obtain ⟨kept, hpre, hkept, hres⟩ := truncateStyled_cut (hgl ▸ hwd) ellipsis
      (u.visibleWidth ellipsis) pad
    have hlon : LongestFitting u.graphemeWidth (maxWidth - u.visibleWidth ellipsis) (glyphsOf (itemsOf u true text))
        (glyphsOf kept) := longestFitting_iff.mpr hkept
    have hfits : weightOf u.graphemeWidth (glyphsOf kept ++ glyphsOf (itemsOf u true ellipsis)) ≤ maxWidth := by
      have hle := hlon.2.1
      rw [weightOf_append, ← hell]
      omega
    have hpts := finalize_parts hu ha h ht he hpre prefix_rfl hfits pad
    rw [← hell, textOfItems_itemsOf hu true ellipsis] at hpts
    obtain ⟨hle, hpad, hsh, hpri, hattr, hlink⟩ := hpts
    rw [hres]
    refine ⟨hle, hpad, glyphsOf kept, itemsOf u true ellipsis, prefix_rfl, ?_, hsh, hpri, hattr, ?_⟩
    · rw [if_pos hroom]
      exact ⟨hlon, rfl⟩
    · rw [textOfItems_itemsOf hu true ellipsis]
      exact hlink
  · rw [if_pos (Nat.le_of_not_lt hroom), if_neg (Nat.not_le_of_lt hwd)]
    obtain ⟨part, hpre, hpart, hcli⟩ := truncateFragmentToWidth_spec hu ha ellipsis hmax
    have hlon : LongestFitting u.graphemeWidth maxWidth (glyphsOf (itemsOf u true ellipsis)) (glyphsOf part) :=
      longestFitting_iff.mpr hpart
    rw [hcli]
    dsimp only
    by_cases hzero : weightOf u.graphemeWidth (glyphsOf part) = 0
    · have hbl : padded pad maxWidth [] = List.replicate (if pad then maxWidth else 0) space := by
        cases pad <;> rfl
      rw [if_pos hzero, hbl]
      have hspa := recognised_plain (esc_notMem_spaces (if pad then maxWidth else 0))
      have hpie := pieces_plain (esc_notMem_spaces (if pad then maxWidth else 0))
      have hsh : stripTerminalSequences (List.replicate (if pad then maxWidth else 0) space) =
          ([] : List Text).flatten ++ ([] : List Text).flatten ++ List.replicate (if pad then maxWidth else 0) space :=
        stripTerminalSequences_plain (esc_notMem_spaces _)
      have hbla := visibleWidth_compatible hu ha h hspa nil_prefix nil_prefix hsh
      have hdef : styleOf (List.replicate (if pad then maxWidth else 0) space) = {} := by
        rw [styleOf, hpie, styleAfter_units]
      rw [hbla, append_nil, weightOf_nil, Nat.zero_add]
      refine ⟨?_, fun hpad => if_pos hpad, [], [], nil_prefix, ?_, hsh, rfl, ?_, ?_⟩
      · split <;> omega
      · rw [if_neg hroom]
        exact ⟨rfl, glyphsOf part, hlon, (if_pos hzero).symm⟩
      · rw [hdef]
      · rw [hdef]
        rfl
    · rw [if_neg hzero]
      have hpts := finalize_parts hu ha h ht he nil_prefix hpre hlon.2.1 pad
      obtain ⟨hle, hpad, hsh, hpri, hattr, hlink⟩ := hpts
      refine ⟨hle, hpad, [], part, hpre, ?_, hsh, hpri, hattr, hlink⟩
      rw [if_neg hroom]
      exact ⟨rfl, glyphsOf part, hlon, (if_neg hzero).symm⟩

theorem truncateToWidth_fits (h : Compatible u text ellipsis)
    (ht : Recognised text) (hmax : 0 < maxWidth) (hwd : u.visibleWidth text ≤ maxWidth) (pad : Bool) :
    truncateToWidth u maxWidth text ellipsis pad = padded pad (maxWidth - u.visibleWidth text) text := by
  have hgl := visibleWidth_text hu ha h ht
  unfold truncateToWidth
  rw [if_neg (Nat.pos_iff_ne_zero.mp hmax)]
  by_cases hnil : text = []
  · rw [if_pos hnil, hnil]
    rfl
  rw [if_neg hnil]
  dsimp only
  by_cases hroom : u.visibleWidth ellipsis < maxWidth
  · rw [if_neg (Nat.not_le_of_lt hroom), truncate_paths hu ha, truncateStyled_fits (hgl ▸ hwd), hgl]
  · rw [if_pos (Nat.le_of_not_lt hroom), if_pos hwd]

end

end

/-- **Truncation is exact.** -/
theorem truncateToWidth_exact (u : Unicode) (hu : u.LawfulGraphemes) (ha : u.AsciiGraphemes) (text ellipsis : Text)
    (ht : Recognised text) (he : Recognised ellipsis) (h : Compatible u text ellipsis) (maxWidth : ℕ) (hmax : 0 < maxWidth)
    (pad : Bool) :
    let result := truncateToWidth u maxWidth text ellipsis pad
    u.visibleWidth result ≤ maxWidth ∧ (pad = true → u.visibleWidth result = maxWidth) ∧
      ((∃ n, result = text ++ List.replicate n space) ↔ u.visibleWidth text ≤ maxWidth) ∧
      (u.visibleWidth text ≤ maxWidth → result = padded pad (maxWidth - u.visibleWidth text) text) ∧
      (maxWidth < u.visibleWidth text → CutText u text ellipsis maxWidth pad result) ∧ ∀ ellipsisWidth,
        (isPrintableAscii text = true → truncateAscii maxWidth text ellipsis ellipsisWidth pad =
          truncatePlain u maxWidth text ellipsis ellipsisWidth pad) ∧
        (esc ∉ text → tab ∉ text → truncatePlain u maxWidth text ellipsis ellipsisWidth pad =
          truncateStyled u maxWidth text ellipsis ellipsisWidth pad) := by
  have hpadd := visibleWidth_padded hu ha h ht
  have hpat : ∀ ellipsisWidth, (isPrintableAscii text = true → truncateAscii maxWidth text ellipsis ellipsisWidth pad =
        truncatePlain u maxWidth text ellipsis ellipsisWidth pad) ∧
      (esc ∉ text → tab ∉ text → truncatePlain u maxWidth text ellipsis ellipsisWidth pad =
        truncateStyled u maxWidth text ellipsis ellipsisWidth pad) :=
    fun ellipsisWidth => ⟨fun hasc => truncateAscii_eq ha hasc ellipsis ellipsisWidth pad,
      fun hesc htab => truncatePlain_eq hu hesc htab ellipsis ellipsisWidth pad⟩
  rw [← visibleWidth_text hu ha h ht] at hpadd
  by_cases hwd : u.visibleWidth text ≤ maxWidth
  · have hres := truncateToWidth_fits hu ha h ht hmax hwd pad
    rw [hres]
    have hform : padded pad (maxWidth - u.visibleWidth text) text =
        text ++ List.replicate (if pad then maxWidth - u.visibleWidth text else 0) space := by
      cases pad
      · exact (append_nil text).symm
      · rfl
    refine ⟨?_, fun hpad => ?_, ⟨fun _ => hwd, fun _ => ⟨_, hform⟩⟩, fun _ => rfl,
      fun hlt => absurd hwd (Nat.not_le_of_lt hlt), hpat⟩
    · rw [hform, hpadd]
      split <;> omega
    · rw [hform, hpadd, if_pos hpad]
      omega
  · have hlt := Nat.lt_of_not_le hwd
    obtain ⟨hle, hpad, hcut⟩ := truncateToWidth_cut hu ha h ht he hmax hlt pad
    refine ⟨hle, hpad, ⟨?_, fun hfits => absurd hfits hwd⟩, fun hfits => absurd hfits hwd, fun _ => hcut, hpat⟩
    rintro ⟨n, hn⟩
    rw [hn, hpadd] at hle
    omega

theorem basicUnicode_compatible (text ellipsis : Text) : Compatible basicUnicode text ellipsis := by
  have hun : ∀ (t : Text), ∀ g ∈ glyphsOf (itemsOf basicUnicode true t), ∃ c, g = [c] := by
    intro t g hg
    obtain ⟨item, hitem, hg⟩ := mem_flatMap.mp hg
    obtain ⟨chunk, -, hitem⟩ := mem_flatMap.mp hitem
    cases chunk with
    | code seq =>
      rw [mem_singleton.mp hitem] at hg
      cases hg
    | tab =>
      rw [mem_singleton.mp hitem] at hg
      exact ⟨_, mem_singleton.mp hg⟩
    | run run =>
      obtain ⟨g', hg', rfl⟩ := mem_map.mp hitem
      obtain ⟨c, -, rfl⟩ := mem_map.mp hg'
      exact ⟨c, mem_singleton.mp hg⟩
  intro kept part n hkept hpart
  refine basicUnicode_joins fun g hg => ?_
  rcases mem_append.mp hg with hg | hg
  · rcases mem_append.mp hg with hg | hg
    · exact hun text g (hkept.subset hg)
    · exact hun ellipsis g (hpart.subset hg)
  · exact ⟨space, eq_of_mem_replicate hg⟩

def redText : Text := [esc, openBracket, 0x33, 0x31, lowerM, 0x65E5, tab, 0x61]

theorem truncateToWidth_exact_redText :
    CutText basicUnicode redText [0x2026] 5 true (truncateToWidth basicUnicode 5 redText [0x2026] true) :=
  (truncateToWidth_exact basicUnicode basicUnicode_lawful basicUnicode_ascii redText [0x2026] (by decide) (by decide)
    (basicUnicode_compatible _ _) 5 (by decide) true).2.2.2.2.1 (by decide +kernel)

/-- The start of a link to `u`, as an ellipsis. -/
def linkEllipsis : Text := [esc, closeBracket, 0x38, 0x3B, 0x3B, 0x75, bel]

/-- The link of an ellipsis is not closed. -/
theorem truncateToWidth_exact_fails : ¬ ∀ (u : Unicode) (_ : u.LawfulGraphemes) (_ : u.AsciiGraphemes) (text ellipsis : Text)
    (_ : Recognised text) (_ : Recognised ellipsis) (_ : Compatible u text ellipsis) (maxWidth : ℕ) (_ : 0 < maxWidth)
    (pad : Bool), (styleOf (truncateToWidth u maxWidth text ellipsis pad)).link = none := by
  intro h
  have hlink := h basicUnicode basicUnicode_lawful basicUnicode_ascii [0x61, 0x62] linkEllipsis (by decide) (by decide)
    (basicUnicode_compatible _ _) 1 (by decide) false
  exact absurd hlink (by decide +kernel)

end EasyPi.Tui
