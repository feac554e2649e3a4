/-
# The chunks of a wrapped line

The segments of a line are groups of its graphemes. While `wordWrapLine` walks over them, the chunks that it has
pushed lay out the graphemes up to `chunkStart`, and those behind it fit the width. So the chunks of a line are a
partition of it.
-/
import EasyPi.Tui.Graphemes
import EasyPi.Tui.WordWrap

namespace EasyPi.Tui

open List
namespace Editor

def widthOf (u : Unicode) (part : List Text) : ℕ := (part.map u.visibleWidth).sum

/-- The number of units of consecutive graphemes. -/
def unitsOf (part : List Text) : ℕ := part.flatten.length

/-- Chunks that lay out consecutive graphemes: each takes some that fit the width and begins at a place that is
allowed for breaks. -/
inductive Laid (u : Unicode) (maxWidth : ℕ) (allowed : List Text → Prop) : List Text → List TextChunk → Prop
  | nil : Laid u maxWidth allowed [] []
  | snoc {before part : List Text} {chunks : List TextChunk} (h : Laid u maxWidth allowed before chunks)
      (hne : part ≠ []) (hfits : widthOf u part ≤ maxWidth) (halw : allowed before) :
      Laid u maxWidth allowed (before ++ part) (chunks ++ [⟨part.flatten, unitsOf before, unitsOf (before ++ part)⟩])

section
variable {u : Unicode} {maxWidth : ℕ} {allowed : List Text → Prop} {part before gs : List Text}
  {chunks : List TextChunk} {line : Text}

theorem widthOf_append (a b : List Text) : widthOf u (a ++ b) = widthOf u a + widthOf u b := by
  unfold widthOf
  rw [map_append, sum_append]

theorem unitsOf_append (a b : List Text) : unitsOf (a ++ b) = unitsOf a + unitsOf b := by
  unfold unitsOf
  rw [flatten_append, length_append]

theorem unitsOf_pos (hne : part ≠ []) (hgs : ∀ g ∈ part, g ≠ []) : 0 < unitsOf part := by
  cases part with
  | nil => exact absurd rfl hne
  | cons g part =>
    have hg := length_pos_iff.mpr (hgs g mem_cons_self)
    unfold unitsOf
    rw [flatten_cons, length_append]
    omega

theorem slice_flatten (a b c : List Text) : slice (a ++ b ++ c).flatten (unitsOf a) (unitsOf (a ++ b)) = b.flatten := by
  unfold slice unitsOf
  rw [@flatten_append _ (a ++ b) c, take_left, flatten_append, drop_left]

theorem chunkOf_flatten (a b c : List Text) :
    chunkOf (a ++ b ++ c).flatten (unitsOf a) (unitsOf (a ++ b)) = ⟨b.flatten, unitsOf a, unitsOf (a ++ b)⟩ := by
  unfold chunkOf
  rw [slice_flatten]

theorem Laid.splice {group : List Text} {subChunks : List TextChunk} (h : Laid u maxWidth allowed before chunks)
    (hsub : Laid u maxWidth (fun a => allowed (before ++ a)) group subChunks) :
    Laid u maxWidth allowed (before ++ group) (chunks ++ subChunks.map fun sc =>
      ⟨sc.text, unitsOf before + sc.startIndex, unitsOf before + sc.endIndex⟩) := by
  induction hsub with
  | nil => simpa using h
  | snoc hsub hne hfits halw ih =>
    have hlaid := ih.snoc hne hfits halw
    rw [append_assoc before, append_assoc chunks, unitsOf_append before, unitsOf_append before] at hlaid
    rw [map_append]
    exact hlaid

/-! ### The loop -/

/-- What the loop knows behind the graphemes `seen`: they are the ones that are laid out and the ones of the current
chunk. A wrap opportunity is a place in the current chunk. -/
structure Wrapping (u : Unicode) (maxWidth : ℕ) (allowed : List Text → Prop) (seen : List Text) (s : WrapState)
    (before current : List Text) : Prop where
  seen_eq : seen = before ++ current
  laid : Laid u maxWidth allowed before s.chunks
  chunkStart : s.chunkStart = unitsOf before
  currentWidth : s.currentWidth = widthOf u current
  fits : widthOf u current ≤ maxWidth
  allowed_before : allowed before
  wrapOpp : ∀ index width, s.wrapOpp = some (index, width) → ∃ a b, current = a ++ b ∧ a ≠ [] ∧
    index = unitsOf (before ++ a) ∧ width = widthOf u a ∧ allowed (before ++ a)

variable {seen current group behind : List Text} {s : WrapState}

theorem wrapping_new (halw : allowed []) : Wrapping u maxWidth allowed [] {} [] [] where
  seen_eq := rfl
  laid := .nil
  chunkStart := rfl
  currentWidth := rfl
  fits := Nat.zero_le _
  allowed_before := halw
  wrapOpp _ _ hnone := by cases hnone

section
variable (h : Wrapping u maxWidth allowed seen s before current)
include h

theorem Wrapping.force (hne : ∀ g ∈ seen, g ≠ []) (hseen : allowed seen) (hline : line = (seen ++ behind).flatten) :
    Wrapping u maxWidth allowed seen (if s.chunkStart < unitsOf seen then
        ⟨s.chunks ++ [chunkOf line s.chunkStart (unitsOf seen)], 0, unitsOf seen, none⟩
      else { s with wrapOpp := none }) seen [] := by
  have hseen_eq := h.seen_eq
  by_cases hlt : s.chunkStart < unitsOf seen
  · rw [if_pos hlt]
    have hcur : current ≠ [] := by
      rintro rfl
      rw [h.chunkStart, hseen_eq, append_nil] at hlt
      exact absurd hlt (lt_irrefl _)
    have hlaid := h.laid.snoc hcur h.fits h.allowed_before
    have hchk : chunkOf line s.chunkStart (unitsOf seen) =
        ⟨current.flatten, unitsOf before, unitsOf (before ++ current)⟩ := by
      rw [hline, h.chunkStart, hseen_eq, chunkOf_flatten]
    rw [← hchk, ← hseen_eq] at hlaid
    exact ⟨(append_nil _).symm, hlaid, rfl, rfl, Nat.zero_le _, hseen, fun _ _ hnone => by cases hnone⟩
  · rw [if_neg hlt]
    have hcur : current = [] := by
      by_contra hcur
      have hpos := unitsOf_pos hcur fun g hg => hne g (by rw [hseen_eq]; exact mem_append_right _ hg)
      rw [h.chunkStart, hseen_eq, unitsOf_append] at hlt
      omega
    subst hcur
    rw [append_nil] at hseen_eq
    subst hseen_eq
    exact { h with wrapOpp := fun _ _ hnone => by cases hnone }

theorem Wrapping.breakBefore (hne : ∀ g ∈ seen, g ≠ [])
    (hseen : allowed seen) (hline : line = (seen ++ behind).flatten) (gWidth : ℕ) :
    ∃ before' current', Wrapping u maxWidth allowed seen
        (Editor.breakBefore line maxWidth gWidth (unitsOf seen) s) before' current' ∧
      (gWidth ≤ maxWidth → widthOf u current' + gWidth ≤ maxWidth) ∧ (maxWidth < gWidth → current' = []) := by
  have hfor : ∃ before' current', Wrapping u maxWidth allowed seen
        (if s.chunkStart < unitsOf seen then
          ⟨s.chunks ++ [chunkOf line s.chunkStart (unitsOf seen)], 0, unitsOf seen, none⟩
        else { s with wrapOpp := none }) before' current' ∧
      (gWidth ≤ maxWidth → widthOf u current' + gWidth ≤ maxWidth) ∧ (maxWidth < gWidth → current' = []) := by
    refine ⟨seen, [], h.force hne hseen hline, fun hle => ?_, fun _ => rfl⟩
    change 0 + gWidth ≤ maxWidth
    omega
  unfold Editor.breakBefore
  by_cases hover : s.currentWidth + gWidth > maxWidth
  · dsimp only
    rw [if_pos hover]
    cases hopp : s.wrapOpp with
    | none => exact hfor
    | some opp =>
      obtain ⟨index, width⟩ := opp
      dsimp only
      by_cases hroom : s.currentWidth - width + gWidth ≤ maxWidth
      · rw [if_pos hroom]
        obtain ⟨a, b, hcur, ha, hidx, hwd, halw⟩ := h.wrapOpp index width hopp
        have hsum : widthOf u current = widthOf u a + widthOf u b := by rw [hcur, widthOf_append]
        have hfits := h.fits
        have hcurr := h.currentWidth
        have hlaid := h.laid.snoc ha (by omega : widthOf u a ≤ maxWidth) h.allowed_before
        have hseen_eq : seen = before ++ a ++ b := by rw [h.seen_eq, hcur, append_assoc]
        have hchk : chunkOf line s.chunkStart index = ⟨a.flatten, unitsOf before, unitsOf (before ++ a)⟩ := by
          rw [hline, h.chunkStart, hidx, hseen_eq, append_assoc (before ++ a), chunkOf_flatten]
        rw [← hchk] at hlaid
        refine ⟨before ++ a, b, ⟨hseen_eq, hlaid, hidx, ?_, by omega, halw, fun _ _ hnone => by cases hnone⟩,
          fun _ => ?_, fun hwide => ?_⟩
        · dsimp only
          omega
        · omega
        · omega
      · rw [if_neg hroom]
        exact hfor
  · dsimp only
    rw [if_neg hover]
    have hcurr := h.currentWidth
    refine ⟨before, current, h, fun _ => ?_, fun hwide => ?_⟩
    · omega
    · omega

theorem Wrapping.advance (hne : group ≠ [])
    (hwd : u.visibleWidth group.flatten = widthOf u group) (hroom : widthOf u current + widthOf u group ≤ maxWidth)
    {next : Option Segment} (hnext : ∀ seg, next = some seg → seg.index = unitsOf (seen ++ group))
    (halw : allowed (seen ++ group)) :
    Wrapping u maxWidth allowed (seen ++ group) (Editor.advance u group.flatten next s) before (current ++ group) := by
  have hseen_eq : seen ++ group = before ++ (current ++ group) := by rw [h.seen_eq, append_assoc]
  have hcurr : s.currentWidth + u.visibleWidth group.flatten = widthOf u (current ++ group) := by
    rw [widthOf_append, h.currentWidth, hwd]
  have hfits : widthOf u (current ++ group) ≤ maxWidth := by rwa [widthOf_append]
  have hold : ∀ index width, s.wrapOpp = some (index, width) → ∃ a b, current ++ group = a ++ b ∧ a ≠ [] ∧
      index = unitsOf (before ++ a) ∧ width = widthOf u a ∧ allowed (before ++ a) := by
    intro index width hopp
    obtain ⟨a, b, hcur, hrest⟩ := h.wrapOpp index width hopp
    exact ⟨a, b ++ group, by rw [hcur, append_assoc], hrest⟩
  have hsame : Wrapping u maxWidth allowed (seen ++ group)
      { s with currentWidth := s.currentWidth + u.visibleWidth group.flatten } before (current ++ group) :=
    ⟨hseen_eq, h.laid, h.chunkStart, hcurr, hfits, h.allowed_before, hold⟩
  unfold Editor.advance
  cases next with
  | none => exact hsame
  | some seg =>
    dsimp only
    by_cases hwrap : canWrap u group.flatten seg.segment = true
    · rw [if_pos hwrap]
      refine ⟨hseen_eq, h.laid, h.chunkStart, hcurr, hfits, h.allowed_before, ?_⟩
      intro index width hopp
      obtain ⟨rfl, rfl⟩ := Prod.mk.inj (Option.some.inj hopp)
      refine ⟨current ++ group, [], (append_nil _).symm, append_ne_nil_of_right_ne_nil _ hne, ?_, hcurr, ?_⟩
      · rw [hnext seg rfl, hseen_eq]
      · rwa [← hseen_eq]
    · rw [if_neg hwrap]
      exact hsame

end

theorem Wrapping.splice (h : Wrapping u maxWidth allowed seen s seen []) {subChunks : List TextChunk}
    (hne : group ≠ []) (hsub : Laid u maxWidth (fun a => allowed (seen ++ a)) group subChunks)
    (hadd : ∀ part, part <:+: group → u.visibleWidth part.flatten = widthOf u part) :
    ∃ before' current', Wrapping u maxWidth allowed (seen ++ group)
      (Editor.splice u (unitsOf seen) subChunks s) before' current' ∧ current' ≠ [] := by
  cases hsub with
  | nil => exact absurd rfl hne
  | snoc hsub hpart hfits halw =>
    rename_i start part init
    refine ⟨seen ++ start, part, ?_, hpart⟩
    unfold Editor.splice
    rw [List.getLast?_concat]
    dsimp only
    rw [dropLast_concat]
    refine ⟨(append_assoc _ _ _).symm, h.laid.splice hsub, (unitsOf_append _ _).symm,
      hadd part ⟨start, [], by rw [append_nil]⟩, hfits, halw, fun _ _ hnone => by cases hnone⟩

theorem Wrapping.step (h : Wrapping u maxWidth allowed seen s before current) (hun : ∀ g ∈ seen, g ≠ [])
    (hseen : allowed seen) (halw : allowed (seen ++ group)) (hline : line = (seen ++ behind).flatten)
    (hne : group ≠ []) (hadd : ∀ part, part <:+: group → u.visibleWidth part.flatten = widthOf u part)
    {rewrap : Text → Option (List TextChunk)}
    (hrew : maxWidth < widthOf u group → ∃ subChunks, rewrap group.flatten = some subChunks ∧
      Laid u maxWidth (fun a => allowed (seen ++ a)) group subChunks)
    (next : Option Segment) (hnext : ∀ seg, next = some seg → seg.index = unitsOf (seen ++ group)) :
    ∃ s' before' current', wrapStep u line maxWidth rewrap ⟨group.flatten, unitsOf seen, false⟩ next s = some s' ∧
      Wrapping u maxWidth allowed (seen ++ group) s' before' current' ∧ current' ≠ [] := by
  have hwd : u.visibleWidth group.flatten = widthOf u group := hadd group infix_rfl
  obtain ⟨before₁, current₁, hbro, hroom, hwide⟩ := h.breakBefore hun hseen hline (u.visibleWidth group.flatten)
  unfold wrapStep
  dsimp only
  by_cases hlar : u.visibleWidth group.flatten > maxWidth
  · obtain ⟨subChunks, hsub, hlaid⟩ := hrew (by omega)
    have hnil := hwide hlar
    subst hnil
    have hbef : before₁ = seen := by rw [hbro.seen_eq, append_nil]
    subst hbef
    obtain ⟨before', current', hspliced, hcur⟩ := hbro.splice hne hlaid hadd
    rw [if_pos hlar, hsub]
    exact ⟨_, before', current', rfl, hspliced, hcur⟩
  · rw [if_neg hlar]
    have hfits := hroom (by omega)
    rw [hwd] at hfits
    exact ⟨_, before₁, current₁ ++ group, rfl, hbro.advance hne hwd hfits hnext halw, append_ne_nil_of_right_ne_nil _ hne⟩

/-- The segments of groups of graphemes, from an index on. -/
def segmentsOf (index : ℕ) (groups : List (List Text)) : List Segment :=
  indexed index (groups.map fun group => (group.flatten, false))

theorem segmentsOf_cons (index : ℕ) (group : List Text) (groups : List (List Text)) :
    segmentsOf index (group :: groups) = ⟨group.flatten, index, false⟩ :: segmentsOf (index + unitsOf group) groups := rfl

theorem segmentsOf_head {index : ℕ} {groups : List (List Text)} {seg : Segment}
    (h : (segmentsOf index groups).head? = some seg) : seg.index = index := by
  cases groups with
  | nil => cases h
  | cons group groups =>
    cases h
    rfl

/-- **The loop.** It takes all segments. -/
theorem Wrapping.loop {rewrap : Text → Option (List TextChunk)} (groups : List (List Text))
    (h : Wrapping u maxWidth allowed seen s before current) (hline : line = (seen ++ groups.flatten).flatten)
    (hun : ∀ g ∈ seen ++ groups.flatten, g ≠ []) (hne : ∀ group ∈ groups, group ≠ [])
    (halw : ∀ done rest, groups = done ++ rest → allowed (seen ++ done.flatten))
    (hadd : ∀ group ∈ groups, ∀ part, part <:+: group → u.visibleWidth part.flatten = widthOf u part)
    (hrew : ∀ done group rest, groups = done ++ group :: rest → maxWidth < widthOf u group →
      ∃ subChunks, rewrap group.flatten = some subChunks ∧
        Laid u maxWidth (fun a => allowed (seen ++ done.flatten ++ a)) group subChunks) :
    ∃ s' before' current', wrapLoop u line maxWidth rewrap (segmentsOf (unitsOf seen) groups) s = some s' ∧
      Wrapping u maxWidth allowed (seen ++ groups.flatten) s' before' current' ∧
      (groups ≠ [] ∨ current ≠ [] → current' ≠ []) := by
  induction groups generalizing seen s before current with
  | nil =>
    refine ⟨s, before, current, rfl, ?_, fun hor => hor.resolve_left (fun hnil => hnil rfl)⟩
    rwa [flatten_nil, append_nil]
  | cons group groups ih =>
    obtain ⟨hgro, hgrou⟩ := forall_mem_cons.mp hne
    obtain ⟨haddGroup, haddG⟩ := forall_mem_cons.mp hadd
    rw [flatten_cons] at hline hun ⊢
    have hseen : allowed seen := by simpa using halw [] (group :: groups) rfl
    have hbeh : allowed (seen ++ group) := by simpa using halw [group] groups rfl
    obtain ⟨s₁, before₁, current₁, hstep, h₁, hcurrent₁⟩ := h.step (fun g hg => hun g (mem_append_left _ hg))
      hseen hbeh hline hgro haddGroup (by simpa using hrew [] group groups rfl)
      (segmentsOf (unitsOf seen + unitsOf group) groups).head?
      (fun seg hseg => by rw [unitsOf_append]; exact segmentsOf_head hseg)
    rw [← append_assoc] at hline hun
    obtain ⟨s', before', current', hloop, h', hcur'⟩ := ih h₁ hline hun hgrou
      (fun done rest hpts => by
        have hwho := halw (group :: done) rest (by rw [hpts, cons_append])
        rwa [flatten_cons, ← append_assoc] at hwho)
      haddG
      (fun done group' rest hpts hwide => by
        have hwho := hrew (group :: done) group' rest (by rw [hpts, cons_append]) hwide
        rwa [flatten_cons, ← append_assoc] at hwho)
    refine ⟨s', before', current', ?_, ?_, fun _ => hcur' (Or.inr hcurrent₁)⟩
    · rw [segmentsOf_cons, wrapLoop, hstep, Option.bind_some, ← unitsOf_append]
      exact hloop
    · rwa [← append_assoc]

end

/-! ### Lines -/

/-- A line whose segments are groups of its graphemes, none of which is wider than the width. Widths add up. -/
structure Wrappable (u : Unicode) (maxWidth : ℕ) (line : Text) (groups : List (List Text)) : Prop where
  graphemes : groups.flatten = u.graphemes line
  ne_nil : ∀ group ∈ groups, group ≠ []
  fits : ∀ g ∈ u.graphemes line, u.visibleWidth g ≤ maxWidth
  additive : ∀ part, part <:+: u.graphemes line → u.visibleWidth part.flatten = widthOf u part

/-- The places for breaks: between segments, and between the graphemes of a segment that is too wide. -/
def BreaksAt (u : Unicode) (maxWidth : ℕ) (groups : List (List Text)) (before : List Text) : Prop :=
  (∃ done rest, groups = done ++ rest ∧ before = done.flatten) ∨
    ∃ done group rest inner outer, groups = done ++ group :: rest ∧ group = inner ++ outer ∧
      before = done.flatten ++ inner ∧ maxWidth < widthOf u group

variable {u : Unicode} {maxWidth : ℕ} {allowed : List Text → Prop} {line : Text}

theorem wordWrapLine_laid (fuel : ℕ) (groups : List (List Text)) (hmax : 1 ≤ maxWidth)
    (hline : line = groups.flatten.flatten) (hpos : line ≠ []) (hun : ∀ g ∈ groups.flatten, g ≠ [])
    (hne : ∀ group ∈ groups, group ≠ []) (halw : ∀ done rest, groups = done ++ rest → allowed done.flatten)
    (hadd : ∀ part, part <:+: groups.flatten → u.visibleWidth part.flatten = widthOf u part)
    (hrew : ∀ done group rest, groups = done ++ group :: rest → maxWidth < widthOf u group →
      ∃ subChunks, wordWrapLine u fuel group.flatten maxWidth none = some subChunks ∧
        Laid u maxWidth (fun a => allowed (done.flatten ++ a)) group subChunks) (preSegmented : Option (List Segment))
    (hsegm : preSegmented.getD (baseSegments u .grapheme line) = segmentsOf 0 groups) :
    ∃ chunks, wordWrapLine u (fuel + 1) line maxWidth preSegmented = some chunks ∧
      Laid u maxWidth allowed groups.flatten chunks := by
  have hpre : allowed [] := halw [] groups rfl
  have hgrou : groups ≠ [] := by
    rintro rfl
    exact hpos hline
  have hfla : groups.flatten ≠ [] := by
    intro hnil
    rw [hnil] at hline
    exact hpos hline
  have hlen : line.length = unitsOf groups.flatten := by rw [hline]; rfl
  rw [wordWrapLine, if_neg (by simp [hpos]; omega)]
  by_cases hfits : u.visibleWidth line ≤ maxWidth
  · rw [if_pos hfits]
    rw [hline, hadd _ infix_rfl] at hfits
    have hlaid := Laid.nil.snoc hfla hfits hpre
    rw [nil_append, nil_append, ← hlen, ← hline] at hlaid
    exact ⟨_, rfl, hlaid⟩
  · rw [if_neg hfits]
    dsimp only
    rw [hsegm]
    have hnew : Wrapping u maxWidth allowed [] {} [] [] := wrapping_new hpre
    have hrun : ∃ s' before current,
        wrapLoop u line maxWidth (wordWrapLine u fuel · maxWidth none) (segmentsOf 0 groups) {} = some s' ∧
        Wrapping u maxWidth allowed ([] ++ groups.flatten) s' before current ∧
        (groups ≠ [] ∨ ([] : List Text) ≠ [] → current ≠ []) :=
      hnew.loop groups (by simpa using hline) (by simpa using hun) hne (by simpa using halw)
        (fun group hgro part hpart => hadd part (hpart.trans (infix_of_mem_flatten hgro)))
        (by simpa using hrew)
    obtain ⟨s', before, current, hloop, hwra, hcur⟩ := hrun
    have hlaid := hwra.laid.snoc (hcur (Or.inl hgrou)) hwra.fits hwra.allowed_before
    have hseen : groups.flatten = before ++ current := by simpa using hwra.seen_eq
    have hdrop : line.drop s'.chunkStart = current.flatten := by
      rw [hline, hwra.chunkStart, hseen, flatten_append]
      exact drop_left
    rw [← hseen, ← hdrop, ← hwra.chunkStart, ← hlen] at hlaid
    rw [hloop]
    exact ⟨_, rfl, hlaid⟩

theorem wordWrapLine_segment_laid (fuel : ℕ) {group : List Text} (hmax : 1 ≤ maxWidth)
    (hgra : u.graphemes group.flatten = group) (hne : group ≠ []) (hun : ∀ g ∈ group, g ≠ [])
    (hfits : ∀ g ∈ group, u.visibleWidth g ≤ maxWidth) (halw : ∀ inner, inner <+: group → allowed inner)
    (hadd : ∀ part, part <:+: group → u.visibleWidth part.flatten = widthOf u part) :
    ∃ chunks, wordWrapLine u (fuel + 1) group.flatten maxWidth none = some chunks ∧
      Laid u maxWidth allowed group chunks := by
  have hsingles : (group.map ([·])).flatten = group := flatMap_singleton' group
  have hpos : group.flatten ≠ [] := fun hnil => by
    have hunit := unitsOf_pos hne hun
    unfold unitsOf at hunit
    rw [hnil] at hunit
    exact absurd hunit (lt_irrefl _)
  have hsegm : segmentsOf 0 (group.map ([·])) = baseSegments u .grapheme group.flatten := by
    unfold segmentsOf baseSegments
    rw [hgra, map_map]
    congr 1
    exact map_congr_left fun g _ => by simp
  have hlaid : ∃ chunks, wordWrapLine u (fuel + 1) group.flatten maxWidth none = some chunks ∧
      Laid u maxWidth allowed (group.map ([·])).flatten chunks := wordWrapLine_laid fuel (group.map ([·])) hmax
    (by rw [hsingles]) hpos (by rwa [hsingles])
    (fun single hsgl => by obtain ⟨g, -, rfl⟩ := mem_map.mp hsgl; exact cons_ne_nil _ _)
    (fun done rest hpts => halw _ (by rw [← hsingles, hpts, flatten_append]; exact prefix_append _ _))
    (by rwa [hsingles])
    (fun done single rest hpts hwide => by
      have hmem : single ∈ group.map ([·]) := by rw [hpts]; simp
      obtain ⟨g, hg, rfl⟩ := mem_map.mp hmem
      have hle := hfits g hg
      have hsum : widthOf u [g] = u.visibleWidth g := by simp [widthOf]
      omega)
    none hsegm.symm
  rwa [hsingles] at hlaid

/-- **Wrapping lays out the graphemes.** Two nested calls are enough. -/
theorem wordWrapLine_partition (hu : u.LawfulGraphemes) {groups : List (List Text)} (hmax : 1 ≤ maxWidth)
    (h : Wrappable u maxWidth line groups) (hpos : line ≠ []) (fuel : ℕ) :
    ∃ chunks, wordWrapLine u (fuel + 2) line maxWidth (some (segmentsOf 0 groups)) = some chunks ∧
      Laid u maxWidth (BreaksAt u maxWidth groups) (u.graphemes line) chunks := by
  have hun : ∀ g ∈ groups.flatten, g ≠ [] := by
    rw [h.graphemes]
    exact hu.ne_nil line
  have hlaid : ∃ chunks, wordWrapLine u (fuel + 2) line maxWidth (some (segmentsOf 0 groups)) = some chunks ∧
      Laid u maxWidth (BreaksAt u maxWidth groups) groups.flatten chunks := wordWrapLine_laid (fuel + 1) groups hmax
    (by rw [h.graphemes, hu.flatten]) hpos hun h.ne_nil (fun done rest hpts => Or.inl ⟨done, rest, hpts, rfl⟩)
    (by rw [h.graphemes]; exact h.additive)
    (fun done group rest hpts hwide => by
      have hmem : group ∈ groups := by rw [hpts]; simp
      have hgro : group <:+: groups.flatten := infix_of_mem_flatten hmem
      refine wordWrapLine_segment_laid fuel hmax ?_ (h.ne_nil group hmem) (fun g hg => hun g (hgro.subset hg))
        (fun g hg => h.fits g (by rw [← h.graphemes]; exact hgro.subset hg))
        (fun inner hinn => ?_) (fun part hpart => h.additive part ?_)
      · exact hu.of_infix line group (by rwa [← h.graphemes])
      · obtain ⟨outer, hout⟩ := hinn
        exact Or.inr ⟨done, group, rest, inner, outer, hpts, hout.symm, rfl, hwide⟩
      · rw [← h.graphemes]
        exact hpart.trans hgro)
    (some (segmentsOf 0 groups)) rfl
  rwa [h.graphemes] at hlaid

theorem basicUnicode_additive (hesc : esc ∉ line) (htab : tab ∉ line) (part : List Text)
    (hpart : part <:+: basicUnicode.graphemes line) :
    basicUnicode.visibleWidth part.flatten = widthOf basicUnicode part := by
  have hun : part.flatten.map ([·]) = part := basicUnicode_lawful.of_infix line part hpart
  have hsubs : part.flatten ⊆ line := by
    obtain ⟨before, behind, hpts⟩ := hpart
    have hfla : line = (before ++ part ++ behind).flatten := by
      rw [hpts]
      exact (basicUnicode_lawful.flatten line).symm
    intro c hc
    rw [hfla, flatten_append, flatten_append]
    exact mem_append_left _ (mem_append_right _ hc)
  have hwd := basicUnicode_visibleWidth (fun h => hesc (hsubs h)) (fun h => htab (hsubs h))
  rw [hwd]
  unfold widthOf
  conv_rhs => rw [← hun]
  rw [map_map]
  congr 1
  refine map_congr_left fun c hc => ?_
  have hline := hsubs hc
  have hsgl : basicUnicode.visibleWidth [c] = _ := basicUnicode_visibleWidth
    (fun h => hesc (mem_singleton.mp h ▸ hline)) (fun h => htab (mem_singleton.mp h ▸ hline))
  rw [Function.comp_apply, hsgl]
  simp

end Editor
end EasyPi.Tui
