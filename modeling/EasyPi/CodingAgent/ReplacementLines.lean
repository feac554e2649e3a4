/-
# Replacements keep the lines they do not touch

Each replacement touches a range of lines, and replacements that share a line share a group
(`GroupsOf`): the groups hold all replacements in order, each inside the lines of its group, and every
line of a group is touched. So what is written is the file with the touched lines taken from the base;
and when the base is the file itself, line by line is the same as at once.
-/
import EasyPi.Lib.Pieces
import EasyPi.Lib.Splice
import EasyPi.CodingAgent.Replacements

namespace EasyPi.CodingAgent

open List
namespace EditDiff

/-! ### Replacements as patches -/

namespace TextReplacement

def patch (r : TextReplacement) : Patch UInt16 := { start := r.matchIndex, length := r.matchLength, text := r.newText }

def matchEnd (r : TextReplacement) : ℕ := r.matchIndex + r.matchLength

end TextReplacement

/-- The range is not empty, and lies in the content. -/
structure InRange (content : Text) (r : TextReplacement) : Prop where
  pos : 0 < r.matchLength
  le : r.matchEnd ≤ content.length

/-- The ranges have no offset in common. -/
def Disjoint (a b : TextReplacement) : Prop := a.matchEnd ≤ b.matchIndex ∨ b.matchEnd ≤ a.matchIndex

variable {content base : Text} {rs : List TextReplacement} {r : TextReplacement} {offset : ℕ}

theorem InRange.index_lt (h : InRange content r) : r.matchIndex < content.length := by
  have hpos := h.pos
  have hle := h.le
  unfold TextReplacement.matchEnd at hle
  omega

theorem applyReplacements_eq_applyLast :
    applyReplacements content rs offset = applyLast offset (rs.map TextReplacement.patch) content := by
  unfold applyReplacements applyLast
  rw [foldr_map]
  rfl

theorem sorted_sortByIndex (rs : List TextReplacement) :
    (sortByIndex rs).Pairwise fun a b => a.matchIndex ≤ b.matchIndex := by
  have h := @pairwise_mergeSort _ (fun a b : TextReplacement => a.matchIndex ≤ b.matchIndex)
    (fun a b c hab hbc => by simpa using Nat.le_trans (by simpa using hab) (by simpa using hbc))
    (fun a b => by simpa using Nat.le_total _ _) rs
  exact h.imp fun hab => by simpa using hab

theorem ordered_sortByIndex (hin : ∀ r ∈ rs, InRange content r) (hdisjoint : rs.Pairwise Disjoint) :
    Patch.Ordered ((sortByIndex rs).map TextReplacement.patch) := by
  have hperm : (sortByIndex rs).Perm rs := mergeSort_perm rs _
  have hdisjoint' : (sortByIndex rs).Pairwise Disjoint := (hperm.pairwise_iff fun h => h.symm).mpr hdisjoint
  rw [Patch.Ordered, pairwise_map]
  refine List.Pairwise.imp_of_mem (fun {a b} _ hb hab => ?_) ((sorted_sortByIndex rs).and hdisjoint')
  rcases hab.2 with h | h
  · exact h
  · have hle := hab.1
    have hpos := (hin b (hperm.mem_iff.mp hb)).pos
    unfold TextReplacement.matchEnd at h
    omega

/-! ### The lines a replacement touches -/

def lineOffset (content : Text) (i : ℕ) : ℕ := offsetOf (splitLinesWithEndings content) i

def lineCount (content : Text) : ℕ := (splitLinesWithEndings content).length

def Touches (content : Text) (r : TextReplacement) (i : ℕ) : Prop :=
  lineOffset content i < r.matchEnd ∧ r.matchIndex < lineOffset content (i + 1)

theorem lineOffset_lineCount : lineOffset content (lineCount content) = content.length := by
  rw [lineOffset, lineCount, offsetOf_length, splitLinesWithEndings, flatten_endedLines]

theorem getElem?_spansFrom (lines : List Text) (i : ℕ) : (spansFrom offset lines)[i]? =
    if i < lines.length then some ⟨offset + offsetOf lines i, offset + offsetOf lines (i + 1)⟩ else none := by
  induction lines generalizing offset i with
  | nil => rfl
  | cons line lines ih =>
    rw [spansFrom]
    cases i with
    | zero =>
      rw [List.getElem?_cons_zero, length_cons, if_pos (Nat.succ_pos lines.length), offsetOf_cons_succ]
      rfl
    | succ i =>
      rw [List.getElem?_cons_succ, ih, offsetOf_cons_succ, offsetOf_cons_succ, length_cons]
      simp only [Nat.add_lt_add_iff_right, Nat.add_assoc]

theorem getElem?_getLineSpans (i : ℕ) : (getLineSpans content)[i]? =
    if i < lineCount content then some ⟨lineOffset content i, lineOffset content (i + 1)⟩ else none := by
  rw [getLineSpans, getElem?_spansFrom]
  simp only [Nat.zero_add]
  rfl

theorem length_getLineSpans : (getLineSpans content).length = lineCount content := by
  have h : ∀ (lines : List Text) (offset : ℕ), (spansFrom offset lines).length = lines.length := by
    intro lines
    induction lines with
    | nil => exact fun _ => rfl
    | cons line lines ih => exact fun _ => congrArg Nat.succ (ih _)
  exact h _ _

theorem getElem_getLineSpans {i : ℕ} (h : i < (getLineSpans content).length) :
    (getLineSpans content)[i] = ⟨lineOffset content i, lineOffset content (i + 1)⟩ := by
  have hget := @getElem?_getLineSpans content i
  rw [List.getElem?_eq_getElem h, if_pos (by rwa [← length_getLineSpans])] at hget
  exact Option.some.inj hget

theorem findIdx?_startLine {p : ℕ} (hp : p < content.length) :
    ∃ i, (getLineSpans content).findIdx? (fun line => line.start ≤ p && p < line.stop) = some i ∧
      i < lineCount content ∧ lineOffset content i ≤ p ∧ p < lineOffset content (i + 1) := by
  obtain ⟨j, hj, hle, hlt⟩ := @exists_piece _ (splitLinesWithEndings content) p
    (by rwa [splitLinesWithEndings, flatten_endedLines])
  cases hfind : (getLineSpans content).findIdx? fun line => line.start ≤ p && p < line.stop with
  | none =>
    have hj' : j < (getLineSpans content).length := by rwa [length_getLineSpans]
    have hnot := List.findIdx?_eq_none_iff.mp hfind _ (getElem_mem hj')
    rw [getElem_getLineSpans hj', Bool.and_eq_false_iff, decide_eq_false_iff_not, decide_eq_false_iff_not] at hnot
    exact hnot.elim (absurd hle) (absurd hlt)
  | some i =>
    obtain ⟨hi, hspan, -⟩ := List.findIdx?_eq_some_iff_getElem.mp hfind
    rw [getElem_getLineSpans hi, Bool.and_eq_true_iff, decide_eq_true_eq, decide_eq_true_eq] at hspan
    exact ⟨i, rfl, by rwa [length_getLineSpans] at hi, hspan⟩

theorem findIdx?_endLine {s e : ℕ} (hs : s < lineCount content) (he : e ≤ content.length) :
    ∃ i, ((getLineSpans content).drop s).findIdx? (fun line => !decide (line.stop < e)) = some i ∧
      s + i < lineCount content ∧ e ≤ lineOffset content (s + i + 1) ∧ ∀ j < i, lineOffset content (s + j + 1) < e := by
  have hget : ∀ {i : ℕ} (hi : i < ((getLineSpans content).drop s).length), ((getLineSpans content).drop s)[i] =
        ⟨lineOffset content (s + i), lineOffset content (s + i + 1)⟩ := fun hi => by
    rw [getElem_drop, getElem_getLineSpans]
  have hlen : ((getLineSpans content).drop s).length = lineCount content - s := by
    rw [length_drop, length_getLineSpans]
  cases hfind : ((getLineSpans content).drop s).findIdx? fun line => !decide (line.stop < e) with
  | none =>
    have hlast : lineCount content - 1 - s < ((getLineSpans content).drop s).length := by omega
    have hnot := List.findIdx?_eq_none_iff.mp hfind _ (getElem_mem hlast)
    rw [hget hlast, show s + (lineCount content - 1 - s) + 1 = lineCount content by omega,
      lineOffset_lineCount, Bool.not_eq_false', decide_eq_true_eq] at hnot
    exact absurd he (Nat.not_le_of_lt hnot)
  | some i =>
    obtain ⟨hi, hspan, hbef⟩ := List.findIdx?_eq_some_iff_getElem.mp hfind
    rw [hget hi, Bool.not_eq_true', decide_eq_false_iff_not] at hspan
    refine ⟨i, rfl, by omega, Nat.le_of_not_lt hspan, fun j hj => ?_⟩
    have hnot := hbef j hj
    rw [hget (Nat.lt_trans hj hi)] at hnot
    simpa using hnot

/-- **The lines of a replacement**: the range lies in them, and touches each of them. -/
theorem getReplacementLineRange_spec (h : InRange content r) :
    ∃ startLine endLine, getReplacementLineRange (getLineSpans content) r = .ok (startLine, endLine) ∧
      startLine < endLine ∧ endLine ≤ lineCount content ∧
      lineOffset content startLine ≤ r.matchIndex ∧ r.matchEnd ≤ lineOffset content endLine ∧
      ∀ i, startLine ≤ i → i < endLine → Touches content r i := by
  obtain ⟨s, hfind, hs, hle, hlt⟩ := findIdx?_startLine h.index_lt
  obtain ⟨i, hfind', hi, hend, hbef⟩ := findIdx?_endLine hs h.le
  refine ⟨s, s + i + 1, ?_, by omega, hi, hle, hend, fun j hsj hj => ⟨?_, ?_⟩⟩
  · unfold TextReplacement.matchEnd at hfind'
    unfold getReplacementLineRange
    dsimp only
    rw [hfind]
    dsimp only
    rw [hfind']
    rfl
  · rcases Nat.eq_or_lt_of_le hsj with rfl | hlt'
    · have hpos := h.pos
      unfold TextReplacement.matchEnd
      omega
    · have := hbef (j - s - 1) (by omega)
      rwa [show s + (j - s - 1) + 1 = j by omega] at this
  · exact Nat.lt_of_lt_of_le hlt (offsetOf_mono (Nat.succ_le_succ hsj))

/-! ### Groups of lines -/

/-- The lines of a group hold its replacements, and each of them is touched. -/
structure GroupOf (content : Text) (g : LineGroup) : Prop where
  lt : g.startLine < g.endLine
  le : g.endLine ≤ lineCount content
  within : ∀ r ∈ g.replacements, lineOffset content g.startLine ≤ r.matchIndex ∧ r.matchEnd ≤ lineOffset content g.endLine
  touched : ∀ i, g.startLine ≤ i → i < g.endLine → ∃ r ∈ g.replacements, Touches content r i

/-- The groups of replacements hold them in order, and share no lines. -/
structure GroupsOf (content : Text) (rs : List TextReplacement) (groups : List LineGroup) : Prop where
  all : groups.flatMap (·.replacements) = rs
  each : ∀ g ∈ groups, GroupOf content g
  apart : groups.Pairwise fun a b => a.endLine ≤ b.startLine

variable {g : LineGroup} {groups : List LineGroup} {startLine endLine : ℕ}

theorem groupOf_singleton (hlt : startLine < endLine) (hle : endLine ≤ lineCount content)
    (hpre : lineOffset content startLine ≤ r.matchIndex) (hend : r.matchEnd ≤ lineOffset content endLine)
    (htou : ∀ i, startLine ≤ i → i < endLine → Touches content r i) :
    GroupOf content { startLine, endLine, replacements := [r] } where
  lt := hlt
  le := hle
  within q hq := by
    obtain rfl := mem_singleton.mp hq
    exact ⟨hpre, hend⟩
  touched i hi hi' := ⟨r, mem_singleton_self r, htou i hi hi'⟩

theorem GroupOf.join (hg : GroupOf content g) (hsrt : ∀ q ∈ g.replacements, q.matchIndex ≤ r.matchIndex)
    (hshare : startLine < g.endLine) (hle : endLine ≤ lineCount content)
    (hend : r.matchEnd ≤ lineOffset content endLine) (htou : ∀ i, startLine ≤ i → i < endLine → Touches content r i) :
    GroupOf content { g with
      endLine := max g.endLine endLine
      replacements := g.replacements ++ [r] } where
  lt := Nat.lt_of_lt_of_le hg.lt (Nat.le_max_left _ _)
  le := Nat.max_le.mpr ⟨hg.le, hle⟩
  within q hq := by
    rcases mem_append.mp hq with hq | hq
    · obtain ⟨hpre, hstop⟩ := hg.within q hq
      exact ⟨hpre, Nat.le_trans hstop (offsetOf_mono (Nat.le_max_left _ _))⟩
    · obtain rfl := mem_singleton.mp hq
      obtain ⟨first, hfst, -⟩ := hg.touched g.startLine (Nat.le_refl _) hg.lt
      exact ⟨Nat.le_trans (hg.within first hfst).1 (hsrt first hfst),
        Nat.le_trans hend (offsetOf_mono (Nat.le_max_right _ _))⟩
  touched i hi hi' := by
    by_cases hold : i < g.endLine
    · obtain ⟨q, hq, ht⟩ := hg.touched i hi hold
      exact ⟨q, mem_append_left _ hq, ht⟩
    · have hi' : i < max g.endLine endLine := hi'
      exact ⟨r, mem_append_right _ (mem_singleton_self r), htou i (by omega) (by omega)⟩

/-- **One more replacement** keeps the groups apart. -/
theorem GroupsOf.add (h : GroupsOf content rs groups) (hsrt : ∀ q ∈ rs, q.matchIndex ≤ r.matchIndex)
    (hlt : startLine < endLine) (hle : endLine ≤ lineCount content) (hpre : lineOffset content startLine ≤ r.matchIndex)
    (hend : r.matchEnd ≤ lineOffset content endLine) (htou : ∀ i, startLine ≤ i → i < endLine → Touches content r i) :
    GroupsOf content (rs ++ [r]) (addToGroups groups (startLine, endLine) r) := by
  have hnew := groupOf_singleton hlt hle hpre hend htou
  rcases eq_nil_or_concat groups with rfl | ⟨before, current, rfl⟩
  · obtain rfl : [] = rs := h.all
    exact ⟨rfl, fun g hg => mem_singleton.mp hg ▸ hnew, pairwise_singleton _ _⟩
  · rw [concat_eq_append] at h ⊢
    obtain ⟨hbef, -, hlast⟩ := pairwise_append.mp h.apart
    have hcur := h.each current (mem_append_right _ (mem_singleton_self current))
    have hall := h.all
    rw [flatMap_append, flatMap_singleton] at hall
    unfold addToGroups
    dsimp only
    rw [List.getLast?_concat]
    dsimp only
    split
    · rename_i hshare
      rw [dropLast_concat]
      have hjoin := hcur.join
        (fun q hq => hsrt q (hall ▸ mem_append_right _ hq)) hshare hle hend htou
      refine ⟨?_, fun g hg => ?_, pairwise_append.mpr ⟨hbef, pairwise_singleton _ _, ?_⟩⟩
      · rw [flatMap_append, flatMap_singleton, ← hall, append_assoc]
      · rcases mem_append.mp hg with hg | hg
        · exact h.each g (mem_append_left _ hg)
        · exact mem_singleton.mp hg ▸ hjoin
      · intro a ha b hb
        obtain rfl := mem_singleton.mp hb
        exact hlast a ha current (mem_singleton_self current)
    · rename_i hshare
      have hcurr := hcur.lt
      refine ⟨?_, fun g hg => ?_, pairwise_append.mpr ⟨h.apart, pairwise_singleton _ _, ?_⟩⟩
      · rw [flatMap_append, flatMap_singleton, h.all]
      · rcases mem_append.mp hg with hg | hg
        · exact h.each g hg
        · exact mem_singleton.mp hg ▸ hnew
      · intro a ha b hb
        obtain rfl := mem_singleton.mp hb
        have haft : current.endLine ≤ startLine := Nat.le_of_not_lt hshare
        rcases mem_append.mp ha with ha | ha
        · have := hlast a ha current (mem_singleton_self current)
          change a.endLine ≤ startLine
          omega
        · obtain rfl := mem_singleton.mp ha
          exact haft

/-- **The groups of sorted replacements** in the content. -/
theorem groupReplacements_spec (hin : ∀ r ∈ rs, InRange content r)
    (hsrt : rs.Pairwise fun a b => a.matchIndex ≤ b.matchIndex) :
    ∃ groups, groupReplacements (getLineSpans content) rs = .ok groups ∧ GroupsOf content rs groups := by
  have hrun : ∀ (rs done : List TextReplacement) (groups : List LineGroup), (∀ r ∈ rs, InRange content r) →
      (done ++ rs).Pairwise (fun a b => a.matchIndex ≤ b.matchIndex) → GroupsOf content done groups →
      ∃ groups', rs.foldlM (fun groups replacement => do
          let range ← getReplacementLineRange (getLineSpans content) replacement
          return addToGroups groups range replacement) groups = (.ok groups' : Except EditError _) ∧
        GroupsOf content (done ++ rs) groups' := by
    intro rs
    induction rs with
    | nil => exact fun done groups _ _ h => ⟨groups, rfl, (append_nil done).symm ▸ h⟩
    | cons r rs ih =>
      intro done groups hin hsrt h
      obtain ⟨s, e, hran, hlt, hle, hpre, hend, htou⟩ := getReplacementLineRange_spec (hin r mem_cons_self)
      have hbef : ∀ q ∈ done, q.matchIndex ≤ r.matchIndex := fun q hq =>
        (pairwise_append.mp hsrt).2.2 q hq r mem_cons_self
      rw [append_cons] at hsrt ⊢
      obtain ⟨groups', hfold, hgs⟩ := ih (done ++ [r]) (addToGroups groups (s, e) r)
        (fun q hq => hin q (mem_cons_of_mem r hq)) hsrt
        (h.add hbef hlt hle hpre hend htou)
      refine ⟨groups', ?_, hgs⟩
      rw [foldlM_cons, hran]
      exact hfold
  exact hrun rs [] [] hin hsrt ⟨rfl, fun g hg => absurd hg not_mem_nil, List.Pairwise.nil⟩

/-! ### What is written -/

/-- **A group is rewritten** from its lines in the base. -/
theorem rewriteGroup_eq_splice (hg : GroupOf content g) (ho : Patch.Ordered (g.replacements.map TextReplacement.patch)) :
    rewriteGroup content (getLineSpans content) g =
      splice (lineOffset content g.startLine) (g.replacements.map TextReplacement.patch)
        (slice (splitLinesWithEndings content) g.startLine g.endLine).flatten := by
  have hlt := hg.lt
  have hle := hg.le
  have hlen := length_slice (splitLinesWithEndings content) (Nat.le_of_lt hlt)
  have hsli := flatten_slice (splitLinesWithEndings content) g.startLine g.endLine
  rw [splitLinesWithEndings, flatten_endedLines] at hsli
  unfold rewriteGroup
  dsimp only
  rw [getElem?_getLineSpans, if_pos (by omega), getElem?_getLineSpans, if_pos (by omega)]
  dsimp only [Option.map_some, Option.getD_some]
  rw [Nat.sub_add_cancel (by omega), applyReplacements_eq_applyLast, ← applyLast_eq_splice ho]
  · exact congrArg _ hsli
  · intro p hp
    obtain ⟨r, hr, rfl⟩ := mem_map.mp hp
    obtain ⟨hpre, hend⟩ := hg.within r hr
    exact ⟨hpre, Nat.le_trans hend (Nat.le_of_eq hlen.symm)⟩

theorem overlayGroups_self {i : ℕ} (hgs : GroupsOf content rs groups)
    (ho : Patch.Ordered (rs.map TextReplacement.patch)) (hi : ∀ g ∈ groups, i ≤ g.startLine) :
    overlayGroups (splitLinesWithEndings content) content (getLineSpans content) i groups =
      splice (lineOffset content i) (rs.map TextReplacement.patch) ((splitLinesWithEndings content).drop i).flatten := by
  induction groups generalizing i rs with
  | nil =>
    obtain rfl : [] = rs := hgs.all
    rw [overlayGroups, map_nil, splice_nil]
  | cons g groups ih =>
    obtain ⟨haft, hapa⟩ := pairwise_cons.mp hgs.apart
    have hg := hgs.each g mem_cons_self
    have hall := hgs.all
    rw [flatMap_cons] at hall
    rw [← hall, map_append, Patch.Ordered, pairwise_append] at ho
    obtain ⟨hog, horest, -⟩ := ho
    have hrest : GroupsOf content (groups.flatMap (·.replacements)) groups :=
      ⟨rfl, fun g hg => hgs.each g (mem_cons_of_mem _ hg), hapa⟩
    have hpre := hi g mem_cons_self
    have hend := Nat.le_of_lt hg.lt
    have hoff : lineOffset content i + (slice (splitLinesWithEndings content) i g.startLine).flatten.length =
          lineOffset content g.startLine := length_slice (splitLinesWithEndings content) hpre
    have hoff' : lineOffset content g.startLine +
        (slice (splitLinesWithEndings content) g.startLine g.endLine).flatten.length =
          lineOffset content g.endLine := length_slice (splitLinesWithEndings content) hend
    have hlat : ∀ q ∈ (groups.flatMap (·.replacements)).map TextReplacement.patch,
        lineOffset content g.endLine ≤ q.start := by
      intro q hq
      obtain ⟨r, hr, rfl⟩ := mem_map.mp hq
      obtain ⟨g', hg', hr⟩ := mem_flatMap.mp hr
      exact Nat.le_trans (offsetOf_mono (haft g' hg')) ((hgs.each g' (mem_cons_of_mem _ hg')).within r hr).1
    have hwit : Patch.Within (lineOffset content g.startLine) (lineOffset content g.endLine)
        (g.replacements.map TextReplacement.patch) := by
      intro q hq
      obtain ⟨r, hr, rfl⟩ := mem_map.mp hq
      exact hg.within r hr
    have hfrom : ∀ q ∈ (g.replacements ++ groups.flatMap (·.replacements)).map TextReplacement.patch,
        lineOffset content i + (slice (splitLinesWithEndings content) i g.startLine).flatten.length ≤ q.start := by
      intro q hq
      rw [map_append, mem_append] at hq
      refine Nat.le_trans (Nat.le_of_eq hoff) ?_
      rcases hq with hq | hq
      · exact (hwit q hq).1
      · exact Nat.le_trans (offsetOf_mono hend) (hlat q hq)
    rw [overlayGroups, rewriteGroup_eq_splice hg hog, ih hrest horest haft, ← hall,
      drop_eq_slice_append _ hpre, drop_eq_slice_append _ hend]
    change _ = splice _ _ ((slice (splitLinesWithEndings content) i g.startLine).flatten ++
      ((slice (splitLinesWithEndings content) g.startLine g.endLine).flatten ++ _))
    rw [splice_keep hfrom, hoff, map_append,
      splice_append hog (by rw [hoff']; exact hwit) (by rw [hoff']; exact hlat), hoff']

/-- **Line by line is at once**: over the content itself, keeping the untouched lines gives what the
replacements give, whatever the order in which they come. -/
theorem preservingUnchangedLines_self (content : Text) (rs : List TextReplacement)
    (hin : ∀ r ∈ rs, InRange content r) (hdisjoint : rs.Pairwise Disjoint) :
    applyReplacementsPreservingUnchangedLines content content rs = .ok (applyReplacements content (sortByIndex rs)) := by
  have hperm : (sortByIndex rs).Perm rs := mergeSort_perm rs _
  have hin' : ∀ r ∈ sortByIndex rs, InRange content r := fun r hr => hin r (hperm.mem_iff.mp hr)
  have ho := ordered_sortByIndex hin hdisjoint
  obtain ⟨groups, hgs, hspec⟩ := groupReplacements_spec hin' (sorted_sortByIndex rs)
  have hwit : Patch.Within 0 (0 + content.length) ((sortByIndex rs).map TextReplacement.patch) := by
    intro p hp
    obtain ⟨r, hr, rfl⟩ := mem_map.mp hp
    exact ⟨Nat.zero_le _, Nat.le_trans (hin' r hr).le (Nat.le_of_eq (Nat.zero_add _).symm)⟩
  unfold applyReplacementsPreservingUnchangedLines
  dsimp only
  rw [if_neg (by rw [length_getLineSpans]; exact fun h => h rfl), hgs]
  change Except.ok (overlayGroups _ content _ 0 groups) = _
  rw [overlayGroups_self hspec ho fun _ _ => Nat.zero_le _, applyReplacements_eq_applyLast,
    applyLast_eq_splice ho hwit, drop_zero, splitLinesWithEndings, flatten_endedLines]
  rfl

/-- Two ranges of one line, in no order. -/
theorem preservingUnchangedLines_self_ab :
    applyReplacementsPreservingUnchangedLines [97, 98, 10, 99] [97, 98, 10, 99] [⟨3, 1, [100]⟩, ⟨1, 2, []⟩] =
      .ok (applyReplacements [97, 98, 10, 99] (sortByIndex [⟨3, 1, [100]⟩, ⟨1, 2, []⟩])) :=
  preservingUnchangedLines_self _ _
    (by
      intro r hr
      rcases mem_cons.mp hr with rfl | hr
      · exact ⟨by decide, by decide⟩
      · obtain rfl := mem_singleton.mp hr
        exact ⟨by decide, by decide⟩)
    (by
      rw [pairwise_pair]
      exact .inr (by decide))

end EditDiff
end EasyPi.CodingAgent
