/-
# Edits of texts that occur exactly

Edits whose old texts occur in the content as they are, are accepted (`AcceptedEdits`) when each is
counted once and their first occurrences do not overlap. Accepted edits replace these occurrences at
once, in whatever order they come. The count leaves out occurrences that overlap the one before, so
what is replaced need not be the only occurrence: it is, unless a text overlaps itself.
-/
import EasyPi.CodingAgent.EditOutcome

namespace EasyPi.CodingAgent

open List
namespace EditDiff

def firstPlace (content : Text) (edit : Edit) : TextReplacement where
  matchIndex := (indexOf? content (normalizeToLF edit.oldText)).getD 0
  matchLength := (normalizeToLF edit.oldText).length
  newText := normalizeToLF edit.newText

/-- The patches of edits at their first places. -/
def firstPatches (content : Text) (edits : List Edit) : List (Patch UInt16) :=
  edits.map fun edit => (firstPlace content edit).patch

/-- Edits with texts that are counted once, in places apart, and that change the content. -/
structure AcceptedEdits (content : Text) (edits : List Edit) : Prop where
  oldTexts : ∀ edit ∈ edits, normalizeToLF edit.oldText ≠ []
  counted : ∀ edit ∈ edits, countStringOccurrences content (normalizeToLF edit.oldText) = 1
  disjoint : (edits.map (firstPlace content)).Pairwise Disjoint
  changes : replaced (firstPatches content edits) 0 content ≠ content

/-- The text occurs at two offsets that are closer than its length. -/
def OverlapsItself (content text : Text) : Prop :=
  ∃ i j, i < j ∧ j < i + text.length ∧ OccursAt content text i ∧ OccursAt content text j

/-- A patch that puts the new text of an edit in place of its old text. -/
structure PatchOf (content : Text) (edit : Edit) (p : Patch UInt16) : Prop where
  occurs : OccursAt content (normalizeToLF edit.oldText) p.start
  length : p.length = (normalizeToLF edit.oldText).length
  text : p.text = normalizeToLF edit.newText

/-- **What edits of exact texts are for**: each replaces the only occurrence of its text, and nothing
else, and their order does not count. -/
structure ReplacesExactly (nfkc : Text → Text) (content : Text) (edits : List Edit) : Prop where
  once : ∀ r, (applyEditsToNormalizedContent nfkc content edits).run = some (.ok r) →
    ∀ edit ∈ edits, normalizeToLF edit.oldText ≠ [] ∧ ∃! i, OccursAt content (normalizeToLF edit.oldText) i
  replaces : ∀ r, (applyEditsToNormalizedContent nfkc content edits).run = some (.ok r) →
    ∃ ps, List.Forall₂ (PatchOf content) edits ps ∧ ps.Pairwise (fun a b => a.stop ≤ b.start ∨ b.stop ≤ a.start) ∧
      r.newContent = replaced ps 0 content
  anyOrder : ∀ edits', edits'.Perm edits → ∀ r, (applyEditsToNormalizedContent nfkc content edits').run = some (.ok r) ↔
      (applyEditsToNormalizedContent nfkc content edits).run = some (.ok r)

variable {nfkc : Text → Text} {content text : Text} {edits : List Edit} {edit : Edit}
  {rs : List TextReplacement} {r : TextReplacement}

/-! ### The exact tier -/

theorem findAllOccurrenceOffsets_of_ne_nil (content : Text) (hne : text ≠ []) :
    ∃ offsets, findAllOccurrenceOffsets content text = some offsets := by
  have hloop : ∀ (bound : ℕ) (index : Option ℕ), (∀ i, index = some i → content.length < i + bound ∧ i ≤ content.length) →
      ∃ offsets, offsetsFrom content text bound index = some offsets := by
    intro bound
    induction bound with
    | zero =>
      intro index hidx
      cases index with
      | none => exact ⟨[], rfl⟩
      | some i =>
        have := hidx i rfl
        omega
    | succ bound ih =>
      intro index hidx
      cases index with
      | none => exact ⟨[], rfl⟩
      | some i =>
        obtain ⟨hlt, -⟩ := hidx i rfl
        obtain ⟨offsets, hoff⟩ := ih (indexOf? content text (i + 1)) fun j hj => by
          obtain ⟨hle, hocc, -⟩ := (indexOf?_eq_some_iff hne).mp hj
          have := hocc.le_length hne
          omega
        exact ⟨i :: offsets, by rw [offsetsFrom, hoff]; rfl⟩
  refine hloop _ _ fun i hi => ?_
  have := ((indexOf?_eq_some_iff hne).mp hi).2.1.le_length hne
  omega

/-- **A text that occurs** is found as it is. -/
theorem fuzzyFindText_of_occurs (nfkc : Text → Text) (hne : text ≠ []) {i : ℕ} (hocc : OccursAt content text i) :
    ∃ m, fuzzyFindText nfkc content text = some (.found m) ∧ indexOf? content text = some m.index ∧
      m.matchLength = text.length ∧ m.matchTier = .exact ∧ m.occurrenceCount = countStringOccurrences content text := by
  obtain ⟨offsets, hoff⟩ := findAllOccurrenceOffsets_of_ne_nil content hne
  cases hidx : indexOf? content text with
  | none => exact absurd hocc ((indexOf?_eq_none_iff hne).mp hidx i (Nat.zero_le i))
  | some index =>
    unfold fuzzyFindText
    rw [hidx]
    dsimp only
    unfold textMatch
    rw [hoff]
    exact ⟨_, rfl, rfl, rfl, rfl, rfl⟩

theorem findTexts_of_occurs (nfkc : Text → Text) {es : List Edit} (hne : ∀ e ∈ es, e.oldText ≠ [])
    (hocc : ∀ e ∈ es, ∃ i, OccursAt content e.oldText i) :
    ∃ initial, findTexts nfkc content es = some initial ∧ initial.any (·.usedFuzzyMatch) = false := by
  induction es with
  | nil => exact ⟨[], rfl, rfl⟩
  | cons e es ih =>
    obtain ⟨i, hi⟩ := hocc e mem_cons_self
    obtain ⟨m, hm, -, -, htier, -⟩ := fuzzyFindText_of_occurs nfkc (hne e mem_cons_self) hi
    obtain ⟨initial, hini, hused⟩ := ih (fun e he => hne e (mem_cons_of_mem _ he))
      fun e he => hocc e (mem_cons_of_mem _ he)
    refine ⟨.found m :: initial, ?_, ?_⟩
    · unfold findTexts at hini ⊢
      rw [mapM_cons, hm, hini]
      rfl
    · rw [any_cons, hused, FuzzyMatchResult.usedFuzzyMatch, htier]
      rfl

theorem found_of_occurs_iff (hne : normalizeToLF edit.oldText ≠ [])
    (hocc : ∃ i, OccursAt content (normalizeToLF edit.oldText) i) : Found nfkc content (normalizeEdit edit) r ↔
      countStringOccurrences content (normalizeToLF edit.oldText) = 1 ∧ r = firstPlace content edit := by
  obtain ⟨i, hi⟩ := hocc
  obtain ⟨m, hm, hidx, hlen, htier, hcnt⟩ := fuzzyFindText_of_occurs nfkc hne hi
  have hpos : 1 ≤ countStringOccurrences content (normalizeToLF edit.oldText) :=
    Nat.sub_le_sub_right (two_le_length_splitText hne hi) 1
  have hpla : firstPlace content edit =
      { matchIndex := m.index, matchLength := m.matchLength
        newText := newTextFor m.matchTier (normalizeEdit edit).newText } := by
    unfold firstPlace newTextFor
    rw [hidx, hlen, htier, if_neg (by simp)]
    rfl
  constructor
  · rintro ⟨m', hm', hle, rfl⟩
    obtain rfl : m = m' := by simpa using hm.symm.trans hm'
    exact ⟨by omega, hpla.symm⟩
  · rintro ⟨hone, rfl⟩
    exact ⟨m, hm, by omega, hpla⟩

theorem forall₂_found_iff (hne : ∀ edit ∈ edits, normalizeToLF edit.oldText ≠ [])
    (hocc : ∀ edit ∈ edits, ∃ i, OccursAt content (normalizeToLF edit.oldText) i) :
    List.Forall₂ (Found nfkc content) (edits.map normalizeEdit) rs ↔
      (∀ edit ∈ edits, countStringOccurrences content (normalizeToLF edit.oldText) = 1) ∧
        rs = edits.map (firstPlace content) := by
  induction edits generalizing rs with
  | nil => simp
  | cons edit edits ih =>
    have ih := @ih rs.tail (fun e he => hne e (mem_cons_of_mem _ he))
      fun e he => hocc e (mem_cons_of_mem _ he)
    have hedit := fun r => @found_of_occurs_iff nfkc content edit r (hne edit mem_cons_self) (hocc edit mem_cons_self)
    rw [map_cons, forall₂_cons_left_iff, forall_mem_cons, map_cons]
    constructor
    · rintro ⟨r, rest, hr, hrest, rfl⟩
      obtain ⟨hone, rfl⟩ := (hedit r).mp hr
      obtain ⟨hall, hrest⟩ := ih.mp hrest
      exact ⟨⟨hone, hall⟩, congrArg _ hrest⟩
    · rintro ⟨⟨hone, hall⟩, rfl⟩
      exact ⟨_, _, (hedit _).mpr ⟨hone, rfl⟩, ih.mpr ⟨hall, rfl⟩, rfl⟩

theorem occursAt_firstPlace (hne : normalizeToLF edit.oldText ≠ [])
    (hocc : ∃ i, OccursAt content (normalizeToLF edit.oldText) i) :
    OccursAt content (normalizeToLF edit.oldText) (firstPlace content edit).matchIndex ∧
      ∀ j, j < (firstPlace content edit).matchIndex → ¬ OccursAt content (normalizeToLF edit.oldText) j := by
  obtain ⟨i, hi⟩ := hocc
  cases hidx : indexOf? content (normalizeToLF edit.oldText) with
  | none => exact absurd hi ((indexOf?_eq_none_iff hne).mp hidx i (Nat.zero_le i))
  | some index =>
    obtain ⟨-, hocc, hfst⟩ := (indexOf?_eq_some_iff hne).mp hidx
    unfold firstPlace
    rw [hidx]
    exact ⟨hocc, fun j hj => hfst j (Nat.zero_le j) hj⟩

theorem inRange_firstPlace (hne : normalizeToLF edit.oldText ≠ [])
    (hocc : ∃ i, OccursAt content (normalizeToLF edit.oldText) i) : InRange content (firstPlace content edit) where
  pos := length_pos_iff.mpr hne
  le := (occursAt_firstPlace hne hocc).1.le_length hne

theorem disjoint_of_ordered (h : Patch.Ordered ((sortByIndex rs).map TextReplacement.patch)) : rs.Pairwise Disjoint := by
  have hperm : (sortByIndex rs).Perm rs := mergeSort_perm rs _
  refine (hperm.pairwise_iff fun h => h.symm).mp ?_
  rw [Patch.Ordered, pairwise_map] at h
  exact h.imp fun hab => .inl hab

/-- **Ranges that are disjoint** are replaced at once. -/
theorem applyReplacements_sort (hin : ∀ r ∈ rs, InRange content r) (hdisj : rs.Pairwise Disjoint) :
    applyReplacements content (sortByIndex rs) = replaced (rs.map TextReplacement.patch) 0 content := by
  have hperm : (sortByIndex rs).Perm rs := mergeSort_perm rs _
  have ho := ordered_sortByIndex hin hdisj
  have hin' : ∀ p ∈ (sortByIndex rs).map TextReplacement.patch, 0 < p.length ∧ p.stop ≤ content.length := by
    intro p hp
    obtain ⟨r, hr, rfl⟩ := mem_map.mp hp
    exact ⟨(hin r (hperm.mem_iff.mp hr)).pos, (hin r (hperm.mem_iff.mp hr)).le⟩
  have hwit : Patch.Within 0 (0 + content.length) ((sortByIndex rs).map TextReplacement.patch) :=
    fun p hp => ⟨Nat.zero_le _, Nat.le_trans (hin' p hp).2 (Nat.le_of_eq (Nat.zero_add _).symm)⟩
  have hpre : ((sortByIndex rs).map TextReplacement.patch).Pairwise fun a b => a.start ≠ b.start := by
    refine List.Pairwise.imp_of_mem (fun {a b} ha _ hab => ?_) ho
    have hlt : a.start < a.stop := Nat.lt_add_of_pos_right (hin' a ha).1
    exact Nat.ne_of_lt (Nat.lt_of_lt_of_le hlt hab)
  rw [applyReplacements_eq_applyLast, applyLast_eq_splice ho hwit,
    ← replaced_eq_splice (fun p hp => (hin' p hp).1) ho hwit, replaced_perm (hperm.map _) hpre]

/-! ### What is accepted -/

theorem written_firstPlaces (hin : ∀ edit ∈ edits, InRange content (firstPlace content edit))
    (hdisj : (edits.map (firstPlace content)).Pairwise Disjoint) :
    written content edits false content (edits.map (firstPlace content)) =
      if content = replaced (firstPatches content edits) 0 content then .error (.noChange edits.length)
      else .ok { baseContent := content, newContent := replaced (firstPatches content edits) 0 content } := by
  have hin' : ∀ r ∈ edits.map (firstPlace content), InRange content r := by
    intro r hr
    obtain ⟨edit, hedit, rfl⟩ := mem_map.mp hr
    exact hin edit hedit
  have hpat : (edits.map (firstPlace content)).map TextReplacement.patch = firstPatches content edits := map_map ..
  have hwri : writeMatches false content content (sortByIndex (edits.map (firstPlace content))) =
      .ok (replaced (firstPatches content edits) 0 content) := by
    unfold writeMatches
    rw [if_neg Bool.false_ne_true, applyReplacements_sort hin' hdisj, hpat]
  unfold written
  rw [hwri]
  rfl

theorem matched_exact_iff (nfkc : Text → Text)
    (hexact : ∀ edit ∈ edits, ∃ i, OccursAt content (normalizeToLF edit.oldText) i)
    (hne : ∀ edit ∈ edits, normalizeToLF edit.oldText ≠ []) {used : Bool} {base : Text} :
    Matched nfkc content edits used base rs ↔ used = false ∧ base = content ∧
      (∀ edit ∈ edits, countStringOccurrences content (normalizeToLF edit.oldText) = 1) ∧
      rs = edits.map (firstPlace content) ∧ rs.Pairwise Disjoint := by
  have hmap : ∀ {P : Edit → Prop}, (∀ edit ∈ edits, P (normalizeEdit edit)) → ∀ e ∈ edits.map normalizeEdit, P e := by
    intro P h e he
    obtain ⟨edit, hedit, rfl⟩ := mem_map.mp he
    exact h edit hedit
  obtain ⟨initial, hini, hunu⟩ := findTexts_of_occurs nfkc (hmap hne) (hmap hexact)
  constructor
  · intro h
    obtain ⟨initial', hini', rfl⟩ := h.initial
    obtain rfl : initial = initial' := Option.some.inj (hini.symm.trans hini')
    have hbase := h.baseEq
    rw [hunu, if_neg Bool.false_ne_true] at hbase
    subst hbase
    obtain ⟨hcntd, hrs⟩ := (forall₂_found_iff hne hexact).mp h.found
    exact ⟨hunu, rfl, hcntd, hrs, disjoint_of_ordered h.ordered⟩
  · rintro ⟨rfl, rfl, hcntd, rfl, hdisj⟩
    have hin : ∀ r ∈ edits.map (firstPlace base), InRange base r := by
      intro r hr
      obtain ⟨edit, hedit, rfl⟩ := mem_map.mp hr
      exact inRange_firstPlace (hne edit hedit) (hexact edit hedit)
    exact ⟨hne, ⟨initial, hini, hunu.symm⟩, (if_neg Bool.false_ne_true).symm,
      (forall₂_found_iff hne hexact).mpr ⟨hcntd, rfl⟩, ordered_sortByIndex hin hdisj⟩

/-- **Exact edits succeed** when they are accepted, and then their first places are replaced. -/
theorem apply_exact_iff (hexact : ∀ edit ∈ edits, ∃ i, OccursAt content (normalizeToLF edit.oldText) i)
    {result : AppliedEditsResult} :
    (applyEditsToNormalizedContent nfkc content edits).run = some (.ok result) ↔ AcceptedEdits content edits ∧
        result = { baseContent := content, newContent := replaced (firstPatches content edits) 0 content } := by
  have hin : (∀ edit ∈ edits, normalizeToLF edit.oldText ≠ []) →
      ∀ edit ∈ edits, InRange content (firstPlace content edit) := fun hne edit hedit =>
    inRange_firstPlace (hne edit hedit) (hexact edit hedit)
  constructor
  · intro h
    rcases matched_of_apply h with ⟨used, base, rs, hmat⟩ | ⟨e, herr, -⟩
    · have hne := hmat.oldTexts
      obtain ⟨rfl, rfl, hcntd, rfl, hdisj⟩ := (matched_exact_iff nfkc hexact hne).mp hmat
      rw [apply_of_matched hmat, written_firstPlaces (hin hne) hdisj] at h
      split at h
      · cases h
      · rename_i hcha
        cases h
        exact ⟨⟨hne, hcntd, hdisj, fun heq => hcha heq.symm⟩, rfl⟩
    · cases herr
  · rintro ⟨hacc, rfl⟩
    have hmat := (matched_exact_iff nfkc hexact hacc.oldTexts).mpr
      ⟨rfl, rfl, hacc.counted, rfl, hacc.disjoint⟩
    rw [apply_of_matched hmat, written_firstPlaces (hin hacc.oldTexts) hacc.disjoint,
      if_neg fun heq => hacc.changes heq.symm]

theorem AcceptedEdits.perm {edits' : List Edit} (hperm : edits'.Perm edits)
    (h : AcceptedEdits content edits) : AcceptedEdits content edits' ∧
      replaced (firstPatches content edits') 0 content = replaced (firstPatches content edits) 0 content := by
  have hpre : (firstPatches content edits').Pairwise fun a b => a.start ≠ b.start := by
    have hdisj := ((hperm.map (firstPlace content)).pairwise_iff fun h => h.symm).mpr h.disjoint
    rw [pairwise_map] at hdisj
    rw [firstPatches, pairwise_map]
    refine List.Pairwise.imp_of_mem (fun {a b} ha hb hab heq => ?_) hdisj
    have hposa := length_pos_iff.mpr (h.oldTexts a (hperm.mem_iff.mp ha))
    have hposb := length_pos_iff.mpr (h.oldTexts b (hperm.mem_iff.mp hb))
    change (firstPlace content a).matchIndex = (firstPlace content b).matchIndex at heq
    unfold Disjoint TextReplacement.matchEnd at hab
    change _ + (normalizeToLF a.oldText).length ≤ _ ∨ _ + (normalizeToLF b.oldText).length ≤ _ at hab
    omega
  have hrep : replaced (firstPatches content edits') 0 content =
      replaced (firstPatches content edits) 0 content := replaced_perm (hperm.map _) hpre
  refine ⟨⟨fun edit hedit => h.oldTexts edit (hperm.mem_iff.mp hedit),
    fun edit hedit => h.counted edit (hperm.mem_iff.mp hedit),
    ((hperm.map _).pairwise_iff fun h => h.symm).mpr h.disjoint, ?_⟩, hrep⟩
  rw [hrep]
  exact h.changes

/-! ### What is replaced -/

theorem existsUnique_of_counted (hne : text ≠ []) (hone : countStringOccurrences content text = 1)
    (hove : ¬ OverlapsItself content text) (hocc : ∃ i, OccursAt content text i) : ∃! i, OccursAt content text i := by
  obtain ⟨i, hi⟩ := hocc
  cases hidx : indexOf? content text with
  | none => exact absurd hi ((indexOf?_eq_none_iff hne).mp hidx i (Nat.zero_le i))
  | some first =>
    obtain ⟨-, hfst, hbef⟩ := (indexOf?_eq_some_iff hne).mp hidx
    have htwo : (splitText content text).length = 2 := by
      unfold countStringOccurrences at hone
      omega
    refine ⟨first, hfst, fun j hj => ?_⟩
    have hlt := (splitText_length_eq_two_iff hne hidx).mp htwo j hj
    by_contra hnej
    rcases Nat.lt_or_gt_of_ne hnej with hjlt | hjgt
    · exact hbef j (Nat.zero_le j) hjlt hj
    · exact hove ⟨first, j, hjgt, hlt, hfst, hj⟩

theorem forall₂_patchOf (hexact : ∀ edit ∈ edits, ∃ i, OccursAt content (normalizeToLF edit.oldText) i)
    (hne : ∀ edit ∈ edits, normalizeToLF edit.oldText ≠ []) :
    List.Forall₂ (PatchOf content) edits (firstPatches content edits) := by
  rw [firstPatches, forall₂_map_right_iff, forall₂_same]
  exact fun edit hedit => ⟨(occursAt_firstPlace (hne edit hedit) (hexact edit hedit)).1, rfl, rfl⟩

/-- **Edits of exact texts replace the only occurrences** unless they are accepted with a text that
overlaps itself. -/
theorem replacesExactly_iff (nfkc : Text → Text) (content : Text) (edits : List Edit)
    (hexact : ∀ edit ∈ edits, ∃ i, OccursAt content (normalizeToLF edit.oldText) i) :
    ReplacesExactly nfkc content edits ↔ ¬ (AcceptedEdits content edits ∧
      ∃ edit ∈ edits, OverlapsItself content (normalizeToLF edit.oldText)) := by
  constructor
  · rintro h ⟨hacc, edit, hedit, i, j, hij, -, hi, hj⟩
    obtain ⟨-, k, -, huni⟩ := h.once _ ((apply_exact_iff hexact).mpr ⟨hacc, rfl⟩) edit hedit
    exact absurd ((huni i hi).trans (huni j hj).symm) (Nat.ne_of_lt hij)
  · intro hnot
    refine ⟨fun result h edit hedit => ?_, fun result h => ?_, fun edits' hperm result => ?_⟩
    · obtain ⟨hacc, -⟩ := (apply_exact_iff hexact).mp h
      have hne := hacc.oldTexts edit hedit
      exact ⟨hne, existsUnique_of_counted hne (hacc.counted edit hedit)
        (fun hove => hnot ⟨hacc, edit, hedit, hove⟩) (hexact edit hedit)⟩
    · obtain ⟨hacc, rfl⟩ := (apply_exact_iff hexact).mp h
      refine ⟨firstPatches content edits, forall₂_patchOf hexact hacc.oldTexts, ?_, rfl⟩
      have hdisj := hacc.disjoint
      rw [pairwise_map] at hdisj
      rw [firstPatches, pairwise_map]
      exact hdisj
    · have hexact' : ∀ edit ∈ edits', ∃ i, OccursAt content (normalizeToLF edit.oldText) i :=
        fun edit hedit => hexact edit (hperm.mem_iff.mp hedit)
      rw [apply_exact_iff hexact, apply_exact_iff hexact']
      constructor
      · rintro ⟨hacc, rfl⟩
        obtain ⟨hacc', hrep⟩ := hacc.perm hperm.symm
        exact ⟨hacc', by rw [hrep]⟩
      · rintro ⟨hacc, rfl⟩
        obtain ⟨hacc', hrep⟩ := hacc.perm hperm
        exact ⟨hacc', by rw [hrep]⟩

/-- No text overlaps itself here: the edits replace their only occurrences. -/
theorem replacesExactly_iff_abc : ReplacesExactly id [97, 98, 99] [⟨[99], [121]⟩, ⟨[97], [120]⟩] ↔
      ¬ (AcceptedEdits [97, 98, 99] [⟨[99], [121]⟩, ⟨[97], [120]⟩] ∧
        ∃ edit ∈ [(⟨[99], [121]⟩ : Edit), ⟨[97], [120]⟩], OverlapsItself [97, 98, 99] (normalizeToLF edit.oldText)) :=
  replacesExactly_iff id _ _ (forall_mem_cons.mpr ⟨⟨2, by decide⟩, forall_mem_singleton.mpr ⟨0, by decide⟩⟩)

/-- `"aa"` occurs twice in `"aaa"`, and an edit of it succeeds. -/
theorem not_replacesExactly_aaa : ¬ ReplacesExactly id [97, 97, 97] [⟨[97, 97], [98]⟩] := by
  have hexact : ∀ edit ∈ [(⟨[97, 97], [98]⟩ : Edit)], ∃ i, OccursAt [97, 97, 97] (normalizeToLF edit.oldText) i :=
    forall_mem_singleton.mpr ⟨0, by decide⟩
  have hacc : AcceptedEdits [97, 97, 97] [⟨[97, 97], [98]⟩] := ⟨by decide, by decide, pairwise_singleton _ _, by decide⟩
  intro h
  obtain ⟨-, i, -, huni⟩ := h.once _ ((apply_exact_iff hexact).mpr ⟨hacc, rfl⟩) _ mem_cons_self
  have h0 := huni 0 (by decide)
  have h1 := huni 1 (by decide)
  exact absurd (h0.trans h1.symm) (by decide)

end EditDiff
end EasyPi.CodingAgent
