/-
# Where a compaction cuts

The cut that `findCutPoint` returns keeps tool results with their calls and, if the budget is reached
at an entry with a possible cut behind it, leaves less than the budget behind every later cut. When the
entries behind the last possible cut alone reach the budget (a large tool result at the end), the loop
finds no cut behind and everything from the first possible cut on is kept.
-/
import EasyPi.CodingAgent.Compaction

namespace EasyPi.CodingAgent

open List
namespace Compaction

def isToolResult (entry : SessionEntry) : Bool :=
  match entry.body with
  | .message (.toolResult ..) => true
  | _ => false

/-- The tool result at `i` answers a call of the response at `a`, and between them stand only other
results and entries that put nothing into the context. -/
structure AnswersAt (entries : List SessionEntry) (a i : ℕ) : Prop where
  before : a < i
  call : ∃ response result blocks info call toolName content, entries[a]? = some response ∧
    entries[i]? = some result ∧ response.body = .message (.assistant (some blocks) info) ∧
    result.body = .message (.toolResult call.id toolName content) ∧ .toolCall call ∈ blocks
  between : ∀ j, a < j → j < i → holdsAt isVisible entries j = true → holdsAt isToolResult entries j = true

/-- Every tool result follows the response with its call. -/
def ResultsFollow (entries : List SessionEntry) : Prop :=
  ∀ i, holdsAt isToolResult entries i = true → ∃ a, AnswersAt entries a i

def IsValidCut (entries : List SessionEntry) (startIndex endIndex c : ℕ) : Prop :=
  startIndex ≤ c ∧ c < endIndex ∧ holdsAt isCutPoint entries c = true

/-- The first entry from the cut on that puts messages into the context. -/
structure FirstVisible (entries : List SessionEntry) (cut endIndex v : ℕ) : Prop where
  from_cut : cut ≤ v
  before_end : v < endIndex
  visible : holdsAt isVisible entries v = true
  first : ∀ i, cut ≤ i → i < v → holdsAt isVisible entries i = false

section
variable (J : JsonText)

/-- The tokens of the entries from an index up to the end. -/
def tokensFrom (entries : List SessionEntry) (endIndex i : ℕ) : ℕ :=
  ((List.range' i (endIndex - i)).map (tokensAt J entries)).sum

/-- What is asked of a cut: it is in the range, what is kept starts with no tool result, all results are
kept with their responses, later cuts would leave less than the budget, and the start of a split turn is
the last one before the cut. -/
structure GoodCut (entries : List SessionEntry) (startIndex endIndex : ℕ) (keepRecentTokens : ℚ)
    (r : CutPointResult) : Prop where
  inRange : startIndex ≤ r.firstKeptEntryIndex ∧ r.firstKeptEntryIndex ≤ endIndex
  visible : (∃ c, IsValidCut entries startIndex endIndex c) →
    ∃ v, FirstVisible entries r.firstKeptEntryIndex endIndex v ∧ holdsAt isToolResult entries v = false
  results : ∀ i, r.firstKeptEntryIndex ≤ i → i < endIndex → holdsAt isToolResult entries i = true →
    ∃ a, r.firstKeptEntryIndex ≤ a ∧ AnswersAt entries a i
  budget : ∀ v, FirstVisible entries r.firstKeptEntryIndex endIndex v →
    ∀ c, IsValidCut entries startIndex endIndex c → v < c → (tokensFrom J entries endIndex c : ℚ) < keepRecentTokens
  split : r.isSplitTurn = true → ∃ t, r.turnStartIndex = some t ∧ startIndex ≤ t ∧
    t < r.firstKeptEntryIndex ∧ holdsAt isTurnStartEntry entries t = true ∧
    ∀ i, t < i → i < r.firstKeptEntryIndex → holdsAt isTurnStartEntry entries i = false

/-- Something can be cut at, or there are no tool results; and if there are several possible cuts, less
than the budget stands behind the last one. -/
structure CutPossible (entries : List SessionEntry) (startIndex endIndex : ℕ) (keepRecentTokens : ℚ) :
    Prop where
  results : (∀ c, ¬ IsValidCut entries startIndex endIndex c) →
    ∀ i, startIndex ≤ i → i < endIndex → holdsAt isToolResult entries i = false
  trailing : ∀ c last, IsValidCut entries startIndex endIndex c → IsValidCut entries startIndex endIndex last →
    c < last → (∀ c', IsValidCut entries startIndex endIndex c' → c' ≤ last) →
    (tokensFrom J entries endIndex (last + 1) : ℚ) < keepRecentTokens

/-! ### Tokens -/

variable {J} {entries : List SessionEntry} {lo high : ℕ} {keep : ℚ}

theorem tokensFrom_end (i : ℕ) (h : high ≤ i) : tokensFrom J entries high i = 0 := by
  rw [tokensFrom, Nat.sub_eq_zero_of_le h]
  rfl

variable {i : ℕ} {entry : SessionEntry}

theorem tokensFrom_lt (h : i < high) :
    tokensFrom J entries high i = tokensAt J entries i + tokensFrom J entries high (i + 1) := by
  have hsub : high - i = (high - (i + 1)) + 1 := by omega
  rw [tokensFrom, hsub, List.range'_succ, map_cons, sum_cons, tokensFrom]

theorem tokensFrom_antitone {i j : ℕ} (h : i ≤ j) : tokensFrom J entries high j ≤ tokensFrom J entries high i := by
  induction j, h using Nat.le_induction with
  | base => exact Nat.le_refl _
  | succ j _ ih =>
    refine Nat.le_trans ?_ ih
    by_cases hj : j < high
    · rw [tokensFrom_lt hj]
      exact Nat.le_add_left _ _
    · rw [tokensFrom_end _ (by omega)]
      exact Nat.zero_le _

theorem tokens_lt_of_le {i j : ℕ} (h : i ≤ j) (hi : (tokensFrom J entries high i : ℚ) < keep) :
    (tokensFrom J entries high j : ℚ) < keep :=
  lt_of_le_of_lt (Nat.cast_le.mpr (tokensFrom_antitone h)) hi

/-- What is found among the entries before `bound`: the last one from which on the budget is reached. -/
def BudgetReached (J : JsonText) (entries : List SessionEntry) (startIndex endIndex : ℕ)
    (keepRecentTokens : ℚ) (bound : ℕ) : Option ℕ → Prop
  | none => (tokensFrom J entries endIndex startIndex : ℚ) < keepRecentTokens
  | some i => startIndex ≤ i ∧ i < bound ∧ keepRecentTokens ≤ (tokensFrom J entries endIndex i : ℚ) ∧
    (tokensFrom J entries endIndex (i + 1) : ℚ) < keepRecentTokens

theorem BudgetReached.mono {bound bound' : ℕ} (hle : bound ≤ bound') {reached : Option ℕ}
    (h : BudgetReached J entries lo high keep bound reached) : BudgetReached J entries lo high keep bound' reached := by
  cases reached with
  | none => exact h
  | some i => exact ⟨h.1, h.2.1.trans_le hle, h.2.2⟩

/-- **The walk backwards** stops at the last entry from which on the budget is reached. -/
theorem budgetLoop_spec {n : ℕ} (hn : lo + n ≤ high) (hless : (tokensFrom J entries high (lo + n) : ℚ) < keep) :
    BudgetReached J entries lo high keep (lo + n)
      (budgetLoop J entries lo keep n (tokensFrom J entries high (lo + n))) := by
  induction n with
  | zero => exact hless
  | succ n ih =>
    have hstep : tokensFrom J entries high (lo + n) =
        tokensAt J entries (lo + n) + tokensFrom J entries high (lo + (n + 1)) :=
      tokensFrom_lt (by omega)
    rw [budgetLoop]
    split
    · rename_i hzero
      rw [hzero, Nat.zero_add] at hstep
      rw [← hstep] at hless ⊢
      exact (ih (by omega) hless).mono (Nat.le_succ _)
    · rw [Nat.add_comm (tokensFrom J entries high _), ← hstep]
      split
      · rename_i hrea
        exact ⟨Nat.le_add_right _ _, Nat.lt_succ_self _, hrea, hless⟩
      · rename_i hnot
        exact (ih (by omega) (not_le.mp hnot)).mono (Nat.le_succ _)

/-! ### Possible cuts -/

theorem mem_findValidCutPoints {c : ℕ} : c ∈ findValidCutPoints entries lo high ↔ IsValidCut entries lo high c := by
  rw [findValidCutPoints, mem_filter, mem_range'_1, IsValidCut, and_assoc]
  refine and_congr_right fun hstart => and_congr_left' ?_
  omega

theorem findValidCutPoints_sorted : (findValidCutPoints entries lo high).Pairwise (· < ·) :=
  (pairwise_lt_range' ..).filter _

theorem exists_last_validCut {c : ℕ} (h : IsValidCut entries lo high c) : ∃ last, IsValidCut entries lo high last ∧
      ∀ c', IsValidCut entries lo high c' → c' ≤ last := by
  have hmem := mem_findValidCutPoints.mpr h
  have hsrt := @findValidCutPoints_sorted entries lo high
  rcases eq_nil_or_concat' (findValidCutPoints entries lo high) with hnil | ⟨init, last, hcon⟩
  · rw [hnil] at hmem
    exact absurd hmem not_mem_nil
  · refine ⟨last, mem_findValidCutPoints.mp ?_, fun c' hc' => ?_⟩
    · rw [hcon]
      exact mem_append_right _ (mem_singleton_self _)
    · have hc' := mem_findValidCutPoints.mpr hc'
      rw [hcon] at hc' hsrt
      rcases mem_append.mp hc' with hinit | hlast
      · exact ((pairwise_append.mp hsrt).2.2 c' hinit last (mem_singleton_self _)).le
      · exact (mem_singleton.mp hlast).le

theorem isVisible_of_isCutPoint (h : holdsAt isCutPoint entries i = true) :
    holdsAt isVisible entries i = true ∧ holdsAt isToolResult entries i = false := by
  cases hi : entries[i]? with
  | none =>
    rw [holdsAt, hi] at h
    exact absurd h Bool.false_ne_true
  | some entry =>
    rw [holdsAt, hi, Option.any_some, isCutPoint, Bool.and_eq_true] at h
    obtain ⟨message, hmsg, hcut⟩ := any_eq_true.mp h.2
    refine ⟨?_, ?_⟩
    · rw [holdsAt, hi, Option.any_some, isVisible, Bool.not_eq_true', isEmpty_eq_false_iff]
      exact ne_nil_of_mem hmsg
    · rw [holdsAt, hi, Option.any_some, isToolResult]
      split
      · rename_i hbody
        rw [sessionEntryToContextMessages, hbody] at hmsg
        rw [mem_singleton.mp hmsg] at hcut
        cases ‹Option MessageContent› <;> exact absurd hcut Bool.false_ne_true
      · rfl

theorem isCutPoint_of_response {blocks : List AssistantBlock} {info : ResponseInfo} (hi : entries[i]? = some entry)
    (hbody : entry.body = .message (.assistant (some blocks) info)) : holdsAt isCutPoint entries i = true := by
  rw [holdsAt, hi, Option.any_some, isCutPoint, sessionEntryToContextMessages, SessionEntry.isCompaction,
    SessionEntry.compaction?, hbody]
  rfl

theorem isVisible_of_isToolResult (h : holdsAt isToolResult entries i = true) : holdsAt isVisible entries i = true := by
  cases hi : entries[i]? with
  | none =>
    rw [holdsAt, hi] at h
    exact absurd h Bool.false_ne_true
  | some entry =>
    rw [holdsAt, hi, Option.any_some, isToolResult] at h
    rw [holdsAt, hi, Option.any_some, isVisible, sessionEntryToContextMessages]
    split at h
    · rename_i hbody
      rw [hbody]
      rfl
    · exact absurd h Bool.false_ne_true

theorem absorbLoop_spec (n : ℕ) : lo ≤ absorbLoop entries lo n ∧ absorbLoop entries lo n ≤ lo + n ∧
      ∀ i, absorbLoop entries lo n ≤ i → i < lo + n → holdsAt isVisible entries i = false := by
  induction n with
  | zero => exact ⟨Nat.le_refl _, Nat.le_refl _, fun i hle hlt => absurd hlt (not_lt.mpr hle)⟩
  | succ n ih =>
    rw [absorbLoop]
    split
    · exact ⟨by omega, Nat.le_refl _, fun i hle hlt => absurd hlt (by omega)⟩
    · rename_i hhid
      refine ⟨ih.1, by omega, fun i hle hlt => ?_⟩
      by_cases hi : i = lo + n
      · rw [hi, ← Bool.not_eq_true]
        intro hvis
        refine hhid ?_
        cases hent : entries[lo + n]? with
        | none =>
          rw [holdsAt, hent] at hvis
          exact absurd hvis Bool.false_ne_true
        | some entry =>
          rw [holdsAt, hent, Option.any_some] at hvis ⊢
          rw [hvis, Bool.or_true]
      · exact ih.2.2 i hle (by omega)

theorem firstVisible_absorbLoop {c : ℕ} (h : IsValidCut entries lo high c) :
    FirstVisible entries (absorbLoop entries lo (c - lo)) high c := by
  have hc : lo + (c - lo) = c := Nat.add_sub_cancel' h.1
  obtain ⟨-, hle, hhid⟩ := @absorbLoop_spec entries lo (c - lo)
  rw [hc] at hle hhid
  exact ⟨hle, h.2.1, (isVisible_of_isCutPoint h.2.2).1, hhid⟩

theorem FirstVisible.unique {cut v w : ℕ} (hv : FirstVisible entries cut high v)
    (hw : FirstVisible entries cut high w) : v = w := by
  rcases Nat.lt_trichotomy v w with hlt | heq | hlt
  · exact absurd hv.visible (by rw [hw.first v hv.from_cut hlt]; exact Bool.false_ne_true)
  · exact heq
  · exact absurd hw.visible (by rw [hv.first w hw.from_cut hlt]; exact Bool.false_ne_true)

theorem turnStartLoop_spec (n : ℕ) {t : ℕ} (h : turnStartLoop entries lo n = some t) :
    lo ≤ t ∧ t ≤ lo + n ∧ holdsAt isTurnStartEntry entries t = true ∧
      ∀ i, t < i → i ≤ lo + n → holdsAt isTurnStartEntry entries i = false := by
  induction n with
  | zero =>
    rw [turnStartLoop] at h
    split at h
    · rename_i hsts
      rw [← Option.some_inj.mp h]
      exact ⟨Nat.le_refl _, Nat.le_refl _, hsts, fun i hlt hle => absurd hlt (not_lt.mpr hle)⟩
    · exact absurd h.symm (Option.some_ne_none _)
  | succ n ih =>
    rw [turnStartLoop] at h
    split at h
    · rename_i hsts
      rw [← Option.some_inj.mp h]
      exact ⟨by omega, Nat.le_refl _, hsts, fun i hlt hle => absurd hlt (by omega)⟩
    · rename_i hnot
      obtain ⟨hstart, hle, hsts, haft⟩ := ih h
      refine ⟨hstart, by omega, hsts, fun i hlt hi => ?_⟩
      by_cases heq : i = lo + n + 1
      · rw [heq]
        exact Bool.eq_false_iff.mpr hnot
      · exact haft i hlt (by omega)

theorem findTurnStartIndex_spec {cut t : ℕ} (h : findTurnStartIndex entries cut lo = some t)
    (hcut : holdsAt isTurnStartEntry entries cut = false) :
    lo ≤ t ∧ t < cut ∧ holdsAt isTurnStartEntry entries t = true ∧
      ∀ i, t < i → i < cut → holdsAt isTurnStartEntry entries i = false := by
  rw [findTurnStartIndex] at h
  split at h
  · obtain ⟨hstart, hle, hsts, haft⟩ := turnStartLoop_spec _ h
    rw [Nat.add_sub_cancel' ‹lo ≤ cut›] at hle haft
    refine ⟨hstart, Nat.lt_of_le_of_ne hle ?_, hsts, fun i hlt hi => haft i hlt hi.le⟩
    rintro rfl
    rw [hcut] at hsts
    exact Bool.false_ne_true hsts
  · exact absurd h.symm (Option.some_ne_none _)

/-! ### The cut that is found -/

/-- The possible cut that is chosen: less than the budget stands behind it; or it is the first one, and
the budget is reached behind the last one. -/
structure ChosenCut (J : JsonText) (entries : List SessionEntry) (startIndex endIndex : ℕ)
    (keepRecentTokens : ℚ) (c : ℕ) : Prop where
  valid : IsValidCut entries startIndex endIndex c
  chosen : (tokensFrom J entries endIndex (c + 1) : ℚ) < keepRecentTokens ∨
    ((∀ c', IsValidCut entries startIndex endIndex c' → c ≤ c') ∧ ∀ last, IsValidCut entries startIndex endIndex last →
        keepRecentTokens ≤ (tokensFrom J entries endIndex (last + 1) : ℚ))

theorem exists_chosenCut (hle : lo ≤ high) (hkeep : 0 < keep) {first : ℕ}
    {others : List ℕ} (hcuts : findValidCutPoints entries lo high = first :: others) :
    ∃ c, ChosenCut J entries lo high keep c ∧ (findCutPoint J entries lo high keep).firstKeptEntryIndex =
        absorbLoop entries lo (c - lo) := by
  have hmem {c : ℕ} : c ∈ first :: others ↔ IsValidCut entries lo high c := by
    rw [← hcuts]
    exact mem_findValidCutPoints
  have hfst : ∀ c, IsValidCut entries lo high c → first ≤ c := by
    intro c hc
    have hsrt := @findValidCutPoints_sorted entries lo high
    rw [hcuts, pairwise_cons] at hsrt
    rcases mem_cons.mp (hmem.mpr hc) with rfl | hother
    · exact Nat.le_refl _
    · exact (hsrt.1 c hother).le
  have hval := hmem.mp (mem_cons_self ..)
  have hend : lo + (high - lo) = high := Nat.add_sub_cancel' hle
  have hloop : BudgetReached J entries lo high keep high
      (budgetLoop J entries lo keep (high - lo) 0) := by
    have hspec := @budgetLoop_spec J entries lo high keep (high - lo)
      hend.le
    rw [hend, tokensFrom_end _ (Nat.le_refl _)] at hspec
    exact hspec (by exact_mod_cast hkeep)
  rw [findCutPoint, hcuts]
  cases hrea : budgetLoop J entries lo keep (high - lo) 0 with
  | none =>
    rw [hrea] at hloop
    exact ⟨first, ⟨hval, .inl (tokens_lt_of_le (hval.1.trans (Nat.le_succ _)) hloop)⟩, rfl⟩
  | some i =>
    rw [hrea] at hloop
    obtain ⟨-, -, hreach, hless⟩ := hloop
    cases hfind : (first :: others).find? (i ≤ ·) with
    | none =>
      refine ⟨first, ⟨hval, .inr ⟨hfst, fun last hlast => ?_⟩⟩, by dsimp only; rw [hfind]; rfl⟩
      have hlt := List.find?_eq_none.mp hfind last (hmem.mpr hlast)
      rw [decide_eq_true_iff, Nat.not_le] at hlt
      exact hreach.trans (Nat.cast_le.mpr (tokensFrom_antitone hlt))
    | some c =>
      have hic : i ≤ c := of_decide_eq_true (List.find?_some (p := (i ≤ ·)) hfind)
      refine ⟨c, ⟨hmem.mp (mem_of_find?_eq_some hfind), .inl ?_⟩, by dsimp only; rw [hfind]; rfl⟩
      exact tokens_lt_of_le (Nat.succ_le_succ hic) hless

theorem results_of_firstVisible (hfol : ResultsFollow entries) {cut c : ℕ}
    (hfst : FirstVisible entries cut high c) (hcut : holdsAt isCutPoint entries c = true)
    (hi : cut ≤ i) (hres : holdsAt isToolResult entries i = true) : ∃ a, cut ≤ a ∧ AnswersAt entries a i := by
  obtain ⟨a, hanss⟩ := hfol i hres
  refine ⟨a, ?_, hanss⟩
  by_contra hbef
  have hnotR := (isVisible_of_isCutPoint hcut).2
  have hci : c < i := by
    rcases Nat.lt_trichotomy c i with hlt | rfl | hlt
    · exact hlt
    · exact absurd hres (Bool.eq_false_iff.mp hnotR)
    · exact absurd (isVisible_of_isToolResult hres) (Bool.eq_false_iff.mp (hfst.first i hi hlt))
  have hac : a < c := by
    have hfrom := hfst.from_cut
    omega
  exact absurd (hanss.between c hac hci hfst.visible) (Bool.eq_false_iff.mp hnotR)

theorem findCutPoint_split (hspl : (findCutPoint J entries lo high keep).isSplitTurn = true) :
    ∃ t, (findCutPoint J entries lo high keep).turnStartIndex = some t ∧
      lo ≤ t ∧ t < (findCutPoint J entries lo high keep).firstKeptEntryIndex ∧
      holdsAt isTurnStartEntry entries t = true ∧
      ∀ i, t < i → i < (findCutPoint J entries lo high keep).firstKeptEntryIndex →
        holdsAt isTurnStartEntry entries i = false := by
  rw [findCutPoint] at hspl ⊢
  split at hspl
  · exact absurd hspl Bool.false_ne_true
  · dsimp only at hspl ⊢
    rw [Bool.and_eq_true, Bool.not_eq_true'] at hspl
    obtain ⟨hnot, hsome⟩ := hspl
    rw [hnot, if_neg Bool.false_ne_true] at hsome ⊢
    obtain ⟨t, ht⟩ := Option.isSome_iff_exists.mp hsome
    exact ⟨t, ht, findTurnStartIndex_spec ht hnot⟩

theorem findCutPoint_no_cut (h : ∀ c, ¬ IsValidCut entries lo high c) :
    findCutPoint J entries lo high keep = ⟨lo, none, false⟩ := by
  have hnil : findValidCutPoints entries lo high = [] :=
    eq_nil_iff_forall_not_mem.mpr fun c hc => h c (mem_findValidCutPoints.mp hc)
  rw [findCutPoint, hnil]

theorem exists_chosenCut_of_valid (hle : lo ≤ high) (hkeep : 0 < keep) {c : ℕ}
    (h : IsValidCut entries lo high c) : ∃ c, ChosenCut J entries lo high keep c ∧
      (findCutPoint J entries lo high keep).firstKeptEntryIndex = absorbLoop entries lo (c - lo) := by
  have hmem := mem_findValidCutPoints.mpr h
  cases hcuts : findValidCutPoints entries lo high with
  | nil =>
    rw [hcuts] at hmem
    exact absurd hmem not_mem_nil
  | cons first others => exact exists_chosenCut hle hkeep hcuts

/-- **The cut is good if one is possible**. -/
theorem findCutPoint_good (hfol : ResultsFollow entries) (hle : lo ≤ high)
    (hkeep : 0 < keep) (h : CutPossible J entries lo high keep) : GoodCut J entries lo high keep
      (findCutPoint J entries lo high keep) := by
  by_cases hcuts : ∃ c, IsValidCut entries lo high c
  · obtain ⟨c₀, hc₀⟩ := hcuts
    obtain ⟨c, hcho, hcut⟩ := exists_chosenCut_of_valid (J := J) hle hkeep hc₀
    have hfst := firstVisible_absorbLoop hcho.valid
    rw [← hcut] at hfst
    have hstart : lo ≤ (findCutPoint J entries lo high keep).firstKeptEntryIndex := by
      rw [hcut]
      exact (absorbLoop_spec _).1
    refine ⟨⟨hstart, (hfst.from_cut.trans_lt hfst.before_end).le⟩,
      fun _ => ⟨c, hfst, (isVisible_of_isCutPoint hcho.valid.2.2).2⟩,
      fun i hi _ hres => results_of_firstVisible hfol hfst hcho.valid.2.2 hi hres, ?_, findCutPoint_split⟩
    intro v hv c' hc' hlat
    rw [hv.unique hfst] at hlat
    rcases hcho.chosen with hless | ⟨-, hrea⟩
    · exact tokens_lt_of_le hlat hless
    · obtain ⟨last, hlast, hmax⟩ := exists_last_validCut hc'
      have htra := h.trailing c last hcho.valid hlast (hlat.trans_le (hmax c' hc')) hmax
      exact absurd htra (not_lt.mpr (hrea last hlast))
  · have hnone : ∀ c, ¬ IsValidCut entries lo high c := not_exists.mp hcuts
    rw [findCutPoint_no_cut hnone]
    refine ⟨⟨Nat.le_refl _, hle⟩, fun hex => absurd hex hcuts, ?_, ?_, fun hspl => absurd hspl Bool.false_ne_true⟩
    · intro i hi hend hres
      exact absurd hres (Bool.eq_false_iff.mp (h.results hnone i hi hend))
    · exact fun _ _ c hc => absurd hc (hnone c)

theorem cutPossible_of_good (hle : lo ≤ high) (hkeep : 0 < keep) (h : GoodCut J entries lo high keep
      (findCutPoint J entries lo high keep)) : CutPossible J entries lo high keep := by
  constructor
  · intro hnone i hi hend
    rw [Bool.eq_false_iff]
    intro hres
    have hresu := h.results
    rw [findCutPoint_no_cut hnone] at hresu
    obtain ⟨a, ha, hanss⟩ := hresu i hi hend hres
    obtain ⟨response, _, _, _, _, _, _, hresp, _, hbody, _⟩ := hanss.call
    exact hnone a ⟨ha, hanss.before.trans hend, isCutPoint_of_response hresp hbody⟩
  · intro c last hc hlast hlt hmax
    by_contra hrea
    obtain ⟨c', hcho, hcut⟩ := exists_chosenCut_of_valid (J := J) hle hkeep hc
    rcases hcho.chosen with hless | ⟨hfst, -⟩
    · exact hrea (tokens_lt_of_le (Nat.succ_le_succ (hmax c' hcho.valid)) hless)
    · have hvis := firstVisible_absorbLoop hcho.valid
      rw [← hcut] at hvis
      have hbud := h.budget c' hvis last hlast ((hfst c hc).trans_lt hlt)
      exact hrea (tokens_lt_of_le (Nat.le_succ _) hbud)

/-! ### Preparations -/

theorem mem_slice {a b : ℕ} (ha : a ≤ i) (hb : i < b) (hi : entries[i]? = some entry) : entry ∈ slice entries a b := by
  rw [slice, mem_iff_getElem?]
  refine ⟨i - a, ?_⟩
  rw [List.getElem?_drop, Nat.add_sub_cancel' ha, List.getElem?_take_of_lt hb, hi]

theorem getMessageFromEntry_eq_none (h : getMessageFromEntryForCompaction entry = none) :
    entry.isCompaction = true ∨ isVisible entry = false := by
  rw [getMessageFromEntryForCompaction] at h
  split at h
  · exact .inl ‹_›
  · refine .inr ?_
    rw [isVisible, List.head?_eq_none_iff.mp h]
    rfl

theorem forall_of_messages_nil {a b : ℕ}
    (h : (slice entries a b).filterMap getMessageFromEntryForCompaction = []) (ha : a ≤ i) (hb : i < b) :
    ∀ entry ∈ entries[i]?, entry.isCompaction = true ∨ isVisible entry = false := by
  intro entry hent
  refine getMessageFromEntry_eq_none ?_
  exact filterMap_eq_nil_iff.mp h entry (mem_slice ha hb hent)

theorem lastCompactionIndex_lt {previous : ℕ} (h : lastCompactionIndex entries = some previous) :
    previous < entries.length := by
  have hmem := mem_of_getLast? h
  rw [mem_filter, mem_range] at hmem
  exact hmem.1

theorem boundaryStart_le : boundaryStart entries (lastCompactionIndex entries) ≤ entries.length := by
  cases hpre : lastCompactionIndex entries with
  | none => exact Nat.zero_le _
  | some previous =>
    rw [boundaryStart]
    split
    · rename_i index hidx
      exact (List.findIdx?_eq_some_iff_getElem.mp hidx).1.le
    · exact lastCompactionIndex_lt hpre

/-- Nothing that could be summarised stands before the cut. -/
def NothingBefore (entries : List SessionEntry) (startIndex cut : ℕ) : Prop :=
  ∀ i, startIndex ≤ i → i < cut → ∀ entry ∈ entries[i]?, entry.isCompaction = true ∨ isVisible entry = false

theorem nothingBefore_of_no_preparation {settings : CompactionSettings} (hpath : IsPath entries)
    {previous : Option ℕ} {start : ℕ} {tokensBefore : ℚ} {cut : CutPointResult}
    (hgood : GoodCut J entries start entries.length keep cut)
    (hcut : (∃ c, IsValidCut entries start entries.length c) ∨ cut.firstKeptEntryIndex = start)
    (h : preparationAt entries settings previous start tokensBefore cut = none) :
    NothingBefore entries start cut.firstKeptEntryIndex := by
  intro i hi hlt
  rw [preparationAt] at h
  split at h
  · rename_i hkept
    -- The cut is at the end only if the range is empty.
    have hlen := List.getElem?_eq_none_iff.mp hkept
    rcases hcut with hex | hstart
    · obtain ⟨v, hv, -⟩ := hgood.visible hex
      have hfrom := hv.from_cut
      have hbef := hv.before_end
      omega
    · rw [hstart] at hlt
      exact absurd hlt (not_lt.mpr hi)
  · rename_i kept hkept
    have hkep : ¬ kept.id = "" := ne_empty_of_isNonBlank (hpath.nonBlank kept (mem_of_getElem? hkept))
    dsimp only at h
    rw [if_neg hkep] at h
    have hnil := Decidable.by_contra fun hne => Option.some_ne_none _ (ite_eq_left_iff.mp h hne)
    by_cases hspl : cut.isSplitTurn = true
    · rw [if_pos hspl, if_pos hspl] at hnil
      rcases Nat.lt_or_ge i (cut.turnStartIndex.getD 0) with hhis | hprefix
      · exact forall_of_messages_nil hnil.1 hi hhis
      · exact forall_of_messages_nil hnil.2 hprefix hlt
    · rw [if_neg hspl] at hnil
      exact forall_of_messages_nil hnil.1 hi hlt

theorem prepareCompaction_of_isPath {settings : CompactionSettings} (hpath : IsPath entries)
    (hend : entries.getLast?.any SessionEntry.isCompaction = false) :
    prepareCompaction J entries settings = .ok (preparationAt entries settings (lastCompactionIndex entries)
      (boundaryStart entries (lastCompactionIndex entries)) (estimateContextTokens J (contextMessages entries))
      (findCutPoint J entries (boundaryStart entries (lastCompactionIndex entries)) entries.length
        settings.keepRecentTokens)) := by
  rw [prepareCompaction, hend, if_neg Bool.false_ne_true, buildSessionContext_of_isPath hpath]
  rfl

theorem findCutPoint_no_cut_index (h : ¬ ∃ c, IsValidCut entries lo high c) :
    (findCutPoint J entries lo high keep).firstKeptEntryIndex = lo := by
  rw [findCutPoint_no_cut (not_exists.mp h)]

/-- **A cut is good exactly if a good one is possible**: something can be cut at or there are no tool
results, and the entries behind the last possible cut stay below the budget if there are several. With a
good cut and no compaction at the end of the path, no compaction is prepared only if nothing stands before
the cut. -/
theorem findCutPoint_good_iff (J : JsonText) :
    (∀ (entries : List SessionEntry) (startIndex endIndex : ℕ) (keepRecentTokens : ℚ), ResultsFollow entries →
      startIndex ≤ endIndex → endIndex ≤ entries.length → 0 < keepRecentTokens →
      (GoodCut J entries startIndex endIndex keepRecentTokens
          (findCutPoint J entries startIndex endIndex keepRecentTokens) ↔
        CutPossible J entries startIndex endIndex keepRecentTokens)) ∧
    ∀ (path : List SessionEntry) (settings : CompactionSettings) (start : ℕ), IsPath path →
      ResultsFollow path → 0 < settings.keepRecentTokens → start = boundaryStart path (lastCompactionIndex path) →
      CutPossible J path start path.length settings.keepRecentTokens → prepareCompaction J path settings = .ok none →
      path.getLast?.any SessionEntry.isCompaction = true ∨ NothingBefore path start
          (findCutPoint J path start path.length settings.keepRecentTokens).firstKeptEntryIndex := by
  refine ⟨fun entries startIndex endIndex keepRecentTokens hfol hle _ hkeep =>
    ⟨cutPossible_of_good hle hkeep, findCutPoint_good hfol hle hkeep⟩, ?_⟩
  rintro path settings start hpath hfol hkeep rfl hpos hnone
  by_cases hend : path.getLast?.any SessionEntry.isCompaction = true
  · exact .inl hend
  · rw [prepareCompaction_of_isPath hpath (Bool.eq_false_iff.mpr hend)] at hnone
    refine .inr (nothingBefore_of_no_preparation hpath
      (findCutPoint_good hfol boundaryStart_le hkeep hpos) ?_ (Except.ok.inj hnone))
    by_cases hex : ∃ c, IsValidCut path (boundaryStart path (lastCompactionIndex path)) path.length c
    · exact .inl hex
    · exact .inr (findCutPoint_no_cut_index hex)

end

/-- A question, a call and its result, and the next question. -/
def toolTurn (result : String) : List SessionEntry :=
  [⟨"1", none, .message (.user (some (.text "list the files")))⟩,
    ⟨"2", some "1", .message (.assistant (some [.toolCall { id := "c", name := "ls" }]) {})⟩,
    ⟨"3", some "2", .message (.toolResult "c" "ls" (some (.text result)))⟩,
    ⟨"4", some "3", .message (.user (some (.text "thanks")))⟩]

/-- Forty characters, estimated as ten tokens. -/
def fortyChars : String := "0123456789012345678901234567890123456789"

theorem lt_length_of_holdsAt {p : SessionEntry → Bool} {entries : List SessionEntry}
    (h : holdsAt p entries i = true) : i < entries.length := by
  by_contra hge
  rw [holdsAt, List.getElem?_eq_none_iff.mpr (not_lt.mp hge)] at h
  exact Bool.false_ne_true h

theorem answersAt_toolTurn (result : String) {n : ℕ} (hn : 3 ≤ n) : AnswersAt ((toolTurn result).take n) 1 2 := by
  obtain ⟨n, rfl⟩ := Nat.exists_eq_add_of_le' hn
  exact ⟨by decide, ⟨_, _, _, {}, { id := "c", name := "ls" }, _, _, rfl, rfl, rfl, rfl, mem_singleton_self _⟩,
    fun j hlt hle => absurd hle (by omega)⟩

theorem resultsFollow_toolTurn (result : String) {n : ℕ} (hn : 3 ≤ n) : ResultsFollow ((toolTurn result).take n) := by
  intro i hi
  refine ⟨1, ?_⟩
  have hlt := lt_length_of_holdsAt hi
  obtain ⟨n, rfl⟩ := Nat.exists_eq_add_of_le' hn
  have hlt' : i < 4 := hlt.trans_le (length_take_le' ..)
  match i, hi, hlt' with
  | 0, hi, _ => exact absurd hi Bool.false_ne_true
  | 1, hi, _ => exact absurd hi Bool.false_ne_true
  | 2, _, _ => exact answersAt_toolTurn result hn
  | 3, hi, _ =>
    cases n with
    | zero | succ n => exact absurd hi Bool.false_ne_true

/-- A call and a result within the budget are kept together. -/
theorem findCutPoint_good_iff_toolTurn : GoodCut JsonText.printed ((toolTurn "a.ts").take 4) 0 4 2
      (findCutPoint JsonText.printed ((toolTurn "a.ts").take 4) 0 4 2) := by
  refine ((findCutPoint_good_iff JsonText.printed).1 _ 0 4 2 (resultsFollow_toolTurn _ (by decide))
    (by decide) (by decide) (by decide)).mpr ⟨fun hnone => ?_, fun c last _ hlast _ hmax => ?_⟩
  · exact absurd ⟨by decide, by decide, by decide⟩ (hnone 0)
  · have hle := hmax 3 ⟨by decide, by decide, by decide⟩
    rw [tokensFrom_end _ (by omega)]
    decide

/-- **A large result at the end**: the budget of ten tokens is reached by the result alone, behind which
nothing can be cut at. The question, the call and the result are all kept, though a cut at the call is
possible, and there is nothing to compact. -/
theorem findCutPoint_keeps_everything :
    IsPath ((toolTurn fortyChars).take 3) ∧ ResultsFollow ((toolTurn fortyChars).take 3) ∧
      ¬ GoodCut JsonText.printed ((toolTurn fortyChars).take 3) 0 3 10
        (findCutPoint JsonText.printed ((toolTurn fortyChars).take 3) 0 3 10) ∧
      prepareCompaction JsonText.printed ((toolTurn fortyChars).take 3) { keepRecentTokens := 10 } = .ok none ∧
      IsValidCut ((toolTurn fortyChars).take 3) 0 3 1 ∧ ¬ NothingBefore ((toolTurn fortyChars).take 3) 0 1 := by
  have hpath : IsPath ((toolTurn fortyChars).take 3) := by
    refine ⟨by decide, by decide, ?_, by decide⟩
    rintro entry hent parentId hpar
    rw [← Option.some_inj.mp hent] at hpar
    exact absurd hpar.symm (Option.some_ne_none _)
  have hcut : IsValidCut ((toolTurn fortyChars).take 3) 0 3 1 := ⟨by decide, by decide, by decide⟩
  refine ⟨hpath, resultsFollow_toolTurn _ (by decide), fun hgood => ?_, by decide +kernel, hcut, fun hnoth => ?_⟩
  · have hbud := hgood.budget 0 ⟨by decide +kernel, by decide, by decide, fun i _ hlt => absurd hlt (by omega)⟩
      1 hcut (by decide)
    exact absurd hbud (by decide +kernel)
  · have huser := hnoth 0 (by decide) (by decide) _ rfl
    exact absurd huser (by decide)

end Compaction
end EasyPi.CodingAgent
