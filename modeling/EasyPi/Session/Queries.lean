/-
# What the queries of the session state return

The loops of `state.ts` in closed form, for a state with the invariant and a
query with a positive limit and a cursor that is not negative: what matches,
in the order asked for, cut at the limit; on a branch also cut at the bound.
`branch` is the path from the root to an entry.
-/
import EasyPi.Lib.Forest
import EasyPi.Lib.Sorted
import EasyPi.Session.Memory

namespace EasyPi.Session

open List

/-- A limit that `assertValidLimit` accepts. -/
def ValidLimit (limit : Option ℤ) : Prop := ∀ n, limit = some n → 0 < n

/-- A cursor that `assertValidCursor` accepts. -/
def ValidCursor (cursor : Option ℤ) : Prop := ∀ n, cursor = some n → 0 ≤ n

abbrev IsBranch (entries : List Entry) : Entry → List Entry → Prop :=
  Forest.RootPath (fun e : Entry => e.id) Entry.parentId entries

namespace SessionState

theorem assertValidLimit_ok {limit : Option ℤ} (h : ValidLimit limit) : assertValidLimit limit = .ok () := by
  cases limit with
  | none => rfl
  | some n => simp [assertValidLimit, h n rfl]

theorem assertValidCursor_ok {cursor : Option ℤ} (h : ValidCursor cursor) : assertValidCursor cursor = .ok () := by
  cases cursor with
  | none => rfl
  | some n => simp [assertValidCursor, h n rfl]

/-! ### Loops -/

section Loops

variable {α : Type} {limit : Option ℤ}

theorem takeLimit_of_length {l : List α} (h : limit = some (l.length : ℤ)) (l' : List α) :
    takeLimit limit (l ++ l') = l := by
  subst h
  simp [takeLimit]

theorem collect_eq (hlim : ValidLimit limit) (accepts : α → Bool) (items : List α) :
    collect accepts limit [] items = takeLimit limit (items.filter accepts) := by
  suffices h : ∀ results, (∀ n, limit = some n → (results.length : ℤ) < n) →
      collect accepts limit results items = takeLimit limit (results ++ items.filter accepts) by
    simpa using h [] (by simpa [ValidLimit] using hlim)
  induction items with
  | nil =>
    intro results hres
    cases limit with
    | none => simp [collect, takeLimit]
    | some n =>
      have := hres n rfl
      rw [collect, takeLimit, filter_nil, append_nil, take_of_length_le (by omega)]
  | cons x xs ih =>
    intro results hres
    rw [collect]
    by_cases hx : accepts x
    · simp only [hx, Bool.not_true, Bool.false_eq_true, if_false]
      rw [filter_cons_of_pos hx, append_cons results x (xs.filter accepts)]
      split_ifs with hfull
      · rw [takeLimit_of_length hfull]
      · refine ih _ fun n hn => ?_
        have := hres n hn
        rw [hn] at hfull
        simp only [Option.some.injEq, length_append, length_singleton] at hfull ⊢
        omega
    · simp only [hx, Bool.not_false, if_true]
      rw [filter_cons_of_neg hx]
      exact ih results hres

theorem collectUntil_eq (hlim : ValidLimit limit) (reachedBound accepts : α → Bool)
    (items : List α) : (collectUntil reachedBound accepts limit [] items).1 =
      takeLimit limit ((takeUntil reachedBound items).filter accepts) := by
  suffices h : ∀ results, (∀ n, limit = some n → (results.length : ℤ) < n) →
      (collectUntil reachedBound accepts limit results items).1 =
        takeLimit limit (results ++ (takeUntil reachedBound items).filter accepts) by
    simpa using h [] (by simpa [ValidLimit] using hlim)
  induction items with
  | nil =>
    intro results hres
    cases limit with
    | none => simp [collectUntil, takeLimit, takeUntil]
    | some n =>
      have := hres n rfl
      rw [collectUntil, takeLimit, takeUntil, filter_nil, append_nil, take_of_length_le (by omega)]
  | cons x xs ih =>
    intro results hres
    rw [collectUntil, takeUntil]
    -- the results after this item, still below the limit or just at it
    set next := if accepts x then results ++ [x] else results with hnext
    have happ : ∀ l, results ++ (x :: l).filter accepts = next ++ l.filter accepts := by
      intro l
      by_cases hx : accepts x <;> simp [hnext, hx]
    have hlen : ∀ n, limit = some n → (next.length : ℤ) ≤ n := by
      intro n hn
      have := hres n hn
      by_cases hx : accepts x <;> simp [hnext, hx] <;> omega
    by_cases hb : reachedBound x
    · simp only [hb, true_or, if_true]
      rw [happ, filter_nil, append_nil]
      cases limit with
      | none => rfl
      | some n =>
        have := hlen n rfl
        rw [takeLimit, take_of_length_le (by omega)]
    · simp only [hb, Bool.false_eq_true, false_or, if_false]
      rw [happ]
      split_ifs with hfull
      · rw [takeLimit_of_length hfull]
      · refine ih next fun n hn => ?_
        have := hlen n hn
        rw [hn] at hfull
        simp only [Option.some.injEq] at hfull
        omega

end Loops

variable {query : EntryQuery} {s : SessionState} {path : List Entry}

theorem findEntries_eq (s : SessionState) (hl : ValidLimit query.limit) (hc : ValidCursor query.cursor) :
    s.findEntries query = .ok (takeLimit query.limit
      ((ordered s.entries query.order).filter (matchesEntryQuery query))) := by
  simp only [findEntries, assertValidLimit_ok hl, assertValidCursor_ok hc, collect_eq hl]
  rfl

theorem findRecords_eq (s : SessionState) {query : RecordQuery} (hl : ValidLimit query.limit)
    (hc : ValidCursor query.afterSeq) : s.findRecords query = .ok (takeLimit query.limit
      ((ordered s.records query.order).filter (matchesRecordQuery query))) := by
  simp only [findRecords, assertValidLimit_ok hl, assertValidCursor_ok hc, collect_eq hl]
  rfl

theorem getLog_eq (s : SessionState) {options : LogOptions} (hl : ValidLimit options.limit)
    (hc : ValidCursor options.afterSeq) : s.getLog options = .ok (takeLimit options.limit (s.log.filter fun item =>
      !(options.afterSeq.any fun afterSeq => (item.seq : ℤ) ≤ afterSeq))) := by
  simp only [getLog, assertValidLimit_ok hl, assertValidCursor_ok hc, collect_eq hl]
  rfl

/-! ### Branches -/

theorem RepInv.forest (h : s.RepInv) : Forest.WF (fun e : Entry => e.id) Entry.parentId Entry.seq s.entries where
  nodup := (nodup_append.mp h.ids.nodup).1
  sorted := h.log.entries_lt
  parent_mem := h.tree.parent

theorem walkFrom_yielded (h : s.RepInv) (bounds : BranchBounds) (fuel : ℕ)
    (visited : List String) {e : Entry} (hpath : IsBranch s.entries e path)
    (hret : (s.walkFrom bounds fuel visited e).ending = .returned) :
    (s.walkFrom bounds fuel visited e).yielded = takeUntil (reachedBound bounds) path.reverse := by
  induction fuel generalizing visited e path with
  | zero => simp [walkFrom] at hret
  | succ fuel ih =>
    unfold walkFrom at hret ⊢
    split_ifs at hret ⊢ with hv hb
    · cases hpath <;> simp [takeUntil, hb]
    · cases hpath with
      | root he hp => simp [hp, takeUntil, hb]
      | @child p e path hpre he hp =>
        simp only [hp, h.ids.get?_eq_some.mpr ⟨hpre.mem, rfl⟩] at hret ⊢
        rw [ih _ hpre hret, reverse_append, reverse_singleton, singleton_append, takeUntil, if_neg hb]

theorem walkToRoot_eq (h : s.RepInv) (bounds : BranchBounds) {e : Entry} (hpath : IsBranch s.entries e path) :
    s.walkToRoot (some e.id) bounds = ⟨takeUntil (reachedBound bounds) path.reverse, .returned⟩ := by
  have hg := h.ids.get?_eq_some.mpr ⟨hpath.mem, rfl⟩
  have hret : (s.walkToRoot (some e.id) bounds).ending = .returned := by
    refine (h.walkToRoot_ending (some e.id) bounds).resolve_right ?_
    rintro ⟨id, hid, hmis, -⟩
    exact hmis e hpath.mem (Option.some.inj hid)
  have hyield := walkFrom_yielded h bounds (s.entriesById.toList.length + 1) [] hpath
  simp only [walkToRoot, hg] at hret hyield ⊢
  rw [← hyield hret, ← hret]

theorem reachedBound_empty : reachedBound {} = fun _ => false := by
  funext e
  simp [reachedBound]

theorem findEntriesOnBranch_eq (h : s.RepInv)
    (hl : ValidLimit query.limit) (hc : ValidCursor query.cursor) (bounds : BranchBounds)
    {e : Entry} (hpath : IsBranch s.entries e path) :
    s.findEntriesOnBranch query bounds e.id = .ok (takeLimit query.limit
      ((takeUntil (reachedBound bounds) (ordered path query.order)).filter (matchesEntryQuery query))) := by
  simp only [findEntriesOnBranch, assertValidLimit_ok hl, assertValidCursor_ok hc, walkToRoot_eq h _ hpath]
  cases query.order with
  | oldestFirst =>
    rw [← collectUntil_eq hl, reachedBound_empty, takeUntil_of_forall_not (by simp)]
    change Except.ok (collectUntil _ _ _ _ path.reverse.reverse).1 = _
    rw [reverse_reverse, ordered]
  | newestFirst =>
    have hcut := collectUntil_eq hl (fun _ => false) (matchesEntryQuery query)
      (takeUntil (reachedBound bounds) path.reverse)
    rw [takeUntil_of_forall_not (p := fun _ => false) (by simp)] at hcut
    rw [ordered, ← hcut]
    simp only [Walk.forOf]
    rcases collectUntil (fun _ => false) (matchesEntryQuery query) query.limit []
      (takeUntil (reachedBound bounds) path.reverse) with ⟨results, _ | _⟩ <;> rfl

theorem findEntriesOnBranch_missing (s : SessionState)
    (hl : ValidLimit query.limit) (hc : ValidCursor query.cursor) (bounds : BranchBounds)
    {start : String} (hs : s.entriesById.get? start = none) :
    s.findEntriesOnBranch query bounds start = .error ⟨.notFound, "Entry not found: " ++ start⟩ := by
  simp only [findEntriesOnBranch, assertValidLimit_ok hl, assertValidCursor_ok hc, walkToRoot, hs]
  cases query.order <;> rfl

end SessionState
end EasyPi.Session
