/-
# What the queries of the SQLite storage select

The statements with their `ORDER BY`, `LIMIT` and bounds in closed form, for
tables with the invariant: rows are inserted in the order of their sequence
numbers, so ordering them keeps or reverses the list, and the bounds of a
branch cut the path at the first entry that reaches them.
-/
import EasyPi.Session.Queries
import EasyPi.Sqlite.Storage

namespace EasyPi.Sqlite

open List Session

def reachedBound (bounds : BranchBounds) (e : EntryRow) : Bool :=
  (bounds.stopAtType.any fun type => e.type = type) || (bounds.stopAtId.any fun id => e.id = id)

/-- The conditions of an entry query on a row. -/
def matchesEntryQuery (query : EntryQuery) (e : EntryRow) : Bool :=
  (query.cursor.all fun c =>
    if query.order = .oldestFirst then (e.seq : ℤ) > c else (e.seq : ℤ) < c) &&
  (query.type.all fun type => e.type = type) &&
  (query.customType.all fun customType => e.payload.customType? = some customType)

section Order

variable {α β : Type}

theorem orderBy_eq {key : α → ℕ} {rows : List α} (h : rows.Pairwise fun a b => key a < key b)
    (order : EntryOrder) : orderBy key order rows = SessionState.ordered rows order := by
  cases order with
  | oldestFirst => exact mergeSort_asc key (List.Perm.refl rows) h
  | newestFirst => exact mergeSort_desc key (List.Perm.refl rows) h

theorem limitRows_eq {limit : Option ℤ} (h : ValidLimit limit) (rows : List α) :
    limitRows limit rows = SessionState.takeLimit limit rows := by
  cases limit with
  | none => rfl
  | some n =>
    have : ¬ n < 0 := not_lt.mpr (h n rfl).le
    simp [limitRows, SessionState.takeLimit, this]

theorem limitRows_map (f : α → β) (limit : Option ℤ) (rows : List α) :
    limitRows limit (rows.map f) = (limitRows limit rows).map f := by
  cases limit with
  | none => rfl
  | some n => by_cases hn : n < 0 <;> simp [limitRows, hn, map_take]

theorem ordered_map (f : α → β) (rows : List α) (order : EntryOrder) :
    SessionState.ordered (rows.map f) order = (SessionState.ordered rows order).map f := by
  cases order <;> simp [SessionState.ordered]

theorem ordered_filter (p : α → Bool) (rows : List α) (order : EntryOrder) :
    SessionState.ordered (rows.filter p) order = (SessionState.ordered rows order).filter p := by
  cases order <;> simp [SessionState.ordered]

end Order

variable {uuidv7 : ℕ → String} {t : Tables}

theorem readEntryRows_eq (hE : EntriesInv t) (afterSeq cursor : Option ℤ) (type : Option EntryType)
    (order : EntryOrder) (limit : Option ℤ) : readEntryRows t afterSeq cursor type order limit =
      limitRows limit ((SessionState.ordered t.entries order).filter fun r =>
        (afterSeq.all fun after => (r.seq : ℤ) > after) &&
        (cursor.all fun c => if order = .oldestFirst then (r.seq : ℤ) > c else (r.seq : ℤ) < c) &&
        (type.all fun type => r.type = type)) := by
  rw [readEntryRows, orderBy_eq (hE.wf.sorted.sublist filter_sublist), ordered_filter]

variable {path : List EntryRow}

theorem filter_inBounds (hE : EntriesInv t) {e : EntryRow}
    (hpath : IsPath t.entries e path) (bounds : BranchBounds) (order : EntryOrder) :
    SessionState.ordered (path.filter fun b => if bounds.stopAtType = none ∧ bounds.stopAtId = none then true
      else match order with
        | .oldestFirst => b.seq ≤ ((path.filter (reachedBound bounds)).map EntryRow.seq).min?.getD e.seq
        | .newestFirst => b.seq ≥ ((path.filter (reachedBound bounds)).map EntryRow.seq).max?.getD 0)
      order = takeUntil (reachedBound bounds) (SessionState.ordered path order) := by
  by_cases hb : bounds.stopAtType = none ∧ bounds.stopAtId = none
  · have hnev : ∀ b ∈ SessionState.ordered path order, reachedBound bounds b = false :=
      fun b _ => by simp [reachedBound, hb]
    simp [hb, takeUntil_of_forall_not hnev]
  · simp only [if_neg hb]
    cases order with
    | oldestFirst =>
      exact filter_le_min EntryRow.seq (reachedBound bounds) (hpath.sorted hE.wf) e.seq
        (hpath.seq_le hE.wf)
    | newestFirst =>
      exact filter_ge_max EntryRow.seq (reachedBound bounds) (hpath.sorted hE.wf)

/-- A cached branch up to one of its entries holds the path to the entry. -/
structure CachedPath (t : Tables) (cached : CachedBranch) (e : EntryRow) (path : List EntryRow) :
    Prop where
  isPath : IsPath t.entries e path
  leafSeq : cached.leafSeq = e.seq
  rows : t.branchEntries.filter (fun r => r.branchId = cached.branchId ∧
    r.entrySeq ≤ cached.leafSeq) = path.map (.of cached.branchId)

theorem CacheInv.cachedPath (h : CacheInv uuidv7 t) {e : EntryRow} (hpath : IsPath t.entries e path) :
    ∃ cached, Sqlite.readCachedBranch t e.id = some cached ∧ CachedPath t cached e path := by
  obtain ⟨cached, hread, hleaf, hrows⟩ := h.readCachedBranch hpath
  exact ⟨cached, hread, hpath, hleaf, hrows⟩

theorem join_path (hE : EntriesInv t) (hsub : ∀ e ∈ path, e ∈ t.entries) (branchId : String) :
    ((path.map (BranchEntryRow.of branchId)).flatMap fun b =>
      (t.entries.filter fun e => e.id = b.entryId).map fun e => (b, e)) = path.map fun e => (.of branchId e, e) := by
  induction path with
  | nil => rfl
  | cons e path ih =>
    have hone : t.entries.filter (fun e' => e'.id = (BranchEntryRow.of branchId e).entryId) = [e] :=
      filter_key_eq hE.wf.nodup (hsub e (by simp))
    rw [map_cons, flatMap_cons, hone, ih fun e' he' => hsub e' (by simp [he'])]
    rfl

theorem queryCachedBranchRows_eq (hE : EntriesInv t) {cached : CachedBranch} {e : EntryRow}
    (h : CachedPath t cached e path) (query : EntryQuery) (bounds : BranchBounds) :
    queryCachedBranchRows t cached query bounds = limitRows query.limit
      ((takeUntil (reachedBound bounds) (SessionState.ordered path query.order)).filter (matchesEntryQuery query)) := by
  have hsrt := h.isPath.sorted hE.wf
  -- the rows the statement selects, as entries of the path
  set inBounds : EntryRow → Bool := fun b =>
    if bounds.stopAtType = none ∧ bounds.stopAtId = none then true
    else match query.order with
      | .oldestFirst => b.seq ≤ ((path.filter (reachedBound bounds)).map EntryRow.seq).min?.getD e.seq
      | .newestFirst => b.seq ≥ ((path.filter (reachedBound bounds)).map EntryRow.seq).max?.getD 0
    with hin
  have hsel : queryCachedBranchRows t cached query bounds =
      (limitRows query.limit (orderBy (fun p : BranchEntryRow × EntryRow => p.1.entrySeq) query.order
        (((path.filter fun b => inBounds b && matchesEntryQuery query b).map
          (.of cached.branchId)).flatMap fun b =>
            (t.entries.filter fun e => e.id = b.entryId).map fun e => (b, e)))).map Prod.snd := by
    have hsto : ((path.map (BranchEntryRow.of cached.branchId)).filter fun stop =>
        (bounds.stopAtType.any fun type => stop.entryType = type) ||
        (bounds.stopAtId.any fun id => stop.entryId = id)).map BranchEntryRow.entrySeq =
        (path.filter (reachedBound bounds)).map EntryRow.seq := by
      rw [filter_map, map_map]
      rfl
    have honB := h.rows
    rw [h.leafSeq] at honB
    simp only [queryCachedBranchRows, h.leafSeq, honB, hsto]
    rw [filter_map]
    congr 7
    funext b
    simp only [Function.comp_apply, hin, matchesEntryQuery, Bool.and_assoc]
    rfl
  rw [hsel, join_path hE fun b hb => h.isPath.subset b (mem_filter.mp hb).1, orderBy_eq,
    ordered_map, limitRows_map, map_map]
  · have hid : (Prod.snd ∘ fun b => (BranchEntryRow.of cached.branchId b, b)) = id := rfl
    rw [hid, map_id, ← filter_inBounds hE h.isPath bounds query.order, ← ordered_filter, filter_filter]
    simp only [Bool.and_comm (matchesEntryQuery _ _), hin]
  · exact pairwise_map.mpr (hsrt.sublist filter_sublist)

end EasyPi.Sqlite
