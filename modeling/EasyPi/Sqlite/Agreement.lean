/-
# The queries of both storages agree

For related states (`Refines`) with payloads that pass the validation on
decoding, a query with a positive limit and a cursor that is not negative
returns the same on both sides. The branch queries compare the walk along
parent links with the cached path, and the log query the log with the merge
of four tables.
-/
import EasyPi.Sqlite.Refinement

namespace EasyPi.Sqlite

open List Session

variable {uuidv7 : ℕ → String} {s : SessionState} {t : Tables}

/-- Every payload passes the validation on decoding. -/
structure Durable (s : SessionState) : Prop where
  entries : ∀ e ∈ s.entries, durableEntry e.data = true
  records : ∀ r ∈ s.records, durableRecord r.data = true

attribute [local simp] SessionState.takeLimit

theorem decodeEntry_row {e : Entry} (h : durableEntry e.data = true) : decodeEntry (rowOfEntry e) = .ok e := by
  rw [decodeEntry, if_pos ⟨rfl, h⟩]
  rfl

theorem decodeRecord_row {r : LaneRecord} (h : durableRecord r.data = true) : decodeRecord (rowOfRecord r) = .ok r := by
  rw [decodeRecord, if_pos ⟨h, rfl, rfl, rfl, rfl, rfl⟩]
  rfl

theorem mapM_map_ok {α β ε : Type} {f : α → β} {g : β → Except ε α} {l : List α}
    (h : ∀ a ∈ l, g (f a) = .ok a) : (l.map f).mapM g = .ok l := by
  induction l with
  | nil => rfl
  | cons a l ih =>
    rw [map_cons, mapM_cons, h a (by simp), ih fun b hb => h b (by simp [hb])]
    rfl

theorem matchesEntryQuery_row (query : EntryQuery) (e : Entry) :
    matchesEntryQuery query (rowOfEntry e) = SessionState.matchesEntryQuery query e := by
  have hcus : ∀ customType, (e.data.customType? = some customType ↔
      e.type = .custom ∧ e.data.customType? = some customType) := fun customType => by
    cases hd : e.data <;> simp [Entry.type, hd, EntryData.customType?, EntryData.type]
  rw [Bool.eq_iff_iff]
  simp only [matchesEntryQuery, SessionState.matchesEntryQuery, Bool.and_eq_true,
    Option.all_eq_true, decide_eq_true_eq, ← hcus]
  simp only [rowOfEntry_seq, rowOfEntry_type, rowOfEntry_payload]
  tauto

theorem matchesRecordQuery_row (query : RecordQuery) (r : LaneRecord) :
    ((query.lane.all fun lane => (rowOfRecord r).lane = lane) &&
      (query.type.all fun type => (rowOfRecord r).type = type) &&
      (query.runId.all fun runId => (rowOfRecord r).runId = some runId) &&
      (query.operationKind.all fun kind => (rowOfRecord r).opKind = some kind) &&
      (query.afterSeq.all fun after => ((rowOfRecord r).seq : ℤ) > after)) = SessionState.matchesRecordQuery query r := by
  have hrun : ∀ runId, (decide ((rowOfRecord r).runId = some runId) : Bool) =
      if r.type = .operationStarted then decide (r.id = runId)
      else decide (r.data.runId? = some runId) := fun runId => by
    simp only [rowOfRecord, recordRunId]
    by_cases hs : r.data.type = .operationStarted <;> simp [hs]
  simp only [SessionState.matchesRecordQuery, hrun]
  rfl

theorem takeLimit_map {α β : Type} (f : α → β) (limit : Option ℤ) (l : List α) :
    SessionState.takeLimit limit (l.map f) = (SessionState.takeLimit limit l).map f := by
  cases limit <;> simp [map_take]

variable {limit : Option ℤ} {α : Type}

theorem sliceLimit_eq (h : ValidLimit limit) (l : List α) : sliceLimit limit l = SessionState.takeLimit limit l := by
  cases limit with
  | none => rfl
  | some n =>
    have : ¬ n < 0 := not_lt.mpr (h n rfl).le
    simp [sliceLimit, this]

theorem takeLimit_takeLimit (limit : Option ℤ) (l : List α) :
    SessionState.takeLimit limit (SessionState.takeLimit limit l) = SessionState.takeLimit limit l := by
  cases limit <;> simp [take_take]

theorem mem_takeLimit {l : List α} {a : α} (h : a ∈ SessionState.takeLimit limit l) : a ∈ l := by
  cases limit with
  | none => exact h
  | some n => exact mem_of_mem_take h

/-! ### Entries -/

theorem getEntry_agrees (h : Refines uuidv7 s t) (hd : Durable s) (id : String) :
    getEntry t id = .ok (s.getEntry id) := by
  rw [getEntry, readEntryRow_eq h, SessionState.getEntry]
  cases hg : s.entriesById.get? id with
  | none => rfl
  | some e =>
    have := decodeEntry_row (hd.entries e (h.repInv.ids.get?_eq_some.mp hg).1)
    simp only [Option.map_some, this]
    rfl

theorem mem_ordered {l : List α} {order : EntryOrder} {a : α} : a ∈ SessionState.ordered l order ↔ a ∈ l := by
  cases order <;> simp [SessionState.ordered]

variable {query : EntryQuery}

theorem findEntries_agrees (h : Refines uuidv7 s t) (hd : Durable s) (hl : ValidLimit query.limit) :
    findEntries t query = .ok (SessionState.takeLimit query.limit ((SessionState.ordered s.entries query.order).filter
        (SessionState.matchesEntryQuery query))) := by
  set limit := if query.customType = none then query.limit else none with hlimi
  have hlimi' : ValidLimit limit := by
    intro n hn
    rw [hlimi] at hn
    split_ifs at hn
    exact hl n hn
  -- the rows the statement selects, as entries
  set inRows : Entry → Bool := fun e =>
    (query.cursor.all fun c =>
      if query.order = .oldestFirst then (e.seq : ℤ) > c else (e.seq : ℤ) < c) &&
    ((query.type.or (query.customType.map fun _ => EntryType.custom)).all fun type => e.type = type)
    with hin
  have hrows : readEntryRows t none query.cursor
      (query.type.or (query.customType.map fun _ => .custom)) query.order limit = (SessionState.takeLimit limit
        ((SessionState.ordered s.entries query.order).filter inRows)).map rowOfEntry := by
    rw [readEntryRows_eq h.storeInv.cache.entries, limitRows_eq hlimi', h.entries, ordered_map, filter_map, takeLimit_map]
    rfl
  have hdec : (readEntryRows t none query.cursor
      (query.type.or (query.customType.map fun _ => .custom)) query.order limit).mapM decodeEntry =
      .ok (SessionState.takeLimit limit
        ((SessionState.ordered s.entries query.order).filter inRows)) := by
    rw [hrows]
    refine mapM_map_ok fun e he => decodeEntry_row (hd.entries e ?_)
    exact mem_ordered.mp (mem_filter.mp (mem_takeLimit he)).1
  simp only [findEntries, ← hlimi, hdec]
  change Except.ok _ = Except.ok _
  rw [sliceLimit_eq hl]
  congr 1
  cases hct : query.customType with
  | none =>
    -- the statement applies every condition, and the limit
    have hsame : ∀ e, inRows e = SessionState.matchesEntryQuery query e := fun e => by
      simp [hin, SessionState.matchesEntryQuery, hct, Bool.and_comm]
    rw [hlimi, if_pos hct, filter_congr fun e _ => hsame e, filter_eq_self.mpr, takeLimit_takeLimit]
    exact fun e he => (mem_filter.mp (mem_takeLimit he)).2
  | some customType =>
    -- the rows are filtered and cut only after they are decoded
    have hmat : ∀ e, (SessionState.matchesEntryQuery query e && inRows e) =
        SessionState.matchesEntryQuery query e := fun e => by
      rw [Bool.and_eq_left_iff_imp]
      intro hm
      simp only [SessionState.matchesEntryQuery, hct, Bool.and_eq_true, Option.all_some, decide_eq_true_eq] at hm
      obtain ⟨⟨htype, hcus, -⟩, hcur⟩ := hm
      cases hty : query.type <;> simp_all
    rw [hlimi, if_neg (by simp [hct]), SessionState.takeLimit, filter_filter, filter_congr fun e _ => hmat e]

/-! ### Branches -/

theorem prefix_takeLimit (limit : Option ℤ) (l : List α) : SessionState.takeLimit limit l <+: l := by
  cases limit with
  | none => exact prefix_rfl
  | some n => exact take_prefix _ _

theorem validateLinks_ok {rows : List EntryRow}
    (h : rows.IsChain fun p c => c.parentId = some p.id) : validateLinks rows = .ok () := by
  induction rows with
  | nil => rfl
  | cons a rows ih =>
    cases rows with
    | nil => rfl
    | cons b rows =>
      obtain ⟨hab, hrest⟩ := isChain_cons_cons.mp h
      rw [validateLinks, if_neg (not_not.mpr hab)]
      exact ih hrest

theorem branchRows_infix (hE : EntriesInv t) {e : EntryRow} {path : List EntryRow}
    (hpath : IsPath t.entries e path) (htype : query.type = none)
    (hcus : query.customType = none) (bounds : BranchBounds) : SessionState.takeLimit query.limit
      ((takeUntil (reachedBound bounds) (SessionState.ordered path query.order)).filter
        (matchesEntryQuery query)) <:+: SessionState.ordered path query.order := by
  have hcut := prefix_takeUntil (reachedBound bounds) (SessionState.ordered path query.order)
  have hsrt := hpath.sorted hE.wf
  refine ((prefix_takeLimit _ _).isInfix.trans (filter_suffix ?_).isInfix).trans hcut.isInfix
  refine List.Pairwise.sublist hcut.sublist ?_
  simp only [matchesEntryQuery, htype, hcus, Option.all_none, Bool.and_true]
  cases query.cursor with
  | none => exact pairwise_of_forall fun _ _ h => h
  | some c =>
    cases query.order with
    | oldestFirst =>
      refine hsrt.imp fun {a b} hab ha => ?_
      simp only [Option.all_some, if_true, decide_eq_true_eq] at ha ⊢
      omega
    | newestFirst =>
      refine pairwise_reverse.mpr (hsrt.imp fun {a b} hab hb => ?_)
      simp only [Option.all_some, reduceCtorEq, if_false, decide_eq_true_eq] at hb ⊢
      omega

/-- The check of the cached rows passes. -/
theorem validateCachedBranchRows_ok (hE : EntriesInv t) {e : EntryRow} {path : List EntryRow}
    (hpath : IsPath t.entries e path) (query : EntryQuery) (bounds : BranchBounds) :
    validateCachedBranchRows (SessionState.takeLimit query.limit
      ((takeUntil (reachedBound bounds) (SessionState.ordered path query.order)).filter
        (matchesEntryQuery query))) query bounds = .ok () := by
  set rows := SessionState.takeLimit query.limit
    ((takeUntil (reachedBound bounds) (SessionState.ordered path query.order)).filter
      (matchesEntryQuery query)) with hrows
  rw [validateCachedBranchRows]
  split_ifs with hskip
  · rfl
  simp only [not_or, Option.not_isSome_iff_eq_none] at hskip
  obtain ⟨hne, htype, hcus⟩ := hskip
  have hinf := branchRows_infix hE hpath htype hcus bounds
  rw [← hrows] at hinf
  have hsrt := hpath.sorted hE.wf
  -- without bounds and cursor nothing but the limit cuts the path
  have hall : bounds.stopAtId = none → bounds.stopAtType = none → query.cursor = none →
      rows = SessionState.takeLimit query.limit (SessionState.ordered path query.order) := by
    intro hid hty hc
    rw [hrows, takeUntil_of_forall_not fun b _ => by simp [reachedBound, hid, hty],
      filter_eq_self.mpr fun b _ => by simp [matchesEntryQuery, hc, htype, hcus]]
  obtain ⟨sorted, hsort, hsub, hroot⟩ : ∃ sorted, (rows.mergeSort fun a b => a.seq ≤ b.seq) = sorted ∧ sorted <:+: path ∧
      (bounds.stopAtId = none → bounds.stopAtType = none → query.cursor = none →
        query.order = .oldestFirst ∨ query.limit = none → sorted.head? = path.head?) := by
    cases hord : query.order with
    | oldestFirst =>
      rw [hord] at hinf hall
      refine ⟨rows, mergeSort_asc _ (.refl _) (hsrt.sublist hinf.sublist), hinf, fun hid hty hc _ => ?_⟩
      obtain ⟨rest, hrest⟩ := prefix_takeLimit query.limit path
      have hcut : rows = SessionState.takeLimit query.limit path := hall hid hty hc
      rw [← hrest, ← hcut, List.head?_append_of_ne_nil _ hne]
    | newestFirst =>
      rw [hord] at hinf hall
      have hinf' : rows.reverse <:+: path := reverse_infix.mp (by
        rwa [reverse_reverse])
      refine ⟨rows.reverse, mergeSort_asc _ (reverse_perm rows).symm
        (hsrt.sublist hinf'.sublist), hinf', fun hid hty hc hlim => ?_⟩
      have hnone : query.limit = none := hlim.resolve_left (by simp)
      have hcut := hall hid hty hc
      rw [hnone] at hcut
      rw [hcut, SessionState.takeLimit, SessionState.ordered, reverse_reverse]
  have hlin : validateLinks sorted = .ok () := by
    obtain ⟨before, after, hspl⟩ := hsub
    have hcha := hpath.isChain.1
    rw [← hspl] at hcha
    exact validateLinks_ok hcha.left_of_append.right_of_append
  simp only [hsort, hlin]
  split
  · rfl
  · rename_i parentId hpar
    split_ifs with hinc
    · -- the first row is the root
      simp only [Bool.and_eq_true, Bool.or_eq_true, Option.isNone_iff_eq_none, decide_eq_true_eq]
        at hinc
      obtain ⟨⟨⟨hid, hty⟩, hc⟩, hlim⟩ := hinc
      rw [hroot hid hty hc hlim, Option.bind_eq_some_iff] at hpar
      obtain ⟨r, hr, hp⟩ := hpar
      rw [hpath.head_root r hr] at hp
      cases hp
    · rfl

theorem isPath_rows (h : Refines uuidv7 s t) {e : Entry} {path : List Entry} (hpath : IsBranch s.entries e path) :
    IsPath t.entries (rowOfEntry e) (path.map rowOfEntry) := by
  rw [h.entries]
  exact hpath.map rowOfEntry (fun _ => rfl) fun _ => rfl

theorem reachedBound_row (bounds : BranchBounds) (e : Entry) :
    reachedBound bounds (rowOfEntry e) = SessionState.reachedBound bounds e := by
  rw [Bool.eq_iff_iff]
  simp only [reachedBound, SessionState.reachedBound, Bool.or_eq_true, Option.any_eq_true, decide_eq_true_eq]
  simp only [rowOfEntry_type, rowOfEntry_id]
  constructor
  · rintro (⟨type, htype, rfl⟩ | ⟨id, hid, rfl⟩)
    · exact Or.inr htype.symm
    · exact Or.inl hid.symm
  · rintro (hid | htype)
    · exact Or.inr ⟨_, hid.symm, rfl⟩
    · exact Or.inl ⟨_, htype.symm, rfl⟩

section
variable (h : Refines uuidv7 s t)
include h

theorem findEntriesOnBranch_agrees (hd : Durable s)
    (hl : ValidLimit query.limit) (bounds : BranchBounds) {e : Entry} {path : List Entry}
    (hpath : IsBranch s.entries e path) :
    findEntriesOnBranch t query bounds e.id = .ok (SessionState.takeLimit query.limit
      ((takeUntil (SessionState.reachedBound bounds) (SessionState.ordered path query.order)).filter
          (SessionState.matchesEntryQuery query))) := by
  have hE := h.storeInv.cache.entries
  have hrow := isPath_rows h hpath
  obtain ⟨cached, hread, hcac⟩ := h.storeInv.cache.cachedPath hrow
  have hrows := queryCachedBranchRows_eq hE hcac query bounds
  rw [limitRows_eq hl] at hrows
  have hval := validateCachedBranchRows_ok hE hrow query bounds
  rw [← hrows] at hval
  -- the selected rows are those of the entries the walk selects
  set found := SessionState.takeLimit query.limit
    ((takeUntil (SessionState.reachedBound bounds) (SessionState.ordered path query.order)).filter
      (SessionState.matchesEntryQuery query)) with hfnd
  have hsel : queryCachedBranchRows t cached query bounds = found.map rowOfEntry := by
    rw [hrows, ordered_map, takeUntil_map, filter_map, takeLimit_map]
    simp only [reachedBound_row, Function.comp_def, matchesEntryQuery_row]
    rfl
  have hmem : ∀ b ∈ found, b ∈ s.entries ∧ SessionState.matchesEntryQuery query b = true := by
    intro b hb
    obtain ⟨hb, hmat⟩ := mem_filter.mp (mem_takeLimit hb)
    exact ⟨hpath.subset b (mem_ordered.mp ((prefix_takeUntil _ _).subset hb)), hmat⟩
  have hdec : (found.map rowOfEntry).mapM decodeEntry = .ok found :=
    mapM_map_ok fun b hb => decodeEntry_row (hd.entries b (hmem b hb).1)
  rw [hsel] at hval
  rw [findEntriesOnBranch, show readCachedBranch t e.id = some cached from hread]
  simp only [hsel, hval, hdec]
  change Except.ok _ = Except.ok _
  rw [filter_eq_self.mpr fun b hb => (hmem b hb).2, sliceLimit_eq hl, hfnd, takeLimit_takeLimit]

theorem findEntriesOnBranch_notFound (query : EntryQuery)
    (bounds : BranchBounds) {start : String} (hs : s.entriesById.get? start = none) :
    findEntriesOnBranch t query bounds start = .error (.session ⟨.notFound, "Entry not found: " ++ start⟩) := by
  have hrow : readEntryRow t start = none := by rw [readEntryRow_eq h, hs]; rfl
  have hcac : readCachedBranch t start = none := by
    have hnone : t.branchEntries.filter (fun r => r.entryId = start) = [] := by
      refine filter_eq_nil_iff.mpr fun r hr hid => ?_
      obtain ⟨e, he, heq⟩ := h.storeInv.cache.branches.mem_entries hr
      have hes : e.id = start := (congrArg BranchEntryRow.entryId heq).symm.trans
        (of_decide_eq_true hid)
      rw [← hes, h.storeInv.cache.entries.readEntryRow he] at hrow
      cases hrow
    rw [readCachedBranch, hnone, orderByText, mergeSort_nil]
    rfl
  rw [findEntriesOnBranch, hcac]
  simp only [hrow]
  rfl

/-! ### Records -/

theorem findRecords_agrees (hd : Durable s) {query : RecordQuery} (hl : ValidLimit query.limit) :
    findRecords t query = .ok (SessionState.takeLimit query.limit ((SessionState.ordered s.records query.order).filter
        (SessionState.matchesRecordQuery query))) := by
  have hsrt : (s.records.map rowOfRecord).Pairwise fun a b => a.seq < b.seq := pairwise_map.mpr h.repInv.log.records_lt
  rw [findRecords, readRecordRows, h.records, orderBy_eq (hsrt.sublist filter_sublist),
    ordered_filter, limitRows_eq hl, ordered_map, filter_map, takeLimit_map]
  simp only [Function.comp_def, matchesRecordQuery_row]
  refine mapM_map_ok fun r hr => decodeRecord_row (hd.records r ?_)
  exact mem_ordered.mp (mem_filter.mp (mem_takeLimit hr)).1

theorem find?_record {r : LaneRecord} (hr : r ∈ s.records) :
    t.records.find? (fun row => row.id = r.id) = some (rowOfRecord r) := by
  rw [h.records]
  have hnd : ((s.records.map rowOfRecord).map RecordRow.id).Nodup := by
    rw [map_map]
    exact (nodup_append.mp h.repInv.ids.nodup).2.1
  exact find?_key_eq hnd (mem_map_of_mem hr)

theorem takeLimit_open (hl : ValidLimit limit)
    (lane : String) : SessionState.takeLimit limit (openOperations s.records lane).reverse =
      openOperations s.records lane := by
  have hopen := h.open_ lane
  cases hcell : (readLane t lane).bind LaneRow.openOperationId with
  | none =>
    rw [hcell] at hopen
    rw [map_eq_nil_iff.mp hopen]
    cases limit <;> simp
  | some id =>
    rw [hcell] at hopen
    obtain ⟨op, hops, -⟩ := map_eq_singleton_iff.mp hopen
    rw [hops]
    cases limit with
    | none => rfl
    | some n => exact take_of_length_le (by have := hl n rfl; simp; omega)

theorem findOpenOperations_agrees (hd : Durable s)
    (hids : ∀ r ∈ s.records, r.type = .operationStarted → r.id ≠ "") (lane : String) :
    findOpenOperations t lane = .ok (openOperations s.records lane) := by
  have hopen := h.open_ lane
  rw [findOpenOperations, readOpenOperationRows]
  cases hcell : (readLane t lane).bind LaneRow.openOperationId with
  | none =>
    rw [hcell] at hopen
    rw [map_eq_nil_iff.mp hopen]
    rfl
  | some id =>
    rw [hcell] at hopen
    obtain ⟨op, hops, rfl⟩ := map_eq_singleton_iff.mp hopen
    -- the operation that is open is a start of the lane
    have hmem : op ∈ openOperations s.records lane := by rw [hops]; simp
    obtain ⟨hpre, hprop⟩ := mem_filter.mp hmem
    obtain ⟨r, hr, hrop⟩ := mem_filterMap.mp hpre
    obtain ⟨-, hlane, hid, htype⟩ := SessionState.operationStarted?_seq hrop
    have hlane' : r.lane = lane := hlane ▸ (of_decide_eq_true hprop).1
    have hrow : ¬ ((rowOfRecord r).lane ≠ lane ∨ (rowOfRecord r).type ≠ .operationStarted) := by
      rw [not_or, not_not, not_not]
      exact ⟨hlane', htype⟩
    simp only [hid, if_neg (hids r hr htype), find?_record h hr, if_neg hrow]
    rw [hops, pure_bind]
    refine mapM_map_ok (f := fun _ => rowOfRecord r) (l := [op]) fun a ha => ?_
    rw [mem_singleton.mp ha, decodeRecord_row (hd.records r hr)]
    simp only [bind, Except.bind, hrop]

end

/-! ### The log -/

inductive LogTable where
  | entries | records | laneMoves | facts
  deriving DecidableEq

def LogRow.table : LogRow → LogTable
  | .entry _ => .entries
  | .record _ => .records
  | .lane _ => .laneMoves
  | .fact _ => .facts

def rowOfItem : LogItem → LogRow
  | .entry _ e => .entry (rowOfEntry e)
  | .record _ r => .record (rowOfRecord r)
  | .lane seq lane leafId => .lane ⟨seq, lane, leafId⟩
  | .name seq value => .fact ⟨seq, .name, none, value⟩
  | .label seq targetId value => .fact ⟨seq, .label, some targetId, value⟩

theorem map_filterMap_eq_filter {α β γ : Type} {f : α → Option β} {g : β → γ} {row : α → γ}
    {p : γ → Bool} (h : ∀ a, (f a).map g = if p (row a) then some (row a) else none) (l : List α) :
    (l.filterMap f).map g = (l.map row).filter p := by
  induction l with
  | nil => rfl
  | cons a l ih =>
    have ha := h a
    cases hf : f a <;> simp_all

theorem logRows_table (h : Refines uuidv7 s t) :
    t.entries.map LogRow.entry = (s.log.map rowOfItem).filter (fun r => r.table = .entries) ∧
    t.records.map LogRow.record = (s.log.map rowOfItem).filter (fun r => r.table = .records) ∧
    t.laneMoves.map LogRow.lane = (s.log.map rowOfItem).filter (fun r => r.table = .laneMoves) ∧
    t.facts.map LogRow.fact = (s.log.map rowOfItem).filter (fun r => r.table = .facts) := by
  rw [h.entries, h.records, h.laneMoves, h.facts, h.repInv.log.entries, h.repInv.log.records, map_map, map_map]
  refine ⟨?_, ?_, ?_, ?_⟩ <;> refine map_filterMap_eq_filter (fun item => ?_) s.log <;>
    cases item <;> rfl

variable {item : LogItem}

theorem rowOfItem_seq (h : Refines uuidv7 s t) (hi : item ∈ s.log) : (rowOfItem item).seq = item.seq := by
  cases item with
  | entry seq e => exact h.repInv.log.entry_seq seq e hi
  | record seq r => exact h.repInv.log.record_seq seq r hi
  | lane | name | label => rfl

theorem decode_rowOfItem (h : Refines uuidv7 s t) (hd : Durable s)
    (hi : item ∈ s.log) : (rowOfItem item).decode = .ok item := by
  cases item with
  | entry seq e =>
    have hseq := h.repInv.log.entry_seq seq e hi
    have he : e ∈ s.entries := (h.repInv.log.mem_entries e).mpr (hseq ▸ hi)
    simp only [rowOfItem, LogRow.decode, decodeEntry_row (hd.entries e he), rowOfEntry_seq, hseq]
    rfl
  | record seq r =>
    have hseq := h.repInv.log.record_seq seq r hi
    have hr : r ∈ s.records := (h.repInv.log.mem_records r).mpr (hseq ▸ hi)
    simp only [rowOfItem, LogRow.decode, decodeRecord_row (hd.records r hr), rowOfRecord_seq, hseq]
    rfl
  | lane | name | label => rfl

theorem readPart {key : α → ℕ} {rows : List α} {row : α → LogRow} {table : LogTable}
    {log : List LogRow} (hrow : ∀ a, (row a).seq = key a) (hrows : rows.map row = log.filter fun r => r.table = table)
    (hsrt : log.Pairwise fun a b => a.seq < b.seq) (hl : ValidLimit limit) (after : ℤ) :
    (limitRows limit (orderBy key .oldestFirst (rows.filter fun r => (key r : ℤ) > after))).map row =
      SessionState.takeLimit limit ((log.filter fun r => (r.seq : ℤ) > after).filter fun r => r.table = table) := by
  have hkeys : rows.Pairwise fun a b => key a < key b := by
    have := (hrows ▸ hsrt.sublist filter_sublist :
      (rows.map row).Pairwise fun a b => a.seq < b.seq)
    rw [pairwise_map] at this
    simpa only [hrow] using this
  rw [orderBy_eq (hkeys.sublist filter_sublist), SessionState.ordered, limitRows_eq hl, ← takeLimit_map]
  congr 1
  have hcomm : (rows.filter fun r => (key r : ℤ) > after).map row =
      (rows.map row).filter fun r => (r.seq : ℤ) > after := by
    rw [filter_map]
    simp only [Function.comp_def, hrow]
  rw [hcomm, hrows, filter_filter, filter_filter]
  simp only [Bool.and_comm]

theorem takeLimit_mergeSort_tables {log : List LogRow} (hsrt : log.Pairwise fun a b => a.seq < b.seq) (limit : Option ℤ) :
    SessionState.takeLimit limit (([LogTable.entries, .records, .laneMoves, .facts].flatMap fun table =>
        SessionState.takeLimit limit (log.filter fun r => r.table = table)).mergeSort
          fun a b => a.seq ≤ b.seq) = SessionState.takeLimit limit log := by
  have hnd : [LogTable.entries, .records, .laneMoves, .facts].Nodup := by decide
  have hmem : ∀ r ∈ log, r.table ∈ [LogTable.entries, .records, .laneMoves, .facts] :=
    fun r _ => by cases r <;> simp [LogRow.table]
  cases limit with
  | none =>
    have hperm := flatMap_filter_perm LogRow.table log hnd
    rw [filter_eq_self.mpr fun r hr => decide_eq_true (hmem r hr)] at hperm
    exact mergeSort_asc LogRow.seq hperm hsrt
  | some n => exact take_mergeSort_parts LogRow.table hsrt hnd hmem n.toNat

theorem getLog_agrees (h : Refines uuidv7 s t) (hd : Durable s) {options : LogOptions} (hl : ValidLimit options.limit) :
    getLog t options = .ok (SessionState.takeLimit options.limit (s.log.filter fun item =>
      !(options.afterSeq.any fun afterSeq => (item.seq : ℤ) ≤ afterSeq))) := by
  set after := options.afterSeq.getD 0 with haft
  set log := s.log.map rowOfItem with hlog
  have hsrt : log.Pairwise fun a b => a.seq < b.seq := by
    refine pairwise_map.mpr (h.repInv.log.log_lt.imp_of_mem fun ha hb hab => ?_)
    rwa [rowOfItem_seq h ha, rowOfItem_seq h hb]
  obtain ⟨hents, hrecs, hmv, hfac⟩ := logRows_table h
  -- the rows of the tables, as parts of the log after the number
  set rest := log.filter fun r => (r.seq : ℤ) > after with hrest
  have hread : (readEntryRows t (some after) none none .oldestFirst options.limit).map LogRow.entry ++
      (readRecordRows t { afterSeq := some after, order := .oldestFirst, limit := options.limit }).map
        LogRow.record ++ (readLaneMoveRows t after options.limit).map LogRow.lane ++
      (readFactRows t after options.limit).map LogRow.fact =
      [LogTable.entries, .records, .laneMoves, .facts].flatMap fun table =>
        SessionState.takeLimit options.limit (rest.filter fun r => r.table = table) := by
    simp only [flatMap_cons, flatMap_nil, append_nil]
    rw [← readPart (fun _ => rfl) hents hsrt hl after, ← readPart (fun _ => rfl) hrecs hsrt hl after,
      ← readPart (fun _ => rfl) hmv hsrt hl after, ← readPart (fun _ => rfl) hfac hsrt hl after]
    simp [readEntryRows, readRecordRows, readLaneMoveRows, readFactRows, LogRow.seq]
  have hmer := takeLimit_mergeSort_tables
    (hsrt.sublist filter_sublist : rest.Pairwise fun a b => a.seq < b.seq) options.limit
  have hite : rest = (s.log.filter fun item =>
      !(options.afterSeq.any fun afterSeq => (item.seq : ℤ) ≤ afterSeq)).map rowOfItem := by
    rw [hrest, hlog, filter_map]
    congr 1
    refine filter_congr fun item hi => ?_
    have hpos : 0 < item.seq := by
      have := mem_map_of_mem (f := LogItem.seq) hi
      rw [h.repInv.log.seqs, mem_range'] at this
      omega
    simp only [Function.comp_apply, rowOfItem_seq h hi, haft]
    rw [Bool.eq_iff_iff]
    cases options.afterSeq <;> simp [hpos]
  simp only [getLog, ← haft, hread]
  rw [sliceLimit_eq hl, hmer, hite, takeLimit_map]
  exact mapM_map_ok fun item hi =>
    decode_rowOfItem h hd (mem_filter.mp (mem_takeLimit hi)).1

/-! ### Facts, lanes -/

theorem fact?_seq {r : FactRow} (h : fact? item = some r) : r.seq = item.seq := by
  cases item <;> simp only [fact?, Option.some.injEq, reduceCtorEq] at h <;> rw [← h] <;> rfl

theorem facts_lt (h : Refines uuidv7 s t) : t.facts.Pairwise fun a b => a.seq < b.seq := by
  rw [h.facts, pairwise_filterMap]
  refine h.repInv.log.log_lt.imp fun {a b} hab r hr r' hr' => ?_
  rwa [fact?_seq hr, fact?_seq hr']

theorem readLatestFact_eq (h : Refines uuidv7 s t) (kind : FactKind) (key : Option String) :
    readLatestFact t kind key = (t.facts.filter fun r => r.kind = kind ∧ r.key = key).getLast? := by
  rw [readLatestFact, orderBy_eq ((facts_lt h).sublist filter_sublist), SessionState.ordered, List.head?_reverse]

theorem bind_getLast? {α β : Type} (f : α → Option β) (l : List α) : l.getLast?.bind f = ((l.map f).getLast?).join := by
  rw [List.getLast?_map]
  cases l.getLast? <;> rfl

theorem getName_agrees (h : Refines uuidv7 s t) : getName t = s.getName := by
  have hlog : ∀ log : List LogItem, ((log.filterMap fact?).filter fun r =>
      r.kind = .name ∧ r.key = none).map FactRow.value = log.filterMap LogItem.name? := by
    intro log
    induction log with
    | nil => rfl
    | cons item log ih => cases item <;> simp_all [filterMap_cons, fact?, LogItem.name?]
  rw [getName, readLatestFact_eq h, bind_getLast?, h.facts, hlog, SessionState.getName, h.repInv.facts.name]
  rfl

theorem getLabel_agrees (h : Refines uuidv7 s t) (id : String) : getLabel t id = s.getLabel id := by
  have hlog : ∀ log : List LogItem, ((log.filterMap fact?).filter fun r =>
      r.kind = .label ∧ r.key = some id).map FactRow.value = log.filterMap (LogItem.label? id) := by
    intro log
    induction log with
    | nil => rfl
    | cons item log ih =>
      cases item with
      | label seq targetId value =>
        by_cases hid : targetId = id <;> simp_all [fact?, LogItem.label?]
      | entry | record | lane | name => simp_all [filterMap_cons, fact?, LogItem.label?]
  rw [getLabel, readLatestFact_eq h, bind_getLast?, h.facts, hlog, SessionState.getLabel, h.repInv.facts.labels]
  rfl

theorem readLanes_ok (h : LanesInv t) : readLanes.run t = .ok (orderByText LaneRow.lane t.lanes, t) := by
  have hall : (orderByText LaneRow.lane t.lanes).find? (fun r => !leafExists t r) = none := by
    refine List.find?_eq_none.mpr fun row hrow => ?_
    have hmem : row ∈ t.lanes := mem_mergeSort.mp hrow
    have hleaf : leafExists t row = true := by
      rw [leafExists, Option.all_eq_true]
      intro id hid
      obtain ⟨e, he, heq⟩ := h.leaf row hmem id hid
      exact any_eq_true.mpr ⟨e, he, decide_eq_true heq⟩
    simp [hleaf]
  simp only [readLanes, run_get_bind, hall]
  rfl

theorem getLanes_agrees (h : Refines uuidv7 s t) : ∃ lanes, getLanes t = .ok lanes ∧ lanes.Perm s.getLanes := by
  refine ⟨_, by rw [getLanes, readLanes_ok h.storeInv.lanes]; rfl, ?_⟩
  have hnd := h.storeInv.lanes.nodup
  have hkeys : ((t.lanes.map fun row => (row.lane, row.leafId)).map Prod.fst).Nodup := by
    rw [map_map]
    exact hnd
  refine ((mergeSort_perm _ _).map _).trans ?_
  refine (perm_ext_iff_of_nodup hkeys.of_map s.lanes.nodup.of_map).mpr fun p => ?_
  obtain ⟨lane, leafId⟩ := p
  rw [← OrdMap.get?_eq_some_iff, ← h.leaf lane, Option.map_eq_some_iff, mem_map]
  constructor
  · rintro ⟨row, hrow, heq⟩
    obtain ⟨rfl, rfl⟩ := Prod.mk.inj heq
    exact ⟨row, h.storeInv.lanes.readLane hrow, rfl⟩
  · rintro ⟨row, hrow, rfl⟩
    obtain ⟨hmem, rfl⟩ := readLane_eq_some hrow
    exact ⟨row, hmem, rfl⟩

/-! ### Runs -/

/-- What an operation appends passes the validation on decoding. -/
def DurableOp : StorageOp → Prop
  | .appendEntry entry _ _ => durableEntry entry.data = true
  | .appendRecord record _ => durableRecord record.data = true
  | _ => True

/-- The start of an operation has an id that is not the empty string. -/
def NamedOp : StorageOp → Prop
  | .appendRecord record _ => record.data.type = .operationStarted → record.id ≠ ""
  | _ => True

theorem memoryRun_appends (h : s.RepInv) (ops : List StorageOp) :
    (∀ e ∈ (memoryRun s ops).2.entries, e ∈ s.entries ∨ ∃ lane now, .appendEntry e.toProvisionedEntry lane now ∈ ops) ∧
    ∀ r ∈ (memoryRun s ops).2.records, r ∈ s.records ∨ ∃ now, .appendRecord r.toNewRecord now ∈ ops := by
  induction ops generalizing s with
  | nil => exact ⟨fun e he => Or.inl he, fun r hr => Or.inl hr⟩
  | cons op ops ih =>
    obtain ⟨hents, hrecs⟩ := ih (Memory.repInv_runOp h op)
    have hstep : (∀ e ∈ ((Memory.runOp op).run s).2.entries, e ∈ s.entries ∨
        ∃ lane now, op = .appendEntry e.toProvisionedEntry lane now) ∧
        ∀ r ∈ ((Memory.runOp op).run s).2.records, r ∈ s.records ∨ ∃ now, op = .appendRecord r.toNewRecord now := by
      rw [Memory.runOp_eq h]
      cases Memory.checkOp s op with
      | some error => exact ⟨fun e he => Or.inl he, fun r hr => Or.inl hr⟩
      | none =>
        cases op with
        | appendEntry entry lane now =>
          refine ⟨fun e he => ?_, fun r hr => Or.inl hr⟩
          rcases mem_append.mp he with he | he
          · exact Or.inl he
          · exact Or.inr ⟨lane, now, by rw [mem_singleton.mp he]⟩
        | appendRecord record now =>
          refine ⟨fun e he => Or.inl he, fun r hr => ?_⟩
          rcases mem_append.mp hr with hr | hr
          · exact Or.inl hr
          · exact Or.inr ⟨now, by rw [mem_singleton.mp hr]⟩
        | createLane | moveLane | setName | setLabel =>
          exact ⟨fun e he => Or.inl he, fun r hr => Or.inl hr⟩
    refine ⟨fun e he => ?_, fun r hr => ?_⟩
    · rcases hents e he with he | ⟨lane, now, hmem⟩
      · rcases hstep.1 e he with he | ⟨lane, now, rfl⟩
        · exact Or.inl he
        · exact Or.inr ⟨lane, now, by simp⟩
      · exact Or.inr ⟨lane, now, by simp [hmem]⟩
    · rcases hrecs r hr with hr | ⟨now, hmem⟩
      · rcases hstep.2 r hr with hr | ⟨now, rfl⟩
        · exact Or.inl hr
        · exact Or.inr ⟨now, by simp⟩
      · exact Or.inr ⟨now, by simp [hmem]⟩

theorem durable_memoryRun {ops : List StorageOp} (hops : ∀ op ∈ ops, DurableOp op) : Durable (memoryRun {} ops).2 := by
  obtain ⟨hents, hrecs⟩ := memoryRun_appends SessionState.repInv_empty ops
  refine ⟨fun e he => ?_, fun r hr => ?_⟩
  · rcases hents e he with he | ⟨lane, now, hmem⟩
    · simp at he
    · exact hops _ hmem
  · rcases hrecs r hr with hr | ⟨now, hmem⟩
    · simp at hr
    · exact hops _ hmem

theorem named_memoryRun {ops : List StorageOp} (hops : ∀ op ∈ ops, NamedOp op) :
    ∀ r ∈ (memoryRun {} ops).2.records, r.type = .operationStarted → r.id ≠ "" := by
  intro r hr
  rcases (memoryRun_appends SessionState.repInv_empty ops).2 r hr with hr | ⟨now, hmem⟩
  · simp at hr
  · exact hops _ hmem

/-- **The SQLite storage refines the in-memory one.** Any operations on a new
session succeed on both sides with the same result or fail on both with the
same code, and leave the same name, labels, lanes and statistics. When their
payloads pass the validation on decoding, the other queries agree as well, for
positive limits and cursors that are not negative. -/
theorem sqlite_agrees_with_memory (hinj : Function.Injective uuidv7) {uuids : ℕ}
    (hcreate : create uuids = .ok t) (ops : List StorageOp) :
    let s' := (memoryRun {} ops).2
    let t' := (sqliteRun uuidv7 t ops).2
    List.Forall₂ Agrees (memoryRun {} ops).1 (sqliteRun uuidv7 t ops).1 ∧
    getName t' = s'.getName ∧ (∀ id, getLabel t' id = s'.getLabel id) ∧
    (∃ lanes, getLanes t' = .ok lanes ∧ lanes.Perm s'.getLanes) ∧ t'.stats = s'.getStats ∧
    ((∀ op ∈ ops, DurableOp op) → (∀ id, getEntry t' id = .ok (s'.getEntry id)) ∧
      (∀ query : EntryQuery, ValidLimit query.limit → ValidCursor query.cursor →
        Agrees (s'.findEntries query) (findEntries t' query) ∧
        ∀ bounds start, Agrees (s'.findEntriesOnBranch query bounds start) (findEntriesOnBranch t' query bounds start)) ∧
      (∀ query : RecordQuery, ValidLimit query.limit → ValidCursor query.afterSeq →
        Agrees (s'.findRecords query) (findRecords t' query)) ∧
      (∀ options : LogOptions, ValidLimit options.limit → ValidCursor options.afterSeq →
        Agrees (s'.getLog options) (getLog t' options)) ∧ ((∀ op ∈ ops, NamedOp op) → ∀ lane limit, ValidLimit limit →
        Agrees (s'.findOpenOperations lane limit) (findOpenOperations t' lane))) := by
  have href : Refines uuidv7 {} t := refines_create hcreate
  obtain ⟨hagree, h⟩ := href.run hinj ops
  refine ⟨hagree, getName_agrees h, getLabel_agrees h, getLanes_agrees h, h.stats, fun hops => ?_⟩
  have hd := durable_memoryRun hops
  refine ⟨getEntry_agrees h hd, fun query hl hc => ⟨?_, fun bounds start => ?_⟩,
    fun query hl hc => ?_, fun options hl hc => ?_, fun hnam lane limit hl => ?_⟩
  · rw [SessionState.findEntries_eq _ hl hc, findEntries_agrees h hd hl]
    rfl
  · cases hpre : (memoryRun {} ops).2.entriesById.get? start with
    | none =>
      rw [SessionState.findEntriesOnBranch_missing _ hl hc bounds hpre, findEntriesOnBranch_notFound h query bounds hpre]
      rfl
    | some e =>
      obtain ⟨he, rfl⟩ := h.repInv.ids.get?_eq_some.mp hpre
      obtain ⟨path, hpath⟩ := h.repInv.forest.exists_path he
      rw [SessionState.findEntriesOnBranch_eq h.repInv hl hc bounds hpath,
        findEntriesOnBranch_agrees h hd hl bounds hpath]
      rfl
  · rw [SessionState.findRecords_eq _ hl hc, findRecords_agrees h hd hl]
    rfl
  · rw [SessionState.getLog_eq _ hl hc, getLog_agrees h hd hl]
    rfl
  · rw [SessionState.findOpenOperations_eq, h.repInv.open_.values,
      SessionState.assertValidLimit_ok hl, findOpenOperations_agrees h hd (named_memoryRun hnam)]
    exact takeLimit_open h hl lane

/-- An entry, a sibling of it and a label, with some queries over them. -/
theorem sqlite_agrees_with_memory_siblings :
    let uuidv7 := fun n : ℕ => String.ofList (List.replicate n 'a')
    let ops : List StorageOp := [.appendEntry ⟨"a", .custom "note" none⟩ "main" 0,
      .appendEntry ⟨"b", .custom "note" none⟩ "main" 1, .moveLane "main" (some "a"),
      .appendEntry ⟨"c", .custom "note" none⟩ "main" 2, .setLabel "c" (some "tip"),
      .appendRecord ⟨"r", "main", .operationStarted (some "c") (.run [] [] none none)⟩ 3]
    ∃ t, create 0 = .ok t ∧ Agrees ((memoryRun {} ops).2.findEntriesOnBranch { limit := some 1 } {} "c")
        (findEntriesOnBranch (sqliteRun uuidv7 t ops).2 { limit := some 1 } {} "c") ∧
      Agrees ((memoryRun {} ops).2.findOpenOperations "main" none)
        (findOpenOperations (sqliteRun uuidv7 t ops).2 "main") := by
  intro uuidv7 ops
  have hinj : Function.Injective uuidv7 := replicate_injective
  obtain ⟨-, -, -, -, -, hrest⟩ := sqlite_agrees_with_memory hinj
    (rfl : create 0 = .ok { lanes := [⟨"main", none, none⟩] }) ops
  obtain ⟨-, hents, -, -, hopen⟩ := hrest (by simp [ops, DurableOp]; decide)
  refine ⟨_, rfl, (hents { limit := some 1 } ?_ ?_).2 {} "c", hopen ?_ "main" none ?_⟩
  · simp [ValidLimit]
  · simp [ValidCursor]
  · simp [ops, NamedOp]
  · simp [ValidLimit]

/-- An attempt that does not count from one. -/
def attemptZero : List StorageOp := [.appendRecord ⟨"r", "main", .stepAttempt "run" .assistant 0 "e"⟩ 0]

/-- An operation whose id is the empty string. -/
def unnamedOperation : List StorageOp := [.appendRecord ⟨"", "main", .operationStarted none (.run [] [] none none)⟩ 0]

/-- Where the two differ: a limit that is not positive, a payload that fails
the validation on decoding, and an operation whose id is the empty string. -/
theorem sqlite_differs_from_memory :
    let uuidv7 := fun n : ℕ => String.ofList (List.replicate n 'a')
    ∃ t, create 0 = .ok t ∧ ¬ Agrees (({} : SessionState).findRecords { limit := some 0 })
        (findRecords t { limit := some 0 }) ∧ ¬ Agrees ((memoryRun {} attemptZero).2.findRecords {})
        (findRecords (sqliteRun uuidv7 t attemptZero).2 {}) ∧
      ¬ Agrees ((memoryRun {} unnamedOperation).2.findOpenOperations "main" none)
        (findOpenOperations (sqliteRun uuidv7 t unnamedOperation).2 "main") := by
  intro uuidv7
  refine ⟨{ lanes := [⟨"main", none, none⟩] }, rfl, ?_, ?_, ?_⟩
  · have hmem : ({} : SessionState).findRecords { limit := some 0 } =
      .error ⟨.invalidQuery, "limit must be a positive integer"⟩ := rfl
    have hsql : findRecords { lanes := [⟨"main", none, none⟩] } { limit := some 0 } = .ok [] := by
      simp [findRecords, readRecordRows, orderBy, limitRows]
      rfl
    rw [hmem, hsql]
    exact not_false
  · have hmem : ∃ r, (memoryRun {} attemptZero).2.findRecords {} = .ok r := ⟨_, rfl⟩
    obtain ⟨r, hr⟩ := hmem
    have hrows : (sqliteRun uuidv7 { lanes := [⟨"main", none, none⟩] } attemptZero).2.records =
      [⟨1, "r", "main", some "run", .stepAttempt, none, 0, ⟨"r", "main", .stepAttempt "run" .assistant 0 "e"⟩⟩] := rfl
    rw [hr, findRecords, readRecordRows, hrows]
    simp [orderBy, limitRows, decodeRecord, durableRecord, durableInteger]
    exact not_false
  · have hmem : (memoryRun {} unnamedOperation).2.findOpenOperations "main" none =
      .ok [⟨"", 1, "main", 0, none, .run [] [] none none⟩] := rfl
    have hsql : findOpenOperations
      (sqliteRun uuidv7 { lanes := [⟨"main", none, none⟩] } unnamedOperation).2 "main" = .ok [] := rfl
    rw [hmem, hsql]
    exact cons_ne_nil _ _

end EasyPi.Sqlite
