/-
# The branch cache

`branch_tips` and `branch_entries` are derived from the parent links in
`entries`. The invariant `CacheInv`: the tips are the entries without
children, each with a branch of its own, and the rows of a branch are the path
from the root to its tip. It is kept by every append, wherever the lanes point
to, established by both kinds of fork, and what `rebuildBranchCache` computes
from scratch.
-/
import EasyPi.Lib.Forest
import EasyPi.Lib.Sorted
import EasyPi.Sqlite.Repo

namespace EasyPi.Sqlite

open List Session

section Run

variable {α β : Type} {t t' : Tables}

theorem insertEntryRow_ok {row : EntryRow} (h : ∀ r ∈ t.entries, r.id ≠ row.id ∧ r.seq ≠ row.seq) :
    (insertEntryRow row).run t = .ok ((), { t with entries := t.entries ++ [row] }) := by
  have : (t.entries.any fun r => r.id = row.id ∨ r.seq = row.seq) = false := by
    simpa [not_or] using h
  simp only [insertEntryRow, run_get_bind, this]
  rfl

theorem insertBranchEntry_ok {row : BranchEntryRow}
    (h : ∀ r ∈ t.branchEntries, r.branchId = row.branchId → r.entryId ≠ row.entryId) :
    (insertBranchEntry row).run t = .ok ((), { t with branchEntries := t.branchEntries ++ [row] }) := by
  have : (t.branchEntries.any fun r => r.branchId = row.branchId ∧ r.entryId = row.entryId) = false := by
    simpa using h
  simp only [insertBranchEntry, run_get_bind, this]
  rfl

theorem insertBranchTip_ok {tipId branchId : String} (h : ∀ r ∈ t.branchTips, r.tipId ≠ tipId ∧ r.branchId ≠ branchId) :
    (insertBranchTip tipId branchId).run t = .ok ((), { t with branchTips := t.branchTips ++ [⟨branchId, tipId⟩] }) := by
  have : (t.branchTips.any fun r => r.tipId = tipId ∨ r.branchId = branchId) = false := by
    simpa [not_or] using h
  simp only [insertBranchTip, run_get_bind, this]
  rfl

end Run

/-! ### The invariant -/

abbrev IsPath (entries : List EntryRow) : EntryRow → List EntryRow → Prop :=
  Forest.RootPath EntryRow.id EntryRow.parentId entries

/-- No entry has `e` as its parent. -/
abbrev IsTip (entries : List EntryRow) : EntryRow → Prop := Forest.Childless EntryRow.id EntryRow.parentId entries

/-- The row of `branch_entries` for an entry. -/
def BranchEntryRow.of (branchId : String) (e : EntryRow) : BranchEntryRow :=
  ⟨branchId, e.id, e.seq, e.type, e.payload.customType?⟩

attribute [local simp] any_eq_false BranchEntryRow.of

/-- The entries are a forest, numbered below the next sequence number. -/
structure EntriesInv (t : Tables) : Prop where
  wf : Forest.WF EntryRow.id EntryRow.parentId EntryRow.seq t.entries
  seq_lt : ∀ e ∈ t.entries, e.seq < t.nextSeq
  type : ∀ e ∈ t.entries, e.type = e.payload.type

/-- Lanes are listed once and point at entries. -/
structure LanesInv (t : Tables) : Prop where
  nodup : (t.lanes.map LaneRow.lane).Nodup
  leaf : ∀ row ∈ t.lanes, ∀ id, row.leafId = some id → ∃ e ∈ t.entries, e.id = id

/-- Every tip has a branch of its own, whose rows are the path to the tip. -/
structure BranchesInv (uuidv7 : ℕ → String) (t : Tables) : Prop where
  tips_nodup : (t.branchTips.map BranchTipRow.tipId).Nodup
  branches_nodup : (t.branchTips.map BranchTipRow.branchId).Nodup
  rows : ∀ tip ∈ t.branchTips, ∃ e path, IsPath t.entries e path ∧ e.id = tip.tipId ∧
    t.branchEntries.filter (fun r => r.branchId = tip.branchId) = path.map (.of tip.branchId)
  owner : ∀ r ∈ t.branchEntries, ∃ tip ∈ t.branchTips, tip.branchId = r.branchId
  made : ∀ tip ∈ t.branchTips, ∃ i < t.uuids, tip.branchId = uuidv7 i

/-- The tips are the entries without children. -/
def TipsInv (t : Tables) : Prop :=
  ∀ id, id ∈ t.branchTips.map BranchTipRow.tipId ↔ ∃ e ∈ t.entries, e.id = id ∧ IsTip t.entries e

structure CacheInv (uuidv7 : ℕ → String) (t : Tables) : Prop where
  entries : EntriesInv t
  branches : BranchesInv uuidv7 t
  tip_iff : TipsInv t

section Branches

variable {uuidv7 : ℕ → String} {t : Tables}

theorem BranchesInv.fresh (h : BranchesInv uuidv7 t) (hinj : Function.Injective uuidv7) :
    ∀ tip ∈ t.branchTips, tip.branchId ≠ uuidv7 t.uuids := by
  intro tip htip heq
  obtain ⟨i, hi, hid⟩ := h.made tip htip
  exact absurd (hinj (hid.symm.trans heq)) (by omega)

theorem BranchesInv.fresh_rows (h : BranchesInv uuidv7 t) (hinj : Function.Injective uuidv7) :
    ∀ r ∈ t.branchEntries, r.branchId ≠ uuidv7 t.uuids := by
  intro r hr heq
  obtain ⟨tip, htip, hid⟩ := h.owner r hr
  exact h.fresh hinj tip htip (hid.trans heq)

theorem BranchesInv.addEntry (h : BranchesInv uuidv7 t) (row : EntryRow) :
    BranchesInv uuidv7 { t with entries := t.entries ++ [row] } where
  tips_nodup := h.tips_nodup
  branches_nodup := h.branches_nodup
  rows tip htip := by
    obtain ⟨e, path, hpath, hid, hrows⟩ := h.rows tip htip
    exact ⟨e, path, hpath.mono fun b hb => mem_append_left _ hb, hid, hrows⟩
  owner := h.owner
  made := h.made

/-- The tables after a branch for `path` is added under the next id. -/
def addBranch (uuidv7 : ℕ → String) (t : Tables) (tipId : String) (path : List EntryRow) : Tables :=
  { t with
    branchEntries := t.branchEntries ++ path.map (.of (uuidv7 t.uuids))
    branchTips := t.branchTips ++ [⟨uuidv7 t.uuids, tipId⟩]
    uuids := t.uuids + 1 }

variable {e : EntryRow}

theorem BranchesInv.addBranch (h : BranchesInv uuidv7 t) (hinj : Function.Injective uuidv7)
    {path : List EntryRow} (hpath : IsPath t.entries e path)
    (hnew : e.id ∉ t.branchTips.map BranchTipRow.tipId) : BranchesInv uuidv7 (addBranch uuidv7 t e.id path) := by
  have hfr := h.fresh hinj
  have hfre := h.fresh_rows hinj
  refine ⟨?_, ?_, fun tip htip => ?_, fun r hr => ?_, fun tip htip => ?_⟩
  · simp only [Sqlite.addBranch, map_append, map_cons, map_nil]
    refine nodup_append.mpr ⟨h.tips_nodup, by simp, fun a ha b hb => ?_⟩
    rw [mem_singleton.mp hb]
    rintro rfl
    exact hnew ha
  · simp only [Sqlite.addBranch, map_append, map_cons, map_nil]
    refine nodup_append.mpr ⟨h.branches_nodup, by simp, fun a ha b hb => ?_⟩
    obtain ⟨tip, htip, rfl⟩ := mem_map.mp ha
    rw [mem_singleton.mp hb]
    exact hfr tip htip
  · simp only [Sqlite.addBranch, filter_append]
    rcases mem_append.mp htip with htip | htip
    · obtain ⟨e', path', hpath', hid, hrows⟩ := h.rows tip htip
      refine ⟨e', path', hpath', hid, ?_⟩
      rw [hrows, filter_eq_nil_iff.mpr, append_nil]
      intro r hr
      obtain ⟨e'', -, rfl⟩ := mem_map.mp hr
      simp [Ne.symm (hfr tip htip)]
    · rw [mem_singleton.mp htip]
      refine ⟨e, path, hpath, rfl, ?_⟩
      rw [filter_eq_nil_iff.mpr fun r hr => by simpa using hfre r hr, nil_append, filter_eq_self.mpr]
      intro r hr
      obtain ⟨e'', -, rfl⟩ := mem_map.mp hr
      simp
  · simp only [Sqlite.addBranch, mem_append] at hr ⊢
    rcases hr with hr | hr
    · obtain ⟨tip, htip, hid⟩ := h.owner r hr
      exact ⟨tip, Or.inl htip, hid⟩
    · obtain ⟨e'', -, rfl⟩ := mem_map.mp hr
      exact ⟨_, Or.inr (mem_singleton.mpr rfl), rfl⟩
  · simp only [Sqlite.addBranch, mem_append, mem_singleton] at htip ⊢
    rcases htip with htip | rfl
    · obtain ⟨i, hi, hid⟩ := h.made tip htip
      exact ⟨i, by omega, hid⟩
    · exact ⟨t.uuids, by omega, rfl⟩

/-- The tables after the branch with tip `parentId` is extended by an entry. -/
def extendTip (t : Tables) (branchId parentId : String) (row : EntryRow) : Tables :=
  { t with
    branchEntries := t.branchEntries ++ [.of branchId row]
    branchTips := t.branchTips.map fun r =>
      if r.branchId = branchId ∧ r.tipId = parentId then { r with tipId := row.id } else r }

theorem BranchesInv.eq_of_tipId (h : BranchesInv uuidv7 t) {r tip : BranchTipRow}
    (hr : r ∈ t.branchTips) (htip : tip ∈ t.branchTips) (hid : r.tipId = tip.tipId) : r = tip :=
  inj_on_of_nodup_map h.tips_nodup hr htip hid

theorem BranchesInv.eq_of_branchId (h : BranchesInv uuidv7 t) {r tip : BranchTipRow}
    (hr : r ∈ t.branchTips) (htip : tip ∈ t.branchTips) (hid : r.branchId = tip.branchId) : r = tip :=
  inj_on_of_nodup_map h.branches_nodup hr htip hid

variable {tip : BranchTipRow}

theorem BranchesInv.extendTip (h : BranchesInv uuidv7 t)
    (htip : tip ∈ t.branchTips) {row : EntryRow} (hrow : row ∈ t.entries)
    (hpar : row.parentId = some tip.tipId)
    (hnew : row.id ∉ t.branchTips.map BranchTipRow.tipId) :
    BranchesInv uuidv7 (extendTip t tip.branchId tip.tipId row) := by
  -- the update changes the row of `tip` and no other
  have hmat : ∀ r ∈ t.branchTips, (r.branchId = tip.branchId ∧ r.tipId = tip.tipId) ↔ r = tip :=
    fun r hr => ⟨fun hm => h.eq_of_tipId hr htip hm.2, fun he => he ▸ ⟨rfl, rfl⟩⟩
  have hbra : ∀ r ∈ t.branchTips, (if r.branchId = tip.branchId ∧ r.tipId = tip.tipId then
      { r with tipId := row.id } else r).branchId = r.branchId := by
    intro r _
    split_ifs <;> rfl
  refine ⟨?_, ?_, fun r hr => ?_, fun r hr => ?_, fun r hr => ?_⟩
  · simp only [Sqlite.extendTip, map_map]
    refine List.Nodup.map_on (fun r hr r' hr' heq => ?_) h.tips_nodup.of_map
    simp only [Function.comp_apply] at heq
    have hnot : ∀ r ∈ t.branchTips, r.tipId ≠ row.id := fun r hr he =>
      hnew (he ▸ mem_map_of_mem hr)
    split_ifs at heq with h1 h2 h2
    · rw [(hmat r hr).mp h1, (hmat r' hr').mp h2]
    · exact absurd heq.symm (hnot r' hr')
    · exact absurd heq (hnot r hr)
    · exact h.eq_of_tipId hr hr' heq
  · simp only [Sqlite.extendTip, map_map, Function.comp_def]
    rw [map_congr_left (g := BranchTipRow.branchId) hbra]
    exact h.branches_nodup
  · obtain ⟨r₀, hr₀, rfl⟩ := mem_map.mp hr
    obtain ⟨e, path, hpath, hid, hrows⟩ := h.rows r₀ hr₀
    simp only [Sqlite.extendTip, filter_append]
    by_cases heq : r₀ = tip
    · subst heq
      refine ⟨row, path ++ [row], .child hpath hrow (by rw [hid, hpar]), by simp, ?_⟩
      simp [hrows]
    · refine ⟨e, path, hpath, by simp [hmat r₀ hr₀, heq, hid], ?_⟩
      have hne : r₀.branchId ≠ tip.branchId := fun hb => heq (h.eq_of_branchId hr₀ htip hb)
      simp [hbra r₀ hr₀, hrows, Ne.symm hne]
  · simp only [Sqlite.extendTip, mem_append, mem_singleton] at hr ⊢
    have hown : ∀ tip' ∈ t.branchTips, ∃ r ∈ t.branchTips.map (fun r =>
        if r.branchId = tip.branchId ∧ r.tipId = tip.tipId then { r with tipId := row.id } else r),
        r.branchId = tip'.branchId := fun tip' htip' =>
      ⟨_, mem_map_of_mem htip', hbra tip' htip'⟩
    rcases hr with hr | rfl
    · obtain ⟨tip', htip', hid⟩ := h.owner r hr
      exact hid ▸ hown tip' htip'
    · exact hown tip htip
  · obtain ⟨r₀, hr₀, rfl⟩ := mem_map.mp hr
    rw [hbra r₀ hr₀]
    exact h.made r₀ hr₀

end Branches

/-! ### Appends -/

section Append

variable {uuidv7 : ℕ → String} {t : Tables} {row : EntryRow}

/-- A new entry with the next number, under an entry that is there. -/
structure NewEntry (t : Tables) (row : EntryRow) : Prop where
  id : ∀ e ∈ t.entries, e.id ≠ row.id
  seq : row.seq = t.nextSeq
  parent : ∀ p, row.parentId = some p → ∃ e ∈ t.entries, e.id = p
  type : row.type = row.payload.type

theorem NewEntry.parent_ne (h : NewEntry t row) : row.parentId ≠ some row.id := fun hp => by
  obtain ⟨e, he, hid⟩ := h.parent _ hp
  exact h.id e he hid

theorem NewEntry.not_parent (h : NewEntry t row) (hE : EntriesInv t) :
    ∀ e ∈ t.entries, e.parentId ≠ some row.id := fun e he hp => by
  obtain ⟨p, hpm, hid, -⟩ := hE.wf.parent_mem e he _ hp
  exact h.id p hpm hid

theorem EntriesInv.append (hE : EntriesInv t) (h : NewEntry t row) :
    EntriesInv { t with entries := t.entries ++ [row], nextSeq := row.seq + 1 } where
  wf := hE.wf.append h.id (fun e he => h.seq ▸ hE.seq_lt e he) h.parent
  seq_lt e he := by
    rcases mem_append.mp he with he | he
    · have := hE.seq_lt e he
      have := h.seq
      simp only
      omega
    · rw [mem_singleton.mp he]
      exact Nat.lt_succ_self _
  type e he := by
    rcases mem_append.mp he with he | he
    · exact hE.type e he
    · rw [mem_singleton.mp he, h.type]

theorem isTip_append_iff (hE : EntriesInv t) (h : NewEntry t row) (id : String) :
    (∃ e ∈ t.entries ++ [row], e.id = id ∧ IsTip (t.entries ++ [row]) e) ↔
      id = row.id ∨ (∃ e ∈ t.entries, e.id = id ∧ IsTip t.entries e) ∧ row.parentId ≠ some id := by
  constructor
  · rintro ⟨e, he, rfl, htip⟩
    rcases mem_append.mp he with he | he
    · exact Or.inr ⟨⟨e, he, rfl, fun c hc => htip c (mem_append_left _ hc)⟩, htip row (by simp)⟩
    · exact Or.inl (by rw [mem_singleton.mp he])
  · rintro (rfl | ⟨⟨e, he, rfl, htip⟩, hne⟩)
    · refine ⟨row, by simp, rfl, fun c hc => ?_⟩
      rcases mem_append.mp hc with hc | hc
      · exact h.not_parent hE c hc
      · rw [mem_singleton.mp hc]
        exact h.parent_ne
    · refine ⟨e, mem_append_left _ he, rfl, fun c hc => ?_⟩
      rcases mem_append.mp hc with hc | hc
      · exact htip c hc
      · rwa [mem_singleton.mp hc]

theorem CacheInv.exists_row (h : CacheInv uuidv7 t) (he : e ∈ t.entries) : ∃ r ∈ t.branchEntries, r.entryId = e.id := by
  obtain ⟨tip, path, htip, hpath, hmem⟩ := h.entries.wf.exists_tip he
  obtain ⟨b, hb, hid⟩ := mem_map.mp ((h.tip_iff tip.id).mpr ⟨tip, hpath.mem, rfl, htip⟩)
  obtain ⟨e', path', hpath', hid', hrows⟩ := h.branches.rows b hb
  have heq := h.entries.wf.eq_of_id hpath'.mem hpath.mem (hid'.trans hid)
  rw [heq] at hpath'
  rw [hpath'.unique h.entries.wf hpath] at hrows
  have : BranchEntryRow.of b.branchId e ∈ t.branchEntries.filter _ := hrows ▸ mem_map_of_mem hmem
  exact ⟨_, (mem_filter.mp this).1, rfl⟩

theorem CacheInv.readCachedBranch (h : CacheInv uuidv7 t) {path : List EntryRow} (hpath : IsPath t.entries e path) :
    ∃ cached, Sqlite.readCachedBranch t e.id = some cached ∧ cached.leafSeq = e.seq ∧
      t.branchEntries.filter (fun r => r.branchId = cached.branchId ∧ r.entrySeq ≤ cached.leafSeq) =
        path.map (.of cached.branchId) := by
  obtain ⟨r₀, hr₀, hid₀⟩ := h.exists_row hpath.mem
  unfold Sqlite.readCachedBranch
  -- some row is found; which one does not matter
  cases hhead : (orderByText BranchEntryRow.branchId
      (t.branchEntries.filter fun r => r.entryId = e.id)).head? with
  | none =>
    rw [List.head?_eq_none_iff, orderByText] at hhead
    have : r₀ ∈ ([] : List BranchEntryRow) := by
      rw [← hhead, mem_mergeSort, mem_filter]
      exact ⟨hr₀, by simpa using hid₀⟩
    simp at this
  | some r =>
    have hr := mem_of_head? hhead
    rw [orderByText, mem_mergeSort, mem_filter, decide_eq_true_iff] at hr
    obtain ⟨tip, htip, hb⟩ := h.branches.owner r hr.1
    obtain ⟨e', path', hpath', -, hrows⟩ := h.branches.rows tip htip
    have hmem : r ∈ path'.map (.of tip.branchId) := by
      rw [← hrows, mem_filter]
      exact ⟨hr.1, by simpa using hb.symm⟩
    obtain ⟨e'', he'', rfl⟩ := mem_map.mp hmem
    have heq := h.entries.wf.eq_of_id (hpath'.subset e'' he'') hpath.mem hr.2
    subst heq
    refine ⟨_, rfl, rfl, ?_⟩
    have hanc := (hpath'.ancestor h.entries.wf he'').unique h.entries.wf hpath
    rw [← hanc]
    have hspl : t.branchEntries.filter (fun r =>
        r.branchId = tip.branchId ∧ r.entrySeq ≤ e''.seq) =
        (t.branchEntries.filter fun r => r.branchId = tip.branchId).filter
          fun r => r.entrySeq ≤ e''.seq := by
      rw [filter_filter]
      exact filter_congr fun r _ => by simp [Bool.and_comm]
    refine hspl.trans ?_
    rw [hrows, filter_map]
    rfl

theorem copyBranchEntriesThroughSeq_ok {target source : String} {throughSeq : ℕ}
    {path : List EntryRow} (hfr : ∀ r ∈ t.branchEntries, r.branchId ≠ target)
    (hrows : t.branchEntries.filter (fun r => r.branchId = source ∧ r.entrySeq ≤ throughSeq) = path.map (.of source)) :
    (copyBranchEntriesThroughSeq target source throughSeq).run t =
      .ok ((), { t with branchEntries := t.branchEntries ++ path.map (.of target) }) := by
  simp only [copyBranchEntriesThroughSeq, run_get_bind, hrows, map_map]
  have hmap : (fun r : BranchEntryRow => { r with branchId := target }) ∘ BranchEntryRow.of source =
      BranchEntryRow.of target := rfl
  rw [hmap, if_neg]
  · rfl
  · simp only [any_eq_true, mem_map, not_exists, not_and, decide_eq_true_eq]
    rintro row ⟨e, -, rfl⟩ r hr hb
    exact absurd hb (hfr r hr)

theorem extendBranch_ok (h : BranchesInv uuidv7 t) (htip : tip ∈ t.branchTips)
    (hrow : ∀ r ∈ t.branchEntries, r.entryId ≠ row.id)
    (hnew : row.id ∉ t.branchTips.map BranchTipRow.tipId) :
    (extendBranch tip.branchId tip.tipId row row.payload.customType?).run t =
      .ok ((), extendTip t tip.branchId tip.tipId row) := by
  have hone : t.branchTips.filter (fun r => r.branchId = tip.branchId ∧ r.tipId = tip.tipId) = [tip] := by
    rw [← filter_key_eq h.tips_nodup htip]
    refine filter_congr fun r hr => decide_eq_decide.mpr ⟨And.right, fun hid => ?_⟩
    exact h.eq_of_tipId hr htip hid ▸ ⟨rfl, rfl⟩
  have hnone : (t.branchTips.any fun r => r.tipId = row.id) = false := by
    simpa using hnew
  rw [extendBranch, run_bind_ok (insertBranchEntry_ok fun r hr _ => hrow r hr)]
  simp only [updateBranchTip, bind_assoc, run_get_bind, hnone, hone]
  simp only [Bool.false_eq_true, and_false, if_false, pure_bind, bind_assoc, run_modify_bind,
    length_singleton, decide_true, Bool.not_true, decide_eq_true_eq]
  rfl

theorem BranchesInv.mem_entries (h : BranchesInv uuidv7 t) {r : BranchEntryRow}
    (hr : r ∈ t.branchEntries) : ∃ e ∈ t.entries, r = .of r.branchId e := by
  obtain ⟨tip, htip, hb⟩ := h.owner r hr
  obtain ⟨e', path, hpath, -, hrows⟩ := h.rows tip htip
  have hmem : r ∈ path.map (.of tip.branchId) := by
    rw [← hrows, mem_filter]
    exact ⟨hr, by simpa using hb.symm⟩
  obtain ⟨e, he, rfl⟩ := mem_map.mp hmem
  exact ⟨e, hpath.subset e he, rfl⟩

theorem writeBranch_ok (h : BranchesInv uuidv7 t) (hinj : Function.Injective uuidv7)
    (hwf : Forest.WF EntryRow.id EntryRow.parentId EntryRow.seq t.entries) {path : List EntryRow}
    (hpath : IsPath t.entries row (path ++ [row]))
    (hnotT : row.id ∉ t.branchTips.map BranchTipRow.tipId)
    (hrowN : ∀ r ∈ t.branchEntries, r.entryId ≠ row.id) :
    (do insertBranchEntry (.of (uuidv7 t.uuids) row)
        insertBranchTip row.id (uuidv7 t.uuids) : SqlM Unit).run
      { t with
        branchEntries := t.branchEntries ++ path.map (.of (uuidv7 t.uuids))
        uuids := t.uuids + 1 } = .ok ((), addBranch uuidv7 t row.id (path ++ [row])) := by
  rw [run_bind_ok (insertBranchEntry_ok fun r hr hbr hid => ?_), insertBranchTip_ok]
  · simp [addBranch]
  · exact fun r hr => ⟨fun hid => hnotT (hid ▸ mem_map_of_mem hr), h.fresh hinj r hr⟩
  · rcases mem_append.mp hr with hr | hr
    · exact hrowN r hr hid
    · obtain ⟨e, he, rfl⟩ := mem_map.mp hr
      have hlt := (pairwise_append.mp (hpath.sorted hwf)).2.2 e he row (by simp)
      have heq := hwf.eq_of_id (hpath.subset e (by simp [he])) hpath.mem hid
      exact absurd hlt (heq ▸ lt_irrefl _)

theorem tipsInv_addBranch (h : CacheInv uuidv7 t) (hnew : NewEntry t row)
    (hpar : ∀ p, row.parentId = some p → p ∉ t.branchTips.map BranchTipRow.tipId)
    (path : List EntryRow) : TipsInv (addBranch uuidv7 { t with entries := t.entries ++ [row] } row.id path) := by
  intro id
  refine Iff.trans ?_ (isTip_append_iff h.entries hnew id).symm
  rw [← h.tip_iff]
  simp only [addBranch, map_append, map_cons, map_nil, mem_append, mem_singleton]
  constructor
  · rintro (hm | rfl)
    · exact Or.inr ⟨hm, fun hp => hpar id hp hm⟩
    · exact Or.inl rfl
  · rintro (rfl | ⟨hm, -⟩)
    · exact Or.inr rfl
    · exact Or.inl hm

theorem tipsInv_extendTip (h : CacheInv uuidv7 t) (hnew : NewEntry t row)
    (htip : tip ∈ t.branchTips) (hp : row.parentId = some tip.tipId) :
    TipsInv (extendTip { t with entries := t.entries ++ [row] } tip.branchId tip.tipId row) := by
  intro id
  refine Iff.trans ?_ (isTip_append_iff h.entries hnew id).symm
  rw [← h.tip_iff, hp]
  simp only [extendTip, map_map, mem_map, Function.comp_apply]
  constructor
  · rintro ⟨r, hr, rfl⟩
    split_ifs with hm
    · exact Or.inl rfl
    · refine Or.inr ⟨⟨r, hr, rfl⟩, fun he => hm ?_⟩
      exact h.branches.eq_of_tipId hr htip (Option.some.inj he).symm ▸ ⟨rfl, rfl⟩
  · rintro (rfl | ⟨⟨r, hr, rfl⟩, hne⟩)
    · exact ⟨tip, htip, by simp⟩
    · exact ⟨r, hr, by rw [if_neg fun hm => hne (by rw [hm.2])]⟩

/-- **An append keeps the cache in step with the entries**, and none of its errors is thrown. -/
theorem appendEntryToBranchCache_ok (hinj : Function.Injective uuidv7) (h : CacheInv uuidv7 t) (hnew : NewEntry t row) :
    let t₁ := { t with entries := t.entries ++ [row] }
    ∃ be bt u, let t₂ := { t₁ with branchEntries := be, branchTips := bt, uuids := u }
      (appendEntryToBranchCache uuidv7 row row.payload.customType?).run t₁ = .ok ((), t₂) ∧
      BranchesInv uuidv7 t₂ ∧ TipsInv t₂ := by
  intro t₁
  have hB : BranchesInv uuidv7 t₁ := h.branches.addEntry row
  have hwf := (h.entries.append hnew).wf
  have hrow : row ∈ t₁.entries := by simp [t₁]
  have hnotT : row.id ∉ t₁.branchTips.map BranchTipRow.tipId := fun hm => by
    obtain ⟨e, he, hid, -⟩ := (h.tip_iff _).mp hm
    exact hnew.id e he hid
  have hrowN : ∀ r ∈ t₁.branchEntries, r.entryId ≠ row.id := fun r hr hid => by
    obtain ⟨e, he, hre⟩ := h.branches.mem_entries hr
    rw [hre] at hid
    exact hnew.id e he hid
  unfold appendEntryToBranchCache
  cases hp : row.parentId with
  | none =>
    have hpath : IsPath t₁.entries row ([] ++ [row]) := .root hrow hp
    refine ⟨_, _, _, ?_, hB.addBranch hinj hpath hnotT, tipsInv_addBranch h hnew (by simp [hp]) _⟩
    simp only [newId, bind_assoc, run_get_bind, run_modify_bind, pure_bind]
    have hwri := writeBranch_ok hB hinj hwf hpath hnotT hrowN
    rw [map_nil, append_nil] at hwri
    exact hwri
  | some parentId =>
    obtain ⟨p, hpm, rfl⟩ := hnew.parent parentId hp
    simp only [run_get_bind]
    by_cases htip : p.id ∈ t.branchTips.map BranchTipRow.tipId
    · -- the parent is a tip: its branch is extended
      obtain ⟨tip, htipm, hid⟩ := mem_map.mp htip
      rw [← hid] at hp
      have hfind : readBranchTipBranchId t₁ p.id = some tip.branchId := by
        rw [readBranchTipBranchId, ← hid, find?_key_eq hB.tips_nodup htipm]
        rfl
      refine ⟨_, _, _, ?_, hB.extendTip htipm hrow hp hnotT, tipsInv_extendTip h hnew htipm hp⟩
      rw [hfind, ← hid]
      exact extendBranch_ok hB htipm hrowN hnotT
    · -- a branch through the parent is copied up to it
      have hnone : readBranchTipBranchId t₁ p.id = none := by
        rw [readBranchTipBranchId, Option.map_eq_none_iff, List.find?_eq_none]
        exact fun r hr hid => htip (mem_map.mpr ⟨r, hr, of_decide_eq_true hid⟩)
      obtain ⟨path, hpath⟩ := h.entries.wf.exists_path hpm
      obtain ⟨cached, hcac, -, hrows⟩ := h.readCachedBranch hpath
      have hpath₁ : IsPath t₁.entries row (path ++ [row]) := .child (hpath.mono fun e he => mem_append_left _ he) hrow hp
      refine ⟨_, _, _, ?_, hB.addBranch hinj hpath₁ hnotT, tipsInv_addBranch h hnew (fun q hq => ?_) _⟩
      swap
      · rw [hp] at hq
        exact Option.some.inj hq ▸ htip
      have hread : readCachedBranch t₁ p.id = some cached := hcac
      simp only [hnone, hread, newId, bind_assoc, run_get_bind, run_modify_bind, pure_bind]
      rw [run_bind_ok (copyBranchEntriesThroughSeq_ok (t := { t₁ with uuids := t₁.uuids + 1 })
        (hB.fresh_rows hinj) hrows)]
      exact writeBranch_ok hB hinj hwf hpath₁ hnotT hrowN

end Append

/-! ### Building a branch from the parent links -/

section Build

variable {uuidv7 : ℕ → String} {t : Tables}

theorem EntriesInv.readEntryRow (h : EntriesInv t) (he : e ∈ t.entries) : Sqlite.readEntryRow t e.id = some e :=
  find?_key_eq h.wf.nodup he

theorem readEntryRow_eq_some {id : String} (h : readEntryRow t id = some e) : e ∈ t.entries ∧ e.id = id :=
  ⟨mem_of_find?_eq_some h, by simpa using List.find?_some h⟩

theorem branchPath_ok (h : EntriesInv t) {path : List EntryRow}
    (hpath : IsPath t.entries e path) {fuel : ℕ} (hfuel : path.length ≤ fuel) {seen : List String}
    (hseen : ∀ id ∈ seen, ∃ e' ∈ t.entries, e'.id = id ∧ e.seq < e'.seq) (t' : Tables) :
    (branchPath t fuel seen (some e.id)).run t' = .ok (path.reverse, t') := by
  induction hpath generalizing fuel seen with
  | @root e he hp =>
    obtain ⟨fuel, rfl⟩ : ∃ n, fuel = n + 1 := ⟨fuel - 1, by simp at hfuel; omega⟩
    have hnot : e.id ∉ seen := fun hm => by
      obtain ⟨e', he', hid, hlt⟩ := hseen _ hm
      rw [h.wf.eq_of_id he' he hid] at hlt
      exact lt_irrefl _ hlt
    simp only [branchPath, if_neg hnot, h.readEntryRow he, hp]
    rfl
  | @child p e path hpre he hp ih =>
    obtain ⟨fuel, rfl⟩ : ∃ n, fuel = n + 1 := ⟨fuel - 1, by simp at hfuel; omega⟩
    have hnot : e.id ∉ seen := fun hm => by
      obtain ⟨e', he', hid, hlt⟩ := hseen _ hm
      rw [h.wf.eq_of_id he' he hid] at hlt
      exact lt_irrefl _ hlt
    obtain ⟨p', hp', hid, hlt⟩ := h.wf.parent_mem e he _ hp
    rw [h.wf.eq_of_id hp' hpre.mem hid] at hlt
    have hsho : path.length ≤ fuel := by
      simp only [length_append, length_singleton] at hfuel
      omega
    have hseen' : ∀ id ∈ e.id :: seen, ∃ e' ∈ t.entries, e'.id = id ∧ p.seq < e'.seq := by
      intro id hm
      rcases mem_cons.mp hm with rfl | hm
      · exact ⟨e, he, rfl, hlt⟩
      · obtain ⟨e', he', hid', hlt'⟩ := hseen id hm
        exact ⟨e', he', hid', hlt.trans hlt'⟩
    have hrest := ih hsho hseen'
    simp only [branchPath, if_neg hnot, h.readEntryRow he, hp]
    rw [run_bind_ok hrest, reverse_append]
    rfl

theorem customTypeFromPayload_ok (h : EntriesInv t) (he : e ∈ t.entries)
    (t' : Tables) : (customTypeFromPayload e).run t' = .ok (e.payload.customType?, t') := by
  have htype := h.type e he
  unfold customTypeFromPayload
  cases hd : e.payload <;> simp [htype, hd, EntryData.type, EntryData.customType?] <;> rfl

theorem insertBranchEntries_ok (h : EntriesInv t) {branchId : String} {path : List EntryRow}
    (hsub : ∀ e ∈ path, e ∈ t.entries) (hnd : (path.map EntryRow.id).Nodup) (t' : Tables)
    (hfr : ∀ r ∈ t'.branchEntries, r.branchId = branchId → ∀ e ∈ path, r.entryId ≠ e.id) :
    (path.forM fun row => do
      insertBranchEntry ⟨branchId, row.id, row.seq, row.type, ← customTypeFromPayload row⟩ :
        SqlM Unit).run t' = .ok ((), { t' with branchEntries := t'.branchEntries ++ path.map (.of branchId) }) := by
  induction path generalizing t' with
  | nil => simp; rfl
  | cons e path ih =>
    simp only [map_cons, nodup_cons] at hnd
    rw [forM_cons, bind_assoc, run_bind_ok (customTypeFromPayload_ok h (hsub e (by simp)) t'),
      run_bind_ok (insertBranchEntry_ok fun r hr hb => hfr r hr hb e (by simp)),
      ih (fun e' he' => hsub e' (by simp [he'])) hnd.2]
    · simp
    · intro r hr hb e' he'
      rcases mem_append.mp hr with hr | hr
      · exact hfr r hr hb e' (by simp [he'])
      · rw [mem_singleton.mp hr]
        intro hid
        exact hnd.1 (mem_map.mpr ⟨e', he', hid.symm⟩)

theorem path_length_le (h : EntriesInv t) {path : List EntryRow}
    (hpath : IsPath t.entries e path) : path.length ≤ t.entries.length := by
  have hnd : path.Nodup := (hpath.sorted h.wf).imp fun hlt heq => by
    rw [heq] at hlt
    exact lt_irrefl _ hlt
  exact (List.Nodup.subperm hnd hpath.subset).length_le

theorem buildCachedBranch_ok (hE : EntriesInv t) (hB : BranchesInv uuidv7 t)
    (hinj : Function.Injective uuidv7) {path : List EntryRow}
    (hpath : IsPath t.entries e path) (hnew : e.id ∉ t.branchTips.map BranchTipRow.tipId) :
    (buildCachedBranch uuidv7 e.id).run t = .ok ((), addBranch uuidv7 t e.id path) := by
  have hids : (path.map EntryRow.id).Nodup := by
    refine pairwise_map.mpr ((hpath.sorted hE.wf).imp_of_mem fun ha hb hlt hid => ?_)
    rw [hE.wf.eq_of_id (hpath.subset _ ha) (hpath.subset _ hb) hid] at hlt
    exact lt_irrefl _ hlt
  have hrun : (do
      let branchId ← newId uuidv7
      insertBranchEntriesForPath branchId e.id
      insertBranchTip e.id branchId : SqlM Unit).run t = .ok ((), addBranch uuidv7 t e.id path) := by
    simp only [newId, bind_assoc, run_get_bind, run_modify_bind, pure_bind]
    rw [insertBranchEntriesForPath]
    simp only [bind_assoc, run_get_bind]
    have hE' : EntriesInv { t with uuids := t.uuids + 1 } := ⟨hE.wf, hE.seq_lt, hE.type⟩
    rw [run_bind_ok (branchPath_ok hE' hpath
        ((path_length_le hE hpath).trans (Nat.le_succ _)) (by simp) _), reverse_reverse,
      run_bind_ok (insertBranchEntries_ok hE' hpath.subset hids { t with uuids := t.uuids + 1 }
        fun r hr hb => absurd hb (hB.fresh_rows hinj r hr)), insertBranchTip_ok]
    · rfl
    · exact fun r hr => ⟨fun hid => hnew (hid ▸ mem_map_of_mem hr), hB.fresh hinj r hr⟩
  change (tryCatchThe SqliteError (StateT.run _ t) _ : Except SqliteError (Unit × Tables)) = _
  rw [hrun]
  rfl

theorem buildCachedBranches_ok (hE : EntriesInv t) (hB : BranchesInv uuidv7 t)
    (hinj : Function.Injective uuidv7) {tips : List String}
    (hmem : ∀ id ∈ tips, ∃ e ∈ t.entries, e.id = id) (hnd : tips.Nodup)
    (hnew : ∀ id ∈ tips, id ∉ t.branchTips.map BranchTipRow.tipId) :
    ∃ be bt u, let t' := { t with branchEntries := be, branchTips := bt, uuids := u }
      (tips.forM (buildCachedBranch uuidv7)).run t = .ok ((), t') ∧ BranchesInv uuidv7 t' ∧
      bt.map BranchTipRow.tipId = t.branchTips.map BranchTipRow.tipId ++ tips := by
  induction tips generalizing t with
  | nil => exact ⟨_, _, _, rfl, hB, by simp⟩
  | cons id tips ih =>
    obtain ⟨hid, htips⟩ := nodup_cons.mp hnd
    obtain ⟨e, he, rfl⟩ := hmem id (by simp)
    obtain ⟨path, hpath⟩ := hE.wf.exists_path he
    have hB₁ := hB.addBranch hinj hpath (hnew e.id (by simp))
    obtain ⟨be, bt, u, hrun, hB₂, hbt⟩ := ih (t := addBranch uuidv7 t e.id path)
      ⟨hE.wf, hE.seq_lt, hE.type⟩ hB₁ (fun id' h' => hmem id' (by simp [h'])) htips (by
        intro id' h' hm
        simp only [addBranch, map_append, map_cons, map_nil, mem_append, mem_singleton] at hm
        rcases hm with hm | rfl
        · exact hnew id' (by simp [h']) hm
        · exact hid h')
    refine ⟨be, bt, u, ?_, hB₂, by simpa [addBranch] using hbt⟩
    rw [forM_cons, run_bind_ok (buildCachedBranch_ok hE hB hinj hpath (hnew e.id (by simp)))]
    exact hrun

theorem rebuildBranchCache_ok (hE : EntriesInv t) (hinj : Function.Injective uuidv7) :
    ∃ be bt u, let t' := { t with branchEntries := be, branchTips := bt, uuids := u }
      (rebuildBranchCache uuidv7).run t = .ok ((), t') ∧ CacheInv uuidv7 t' := by
  let tips := (orderBy EntryRow.seq .oldestFirst (t.entries.filter fun leaf =>
    !t.entries.any fun child => child.parentId = some leaf.id)).map EntryRow.id
  have hiff : ∀ id, id ∈ tips ↔ ∃ e ∈ t.entries, e.id = id ∧ IsTip t.entries e := by
    intro id
    simp only [tips, orderBy, mem_map, mem_mergeSort, mem_filter, Bool.not_eq_true', any_eq_false, decide_eq_true_eq]
    exact ⟨fun ⟨e, ⟨he, hc⟩, hid⟩ => ⟨e, he, hid, hc⟩, fun ⟨e, he, hid, hc⟩ => ⟨e, ⟨he, hc⟩, hid⟩⟩
  have hnd : tips.Nodup := by
    have hperm : tips.Perm ((t.entries.filter fun leaf =>
        !t.entries.any fun child => child.parentId = some leaf.id).map EntryRow.id) :=
      (mergeSort_perm _ _).map _
    exact hperm.nodup_iff.mpr (hE.wf.nodup.sublist (filter_sublist.map _))
  obtain ⟨be, bt, u, hrun, hB, htips⟩ := buildCachedBranches_ok
    (t := { t with branchEntries := [], branchTips := [] })
    ⟨hE.wf, hE.seq_lt, hE.type⟩ ⟨by simp, by simp, by simp, by simp, by simp⟩ hinj
    (fun id hm => ((hiff id).mp hm).imp fun e he => ⟨he.1, he.2.1⟩) hnd (by simp)
  refine ⟨be, bt, u, ?_, ⟨hE.wf, hE.seq_lt, hE.type⟩, hB, fun id => ?_⟩
  · simp only [rebuildBranchCache, run_get_bind, deleteBranchCache, run_modify_bind]
    rw [← hrun, forM_map]
  · rw [← hiff id, htips]
    simp

end Build

end EasyPi.Sqlite
