/-
# Forks, and the branch cache of every reachable session

`fork` copies either the whole tree or one branch of a session into a new
one. What it copies is a forest of its own, and the branches it builds end at
the entries without children. With the operations (`runOp_ok`) this gives the
invariant in every session that create, operations and forks can reach.
-/
import EasyPi.Sqlite.Queries

namespace EasyPi.Sqlite

open List Session

variable {uuidv7 : ℕ → String} {t t' : Tables}

/-! ### What a fork copies -/

/-- The copied entries are a forest, its tips are to get a branch, and the lanes point into it. -/
structure ForkInv (source : ForkSource) : Prop where
  wf : Forest.WF EntryRow.id EntryRow.parentId EntryRow.seq source.entries
  type : ∀ e ∈ source.entries, e.type = e.payload.type
  leaf : ∀ lane ∈ source.lanes, ∀ id, lane.leafId = some id → ∃ e ∈ source.entries, e.id = id
  target : ∀ id, source.branchForkTargetId = some id → ∃ e ∈ source.entries, e.id = id
  tip_iff : ∀ id, id ∈ source.branchTips ↔ ∃ e ∈ source.entries, e.id = id ∧ IsTip source.entries e
  tips_nodup : source.branchTips.Nodup

theorem readLanes_eq_ok {rows : List LaneRow} (h : readLanes.run t = .ok (rows, t')) :
    ∀ row, row ∈ rows ↔ row ∈ t.lanes := by
  simp only [readLanes, run_get_bind] at h
  split at h
  · cases h
  · obtain rfl : orderByText LaneRow.lane t.lanes = rows := by
      have := Except.ok.inj h
      exact (Prod.mk.inj this).1
    exact fun row => mem_mergeSort

variable {source : ForkSource} {entries : List EntryRow} {leafId : Option String} {lane : String}

theorem forkInv_tree (h : StoreInv uuidv7 t)
    (hrun : (readForkSource .tree).run t = .ok (source, t')) : ForkInv source := by
  simp only [readForkSource, run_get_bind] at hrun
  obtain ⟨rows, t₁, hlan, hsrc⟩ := run_bind_eq_ok.mp hrun
  obtain rfl := (Prod.mk.inj (Except.ok.inj hsrc)).1
  have hents : readEntryRows t none none none .oldestFirst none = t.entries := by
    rw [readEntryRows_eq h.cache.entries]
    simp [limitRows, SessionState.ordered]
  have hperm : (readBranchTipIds t).Perm (t.branchTips.map BranchTipRow.tipId) := (mergeSort_perm _ _).map _
  refine ⟨?_, ?_, fun lane hl id hid => ?_, by simp, fun id => ?_, ?_⟩
  · rw [hents]; exact h.cache.entries.wf
  · rw [hents]; exact h.cache.entries.type
  · rw [hents]
    exact h.lanes.leaf lane ((readLanes_eq_ok hlan lane).mp hl) id hid
  · rw [hents, hperm.mem_iff]
    exact h.cache.tip_iff id
  · exact hperm.nodup_iff.mpr h.cache.branches.tips_nodup

theorem isTip_path_iff (hE : EntriesInv t) {e : EntryRow} {path : List EntryRow}
    (hpath : IsPath t.entries e path) {b : EntryRow} (hb : b ∈ path) : IsTip path b ↔ b = e := by
  have hwf := hpath.wf hE.wf
  constructor
  · -- an entry before the last one has a successor, its child
    intro htip
    by_contra hne
    obtain ⟨hcha, hlast⟩ := hpath.isChain
    obtain ⟨l₁, l₂, rfl⟩ := append_of_mem hb
    cases l₂ with
    | nil => simp at hlast; exact hne hlast
    | cons c l₂ =>
      have := (isChain_append_cons_cons.mp hcha).2.1
      exact htip c (by simp) this
  · rintro rfl c hc hpar
    obtain ⟨p, hp, hid, hlt⟩ := hwf.parent_mem c hc _ hpar
    rw [hwf.eq_of_id hp hb hid] at hlt
    exact absurd (hpath.seq_le hE.wf c hc) (by omega)

theorem forkInv_branch (h : StoreInv uuidv7 t) {entryId : Option String} {position : Option ForkPosition}
    (hrun : (readForkSource (.branch entryId position)).run t = .ok (source, t')) : ForkInv source := by
  simp only [readForkSource, run_get_bind] at hrun
  split at hrun
  · cases hrun
  · obtain ⟨target, t₁, -, hsrc⟩ := run_bind_eq_ok.mp hrun
    cases target with
    | none =>
      obtain rfl := (Prod.mk.inj (Except.ok.inj hsrc)).1
      exact ⟨⟨by simp, by simp, by simp⟩, by simp, by simp, by simp, by simp, by simp⟩
    | some targetId =>
      simp only at hsrc
      cases hread : readCachedBranch t targetId with
      | none => rw [hread] at hsrc; cases hsrc
      | some cached =>
        rw [hread] at hsrc
        obtain rfl := (Prod.mk.inj (Except.ok.inj hsrc)).1
        -- the branch was found through a row of the target, so the target is an entry
        obtain ⟨e, he, rfl⟩ : ∃ e ∈ t.entries, e.id = targetId := by
          obtain ⟨r, hr, -⟩ := Option.map_eq_some_iff.mp hread
          have hmem := mem_of_head? hr
          rw [orderByText, mem_mergeSort, mem_filter, decide_eq_true_iff] at hmem
          obtain ⟨e, he, heq⟩ := h.cache.branches.mem_entries hmem.1
          exact ⟨e, he, by rw [← hmem.2, heq]; rfl⟩
        obtain ⟨path, hpath⟩ := h.cache.entries.wf.exists_path he
        obtain ⟨cached', hread', hcac⟩ := h.cache.cachedPath hpath
        obtain rfl := Option.some.inj (hread.symm.trans hread')
        have hrows : queryCachedBranchRows t cached { order := .oldestFirst } {} = path := by
          rw [queryCachedBranchRows_eq h.cache.entries hcac,
            takeUntil_of_forall_not fun b _ => by simp [reachedBound], filter_eq_self.mpr
              fun b _ => by simp [matchesEntryQuery]]
          rfl
        refine ⟨?_, ?_, ?_, ?_, fun id => ?_, by simp⟩ <;> rw [hrows]
        · exact hpath.wf h.cache.entries.wf
        · exact fun b hb => h.cache.entries.type b (hpath.subset b hb)
        · intro lane hl id hid
          rw [mem_singleton.mp hl] at hid
          exact ⟨e, hpath.self_mem, Option.some.inj hid⟩
        · exact fun id hid => ⟨e, hpath.self_mem, Option.some.inj hid⟩
        · rw [mem_singleton]
          constructor
          · rintro rfl
            exact ⟨e, hpath.self_mem, rfl, (isTip_path_iff h.cache.entries hpath hpath.self_mem).mpr rfl⟩
          · rintro ⟨b, hb, rfl, htip⟩
            rw [(isTip_path_iff h.cache.entries hpath hb).mp htip]

/-! ### What a fork writes -/

def renumber : ℕ → List EntryRow → List EntryRow
  | _, [] => []
  | n, e :: entries => { e with seq := n } :: renumber (n + 1) entries

attribute [local simp] renumber

theorem renumber_append (n : ℕ) (entries : List EntryRow) (e : EntryRow) :
    renumber n (entries ++ [e]) = renumber n entries ++ [{ e with seq := n + entries.length }] := by
  induction entries generalizing n with
  | nil => rfl
  | cons a entries ih =>
    rw [cons_append, renumber, renumber, ih, cons_append, length_cons, Nat.add_right_comm, Nat.add_assoc]

theorem mem_renumber {n : ℕ} {e : EntryRow} (he : e ∈ renumber n entries) :
    ∃ e' ∈ entries, e = { e' with seq := e.seq } ∧ n ≤ e.seq ∧ e.seq < n + entries.length := by
  induction entries generalizing n with
  | nil => simp at he
  | cons a entries ih =>
    rcases mem_cons.mp he with rfl | he
    · exact ⟨a, by simp, rfl, le_rfl, by simp⟩
    · obtain ⟨e', he', heq, hle, hlt⟩ := ih he
      exact ⟨e', by simp [he'], heq, by omega, by simp only [length_cons]; omega⟩

theorem exists_renumber {n : ℕ} {e : EntryRow} (he : e ∈ entries) :
    ∃ seq, { e with seq := seq } ∈ renumber n entries := by
  induction entries generalizing n with
  | nil => simp at he
  | cons a entries ih =>
    rcases mem_cons.mp he with rfl | he
    · exact ⟨n, by simp⟩
    · obtain ⟨seq, hmem⟩ := ih (n := n + 1) he
      exact ⟨seq, by simp [hmem]⟩

theorem wf_renumber (h : Forest.WF EntryRow.id EntryRow.parentId EntryRow.seq entries) (n : ℕ) :
    Forest.WF EntryRow.id EntryRow.parentId EntryRow.seq (renumber n entries) := by
  induction entries using List.reverseRecOn with
  | nil => exact ⟨by simp, by simp, by simp⟩
  | append_singleton entries e ih =>
    obtain ⟨hwf, hid, hpar⟩ := h.of_append
    rw [renumber_append]
    refine (ih hwf).append (fun b hb => ?_) (fun b hb => ?_) fun k hk => ?_
    · obtain ⟨b', hb', heq, -, -⟩ := mem_renumber hb
      rw [heq]
      exact hid b' hb'
    · exact (mem_renumber hb).choose_spec.2.2.2
    · obtain ⟨p, hp, hpk⟩ := hpar k hk
      obtain ⟨seq, hmem⟩ := exists_renumber (n := n) hp
      exact ⟨_, hmem, hpk⟩

theorem isTip_renumber_iff (n : ℕ) (entries : List EntryRow) (id : String) :
    (∃ e ∈ renumber n entries, e.id = id ∧ IsTip (renumber n entries) e) ↔
      ∃ e ∈ entries, e.id = id ∧ IsTip entries e := by
  constructor
  · rintro ⟨e, he, rfl, htip⟩
    obtain ⟨e', he', heq, -, -⟩ := mem_renumber he
    refine ⟨e', he', by rw [heq], fun c hc hp => ?_⟩
    obtain ⟨seq, hmem⟩ := exists_renumber (n := n) hc
    exact htip _ hmem (by rw [heq]; exact hp)
  · rintro ⟨e, he, rfl, htip⟩
    obtain ⟨seq, hmem⟩ := exists_renumber (n := n) he
    refine ⟨_, hmem, rfl, fun c hc hp => ?_⟩
    obtain ⟨c', hc', heq, -, -⟩ := mem_renumber hc
    exact htip c' hc' (by rw [heq] at hp; exact hp)

theorem insertEntryRow_eq_ok {row : EntryRow} (h : (insertEntryRow row).run t = .ok ((), t')) :
    t' = { t with entries := t.entries ++ [row] } := by
  simp only [insertEntryRow, run_get_bind] at h
  split_ifs at h
  · cases h
  · exact ((Prod.mk.inj (Except.ok.inj h)).2).symm

theorem insertEntries_eq_ok
    (h : (entries.forM fun e => do insertEntryRow { e with seq := ← allocateSeq } :
      SqlM Unit).run t = .ok ((), t')) :
    t' = { t with
      entries := t.entries ++ renumber t.nextSeq entries
      nextSeq := t.nextSeq + entries.length } := by
  induction entries generalizing t with
  | nil =>
    obtain rfl := (Prod.mk.inj (Except.ok.inj h)).2
    simp
  | cons e entries ih =>
    rw [forM_cons] at h
    obtain ⟨_, t₁, h₁, h₂⟩ := run_bind_eq_ok.mp h
    simp only [allocateSeq, bind_assoc, run_get_bind, run_modify_bind, pure_bind] at h₁
    obtain rfl := insertEntryRow_eq_ok h₁
    rw [ih h₂]
    simp [Nat.add_comm, Nat.add_left_comm]

/-- The statements that copy lanes and facts leave entries and cache alone and keep the rest. -/
structure Keeps (t t' : Tables) : Prop where
  entries : t'.entries = t.entries
  branchEntries : t'.branchEntries = t.branchEntries
  branchTips : t'.branchTips = t.branchTips
  uuids : t'.uuids = t.uuids
  nextSeq : t.nextSeq ≤ t'.nextSeq
  numbers : NumbersInv t → NumbersInv t'
  lanes : LanesInv t → LanesInv t'

theorem Keeps.refl (t : Tables) : Keeps t t := ⟨rfl, rfl, rfl, rfl, le_rfl, id, id⟩

theorem Keeps.trans {t₁ : Tables} (h : Keeps t t₁) (h' : Keeps t₁ t') : Keeps t t' :=
  ⟨h'.entries.trans h.entries, h'.branchEntries.trans h.branchEntries,
    h'.branchTips.trans h.branchTips, h'.uuids.trans h.uuids, h.nextSeq.trans h'.nextSeq,
    h'.numbers ∘ h.numbers, h'.lanes ∘ h.lanes⟩

theorem keeps_forM {α : Type} {f : α → SqlM Unit} {l : List α}
    (hf : ∀ a ∈ l, ∀ t t', t.entries = entries → (f a).run t = .ok ((), t') → Keeps t t')
    (he : t.entries = entries) (h : (l.forM f).run t = .ok ((), t')) : Keeps t t' := by
  induction l generalizing t with
  | nil =>
    obtain rfl := (Prod.mk.inj (Except.ok.inj h)).2
    exact .refl t
  | cons a l ih =>
    rw [forM_cons] at h
    obtain ⟨_, t₁, h₁, h₂⟩ := run_bind_eq_ok.mp h
    have hk := hf a (by simp) t t₁ he h₁
    exact hk.trans (ih (fun b hb => hf b (by simp [hb])) (hk.entries.trans he) h₂)

theorem lt_of_append {α : Type} {key : α → ℕ} {l : List α} {n : ℕ} {x : α}
    (h : ∀ r ∈ l, key r < n) (hx : key x < n) : ∀ r ∈ l ++ [x], key r < n := by
  intro r hr
  rcases mem_append.mp hr with hr | hr
  · exact h r hr
  · rwa [mem_singleton.mp hr]

theorem keeps_allocateSeq {f : ℕ → SqlM Unit}
    (hf : ∀ t₁, t₁.entries = t.entries → t.nextSeq < t₁.nextSeq → (f t.nextSeq).run t₁ = .ok ((), t') →
      Keeps t₁ t') (h : (allocateSeq >>= f).run t = .ok ((), t')) : Keeps t t' := by
  simp only [allocateSeq, bind_assoc, run_get_bind, run_modify_bind, pure_bind] at h
  have hbump : Keeps t { t with nextSeq := t.nextSeq + 1 } :=
    ⟨rfl, rfl, rfl, rfl, Nat.le_succ _, fun hn => ⟨lt_succ_of_forall hn.records,
      lt_succ_of_forall hn.laneMoves, lt_succ_of_forall hn.facts⟩, fun hl => ⟨hl.nodup, hl.leaf⟩⟩
  exact hbump.trans (hf _ rfl (Nat.lt_succ_self _) h)

theorem keeps_appendFact {seq : ℕ} {kind : FactKind} {key value : Option String}
    (hseq : seq < t.nextSeq) (h : (appendFact seq kind key value).run t = .ok ((), t')) : Keeps t t' := by
  simp only [appendFact, run_get_bind] at h
  split_ifs at h
  · cases h
  · obtain rfl := (Prod.mk.inj (Except.ok.inj h)).2
    exact ⟨rfl, rfl, rfl, rfl, le_rfl, fun hn => ⟨hn.records, hn.laneMoves,
      lt_of_append hn.facts hseq⟩, fun hl => ⟨hl.nodup, hl.leaf⟩⟩

theorem keeps_appendLaneMove {seq : ℕ}
    (hseq : seq < t.nextSeq) (h : (appendLaneMove seq lane leafId).run t = .ok ((), t')) : Keeps t t' := by
  simp only [appendLaneMove, run_get_bind] at h
  split_ifs at h
  · cases h
  · obtain rfl := (Prod.mk.inj (Except.ok.inj h)).2
    exact ⟨rfl, rfl, rfl, rfl, le_rfl, fun hn => ⟨hn.records, lt_of_append hn.laneMoves hseq,
      hn.facts⟩, fun hl => ⟨hl.nodup, hl.leaf⟩⟩

theorem lanesInv_insert (h : LanesInv t) (hnew : (t.lanes.any fun r => r.lane = lane) = false)
    (hleaf : ∀ id, leafId = some id → ∃ e ∈ t.entries, e.id = id) :
    LanesInv { t with lanes := t.lanes ++ [⟨lane, leafId, none⟩] } where
  nodup := by
    simp only [map_append, map_cons, map_nil]
    refine nodup_append.mpr ⟨h.nodup, by simp, fun a ha b hb => ?_⟩
    obtain ⟨r, hr, rfl⟩ := mem_map.mp ha
    rw [mem_singleton.mp hb]
    simpa using any_eq_false.mp hnew r hr
  leaf row hrow id hid := by
    rcases mem_append.mp hrow with hrow | hrow
    · exact h.leaf row hrow id hid
    · rw [mem_singleton.mp hrow] at hid
      exact hleaf id hid

theorem keeps_createInitialLane (hleaf : ∀ id, leafId = some id → ∃ e ∈ t.entries, e.id = id)
    (h : (createInitialLane lane leafId).run t = .ok ((), t')) : Keeps t t' := by
  simp only [createInitialLane, run_get_bind] at h
  split_ifs at h with hnew
  · cases h
  · obtain rfl := (Prod.mk.inj (Except.ok.inj h)).2
    exact ⟨rfl, rfl, rfl, rfl, le_rfl, fun hn => ⟨hn.records, hn.laneMoves, hn.facts⟩,
      fun hl => lanesInv_insert hl (by simpa using hnew) hleaf⟩

theorem keeps_insertLane {seq : ℕ} (hseq : seq < t.nextSeq) (hleaf : ∀ id, leafId = some id → ∃ e ∈ t.entries, e.id = id)
    (h : (insertLane seq lane leafId).run t = .ok ((), t')) : Keeps t t' := by
  obtain ⟨_, t₁, h₁, h₂⟩ := run_bind_eq_ok.mp h
  have hk := keeps_createInitialLane hleaf h₁
  exact hk.trans (keeps_appendLaneMove (hseq.trans_le hk.nextSeq) h₂)

theorem keeps_copyLanes {isTree : Bool}
    (hleaf : ∀ lane ∈ source.lanes, ∀ id, lane.leafId = some id → ∃ e ∈ t.entries, e.id = id)
    (htgt : ∀ id, source.branchForkTargetId = some id → ∃ e ∈ t.entries, e.id = id)
    (h : (copyLanes source isTree).run t = .ok ((), t')) : Keeps t t' := by
  cases isTree with
  | false => exact keeps_createInitialLane htgt h
  | true =>
    refine keeps_forM (fun lane hl t₁ t₂ he h₁ => ?_) rfl h
    refine keeps_allocateSeq (fun t₃ he₃ hseq h₃ => ?_) h₁
    exact keeps_insertLane hseq (by rw [he₃, he]; exact hleaf lane hl) h₃

theorem keeps_copyName {name : Option FactRow} (h : (copyName name).run t = .ok ((), t')) : Keeps t t' := by
  unfold copyName at h
  split at h
  · obtain rfl := (Prod.mk.inj (Except.ok.inj h)).2
    exact .refl t
  · exact keeps_allocateSeq (fun _ _ hseq h₃ => keeps_appendFact hseq h₃) h

theorem keeps_copyLabels {labels : List FactRow}
    (h : (labels.forM fun label => do appendFact (← allocateSeq) .label label.key label.value :
      SqlM Unit).run t = .ok ((), t')) : Keeps t t' :=
  keeps_forM (fun _ _ _ _ _ h₁ =>
    keeps_allocateSeq (fun _ _ hseq h₃ => keeps_appendFact hseq h₃) h₁) rfl h

theorem mapError_eq_ok {α : Type} {x : Except SqliteError α} {f : SqliteError → SqliteError}
    {a : α} (h : x.mapError f = .ok a) : x = .ok a := by
  cases x with
  | error e => cases h
  | ok b => exact h

theorem writeFork_storeInv (hinj : Function.Injective uuidv7)
    (hsrc : ForkInv source) {isTree : Bool} {name : Option FactRow} {labels : List FactRow}
    {stats : SessionStats} {uuids : ℕ}
    (h : (writeFork uuidv7 source isTree name labels).run { stats := stats, uuids := uuids } =
      .ok ((), t')) : StoreInv uuidv7 t' := by
  unfold writeFork at h
  obtain ⟨_, t₁, h₁, h⟩ := run_bind_eq_ok.mp h
  have ht₁ := insertEntries_eq_ok h₁
  simp only [nil_append] at ht₁
  have hleaf : ∀ id, (∃ e ∈ source.entries, e.id = id) → ∃ e ∈ t₁.entries, e.id = id := by
    rintro id ⟨e, he, rfl⟩
    obtain ⟨seq, hmem⟩ := exists_renumber (n := 1) he
    exact ⟨{ e with seq := seq }, by rw [ht₁]; exact hmem, rfl⟩
  obtain ⟨_, t₂, h₂, h⟩ := run_bind_eq_ok.mp h
  obtain ⟨_, t₃, h₃, h⟩ := run_bind_eq_ok.mp h
  obtain ⟨_, t₄, h₄, h⟩ := run_bind_eq_ok.mp h
  have hkeep : Keeps t₁ t₄ :=
    (keeps_copyLanes (fun lane hl id hid => hleaf id (hsrc.leaf lane hl id hid))
      (fun id hid => hleaf id (hsrc.target id hid)) h₂).trans
    ((keeps_copyName h₃).trans (keeps_copyLabels h₄))
  have hents : t₄.entries = renumber 1 source.entries := by rw [hkeep.entries, ht₁]
  have hE : EntriesInv t₄ := by
    refine ⟨hents ▸ wf_renumber hsrc.wf 1, fun e he => ?_, fun e he => ?_⟩
    · rw [hents] at he
      obtain ⟨-, -, -, -, hlt⟩ := mem_renumber he
      have := hkeep.nextSeq
      rw [ht₁] at this
      exact hlt.trans_le this
    · rw [hents] at he
      obtain ⟨e', he', heq, -, -⟩ := mem_renumber he
      rw [heq]
      exact hsrc.type e' he'
  have hB : BranchesInv uuidv7 t₄ := by
    have hrows : t₄.branchEntries = [] := by rw [hkeep.branchEntries, ht₁]
    have htips : t₄.branchTips = [] := by rw [hkeep.branchTips, ht₁]
    exact ⟨by simp [htips], by simp [htips], by simp [htips], by simp [hrows], by simp [htips]⟩
  have htip : ∀ id, id ∈ source.branchTips ↔ ∃ e ∈ t₄.entries, e.id = id ∧ IsTip t₄.entries e :=
    fun id => by rw [hents, isTip_renumber_iff]; exact hsrc.tip_iff id
  obtain ⟨be, bt, u, hrun, hB', htips⟩ := buildCachedBranches_ok hE hB hinj
    (fun id hm => ((htip id).mp hm).imp fun e he => ⟨he.1, he.2.1⟩) hsrc.tips_nodup (by
      rw [hkeep.branchTips, ht₁]; simp)
  obtain rfl := (Prod.mk.inj (Except.ok.inj (hrun.symm.trans h))).2
  have hlan : LanesInv t₄ := hkeep.lanes (by rw [ht₁]; exact ⟨by simp, by simp⟩)
  have hnum : NumbersInv t₄ := hkeep.numbers (by rw [ht₁]; exact ⟨by simp, by simp, by simp⟩)
  refine ⟨⟨⟨hE.wf, hE.seq_lt, hE.type⟩, hB', fun id => ?_⟩, ⟨hlan.nodup, hlan.leaf⟩,
    ⟨hnum.records, hnum.laneMoves, hnum.facts⟩⟩
  rw [← htip id, htips, hkeep.branchTips, ht₁]
  simp

theorem fork_storeInv (hinj : Function.Injective uuidv7) {id : String} {scope : ForkScope}
    (h : StoreInv uuidv7 t) (hfork : fork uuidv7 t id scope = .ok t') : StoreInv uuidv7 t' := by
  have hfor := mapError_eq_ok hfork
  obtain ⟨⟨source, t₁⟩, hread, hrest⟩ := bind_ok_iff.mp hfor
  obtain ⟨⟨_, t₂⟩, hwri, hret⟩ := bind_ok_iff.mp hrest
  obtain rfl := Except.ok.inj hret
  have hsrc : ForkInv source := by
    cases scope with
    | tree => exact forkInv_tree h hread
    | branch entryId position => exact forkInv_branch h hread
  exact writeFork_storeInv hinj hsrc hwri

/-- The tables of a session after `create` or `fork` and any operations. A
failed operation is rolled back and leaves the tables as they are. -/
inductive Reachable (uuidv7 : ℕ → String) : Tables → Prop
  | create {uuids : ℕ} {t : Tables} (h : create uuids = .ok t) : Reachable uuidv7 t
  | step {t t' : Tables} {op : StorageOp} {result : StorageResult} (ht : Reachable uuidv7 t)
      (h : (runOp uuidv7 op).run t = .ok (result, t')) : Reachable uuidv7 t'
  | fork {t t' : Tables} {id : String} {scope : ForkScope} (ht : Reachable uuidv7 t)
      (h : fork uuidv7 t id scope = .ok t') : Reachable uuidv7 t'

theorem create_storeInv {uuids : ℕ} (h : create uuids = .ok t) : StoreInv uuidv7 t := by
  obtain rfl : ({ lanes := [⟨"main", none, none⟩], uuids := uuids } : Tables) = t := Except.ok.inj h
  exact ⟨⟨⟨⟨by simp, by simp, by simp⟩, by simp, by simp⟩,
    ⟨by simp, by simp, by simp, by simp, by simp⟩, fun id => by simp⟩, ⟨by simp, by simp⟩, ⟨by simp, by simp, by simp⟩⟩

theorem Reachable.storeInv (hinj : Function.Injective uuidv7) (h : Reachable uuidv7 t) : StoreInv uuidv7 t := by
  induction h with
  | create h => exact create_storeInv h
  | fork _ hfork ih => exact fork_storeInv hinj ih hfork
  | @step t t' op result _ hrun ih =>
    cases hop : checkOp t op with
    | some error => rw [runOp_error ih hop] at hrun; cases hrun
    | none =>
      obtain ⟨be, bt, u, hok, hinv⟩ := runOp_ok hinj ih hop
      obtain rfl := (Prod.mk.inj (Except.ok.inj (hok.symm.trans hrun))).2
      exact hinv

theorem Reachable.commitOp (hinj : Function.Injective uuidv7) (h : Reachable uuidv7 t)
    {op : StorageOp} (hop : checkOp t op = none) : ∃ be bt u, Reachable uuidv7
        { Sqlite.commitOp t op with branchEntries := be, branchTips := bt, uuids := u } := by
  obtain ⟨be, bt, u, hrun, -⟩ := runOp_ok hinj (h.storeInv hinj) hop
  exact ⟨be, bt, u, .step h hrun⟩

/-! ### The cache against the parent links -/

/-- The rows of a branch by sequence number, without the id of the branch. -/
def cachedPath (t : Tables) (branchId : String) : List (String × ℕ × EntryType × Option String) :=
  (orderBy BranchEntryRow.entrySeq .oldestFirst
    (t.branchEntries.filter fun r => r.branchId = branchId)).map
      fun r => (r.entryId, r.entrySeq, r.entryType, r.customType)

/-- The paths the cache holds, each with its tip. -/
def cachedPaths (t : Tables) : Set (String × List (String × ℕ × EntryType × Option String)) :=
  {p | ∃ tip ∈ t.branchTips, p = (tip.tipId, cachedPath t tip.branchId)}

theorem BranchesInv.cachedPath (hE : EntriesInv t) (h : BranchesInv uuidv7 t) {tip : BranchTipRow}
    (htip : tip ∈ t.branchTips) : ∃ e path, IsPath t.entries e path ∧ e.id = tip.tipId ∧
      Sqlite.cachedPath t tip.branchId = path.map fun b => (b.id, b.seq, b.type, b.payload.customType?) := by
  obtain ⟨e, path, hpath, hid, hrows⟩ := h.rows tip htip
  have hsrt : (path.map (BranchEntryRow.of tip.branchId)).Pairwise
      fun a b => a.entrySeq < b.entrySeq := pairwise_map.mpr (hpath.sorted hE.wf)
  refine ⟨e, path, hpath, hid, ?_⟩
  rw [Sqlite.cachedPath, hrows, orderBy_eq hsrt, SessionState.ordered, map_map]
  rfl

theorem CacheInv.cachedPaths_eq (h : CacheInv uuidv7 t) : cachedPaths t =
    {p | ∃ e path, IsTip t.entries e ∧ IsPath t.entries e path ∧
      p = (e.id, path.map fun b => (b.id, b.seq, b.type, b.payload.customType?))} := by
  have hwf := h.entries.wf
  ext p
  constructor
  · rintro ⟨tip, htip, rfl⟩
    obtain ⟨e, path, hpath, hid, hrows⟩ := h.branches.cachedPath h.entries htip
    obtain ⟨e', he', hid', hleaf⟩ := (h.tip_iff tip.tipId).mp (mem_map_of_mem htip)
    obtain rfl := hwf.eq_of_id he' hpath.mem (hid'.trans hid.symm)
    exact ⟨e', path, hleaf, hpath, by rw [hid, hrows]⟩
  · rintro ⟨e, path, hleaf, hpath, rfl⟩
    obtain ⟨tip, htip, hid⟩ := mem_map.mp ((h.tip_iff e.id).mpr ⟨e, hpath.mem, rfl, hleaf⟩)
    obtain ⟨e', path', hpath', hid', hrows⟩ := h.branches.cachedPath h.entries htip
    obtain rfl := hwf.eq_of_id hpath'.mem hpath.mem (hid'.trans hid)
    exact ⟨tip, htip, by rw [hrows, hid, hpath'.unique hwf hpath]⟩

/-- **The branch cache of every reachable session.** The tips are the entries
without children, each with a branch of its own. The rows of a branch are the
path from the root to its tip, in increasing sequence numbers. So every entry
is on a branch, an append fails only for a missing lane or a used id, and
rebuilding the cache gives the same paths. -/
theorem branch_cache_correct (hinj : Function.Injective uuidv7) (h : Reachable uuidv7 t) :
    ((∀ id, id ∈ t.branchTips.map BranchTipRow.tipId ↔
        ∃ e ∈ t.entries, e.id = id ∧ ∀ c ∈ t.entries, c.parentId ≠ some e.id) ∧
      (t.branchTips.map BranchTipRow.tipId).Nodup ∧ (t.branchTips.map BranchTipRow.branchId).Nodup) ∧
    ((∀ tip ∈ t.branchTips, ∃ e path, IsPath t.entries e path ∧ e.id = tip.tipId ∧
        path.Pairwise (fun a b => a.seq < b.seq) ∧ ∀ r, (r ∈ t.branchEntries ∧ r.branchId = tip.branchId) ↔
          ∃ b ∈ path, r = ⟨tip.branchId, b.id, b.seq, b.type, b.payload.customType?⟩) ∧
      ∀ r ∈ t.branchEntries, ∃ tip ∈ t.branchTips, tip.branchId = r.branchId) ∧
    (∀ e ∈ t.entries, ∃ r ∈ t.branchEntries, r.entryId = e.id) ∧
    (∀ entry lane now error, (appendEntry uuidv7 entry lane now).run t = .error error →
      error = .session ⟨.invalidLane, "Lane not found: " ++ lane⟩ ∨
      error = .session ⟨.alreadyExists, "ID already exists: " ++ entry.id⟩) ∧
    ∃ t', (rebuildBranchCache uuidv7).run t = .ok ((), t') ∧ cachedPaths t' = cachedPaths t := by
  have hS := h.storeInv hinj
  have hC := hS.cache
  refine ⟨⟨hC.tip_iff, hC.branches.tips_nodup, hC.branches.branches_nodup⟩,
    ⟨fun tip htip => ?_, hC.branches.owner⟩, fun e he => hC.exists_row he, fun entry lane now error herr => ?_, ?_⟩
  · obtain ⟨e, path, hpath, hid, hrows⟩ := hC.branches.rows tip htip
    refine ⟨e, path, hpath, hid, hpath.sorted hC.entries.wf, fun r => ?_⟩
    have : r ∈ t.branchEntries.filter (fun r => r.branchId = tip.branchId) ↔
        r ∈ path.map (.of tip.branchId) := by rw [hrows]
    simp only [mem_filter, mem_map, decide_eq_true_eq] at this
    exact this.trans ⟨fun ⟨b, hb, hr⟩ => ⟨b, hb, hr.symm⟩, fun ⟨b, hb, hr⟩ => ⟨b, hb, hr.symm⟩⟩
  · cases hop : checkOp t (.appendEntry entry lane now) with
    | none =>
      obtain ⟨be, bt, u, hrun, -⟩ := appendEntry_ok hinj hS hop
      rw [hrun] at herr
      cases herr
    | some e =>
      obtain rfl := Except.error.inj ((appendEntry_error hS hop).symm.trans herr)
      simp only [checkOp] at hop
      split_ifs at hop
      · exact Or.inl (by rw [Option.some.inj hop])
      · exact Or.inr (by rw [Option.some.inj hop])
  · obtain ⟨be, bt, u, hrun, hC'⟩ := rebuildBranchCache_ok hC.entries hinj
    exact ⟨_, hrun, by rw [hC'.cachedPaths_eq, hC.cachedPaths_eq]⟩

theorem replicate_injective : Function.Injective fun n : ℕ => String.ofList (List.replicate n 'a') := by
  intro m n h
  simpa using congrArg List.length (String.ofList_injective h)

/-- Two entries under one root: the second append copies the root out of the branch of the first. -/
theorem branch_cache_correct_siblings : ∃ t, Reachable (fun n => String.ofList (List.replicate n 'a')) t ∧
    t.entries.map EntryRow.id = ["a", "b", "c"] ∧ (∀ id, id ∈ t.branchTips.map BranchTipRow.tipId ↔ id = "b" ∨ id = "c") ∧
    ∃ t', (rebuildBranchCache fun n => String.ofList (List.replicate n 'a')).run t = .ok ((), t') ∧
      cachedPaths t' = cachedPaths t := by
  have hinj := replicate_injective
  obtain ⟨be₁, bt₁, u₁, h₁⟩ := Reachable.commitOp hinj (.create (rfl : create 0 = .ok _))
    (rfl : checkOp _ (.appendEntry ⟨"a", .custom "note" none⟩ "main" 0) = none)
  obtain ⟨be₂, bt₂, u₂, h₂⟩ := h₁.commitOp hinj
    (rfl : checkOp _ (.appendEntry ⟨"b", .custom "note" none⟩ "main" 0) = none)
  obtain ⟨be₃, bt₃, u₃, h₃⟩ := h₂.commitOp hinj
    (rfl : checkOp _ (.moveLane "main" (some "a")) = none)
  obtain ⟨be, bt, u, h⟩ := h₃.commitOp hinj
    (rfl : checkOp _ (.appendEntry ⟨"c", .custom "note" none⟩ "main" 0) = none)
  obtain ⟨⟨htips, -, -⟩, -, -, -, hreb⟩ := branch_cache_correct hinj h
  refine ⟨_, h, rfl, fun id => (htips id).trans ?_, hreb⟩
  simp [commitOp, newEntryRow, setLane, readLane, eq_comm]

end EasyPi.Sqlite
