/-
# What the operations of the SQLite storage do

`StoreInv` collects what the tables of a session keep: the branch cache, lanes
that point at entries, and sequence numbers below the next one. In such a
state an operation fails in one of its own checks (`checkOp`) or writes the
rows of `commitOp` and the branch cache of its entry (`runOp_ok`). No
constraint is violated and no error of the cache is reached.
-/
import EasyPi.Sqlite.BranchCache

namespace EasyPi.Sqlite

open List Session

/-- The numbers of records, lane moves and facts are below the next one. -/
structure NumbersInv (t : Tables) : Prop where
  records : ∀ r ∈ t.records, r.seq < t.nextSeq
  laneMoves : ∀ r ∈ t.laneMoves, r.seq < t.nextSeq
  facts : ∀ r ∈ t.facts, r.seq < t.nextSeq

structure StoreInv (uuidv7 : ℕ → String) (t : Tables) : Prop where
  cache : CacheInv uuidv7 t
  lanes : LanesInv t
  numbers : NumbersInv t

/-! ### Checks and rows -/

variable (t : Tables)

/-- The error for a target that is no entry. -/
def targetError : Option String → Option SessionError
  | none => none
  | some id =>
    if (readEntryRow t id).isSome then none else some ⟨.notFound, "Entry not found: " ++ id⟩

/-- `idExistsInEntries(…) || idExistsInRecords(…)`. -/
def idExists (id : String) : Bool := idExistsInEntries t id || idExistsInRecords t id

/-- The first check of an operation that fails. -/
def checkOp : StorageOp → Option SessionError
  | .createLane lane at_ =>
    if (readLane t lane).isSome then some ⟨.alreadyExists, "Lane already exists: " ++ lane⟩
    else targetError t at_
  | .moveLane lane to_ =>
    if (readLane t lane).isSome then targetError t to_
    else some ⟨.invalidLane, "Lane not found: " ++ lane⟩
  | .appendEntry entry lane _ =>
    if (readLane t lane).isNone then some ⟨.invalidLane, "Lane not found: " ++ lane⟩
    else if idExists t entry.id then some ⟨.alreadyExists, "ID already exists: " ++ entry.id⟩
    else none
  | .appendRecord record _ =>
    match readLane t record.lane with
    | none => some ⟨.invalidLane, "Lane not found: " ++ record.lane⟩
    | some row =>
      if idExists t record.id then some ⟨.alreadyExists, "ID already exists: " ++ record.id⟩
      else if record.data.type = .operationStarted then
        row.openOperationId.map fun current =>
          ⟨.storage, "Lane " ++ record.lane ++ " already has an open operation " ++ current⟩
      else none
  | .setName _ => none
  | .setLabel id _ => targetError t (some id)

def newEntryRow (entry : ProvisionedEntry) (lane : String) (now : ℕ) : EntryRow :=
  ⟨t.nextSeq, entry.id, (readLane t lane).bind LaneRow.leafId, entry.data.type, now, entry.data⟩

def setLane (lanes : List LaneRow) (lane : String) (set : LaneRow → LaneRow) : List LaneRow :=
  lanes.map fun r => if r.lane = lane then set r else r

/-- How a record changes the open operation of its lane. -/
def openOperationAfter (record : NewRecord) : LaneRow → LaneRow :=
  match record.data with
  | .operationStarted .. => fun row => { row with openOperationId := some record.id }
  | .operationFinished runId .. => fun row =>
    if row.openOperationId = some runId then { row with openOperationId := none } else row
  | _ => fun row => row

def statsAfter (record : NewRecord) (stats : SessionStats) : SessionStats :=
  match record.data with
  | .usage _ usage => SessionState.SessionStats.addUsage stats usage
  | _ => stats

/-- The rows an operation leaves, but for the branch cache. -/
def commitOp : StorageOp → Tables
  | .createLane lane at_ =>
    { t with
      lanes := t.lanes ++ [⟨lane, at_, none⟩]
      laneMoves := t.laneMoves ++ [⟨t.nextSeq, lane, at_⟩]
      nextSeq := t.nextSeq + 1 }
  | .moveLane lane to_ =>
    { t with
      lanes := setLane t.lanes lane fun r => { r with leafId := to_ }
      laneMoves := t.laneMoves ++ [⟨t.nextSeq, lane, to_⟩]
      nextSeq := t.nextSeq + 1 }
  | .appendEntry entry lane now =>
    { t with
      entries := t.entries ++ [newEntryRow t entry lane now]
      lanes := setLane t.lanes lane fun r => { r with leafId := some entry.id }
      stats := if entry.data.type = .message then
          { t.stats with messageCount := t.stats.messageCount + 1 }
        else t.stats
      nextSeq := t.nextSeq + 1 }
  | .appendRecord record now =>
    { t with
      records := t.records ++ [⟨t.nextSeq, record.id, record.lane, recordRunId record,
        record.data.type, recordOpKind record, now, record⟩]
      lanes := setLane t.lanes record.lane (openOperationAfter record)
      stats := statsAfter record t.stats
      nextSeq := t.nextSeq + 1 }
  | .setName name =>
    { t with facts := t.facts ++ [⟨t.nextSeq, .name, none, name⟩], nextSeq := t.nextSeq + 1 }
  | .setLabel id label =>
    { t with facts := t.facts ++ [⟨t.nextSeq, .label, some id, label⟩], nextSeq := t.nextSeq + 1 }

/-- What an operation returns when it succeeds. -/
def opResult : StorageOp → StorageResult
  | .appendEntry entry lane now =>
    .entry ⟨entry, t.nextSeq, (readLane t lane).bind LaneRow.leafId, now⟩
  | .appendRecord record now => .record ⟨record, t.nextSeq, now⟩
  | _ => .done

/-! ### Statements -/

section Statements

variable {t : Tables}

theorem appendLaneMove_ok (h : NumbersInv t) (lane : String) (leafId : Option String) :
    (appendLaneMove t.nextSeq lane leafId).run t =
      .ok ((), { t with laneMoves := t.laneMoves ++ [⟨t.nextSeq, lane, leafId⟩] }) := by
  have : (t.laneMoves.any fun r => r.seq = t.nextSeq) = false := by
    simpa [any_eq_false] using fun r hr => (h.laneMoves r hr).ne
  simp only [appendLaneMove, run_get_bind, this]
  rfl

theorem appendFact_ok (h : NumbersInv t) (kind : FactKind) (key value : Option String) :
    (appendFact t.nextSeq kind key value).run t =
      .ok ((), { t with facts := t.facts ++ [⟨t.nextSeq, kind, key, value⟩] }) := by
  have : (t.facts.any fun r => r.seq = t.nextSeq) = false := by
    simpa [any_eq_false] using fun r hr => (h.facts r hr).ne
  simp only [appendFact, run_get_bind, this]
  rfl

variable {lane : String} {row : LaneRow} {entry : ProvisionedEntry} {op : StorageOp}

theorem readLane_eq_some (h : readLane t lane = some row) : row ∈ t.lanes ∧ row.lane = lane :=
  ⟨mem_of_find?_eq_some h, by simpa using List.find?_some h⟩

section
variable (h : LanesInv t)
include h

theorem LanesInv.readLane (hr : row ∈ t.lanes) : Sqlite.readLane t row.lane = some row := find?_key_eq h.nodup hr

theorem setLaneLeaf_ok (hlane : (readLane t lane).isSome) (leafId : Option String) : (setLaneLeaf lane leafId).run t =
      .ok ((), { t with lanes := setLane t.lanes lane fun r => { r with leafId := leafId } }) := by
  obtain ⟨row, hrow⟩ := Option.isSome_iff_exists.mp hlane
  obtain ⟨hmem, rfl⟩ := readLane_eq_some hrow
  simp only [setLaneLeaf, updateLanes, bind_assoc, run_get_bind, run_modify_bind, pure_bind,
    filter_key_eq h.nodup hmem, decide_eq_true_eq]
  rfl

theorem readLaneHead_ok (hrow : readLane t lane = some row) : (readLaneHead lane).run t = .ok (row.leafId, t) := by
  have hleaf : leafExists t row = true := by
    rw [leafExists, Option.all_eq_true]
    intro id hid
    obtain ⟨e, he, heq⟩ := h.leaf row (readLane_eq_some hrow).1 id hid
    exact any_eq_true.mpr ⟨e, he, by simpa using heq⟩
  simp only [readLaneHead, run_get_bind, hrow, hleaf]
  rfl

theorem startLaneOperation_ok {lane runId : String}
    (hrow : readLane t lane = some row) (hopen : row.openOperationId = none) :
    (startLaneOperation lane runId).run t = .ok ((), { t with
      lanes := setLane t.lanes lane fun r => { r with openOperationId := some runId } }) := by
  obtain ⟨hmem, rfl⟩ := readLane_eq_some hrow
  -- the lane's row is free, so the two conditions of the update select the same row
  have hiff : ∀ r ∈ t.lanes, (r.lane = row.lane ∧ r.openOperationId = none) ↔ r.lane = row.lane :=
    fun r hr => ⟨And.left, fun hl => ⟨hl, by
      rw [inj_on_of_nodup_map h.nodup hr hmem hl, hopen]⟩⟩
  have hone : t.lanes.filter (fun r => r.lane = row.lane ∧ r.openOperationId = none) = [row] := by
    rw [← filter_key_eq h.nodup hmem]
    exact filter_congr fun r hr => decide_eq_decide.mpr (hiff r hr)
  have hset : (t.lanes.map fun r => if r.lane = row.lane ∧ r.openOperationId = none then
      { r with openOperationId := some runId } else r) =
      setLane t.lanes row.lane fun r => { r with openOperationId := some runId } :=
    map_congr_left fun r hr => by simp only [hiff r hr]
  simp only [startLaneOperation, updateLanes, bind_assoc, run_get_bind, run_modify_bind, pure_bind,
    hone, decide_eq_true_eq, hset]
  rfl

theorem startLaneOperation_error {lane runId current : String}
    (hrow : readLane t lane = some row) (hopen : row.openOperationId = some current) :
    (startLaneOperation lane runId).run t = .error (.session ⟨.storage, "Lane " ++ lane ++
      " already has an open operation " ++ current⟩) := by
  obtain ⟨hmem, rfl⟩ := readLane_eq_some hrow
  have hnone : ∀ r ∈ t.lanes, ¬ (r.lane = row.lane ∧ r.openOperationId = none) :=
    fun r hr hm => by
      rw [inj_on_of_nodup_map h.nodup hr hmem hm.1, hopen] at hm
      cases hm.2
  have hzero : t.lanes.filter (fun r => r.lane = row.lane ∧ r.openOperationId = none) = [] :=
    filter_eq_nil_iff.mpr fun r hr => by simpa using hnone r hr
  have hsame : (t.lanes.map fun r => if r.lane = row.lane ∧ r.openOperationId = none then
      { r with openOperationId := some runId } else r) = t.lanes :=
    (map_congr_left fun r hr => if_neg (hnone r hr)).trans (map_id _)
  simp only [startLaneOperation, updateLanes, bind_assoc, run_get_bind, run_modify_bind, pure_bind,
    hzero, decide_eq_true_eq, hsame]
  simp only [length_nil, ne_eq, zero_ne_one, not_false_eq_true, if_true, run_get_bind, hrow, hopen]
  rfl

end

theorem finishLaneOperation_ok (lane runId : String) :
    (finishLaneOperation lane runId).run t = .ok ((), { t with
      lanes := setLane t.lanes lane fun r =>
        if r.openOperationId = some runId then { r with openOperationId := none } else r }) := by
  have hset : (t.lanes.map fun r => if r.lane = lane ∧ r.openOperationId = some runId then
      { r with openOperationId := none } else r) = setLane t.lanes lane fun r =>
        if r.openOperationId = some runId then { r with openOperationId := none } else r :=
    map_congr_left fun r _ => by by_cases hl : r.lane = lane <;> simp [hl]
  simp only [finishLaneOperation, updateLanes, bind_assoc, run_get_bind, run_modify_bind, pure_bind,
    decide_eq_true_eq, hset]
  rfl

theorem assertUnusedId_ok {id : String} (h : idExists t id = false) : (assertUnusedId id).run t = .ok ((), t) := by
  rw [idExists] at h
  simp only [assertUnusedId, run_get_bind, h]
  rfl

theorem assertUnusedId_error {id : String} (h : idExists t id = true) :
    (assertUnusedId id).run t = .error (.session ⟨.alreadyExists, "ID already exists: " ++ id⟩) := by
  rw [idExists] at h
  simp only [assertUnusedId, run_get_bind, h]
  rfl

theorem appendRecordRow_ok (h : NumbersInv t) {row : RecordRow} (hseq : row.seq = t.nextSeq)
    (hid : ∀ r ∈ t.records, r.id ≠ row.id) :
    (appendRecordRow row).run t = .ok ((), { t with records := t.records ++ [row] }) := by
  have : (t.records.any fun r => r.id = row.id ∨ r.seq = row.seq) = false := by
    simpa [any_eq_false, not_or] using fun r hr => ⟨hid r hr, by
      rw [hseq]; exact (h.records r hr).ne⟩
  simp only [appendRecordRow, run_get_bind, this]
  rfl

end Statements

/-! ### Operations -/

section Operations

variable {uuidv7 : ℕ → String} {t : Tables}

theorem lane_setLane (lanes : List LaneRow) (lane : String) (set : LaneRow → LaneRow)
    (hset : ∀ r, (set r).lane = r.lane) : (setLane lanes lane set).map LaneRow.lane = lanes.map LaneRow.lane := by
  rw [setLane, map_map]
  refine map_congr_left fun r _ => ?_
  by_cases hl : r.lane = lane <;> simp [hl, hset]

theorem LanesInv.setLane (h : LanesInv t) (lane : String) (set : LaneRow → LaneRow)
    (hset : ∀ r, (set r).lane = r.lane) {entries : List EntryRow} (hsub : ∀ e ∈ t.entries, e ∈ entries)
    (hleaf : ∀ r ∈ t.lanes, ∀ id, (set r).leafId = some id → ∃ e ∈ entries, e.id = id) :
    LanesInv { t with lanes := setLane t.lanes lane set, entries := entries } where
  nodup := by
    rw [lane_setLane _ _ _ hset]
    exact h.nodup
  leaf row hrow id hid := by
    obtain ⟨r, hr, rfl⟩ := mem_map.mp hrow
    split_ifs at hid with hl
    · exact hleaf r hr id hid
    · obtain ⟨e, he, heq⟩ := h.leaf r hr id hid
      exact ⟨e, hsub e he, heq⟩

theorem targetError_eq_none {target : Option String} (h : targetError t target = none) :
    ∀ id, target = some id → ∃ e ∈ t.entries, e.id = id := by
  rintro id rfl
  simp only [targetError] at h
  split_ifs at h with hid
  obtain ⟨e, he⟩ := Option.isSome_iff_exists.mp hid
  exact ⟨e, (readEntryRow_eq_some he).1, (readEntryRow_eq_some he).2⟩

theorem newEntry_of_check (h : StoreInv uuidv7 t)
    {now : ℕ} (hid : idExists t entry.id = false) : NewEntry t (newEntryRow t entry lane now) where
  id e he heq := by
    simp only [idExists, Bool.or_eq_false_iff, idExistsInEntries, any_eq_false] at hid
    exact hid.1 e he (decide_eq_true heq)
  seq := rfl
  parent p hp := by
    simp only [newEntryRow, Option.bind_eq_some_iff] at hp
    obtain ⟨row, hrow, hleaf⟩ := hp
    exact h.lanes.leaf row (readLane_eq_some hrow).1 p hleaf
  type := rfl

theorem lt_succ_of_forall {α : Type} {key : α → ℕ} {l : List α} {n : ℕ}
    (h : ∀ r ∈ l, key r < n) : ∀ r ∈ l, key r < n + 1 :=
  fun r hr => (h r hr).trans (Nat.lt_succ_self n)

theorem lt_succ_of_append {α : Type} {key : α → ℕ} {l : List α} {n : ℕ} {x : α}
    (h : ∀ r ∈ l, key r < n) (hx : key x = n) : ∀ r ∈ l ++ [x], key r < n + 1 := by
  intro r hr
  rcases mem_append.mp hr with hr | hr
  · exact lt_succ_of_forall h r hr
  · rw [mem_singleton.mp hr, hx]
    exact Nat.lt_succ_self n

theorem NumbersInv.commitOp (h : NumbersInv t) (op : StorageOp) : NumbersInv (commitOp t op) := by
  have hr := lt_succ_of_forall h.records
  have hm := lt_succ_of_forall h.laneMoves
  have hf := lt_succ_of_forall h.facts
  cases op with
  | createLane | moveLane => exact ⟨hr, lt_succ_of_append h.laneMoves rfl, hf⟩
  | appendEntry => exact ⟨hr, hm, hf⟩
  | appendRecord => exact ⟨lt_succ_of_append h.records rfl, hm, hf⟩
  | setName | setLabel => exact ⟨hr, hm, lt_succ_of_append h.facts rfl⟩

theorem openOperationAfter_lane (record : NewRecord) (r : LaneRow) :
    (openOperationAfter record r).lane = r.lane ∧ (openOperationAfter record r).leafId = r.leafId := by
  obtain ⟨id, lane, data⟩ := record
  cases data with
  | operationFinished runId =>
    simp only [openOperationAfter]
    constructor <;> split_ifs <;> rfl
  | _ => exact ⟨rfl, rfl⟩

theorem LanesInv.commitOp (h : StoreInv uuidv7 t) (hop : checkOp t op = none) : LanesInv (commitOp t op) := by
  cases op with
  | createLane lane at_ =>
    simp only [checkOp] at hop
    split_ifs at hop with hlane
    refine ⟨?_, fun row hrow id hid => ?_⟩
    · simp only [Sqlite.commitOp, map_append, map_cons, map_nil]
      refine nodup_append.mpr ⟨h.lanes.nodup, by simp, fun a ha b hb => ?_⟩
      obtain ⟨r, hr, rfl⟩ := mem_map.mp ha
      rw [mem_singleton.mp hb]
      rintro rfl
      exact hlane (by rw [h.lanes.readLane hr]; rfl)
    · rcases mem_append.mp hrow with hrow | hrow
      · exact h.lanes.leaf row hrow id hid
      · rw [mem_singleton.mp hrow] at hid
        exact targetError_eq_none hop id hid
  | moveLane lane to_ =>
    simp only [checkOp] at hop
    split_ifs at hop with hlane
    have := h.lanes.setLane lane (fun r => { r with leafId := to_ }) (fun _ => rfl)
      (fun _ he => he) fun _ _ id hid => targetError_eq_none hop id hid
    exact ⟨this.nodup, this.leaf⟩
  | appendEntry entry lane now =>
    have := h.lanes.setLane lane (fun r => { r with leafId := some entry.id }) (fun _ => rfl)
      (fun e he => mem_append_left [newEntryRow t entry lane now] he)
      fun _ _ id hid => ⟨newEntryRow t entry lane now, by simp, Option.some.inj hid⟩
    exact ⟨this.nodup, this.leaf⟩
  | appendRecord record now =>
    have := h.lanes.setLane record.lane _ (fun r => (openOperationAfter_lane record r).1)
      (fun _ he => he) fun r hr id hid => h.lanes.leaf r hr id
        ((openOperationAfter_lane record r).2 ▸ hid)
    exact ⟨this.nodup, this.leaf⟩
  | setName | setLabel => exact ⟨h.lanes.nodup, h.lanes.leaf⟩

theorem cacheInv_of_eq {t' : Tables} (h : CacheInv uuidv7 t) (he : t'.entries = t.entries)
    (hseq : t.nextSeq ≤ t'.nextSeq) (hb : t'.branchEntries = t.branchEntries)
    (ht : t'.branchTips = t.branchTips) (hu : t'.uuids = t.uuids) : CacheInv uuidv7 t' where
  entries := ⟨he ▸ h.entries.wf, by
    rw [he]; exact fun e hem => (h.entries.seq_lt e hem).trans_le hseq, he ▸ h.entries.type⟩
  branches := ⟨ht ▸ h.branches.tips_nodup, ht ▸ h.branches.branches_nodup, by
    rw [ht, he, hb]; exact h.branches.rows, by rw [ht, hb]; exact h.branches.owner, by
    rw [ht, hu]; exact h.branches.made⟩
  tip_iff := by rw [TipsInv, ht, he]; exact h.tip_iff

theorem requireTarget_run (target : Option String) :
    (requireTarget target).run t = match targetError t target with
      | none => .ok ((), t)
      | some error => .error (.session error) := by
  cases target with
  | none => rfl
  | some id =>
    simp only [requireTarget, run_get_bind, targetError]
    cases readEntryRow t id <;> rfl

theorem requireLane_run (lane : String) : (requireLane lane).run t = if (readLane t lane).isSome then .ok ((), t)
      else .error (.session ⟨.invalidLane, "Lane not found: " ++ lane⟩) := by
  simp only [requireLane, run_get_bind]
  cases readLane t lane <;> rfl

theorem insertLane_ok (h : NumbersInv t) (hlane : readLane t lane = none) (leafId : Option String) :
    (insertLane t.nextSeq lane leafId).run t = .ok ((), { t with
      lanes := t.lanes ++ [⟨lane, leafId, none⟩]
      laneMoves := t.laneMoves ++ [⟨t.nextSeq, lane, leafId⟩] }) := by
  have hnone : (t.lanes.any fun r => r.lane = lane) = false := by
    simpa [readLane, any_eq_false] using hlane
  simp only [insertLane, createInitialLane, bind_assoc, run_get_bind, hnone]
  exact appendLaneMove_ok (t := { t with lanes := t.lanes ++ [⟨lane, leafId, none⟩] })
    ⟨h.records, h.laneMoves, h.facts⟩ lane leafId

theorem createLane_run (h : NumbersInv t) (lane : String) (at_ : Option String) :
    (createLane lane at_).run t = match checkOp t (.createLane lane at_) with
      | none => .ok ((), commitOp t (.createLane lane at_))
      | some error => .error (.session error) := by
  simp only [createLane, run_get_bind, checkOp]
  cases hlane : readLane t lane with
  | some row => rfl
  | none =>
    simp only [Option.isSome_none, Bool.false_eq_true, if_false]
    have htgt := requireTarget_run (t := t) at_
    cases ht : targetError t at_ with
    | some error => rw [ht] at htgt; exact run_bind_error htgt
    | none =>
      rw [ht] at htgt
      rw [run_bind_ok htgt, run_get_bind, run_bind_ok (insertLane_ok h hlane at_)]
      rfl

theorem moveLane_run (h : StoreInv uuidv7 t) (lane : String) (to_ : Option String) :
    (moveLane lane to_).run t = match checkOp t (.moveLane lane to_) with
      | none => .ok ((), commitOp t (.moveLane lane to_))
      | some error => .error (.session error) := by
  have hreq := requireLane_run (t := t) lane
  simp only [moveLane, checkOp]
  cases hlane : (readLane t lane).isSome with
  | false => rw [hlane] at hreq; exact run_bind_error hreq
  | true =>
    rw [hlane] at hreq
    rw [run_bind_ok hreq]
    have htgt := requireTarget_run (t := t) to_
    cases ht : targetError t to_ with
    | some error => rw [ht] at htgt; exact run_bind_error htgt
    | none =>
      rw [ht] at htgt
      rw [run_bind_ok htgt, run_get_bind, updateLane, bind_assoc, run_bind_ok (setLaneLeaf_ok h.lanes hlane to_),
        run_bind_ok (appendLaneMove_ok
          (t := { t with lanes := setLane t.lanes lane fun r => { r with leafId := to_ } })
          ⟨h.numbers.records, h.numbers.laneMoves, h.numbers.facts⟩ lane to_)]
      rfl

theorem setName_run (h : NumbersInv t) (name : Option String) :
    (setName name).run t = .ok ((), commitOp t (.setName name)) := by
  rw [setName, run_get_bind, run_bind_ok (appendFact_ok h .name none name)]
  rfl

theorem setLabel_run (h : NumbersInv t) (id : String) (label : Option String) :
    (setLabel id label).run t = match checkOp t (.setLabel id label) with
      | none => .ok ((), commitOp t (.setLabel id label))
      | some error => .error (.session error) := by
  have htgt := requireTarget_run (t := t) (some id)
  simp only [setLabel, checkOp]
  cases ht : targetError t (some id) with
  | some error => rw [ht] at htgt; exact run_bind_error htgt
  | none =>
    rw [ht] at htgt
    rw [run_bind_ok htgt, run_get_bind, run_bind_ok (appendFact_ok h .label (some id) label)]
    rfl

theorem setLane_self (lanes : List LaneRow) (lane : String) : setLane lanes lane (fun r => r) = lanes := by
  simp [setLane]

theorem idExists_false {id : String} (h : idExists t id = false) : ∀ r ∈ t.records, r.id ≠ id := by
  simp only [idExists, Bool.or_eq_false_iff, idExistsInRecords, any_eq_false] at h
  exact fun r hr heq => h.2 r hr (decide_eq_true heq)

theorem appendRecord_run (h : StoreInv uuidv7 t) (record : NewRecord) (now : ℕ) :
    (appendRecord record now).run t = match checkOp t (.appendRecord record now) with
      | none => .ok (⟨record, t.nextSeq, now⟩, commitOp t (.appendRecord record now))
      | some error => .error (.session error) := by
  have hreq := requireLane_run (t := t) record.lane
  simp only [appendRecord, checkOp]
  cases hlane : readLane t record.lane with
  | none => rw [hlane] at hreq; exact run_bind_error hreq
  | some row =>
    rw [hlane] at hreq
    rw [run_bind_ok hreq]
    cases hid : idExists t record.id with
    | true => exact run_bind_error (assertUnusedId_error hid)
    | false =>
      rw [run_bind_ok (assertUnusedId_ok hid), run_get_bind]
      have hrecs := idExists_false hid
      obtain ⟨id, lane, data⟩ := record
      -- the record's row is written whatever happened to the lane
      have happ : ∀ lanes (r : RecordRow), r.seq = t.nextSeq → r.id = id →
          (appendRecordRow r).run { t with lanes := lanes } =
            .ok ((), { t with lanes := lanes, records := t.records ++ [r] }) :=
        fun lanes r hseq hrid => appendRecordRow_ok (t := { t with lanes := lanes })
          ⟨h.numbers.records, h.numbers.laneMoves, h.numbers.facts⟩ hseq (hrid ▸ hrecs)
      have hpl := happ t.lanes
      cases data with
      | operationStarted sourceLeafId intent =>
        simp only [RecordData.type, if_true]
        cases hopen : row.openOperationId with
        | some current => exact run_bind_error (startLaneOperation_error h.lanes hlane hopen)
        | none =>
          rw [run_bind_ok (startLaneOperation_ok h.lanes hlane hopen), run_bind_ok (happ _ _ rfl rfl)]
          rfl
      | operationFinished runId outcome error =>
        simp only [RecordData.type, reduceCtorEq, if_false]
        rw [run_bind_ok (hpl _ rfl rfl), run_bind_ok (finishLaneOperation_ok lane runId)]
        rfl
      | usage cause usage =>
        simp only [RecordData.type, reduceCtorEq, if_false]
        rw [run_bind_ok (hpl _ rfl rfl)]
        simp only [commitOp, openOperationAfter, setLane_self]
        rfl
      | _ =>
        simp only [RecordData.type, reduceCtorEq, if_false]
        rw [run_bind_ok (hpl _ rfl rfl)]
        simp only [commitOp, openOperationAfter, setLane_self]
        rfl

theorem appendEntry_error (h : StoreInv uuidv7 t)
    {now : ℕ} {error : SessionError} (hop : checkOp t (.appendEntry entry lane now) = some error) :
    (appendEntry uuidv7 entry lane now).run t = .error (.session error) := by
  simp only [checkOp] at hop
  split_ifs at hop with hlane hid
  · obtain rfl := Option.some.inj hop
    have : (readLaneHead lane).run t = .error (.session ⟨.invalidLane, "Lane not found: " ++ lane⟩) := by
      simp only [readLaneHead, run_get_bind, Option.isNone_iff_eq_none.mp hlane]
      rfl
    exact run_bind_error this
  · obtain rfl := Option.some.inj hop
    obtain ⟨row, hrow⟩ := Option.ne_none_iff_exists'.mp (by simpa using hlane)
    rw [appendEntry, run_bind_ok (readLaneHead_ok h.lanes hrow)]
    exact run_bind_error (assertUnusedId_error hid)

theorem appendEntry_ok (hinj : Function.Injective uuidv7) (h : StoreInv uuidv7 t) {now : ℕ}
    (hop : checkOp t (.appendEntry entry lane now) = none) :
    ∃ be bt u, let t' := { commitOp t (.appendEntry entry lane now) with
        branchEntries := be, branchTips := bt, uuids := u }
      (appendEntry uuidv7 entry lane now).run t =
        .ok (⟨entry, t.nextSeq, (readLane t lane).bind LaneRow.leafId, now⟩, t') ∧ CacheInv uuidv7 t' := by
  simp only [checkOp] at hop
  split_ifs at hop with hlane hid
  obtain ⟨row, hrow⟩ := Option.ne_none_iff_exists'.mp (by simpa using hlane)
  rw [Bool.not_eq_true] at hid
  have hnew : NewEntry t (newEntryRow t entry lane now) := newEntry_of_check h hid
  -- the cache is called with the lane already moved to the new entry
  let lanes := setLane t.lanes lane fun r => { r with leafId := some entry.id }
  have hcac : CacheInv uuidv7 { t with lanes := lanes } := cacheInv_of_eq h.cache rfl le_rfl rfl rfl rfl
  have hnewR : NewEntry { t with lanes := lanes } (newEntryRow t entry lane now) :=
    ⟨hnew.id, hnew.seq, hnew.parent, hnew.type⟩
  obtain ⟨be, bt, u, hrun, hB, hT⟩ := appendEntryToBranchCache_ok hinj hcac hnewR
  refine ⟨be, bt, u, ?_, ?_⟩
  · have hrowE : newEntryRow t entry lane now = ⟨t.nextSeq, entry.id, row.leafId, entry.data.type, now, entry.data⟩ := by
      simp [newEntryRow, hrow]
    rw [appendEntry, run_bind_ok (readLaneHead_ok h.lanes hrow), run_bind_ok (assertUnusedId_ok hid), run_get_bind]
    dsimp only
    rw [← hrowE, run_bind_ok (insertEntryRow_ok fun e he => ⟨hnew.id e he, ?_⟩)]
    · have hlan : LanesInv { t with entries := t.entries ++ [newEntryRow t entry lane now] } :=
        ⟨h.lanes.nodup, fun r hr id hid => (h.lanes.leaf r hr id hid).imp fun e he =>
          ⟨mem_append_left _ he.1, he.2⟩⟩
      have hsome : (readLane t lane).isSome = true := by
        rw [hrow]
        rfl
      have hset := setLaneLeaf_ok hlan hsome (some entry.id)
      rw [run_bind_ok hset]
      refine (run_bind_ok hrun).trans ?_
      by_cases hm : entry.data.type = .message
      · simp only [if_pos hm, commitOp, hrow]
        rfl
      · simp only [if_neg hm, commitOp, hrow]
        rfl
    · exact (h.cache.entries.seq_lt e he).ne
  · have hE := h.cache.entries.append hnew
    exact ⟨⟨hE.wf, hE.seq_lt, hE.type⟩, ⟨hB.tips_nodup, hB.branches_nodup, hB.rows, hB.owner, hB.made⟩, hT⟩

theorem runOp_error (h : StoreInv uuidv7 t) {error : SessionError}
    (hop : checkOp t op = some error) : (runOp uuidv7 op).run t = .error (.session error) := by
  cases op with
  | createLane lane at_ => exact run_bind_error (by rw [createLane_run h.numbers, hop])
  | moveLane lane to_ => exact run_bind_error (by rw [moveLane_run h, hop])
  | appendEntry entry lane now => exact run_bind_error (appendEntry_error h hop)
  | appendRecord record now => exact run_bind_error (by rw [appendRecord_run h, hop])
  | setName name => cases hop
  | setLabel id label => exact run_bind_error (by rw [setLabel_run h.numbers, hop])

/-- **An operation whose checks pass writes its rows**, and the invariant is kept. -/
theorem runOp_ok (hinj : Function.Injective uuidv7) (h : StoreInv uuidv7 t) (hop : checkOp t op = none) :
    ∃ be bt u, let t' := { commitOp t op with branchEntries := be, branchTips := bt, uuids := u }
      (runOp uuidv7 op).run t = .ok (opResult t op, t') ∧ StoreInv uuidv7 t' := by
  have hnum := h.numbers.commitOp op
  have hlan := LanesInv.commitOp h hop
  -- all operations but `appendEntry` leave entries and cache as they are
  have hoth : (commitOp t op).entries = t.entries →
      (commitOp t op).branchEntries = t.branchEntries → (commitOp t op).branchTips = t.branchTips →
      (commitOp t op).uuids = t.uuids → (commitOp t op).nextSeq = t.nextSeq + 1 →
      StoreInv uuidv7 (commitOp t op) := fun he hb ht hu hseq =>
    ⟨cacheInv_of_eq h.cache he (by omega) hb ht hu, hlan, hnum⟩
  cases op with
  | createLane lane at_ =>
    have hrun := createLane_run h.numbers lane at_
    rw [hop] at hrun
    exact ⟨_, _, _, run_bind_ok hrun, hoth rfl rfl rfl rfl rfl⟩
  | moveLane lane to_ =>
    have hrun := moveLane_run h lane to_
    rw [hop] at hrun
    exact ⟨_, _, _, run_bind_ok hrun, hoth rfl rfl rfl rfl rfl⟩
  | appendEntry entry lane now =>
    obtain ⟨be, bt, u, hrun, hcac⟩ := appendEntry_ok hinj h hop
    exact ⟨be, bt, u, run_bind_ok hrun, hcac, ⟨hlan.nodup, hlan.leaf⟩, ⟨hnum.records, hnum.laneMoves, hnum.facts⟩⟩
  | appendRecord record now =>
    have hrun := appendRecord_run h record now
    rw [hop] at hrun
    exact ⟨_, _, _, run_bind_ok hrun, hoth rfl rfl rfl rfl rfl⟩
  | setName name =>
    exact ⟨_, _, _, run_bind_ok (setName_run h.numbers name), hoth rfl rfl rfl rfl rfl⟩
  | setLabel id label =>
    have hrun := setLabel_run h.numbers id label
    rw [hop] at hrun
    exact ⟨_, _, _, run_bind_ok hrun, hoth rfl rfl rfl rfl rfl⟩

end Operations

end EasyPi.Sqlite
