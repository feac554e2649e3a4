/-
# The SQLite storage against the in-memory storage

`Refines s t`: the tables `t` hold the state `s`. Entries and records are rows
of their own, lane moves and facts are the rows of the log's other items, and
the one `open_operation_id` of a lane names its one open operation.

Every operation fails on both sides with the same code or succeeds on both
with the same result, and the relation is kept (`Refines.runOp`,
`Refines.runOps`).
-/
import EasyPi.Sqlite.Fork

namespace EasyPi.Sqlite

open List Session

variable {uuidv7 : ℕ → String} {s : SessionState} {t : Tables} (e : Entry)

def rowOfEntry : EntryRow := ⟨e.seq, e.id, e.parentId, e.type, e.timestamp, e.data⟩

attribute [local simp] SessionState.nextSequence Memory.opMutation SessionState.commit

@[simp] theorem rowOfEntry_id : (rowOfEntry e).id = e.id := rfl
@[simp] theorem rowOfEntry_seq : (rowOfEntry e).seq = e.seq := rfl
@[simp] theorem rowOfEntry_type : (rowOfEntry e).type = e.type := rfl
@[simp] theorem rowOfEntry_parentId : (rowOfEntry e).parentId = e.parentId := rfl
@[simp] theorem rowOfEntry_payload : (rowOfEntry e).payload = e.data := rfl

def rowOfRecord (r : LaneRecord) : RecordRow :=
  ⟨r.seq, r.id, r.lane, recordRunId r.toNewRecord, r.type, recordOpKind r.toNewRecord, r.timestamp, r.toNewRecord⟩

@[simp] theorem rowOfRecord_id (r : LaneRecord) : (rowOfRecord r).id = r.id := rfl
@[simp] theorem rowOfRecord_seq (r : LaneRecord) : (rowOfRecord r).seq = r.seq := rfl

def laneMove? : LogItem → Option LaneMoveRow
  | .lane seq lane leafId => some ⟨seq, lane, leafId⟩
  | _ => none

def fact? : LogItem → Option FactRow
  | .name seq value => some ⟨seq, .name, none, value⟩
  | .label seq targetId value => some ⟨seq, .label, some targetId, value⟩
  | _ => none

structure Refines (uuidv7 : ℕ → String) (s : SessionState) (t : Tables) : Prop where
  repInv : s.RepInv
  storeInv : StoreInv uuidv7 t
  nextSeq : t.nextSeq = s.sequence + 1
  entries : t.entries = s.entries.map rowOfEntry
  records : t.records = s.records.map rowOfRecord
  laneMoves : t.laneMoves = s.log.filterMap laneMove?
  facts : t.facts = s.log.filterMap fact?
  leaf : ∀ lane, (readLane t lane).map LaneRow.leafId = s.lanes.get? lane
  open_ : ∀ lane, (openOperations s.records lane).map OperationStartedRecord.id =
    ((readLane t lane).bind LaneRow.openOperationId).toList
  stats : t.stats = s.stats

/-- The same value, or errors with the same code. -/
def Agrees {α : Type} : Except SessionError α → Except SqliteError α → Prop
  | .ok a, .ok b => a = b
  | .error e, .error e' => e'.code? = some e.code
  | _, _ => False

/-! ### Checks -/

section
variable (h : Refines uuidv7 s t)
include h

theorem readLane_isSome (lane : String) : (readLane t lane).isSome = s.lanes.has lane := by
  rw [OrdMap.has, ← h.leaf lane, Option.isSome_map]

theorem readLane_leaf (lane : String) : (readLane t lane).bind LaneRow.leafId = (s.lanes.get? lane).join := by
  rw [← h.leaf lane]
  cases readLane t lane <;> rfl

theorem readEntryRow_eq (id : String) : readEntryRow t id = (s.entriesById.get? id).map rowOfEntry := by
  cases hg : s.entriesById.get? id with
  | none =>
    refine List.find?_eq_none.mpr fun r hr => ?_
    rw [h.entries] at hr
    obtain ⟨e, he, rfl⟩ := mem_map.mp hr
    intro hid
    rw [h.repInv.ids.get?_eq_some.mpr ⟨he, of_decide_eq_true hid⟩] at hg
    cases hg
  | some e =>
    obtain ⟨he, rfl⟩ := h.repInv.ids.get?_eq_some.mp hg
    have hmem : rowOfEntry e ∈ t.entries := by
      rw [h.entries]
      exact mem_map_of_mem he
    exact h.storeInv.cache.entries.readEntryRow hmem

theorem idExists_iff (id : String) : idExists t id = true ↔ id ∈ s.usedIds := by
  rw [h.repInv.ids.usedIds, idExists, Bool.or_eq_true, idExistsInEntries, idExistsInRecords,
    h.entries, h.records, mem_append]
  simp only [any_eq_true, decide_eq_true_eq, mem_map, exists_exists_and_eq_and, rowOfEntry_id, rowOfRecord_id]

theorem targetError_eq (target : Option String) : targetError t target = Memory.targetError s target := by
  cases target with
  | none => rfl
  | some id =>
    simp only [targetError, Memory.targetError, readEntryRow_eq h, Option.isSome_map]
    rfl

theorem checkOp_code (op : StorageOp) :
    (checkOp t op).map SessionError.code = (Memory.checkOp s op).map SessionError.code := by
  cases op with
  | createLane lane at_ | moveLane lane to_ =>
    simp only [checkOp, Memory.checkOp, readLane_isSome h, targetError_eq h]
  | appendEntry entry lane now =>
    have hlane := readLane_isSome h lane
    simp only [checkOp, Memory.checkOp, idExists_iff h]
    cases hr : readLane t lane <;> simp only [hr] at hlane <;> simp [← hlane]
  | appendRecord record now =>
    have hlane := readLane_isSome h record.lane
    have hopen := h.open_ record.lane
    simp only [checkOp, Memory.checkOp, idExists_iff h]
    cases hr : readLane t record.lane with
    | none => simp [← hlane, hr]
    | some row =>
      rw [hr] at hlane hopen
      simp only [← hlane, Option.isSome_some, Bool.not_true, Bool.false_eq_true, if_false]
      split_ifs
      · rfl
      · -- the cell is the id of the open operation, so both are free or taken
        cases ho : row.openOperationId with
        | none =>
          have : openOperations s.records record.lane = [] := by simpa [ho] using hopen
          simp [this]
        | some id =>
          have hne : openOperations s.records record.lane ≠ [] := by
            rintro hnil
            simp [hnil, ho] at hopen
          simp [List.getLast?_eq_getLast_of_ne_nil hne]
      · rfl
  | setName => rfl
  | setLabel id label =>
    simp only [checkOp, Memory.checkOp, targetError_eq h]

theorem opResult_eq (op : StorageOp) : opResult t op = Memory.opResult s op := by
  cases op with
  | appendEntry entry lane now =>
    simp only [opResult, Memory.opResult, readLane_leaf h, h.nextSeq, SessionState.nextSequence]
  | appendRecord record now =>
    simp only [opResult, Memory.opResult, h.nextSeq, SessionState.nextSequence]
  | createLane | moveLane | setName | setLabel => rfl

end

/-! ### Writes -/

theorem find?_setLane (lanes : List LaneRow) (lane : String) (set : LaneRow → LaneRow)
    (hset : ∀ r, (set r).lane = r.lane) (l : String) :
    (setLane lanes lane set).find? (fun r => r.lane = l) = if l = lane then (lanes.find? fun r => r.lane = l).map set
      else lanes.find? fun r => r.lane = l := by
  induction lanes with
  | nil => simp [setLane]
  | cons r lanes ih =>
    rw [setLane] at ih
    rw [setLane, map_cons, List.find?_cons, List.find?_cons, ih]
    by_cases hr : r.lane = lane
    · by_cases hl : r.lane = l
      · simp [hr, ← hl, hset]
      · simp [hr, hset, hr ▸ hl]
    · by_cases hl : r.lane = l
      · simp [hr, ← hl]
      · simp [hr, hl]

/-- The row of the lane `l` after an operation. -/
def laneAfter (l : String) (row : Option LaneRow) : StorageOp → Option LaneRow
  | .createLane lane at_ => if l = lane then some ⟨lane, at_, none⟩ else row
  | .moveLane lane to_ => if l = lane then row.map fun r => { r with leafId := to_ } else row
  | .appendEntry entry lane _ =>
    if l = lane then row.map fun r => { r with leafId := some entry.id } else row
  | .appendRecord record _ => if l = record.lane then row.map (openOperationAfter record) else row
  | .setName _ | .setLabel .. => row

theorem readLane_commitOp {op : StorageOp} (hop : checkOp t op = none) (l : String) :
    readLane (commitOp t op) l = laneAfter l (readLane t l) op := by
  cases op with
  | createLane lane at_ =>
    simp only [checkOp] at hop
    split_ifs at hop with hlane
    have hnone : readLane t lane = none := by simpa using hlane
    simp only [commitOp, readLane, laneAfter, List.find?_append, List.find?_singleton]
    by_cases hl : l = lane
    · rw [hl, ← readLane, hnone]
      simp
    · simp [hl, eq_comm (a := lane)]
  | moveLane lane to_ => exact find?_setLane _ _ (fun r => { r with leafId := to_ }) (fun _ => rfl) l
  | appendEntry entry lane now =>
    exact find?_setLane _ _ (fun r => { r with leafId := some entry.id }) (fun _ => rfl) l
  | appendRecord record now =>
    exact find?_setLane _ _ _ (fun r => (openOperationAfter_lane record r).1) l
  | setName | setLabel => rfl

section
variable (h : Refines uuidv7 s t)
include h

theorem open_appendRecord {record : NewRecord} {now : ℕ}
    (hop : checkOp t (.appendRecord record now) = none) (l : String) :
    (openOperations (s.records ++ [⟨record, s.nextSequence, now⟩]) l).map
        OperationStartedRecord.id = ((readLane (commitOp t (.appendRecord record now)) l).bind
        LaneRow.openOperationId).toList := by
  have hlt : ∀ r ∈ s.records, r.seq < s.nextSequence :=
    fun r hr => Nat.lt_succ_of_le (h.repInv.log.record_le hr)
  have hold := h.open_ l
  rw [readLane_commitOp hop, laneAfter]
  simp only [checkOp] at hop
  obtain ⟨id, lane, data⟩ := record
  cases hrow : readLane t lane with
  | none => simp [hrow] at hop
  | some row =>
    simp only [hrow] at hop
    split_ifs at hop with hid hstd
    · -- a start needs a free lane
      obtain ⟨sourceLeafId, intent, rfl⟩ : ∃ sourceLeafId intent, data = .operationStarted sourceLeafId intent := by
        cases data <;> first | exact ⟨_, _, rfl⟩ | cases hstd
      rw [SessionState.openOperations_append_started l rfl hlt]
      by_cases hl : l = lane
      · subst hl
        have hfree : row.openOperationId = none := by simpa using hop
        rw [hrow] at hold ⊢
        simp [map_append, hold, hfree, openOperationAfter]
      · simp [hl, Ne.symm hl, hold]
    · cases data with
      | operationStarted => exact absurd rfl hstd
      | operationFinished runId outcome error =>
        rw [SessionState.openOperations_append_finished l rfl rfl hlt]
        by_cases hl : l = lane
        · subst hl
          rw [hrow] at hold ⊢
          simp only [if_true, Option.map_some, Option.bind_some, openOperationAfter] at hold ⊢
          cases ho : row.openOperationId with
          | none =>
            have : openOperations s.records l = [] := by simpa [ho] using hold
            simp [this, ho]
          | some current =>
            obtain ⟨op, hops, hcur⟩ : ∃ op, openOperations s.records l = [op] ∧ op.id = current := by
              simpa [ho, map_eq_singleton_iff] using hold
            by_cases hc : current = runId <;> simp [hops, hcur, hc, ho]
        · simp [hl, Ne.symm hl, hold]
      | _ =>
        rw [SessionState.openOperations_append_other l rfl (by rintro ⟨⟩), hold]
        simp [openOperationAfter]

theorem leaf_commitOp {op : StorageOp} (hop : checkOp t op = none)
    (l : String) : (readLane (commitOp t op) l).map LaneRow.leafId =
      (s.commit (Memory.opMutation s op)).lanes.get? l := by
  have hold := h.leaf l
  -- a lane that is moved or appended to exists
  have hset : ∀ lane (leafId : Option String), (readLane t lane).isSome = true →
      (if l = lane then (readLane t l).map fun r => { r with leafId := leafId }
        else readLane t l).map LaneRow.leafId = (s.lanes.set lane leafId).get? l := by
    intro lane leafId hsome
    obtain ⟨row, hrow⟩ := Option.isSome_iff_exists.mp hsome
    rw [OrdMap.get?_set]
    by_cases hl : l = lane
    · subst hl
      simp [hrow]
    · simp [hl, hold]
  rw [readLane_commitOp hop]
  cases op with
  | createLane lane at_ =>
    simp only [laneAfter, Memory.opMutation, SessionState.commit, OrdMap.get?_set]
    by_cases hl : l = lane <;> simp [hl, hold]
  | moveLane lane to_ =>
    simp only [checkOp] at hop
    split_ifs at hop with hlane
    exact hset lane to_ hlane
  | appendEntry entry lane now =>
    simp only [checkOp] at hop
    split_ifs at hop with hlane hid
    exact hset lane (some entry.id) (by simpa [Option.isSome_iff_ne_none] using hlane)
  | appendRecord record now =>
    rw [laneAfter]
    refine Eq.trans ?_ hold
    split_ifs with hl
    · cases readLane t l <;> simp [(openOperationAfter_lane record _).2]
    · rfl
  | setName | setLabel => exact hold

theorem open_commitOp {op : StorageOp} (hop : checkOp t op = none)
    (l : String) : (openOperations (s.commit (Memory.opMutation s op)).records l).map
        OperationStartedRecord.id = ((readLane (commitOp t op) l).bind LaneRow.openOperationId).toList := by
  have hold := h.open_ l
  cases op with
  | appendRecord record now => exact open_appendRecord h hop l
  | createLane lane at_ =>
    rw [readLane_commitOp hop, laneAfter]
    simp only [checkOp] at hop
    split_ifs at hop with hlane
    refine hold.trans ?_
    split_ifs with hl
    · subst hl
      rw [Option.not_isSome_iff_eq_none.mp hlane]
      rfl
    · rfl
  | moveLane lane to_ | appendEntry entry lane now =>
    rw [readLane_commitOp hop, laneAfter]
    refine hold.trans ?_
    split_ifs <;> cases readLane t l <;> rfl
  | setName | setLabel => exact hold

theorem Refines.commitOp {op : StorageOp} (hop : checkOp t op = none)
    (hmem : Memory.checkOp s op = none) {be : List BranchEntryRow} {bt : List BranchTipRow} {u : ℕ}
    (hinv : StoreInv uuidv7 { commitOp t op with branchEntries := be, branchTips := bt, uuids := u }) :
    Refines uuidv7 (s.commit (Memory.opMutation s op))
      { commitOp t op with branchEntries := be, branchTips := bt, uuids := u } := by
  have hrep := h.repInv.commit (Memory.checkMutation_of_checkOp h.repInv hmem)
  have hseq := h.nextSeq
  refine ⟨hrep, hinv, ?_, ?_, ?_, ?_, ?_, leaf_commitOp h hop, open_commitOp h hop, ?_⟩
  · cases op <;> simp [Sqlite.commitOp, hseq]
  · cases op with
    | appendEntry entry lane now =>
      simp [Sqlite.commitOp, h.entries, newEntryRow, rowOfEntry, readLane_leaf h, hseq]
    | createLane | moveLane | appendRecord | setName | setLabel => exact h.entries
  · cases op with
    | appendRecord record now =>
      simp [Sqlite.commitOp, h.records, rowOfRecord, hseq]
    | createLane | moveLane | appendEntry | setName | setLabel => exact h.records
  · rw [SessionState.commit_log, filterMap_append, ← h.laneMoves]
    cases op <;> simp [Sqlite.commitOp, SessionState.logItem, laneMove?, hseq]
  · rw [SessionState.commit_log, filterMap_append, ← h.facts]
    cases op <;> simp [Sqlite.commitOp, SessionState.logItem, fact?, hseq]
  · cases op with
    | appendRecord record now => exact congrArg (statsAfter record) h.stats
    | createLane | moveLane | appendEntry | setName | setLabel =>
      simp [Sqlite.commitOp, h.stats]

end

/-! ### Runs -/

theorem refines_create {uuids : ℕ} (h : create uuids = .ok t) : Refines uuidv7 {} t := by
  obtain rfl : ({ lanes := [⟨"main", none, none⟩], uuids := uuids } : Tables) = t := Except.ok.inj h
  refine ⟨SessionState.repInv_empty, create_storeInv h, rfl, rfl, rfl, rfl, rfl, fun l => ?_, fun l => ?_, rfl⟩
  · by_cases hl : "main" = l
    · subst hl
      rfl
    · simp [readLane, hl, OrdMap.get?, OrdMap.single, List.lookup_cons, beq_eq_false_iff_ne.mpr (Ne.symm hl)]
  · by_cases hl : "main" = l <;> simp [readLane, hl] <;> rfl

/-- A transaction: an error leaves the tables as they are. -/
def transaction {α : Type} (x : SqlM α) (t : Tables) : Except SqliteError α × Tables :=
  match x.run t with
  | .ok (a, t') => (.ok a, t')
  | .error error => (.error error, t)

theorem Refines.runOp (hinj : Function.Injective uuidv7) (h : Refines uuidv7 s t) (op : StorageOp) :
    Agrees ((Memory.runOp op).run s).1 (transaction (Sqlite.runOp uuidv7 op) t).1 ∧
      Refines uuidv7 ((Memory.runOp op).run s).2 (transaction (Sqlite.runOp uuidv7 op) t).2 := by
  have hcode := checkOp_code h op
  rw [Memory.runOp_eq h.repInv, transaction]
  cases hmem : Memory.checkOp s op with
  | some error =>
    rw [hmem] at hcode
    obtain ⟨error', hop, hsame⟩ := Option.map_eq_some_iff.mp hcode
    rw [runOp_error h.storeInv hop]
    exact ⟨congrArg some hsame, h⟩
  | none =>
    rw [hmem] at hcode
    have hop : checkOp t op = none := Option.map_eq_none_iff.mp hcode
    obtain ⟨be, bt, u, hrun, hinv⟩ := runOp_ok hinj h.storeInv hop
    rw [hrun]
    exact ⟨(opResult_eq h op).symm, h.commitOp hop hmem hinv⟩

/-- The in-memory storage after some operations, with what each of them returned. -/
def memoryRun (s : SessionState) :
    List StorageOp → List (Except SessionError StorageResult) × SessionState
  | [] => ([], s)
  | op :: ops =>
    let (result, s) := (Memory.runOp op).run s
    let (results, s) := memoryRun s ops
    (result :: results, s)

/-- The same for the SQLite storage. -/
def sqliteRun (uuidv7 : ℕ → String) (t : Tables) :
    List StorageOp → List (Except SqliteError StorageResult) × Tables
  | [] => ([], t)
  | op :: ops =>
    let (result, t) := transaction (Sqlite.runOp uuidv7 op) t
    let (results, t) := sqliteRun uuidv7 t ops
    (result :: results, t)

/-- **Any operations on both sides** agree one by one and leave both sides related. -/
theorem Refines.run (hinj : Function.Injective uuidv7) (h : Refines uuidv7 s t) (ops : List StorageOp) :
    List.Forall₂ Agrees (memoryRun s ops).1 (sqliteRun uuidv7 t ops).1 ∧
      Refines uuidv7 (memoryRun s ops).2 (sqliteRun uuidv7 t ops).2 := by
  induction ops generalizing s t with
  | nil => exact ⟨.nil, h⟩
  | cons op ops ih =>
    obtain ⟨hagree, hstep⟩ := h.runOp hinj op
    obtain ⟨hrest, hend⟩ := ih hstep
    exact ⟨.cons hagree hrest, hend⟩

end EasyPi.Sqlite
