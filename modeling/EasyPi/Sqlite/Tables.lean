/-
# The tables of the SQLite session backend

The rows one session has in the tables of `migrations/001_initial.sql`, and
the statements of `packages/session-backends/sqlite-node/src/sqlite/storage`
over them. Every statement of the source selects by `session_id`, so the model
keeps the rows of one session and drops that column. The session's rows of
`session_sequences` and `session_stats` exist from its creation to its
deletion; they are fields. A `payload` column is the value its JSON text
encodes.

A statement fails when it would break a `PRIMARY KEY` or `UNIQUE` constraint.
What runs in `SqlM` runs in a transaction: an error drops all its writes.
-/
import EasyPi.Session.Types
import Mathlib.Data.List.Sort

namespace EasyPi.Sqlite

open Session

/-! ### Rows -/

/-- A row of `entries`. -/
structure EntryRow where
  seq : ℕ
  id : String
  parentId : Option String
  type : EntryType
  timestamp : ℕ
  payload : EntryData
  deriving DecidableEq

/-- A row of `records`. -/
structure RecordRow where
  seq : ℕ
  id : String
  lane : String
  runId : Option String
  type : RecordType
  opKind : Option OperationKind
  timestamp : ℕ
  payload : NewRecord
  deriving DecidableEq

/-- A row of `lanes`. -/
structure LaneRow where
  lane : String
  leafId : Option String
  openOperationId : Option String
  deriving DecidableEq

/-- A row of `lane_moves`. -/
structure LaneMoveRow where
  seq : ℕ
  lane : String
  leafId : Option String
  deriving DecidableEq

/-- The values of `facts.kind`. -/
inductive FactKind where
  | name | label
  deriving DecidableEq, Repr

/-- A row of `facts`. -/
structure FactRow where
  seq : ℕ
  kind : FactKind
  key : Option String
  value : Option String
  deriving DecidableEq

/-- A row of `branch_entries`. -/
structure BranchEntryRow where
  branchId : String
  entryId : String
  entrySeq : ℕ
  entryType : EntryType
  customType : Option String
  deriving DecidableEq

/-- A row of `branch_tips`. -/
structure BranchTipRow where
  branchId : String
  tipId : String
  deriving DecidableEq

/-- The rows of one session. `uuids` counts the ids `uuidv7` has made. -/
structure Tables where
  nextSeq : ℕ := 1
  entries : List EntryRow := []
  records : List RecordRow := []
  lanes : List LaneRow := []
  laneMoves : List LaneMoveRow := []
  facts : List FactRow := []
  branchEntries : List BranchEntryRow := []
  branchTips : List BranchTipRow := []
  stats : SessionStats := {}
  uuids : ℕ := 0
  deriving DecidableEq

/-- What a statement or the code around it throws. -/
inductive SqliteError where
  | session (error : SessionError)
  | constraint (table : String)
  deriving DecidableEq

/-- The code of a `SessionError`; other errors have none. -/
def SqliteError.code? : SqliteError → Option SessionErrorCode
  | .session error => some error.code
  | .constraint _ => none

abbrev SqlM := StateT Tables (Except SqliteError)

variable {α : Type}

/-- `throw new SessionError(code, message)`. -/
def throwSession (code : SessionErrorCode) (message : String) : SqlM α := throw (.session ⟨code, message⟩)

/-- `ORDER BY key ASC` or `DESC`. -/
def orderBy (key : α → ℕ) (order : EntryOrder) (rows : List α) : List α :=
  match order with
  | .oldestFirst => rows.mergeSort fun a b => key a ≤ key b
  | .newestFirst => rows.mergeSort fun a b => key a ≥ key b

/-- `ORDER BY key` on a text column. -/
def orderByText (key : α → String) (rows : List α) : List α := rows.mergeSort fun a b => key a ≤ key b

/-- `LIMIT n`, without limit when `n` is negative. -/
def limitRows (limit : Option ℤ) (rows : List α) : List α :=
  match limit with
  | none => rows
  | some n => if n < 0 then rows else rows.take n.toNat

def insertEntryRow (row : EntryRow) : SqlM Unit := do
  if (← get).entries.any fun r => r.id = row.id ∨ r.seq = row.seq then
    throw (.constraint "entries")
  modify fun t => { t with entries := t.entries ++ [row] }

variable (t : Tables)

def readEntryRow (entryId : String) : Option EntryRow := t.entries.find? fun r => r.id = entryId

def readEntryRows (afterSeq cursor : Option ℤ) (type : Option EntryType)
    (order : EntryOrder) (limit : Option ℤ) : List EntryRow :=
  limitRows limit <| orderBy EntryRow.seq order <| t.entries.filter fun r =>
    (afterSeq.all fun after => (r.seq : ℤ) > after) &&
    (cursor.all fun c => if order = .oldestFirst then (r.seq : ℤ) > c else (r.seq : ℤ) < c) &&
    (type.all fun type => r.type = type)

def idExistsInEntries (id : String) : Bool := t.entries.any fun r => r.id = id

def appendRecordRow (row : RecordRow) : SqlM Unit := do
  if (← get).records.any fun r => r.id = row.id ∨ r.seq = row.seq then
    throw (.constraint "records")
  modify fun t => { t with records := t.records ++ [row] }

def idExistsInRecords (id : String) : Bool := t.records.any fun r => r.id = id

/-- `readRecordRows`. A comparison with `NULL` does not hold. -/
def readRecordRows (query : RecordQuery) : List RecordRow :=
  limitRows query.limit <| orderBy RecordRow.seq query.order <| t.records.filter fun r =>
    (query.lane.all fun lane => r.lane = lane) &&
    (query.type.all fun type => r.type = type) &&
    (query.runId.all fun runId => r.runId = some runId) &&
    (query.operationKind.all fun kind => r.opKind = some kind) &&
    (query.afterSeq.all fun after => (r.seq : ℤ) > after)

/-! ### lanes -/

def readLane (lane : String) : Option LaneRow := t.lanes.find? fun r => r.lane = lane

def createInitialLane (lane : String := "main") (leafId : Option String := none) : SqlM Unit := do
  if (← get).lanes.any fun r => r.lane = lane then throw (.constraint "lanes")
  modify fun t => { t with lanes := t.lanes ++ [⟨lane, leafId, none⟩] }

def appendLaneMove (seq : ℕ) (lane : String) (leafId : Option String) : SqlM Unit := do
  if (← get).laneMoves.any fun r => r.seq = seq then throw (.constraint "lane_moves")
  modify fun t => { t with laneMoves := t.laneMoves ++ [⟨seq, lane, leafId⟩] }

/-- `createLane` of `storage/lanes.ts`. -/
def insertLane (seq : ℕ) (lane : String) (leafId : Option String) : SqlM Unit := do
  createInitialLane lane leafId
  appendLaneMove seq lane leafId

/-- `UPDATE lanes SET … WHERE …`, returning `result.changes`. -/
def updateLanes (where_ : LaneRow → Bool) (set : LaneRow → LaneRow) : SqlM ℕ := do
  let changes := ((← get).lanes.filter where_).length
  modify fun t => { t with lanes := t.lanes.map fun r => if where_ r then set r else r }
  return changes

def setLaneLeaf (lane : String) (leafId : Option String) : SqlM Unit := do
  let changes ← updateLanes (fun r => r.lane = lane) fun r => { r with leafId := leafId }
  if changes ≠ 1 then throwSession .invalidLane ("Lane not found: " ++ lane)

/-- `moveLane` of `storage/lanes.ts`. -/
def updateLane (seq : ℕ) (lane : String) (leafId : Option String) : SqlM Unit := do
  setLaneLeaf lane leafId
  appendLaneMove seq lane leafId

/-- `leaf_id IS NULL OR EXISTS (SELECT 1 FROM entries …)`. -/
def leafExists (row : LaneRow) : Bool := row.leafId.all fun id => t.entries.any fun e => e.id = id

def readLanes : SqlM (List LaneRow) := do
  let t ← get
  let rows := orderByText LaneRow.lane t.lanes
  match rows.find? fun r => !leafExists t r with
  | some row =>
    throwSession .storage
      ("Lane " ++ row.lane ++ " points at missing entry " ++ row.leafId.getD "null")
  | none => return rows

def readLaneHead (lane : String) : SqlM (Option String) := do
  let t ← get
  match readLane t lane with
  | none => throwSession .invalidLane ("Lane not found: " ++ lane)
  | some row =>
    if !leafExists t row then
      throwSession .storage ("Entry " ++ row.leafId.getD "null" ++ " not found")
    return row.leafId

def startLaneOperation (lane runId : String) : SqlM Unit := do
  let changes ← updateLanes (fun r => r.lane = lane ∧ r.openOperationId = none)
    fun r => { r with openOperationId := some runId }
  if changes ≠ 1 then
    match readLane (← get) lane with
    | none => throwSession .invalidLane ("Lane not found: " ++ lane)
    | some current => throwSession .storage ("Lane " ++ lane ++
        " already has an open operation " ++ current.openOperationId.getD "null")

def finishLaneOperation (lane runId : String) : SqlM Unit := do
  let _ ← updateLanes (fun r => r.lane = lane ∧ r.openOperationId = some runId)
    fun r => { r with openOperationId := none }

def readLaneMoveRows (afterSeq : ℤ) (limit : Option ℤ) : List LaneMoveRow :=
  limitRows limit <| orderBy LaneMoveRow.seq .oldestFirst <| t.laneMoves.filter fun r =>
    (r.seq : ℤ) > afterSeq

/-- `readOpenOperationRows`. An id that is the empty string is falsy, as `NULL` is. -/
def readOpenOperationRows (lane : String) : Except SqliteError (List RecordRow) :=
  match (readLane t lane).bind LaneRow.openOperationId with
  | none => return []
  | some id =>
    if id = "" then return []
    else match t.records.find? fun r => r.id = id with
      | none => throw (.session ⟨.storage, "Lane " ++ lane ++ " points at missing open operation " ++ id⟩)
      | some record =>
        if record.lane ≠ lane ∨ record.type ≠ .operationStarted then
          throw (.session ⟨.storage, "Lane " ++ lane ++ " points at invalid open operation " ++ id⟩)
        else return [record]

def appendFact (seq : ℕ) (kind : FactKind) (key value : Option String) : SqlM Unit := do
  if (← get).facts.any fun r => r.seq = seq then throw (.constraint "facts")
  modify fun t => { t with facts := t.facts ++ [⟨seq, kind, key, value⟩] }

def readLatestFact (kind : FactKind) (key : Option String) : Option FactRow :=
  (orderBy FactRow.seq .newestFirst
    (t.facts.filter fun r => r.kind = kind ∧ r.key = key)).head?

/-- `readLatestLabelFacts`: of each key the latest label, if it is set. -/
def readLatestLabelFacts : List FactRow :=
  orderByText (fun r => r.key.getD "") <| t.facts.filter fun r =>
    r.kind = .label ∧ r.value.isSome ∧
    ((t.facts.filter fun c => c.kind = r.kind ∧ c.key = r.key).map FactRow.seq).max? = some r.seq

def readFactRows (afterSeq : ℤ) (limit : Option ℤ) : List FactRow :=
  limitRows limit <| orderBy FactRow.seq .oldestFirst <| t.facts.filter fun r =>
    (r.seq : ℤ) > afterSeq

def advanceSequence (seq : ℕ) : SqlM Unit := modify fun t => { t with nextSeq := seq + 1 }

def incrementMessageCount : SqlM Unit :=
  modify fun t => { t with stats := { t.stats with messageCount := t.stats.messageCount + 1 } }

def addUsageToStats (usage : Usage) : SqlM Unit :=
  modify fun t => { t with stats :=
    { t.stats with
      cachedTokens := t.stats.cachedTokens + usage.cacheRead
      uncachedTokens := t.stats.uncachedTokens + (usage.input + usage.cacheWrite)
      totalTokens := t.stats.totalTokens + usage.totalTokens
      costTotal := t.stats.costTotal + usage.costTotal } }

end EasyPi.Sqlite
