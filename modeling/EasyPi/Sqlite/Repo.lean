/-
# The SQLite session storage

The branch cache (`branch-cache.ts`, `storage/branch-entries.ts`,
`storage/branch-tips.ts`) and the storage and the repository over the tables
(`repo.ts`): `SqliteSessionStorage` with its writer lease held, and the rows
that `create`, `fork` and `repairBranchCache` of `SqliteSessionRepository`
leave for a session.

`uuidv7 n` is the `n`-th id the generator makes.
-/
import EasyPi.Session.Memory
import EasyPi.Session.Validation
import EasyPi.Sqlite.Tables

namespace EasyPi.Sqlite

open Session

variable (uuidv7 : ℕ → String)

/-! ### branch_entries and branch_tips -/

/-- A call of `uuidv7`. -/
def newId : SqlM String := do
  let n := (← get).uuids
  modify fun t => { t with uuids := n + 1 }
  return uuidv7 n

def insertBranchEntry (row : BranchEntryRow) : SqlM Unit := do
  if (← get).branchEntries.any fun r => r.branchId = row.branchId ∧ r.entryId = row.entryId then
    throw (.constraint "branch_entries")
  modify fun t => { t with branchEntries := t.branchEntries ++ [row] }

def insertBranchTip (tipId branchId : String) : SqlM Unit := do
  if (← get).branchTips.any fun r => r.tipId = tipId ∨ r.branchId = branchId then
    throw (.constraint "branch_tips")
  modify fun t => { t with branchTips := t.branchTips ++ [⟨branchId, tipId⟩] }

def readBranchTipIds (t : Tables) : List String := (orderByText BranchTipRow.tipId t.branchTips).map BranchTipRow.tipId

def readBranchTipBranchId (t : Tables) (tipId : String) : Option String :=
  (t.branchTips.find? fun r => r.tipId = tipId).map BranchTipRow.branchId

/-- `updateBranchTip`: whether one row was changed. -/
def updateBranchTip (branchId oldTipId newTipId : String) : SqlM Bool := do
  let t ← get
  let matches_ (r : BranchTipRow) : Bool := r.branchId = branchId ∧ r.tipId = oldTipId
  if t.branchTips.any matches_ ∧ t.branchTips.any fun r => r.tipId = newTipId then
    throw (.constraint "branch_tips")
  modify fun t => { t with
    branchTips := t.branchTips.map fun r => if matches_ r then { r with tipId := newTipId } else r }
  return (t.branchTips.filter matches_).length = 1

structure CachedBranch where
  branchId : String
  leafSeq : ℕ

/-- `readCachedBranch` and `readBranchContainingEntry`: the first branch with an entry. -/
def readCachedBranch (t : Tables) (entryId : String) : Option CachedBranch :=
  (orderByText BranchEntryRow.branchId (t.branchEntries.filter fun r => r.entryId = entryId)).head?.map
    fun r => ⟨r.branchId, r.entrySeq⟩

def queryCachedBranchRows (t : Tables) (branch : CachedBranch) (query : EntryQuery)
    (bounds : BranchBounds) : List EntryRow :=
  let onBranch := t.branchEntries.filter fun b =>
    b.branchId = branch.branchId ∧ b.entrySeq ≤ branch.leafSeq
  let stops := (onBranch.filter fun stop =>
    (bounds.stopAtType.any fun type => stop.entryType = type) ||
    (bounds.stopAtId.any fun id => stop.entryId = id)).map BranchEntryRow.entrySeq
  let inBounds (b : BranchEntryRow) : Bool :=
    if bounds.stopAtType = none ∧ bounds.stopAtId = none then true
    else match query.order with
      | .oldestFirst => b.entrySeq ≤ stops.min?.getD branch.leafSeq
      | .newestFirst => b.entrySeq ≥ stops.max?.getD 0
  let rows := onBranch.filter fun b => inBounds b &&
    (query.cursor.all fun c =>
      if query.order = .oldestFirst then (b.entrySeq : ℤ) > c else (b.entrySeq : ℤ) < c) &&
    (query.type.all fun type => b.entryType = type) &&
    (query.customType.all fun customType => b.customType = some customType)
  let joined := rows.flatMap fun b => (t.entries.filter fun e => e.id = b.entryId).map fun e => (b, e)
  (limitRows query.limit (orderBy (fun p => p.1.entrySeq) query.order joined)).map Prod.snd

def copyBranchEntriesThroughSeq (targetBranchId sourceBranchId : String) (throughSeq : ℕ) :
    SqlM Unit := do
  let t ← get
  let rows := (t.branchEntries.filter fun r =>
    r.branchId = sourceBranchId ∧ r.entrySeq ≤ throughSeq).map
      fun r => { r with branchId := targetBranchId }
  if rows.any fun row => t.branchEntries.any fun r =>
      r.branchId = row.branchId ∧ r.entryId = row.entryId then
    throw (.constraint "branch_entries")
  modify fun t => { t with branchEntries := t.branchEntries ++ rows }

def customTypeFromPayload (row : EntryRow) : SqlM (Option String) :=
  if row.type ≠ .custom then return none
  else match row.payload.customType? with
    | some customType => return some customType
    | none => throwSession .invalidEntry ("Invalid SQLite session entry " ++ row.id ++
        ": failed to decode entry " ++ row.id)

/-- The `while` loop of `insertBranchEntriesForPath`, from the leaf to the
root. Each turn sees another row, so with a turn for each row and one more the
fuel is not spent. -/
def branchPath (t : Tables) : ℕ → List String → Option String → SqlM (List EntryRow)
  | _, _, none => return []
  | 0, _, some entryId => throwSession .invalidEntry ("Entry parent cycle at " ++ entryId)
  | fuel + 1, seen, some entryId =>
    if entryId ∈ seen then throwSession .invalidEntry ("Entry parent cycle at " ++ entryId)
    else match readEntryRow t entryId with
      | none => throwSession .invalidEntry ("Entry " ++ entryId ++ " not found")
      | some row => do return row :: (← branchPath t fuel (entryId :: seen) row.parentId)

def insertBranchEntriesForPath (branchId leafId : String) : SqlM Unit := do
  let t ← get
  let path ← branchPath t (t.entries.length + 1) [] (some leafId)
  path.reverse.forM fun row => do
    insertBranchEntry ⟨branchId, row.id, row.seq, row.type, ← customTypeFromPayload row⟩

def deleteBranchCache : SqlM Unit := modify fun t => { t with branchEntries := [], branchTips := [] }

/-- `buildCachedBranch`. An error undoes the work since the savepoint. -/
def buildCachedBranch (leafId : String) : SqlM Unit := do
  try
    let branchId ← newId uuidv7
    insertBranchEntriesForPath branchId leafId
    insertBranchTip leafId branchId
  catch
    | .session error => throw (.session error)
    | .constraint _ =>
      throwSession .storage ("Failed to build SQLite branch cache at entry " ++ leafId)

def rebuildBranchCache : SqlM Unit := do
  let t ← get
  let tips := orderBy EntryRow.seq .oldestFirst <| t.entries.filter fun leaf =>
    !t.entries.any fun child => child.parentId = some leaf.id
  deleteBranchCache
  tips.forM fun tip => buildCachedBranch uuidv7 tip.id

def extendBranch (branchId parentId : String) (entry : EntryRow) (customType : Option String) :
    SqlM Unit := do
  insertBranchEntry ⟨branchId, entry.id, entry.seq, entry.type, customType⟩
  if !(← updateBranchTip branchId parentId entry.id) then
    throwSession .invalidEntry ("Branch tip " ++ parentId ++ " changed during append")

def appendEntryToBranchCache (entry : EntryRow) (customType : Option String) : SqlM Unit := do
  match entry.parentId with
  | none =>
    let branchId ← newId uuidv7
    insertBranchEntry ⟨branchId, entry.id, entry.seq, entry.type, customType⟩
    insertBranchTip entry.id branchId
  | some parentId =>
    match readBranchTipBranchId (← get) parentId with
    | some tipBranchId => extendBranch tipBranchId parentId entry customType
    | none =>
      match readCachedBranch (← get) parentId with
      | none =>
        throwSession .invalidEntry
          ("Branch cache has no branch containing parent entry " ++ parentId)
      | some source =>
        let branchId ← newId uuidv7
        copyBranchEntriesThroughSeq branchId source.branchId source.leafSeq
        insertBranchEntry ⟨branchId, entry.id, entry.seq, entry.type, customType⟩
        insertBranchTip entry.id branchId

def recordRunId (record : NewRecord) : Option String :=
  if record.data.type = .operationStarted then some record.id else record.data.runId?

def recordOpKind (record : NewRecord) : Option OperationKind := record.data.operationKind?

/-- `decodeEntry`. A payload written for another type lacks the fields of the row's type. -/
def decodeEntry (row : EntryRow) : Except SqliteError Entry :=
  if row.payload.type = row.type ∧ durableEntry row.payload then
    .ok ⟨⟨row.id, row.payload⟩, row.seq, row.parentId, row.timestamp⟩
  else .error (.session ⟨.invalidEntry, "Invalid SQLite session entry " ++ row.id ++
    ": failed to decode entry " ++ row.id⟩)

def decodeRecord (row : RecordRow) : Except SqliteError LaneRecord :=
  if durableRecord row.payload.data ∧ row.payload.id = row.id ∧ row.payload.data.type = row.type ∧
      row.payload.lane = row.lane ∧ recordRunId row.payload = row.runId ∧
      recordOpKind row.payload = row.opKind then
    .ok ⟨row.payload, row.seq, row.timestamp⟩
  else .error (.session ⟨.storage, "Invalid SQLite session record at sequence " ++
    toString row.seq ++ ": failed to decode payload"⟩)

/-! ### Writes -/

def assertUnusedId (id : String) : SqlM Unit := do
  let t ← get
  if idExistsInEntries t id || idExistsInRecords t id then
    throwSession .alreadyExists ("ID already exists: " ++ id)

/-- `if (!readLane(…)) throw`. -/
def requireLane (lane : String) : SqlM Unit := do
  if (readLane (← get) lane).isNone then throwSession .invalidLane ("Lane not found: " ++ lane)

/-- `if (target !== null && !readEntryRow(…)) throw`. -/
def requireTarget (target : Option String) : SqlM Unit := do
  let t ← get
  match target with
  | none => pure ()
  | some id => if (readEntryRow t id).isNone then throwSession .notFound ("Entry not found: " ++ id)

def createLane (lane : String) (at_ : Option String) : SqlM Unit := do
  if (readLane (← get) lane).isSome then
    throwSession .alreadyExists ("Lane already exists: " ++ lane)
  requireTarget at_
  let seq := (← get).nextSeq
  insertLane seq lane at_
  advanceSequence seq

def moveLane (lane : String) (to_ : Option String) : SqlM Unit := do
  requireLane lane
  requireTarget to_
  let seq := (← get).nextSeq
  updateLane seq lane to_
  advanceSequence seq

def appendEntry (entry : ProvisionedEntry) (lane : String) (now : ℕ) : SqlM Entry := do
  let parentId ← readLaneHead lane
  assertUnusedId entry.id
  let seq := (← get).nextSeq
  let row : EntryRow := ⟨seq, entry.id, parentId, entry.data.type, now, entry.data⟩
  insertEntryRow row
  setLaneLeaf lane (some entry.id)
  appendEntryToBranchCache uuidv7 row entry.data.customType?
  if entry.data.type = .message then incrementMessageCount
  advanceSequence seq
  return ⟨entry, seq, parentId, now⟩

def appendRecord (record : NewRecord) (now : ℕ) : SqlM LaneRecord := do
  requireLane record.lane
  assertUnusedId record.id
  let seq := (← get).nextSeq
  if record.data.type = .operationStarted then startLaneOperation record.lane record.id
  appendRecordRow ⟨seq, record.id, record.lane, recordRunId record, record.data.type, recordOpKind record, now, record⟩
  match record.data with
  | .operationFinished runId .. => finishLaneOperation record.lane runId
  | _ => pure ()
  match record.data with
  | .usage _ usage => addUsageToStats usage
  | _ => pure ()
  advanceSequence seq
  return ⟨record, seq, now⟩

def setName (name : Option String) : SqlM Unit := do
  let seq := (← get).nextSeq
  appendFact seq .name none name
  advanceSequence seq

def setLabel (id : String) (label : Option String) : SqlM Unit := do
  requireTarget (some id)
  let seq := (← get).nextSeq
  appendFact seq .label (some id) label
  advanceSequence seq

def runOp : StorageOp → SqlM StorageResult
  | .createLane lane at_ => do createLane lane at_; return .done
  | .moveLane lane to_ => do moveLane lane to_; return .done
  | .appendEntry entry lane now => do return .entry (← appendEntry uuidv7 entry lane now)
  | .appendRecord record now => do return .record (← appendRecord record now)
  | .setName name => do setName name; return .done
  | .setLabel id label => do setLabel id label; return .done

/-! ### Queries -/

/-- `entries.slice(0, limit)`; a negative limit counts from the end. -/
def sliceLimit {α : Type} (limit : Option ℤ) (rows : List α) : List α :=
  match limit with
  | none => rows
  | some n => if n < 0 then rows.take (rows.length - n.natAbs) else rows.take n.toNat

def getEntry (t : Tables) (id : String) : Except SqliteError (Option Entry) :=
  match readEntryRow t id with
  | none => .ok none
  | some row => (decodeEntry row).map some

def findEntries (t : Tables) (query : EntryQuery) : Except SqliteError (List Entry) := do
  let sqlType := query.type.or (query.customType.map fun _ => .custom)
  let sqlLimit := if query.customType = none then query.limit else none
  let rows := readEntryRows t none query.cursor sqlType query.order sqlLimit
  let entries := (← rows.mapM decodeEntry).filter (SessionState.matchesEntryQuery query)
  return sliceLimit query.limit entries

/-- The loop of `validateCachedBranchRows`: each row is the child of the one before it. -/
def validateLinks : List EntryRow → Except SqliteError Unit
  | previous :: current :: rows =>
    if current.parentId ≠ some previous.id then
      .error (.session ⟨.invalidEntry, "Entry " ++ current.parentId.getD "null" ++ " not found"⟩)
    else validateLinks (current :: rows)
  | _ => .ok ()

def validateCachedBranchRows (rows : List EntryRow) (query : EntryQuery) (bounds : BranchBounds) :
    Except SqliteError Unit := do
  if rows = [] ∨ query.type.isSome ∨ query.customType.isSome then return ()
  let path := rows.mergeSort fun a b => a.seq ≤ b.seq
  let shouldIncludeRoot := bounds.stopAtId.isNone && bounds.stopAtType.isNone &&
    query.cursor.isNone && (query.order = .oldestFirst || query.limit.isNone)
  match path.head?.bind EntryRow.parentId with
  | none => pure ()
  | some parentId =>
    if shouldIncludeRoot then
      .error (.session ⟨.invalidEntry, "Entry " ++ parentId ++ " not found"⟩)
  validateLinks path

def findEntriesOnBranch (t : Tables) (query : EntryQuery) (bounds : BranchBounds) (start : String) :
    Except SqliteError (List Entry) := do
  match readCachedBranch t start with
  | none =>
    if (readEntryRow t start).isNone then
      .error (.session ⟨.notFound, "Entry not found: " ++ start⟩)
    else .error (.session ⟨.invalidEntry, "Branch cache missing entry " ++ start⟩)
  | some cached =>
    let rows := queryCachedBranchRows t cached query bounds
    validateCachedBranchRows rows query bounds
    let entries := (← rows.mapM decodeEntry).filter (SessionState.matchesEntryQuery query)
    return sliceLimit query.limit entries

def findRecords (t : Tables) (query : RecordQuery) : Except SqliteError (List LaneRecord) :=
  (readRecordRows t query).mapM decodeRecord

/-- `findOpenOperations`. The limit is not used: there is at most one row. -/
def findOpenOperations (t : Tables) (lane : String) :
    Except SqliteError (List OperationStartedRecord) := do
  (← readOpenOperationRows t lane).mapM fun row => do
    match (← decodeRecord row).operationStarted? with
    | some record => .ok record
    | none => .error (.session ⟨.storage, "Expected operation_started record"⟩)

/-- A row of `getLog` before it is decoded. -/
inductive LogRow where
  | entry (row : EntryRow)
  | record (row : RecordRow)
  | lane (row : LaneMoveRow)
  | fact (row : FactRow)

def LogRow.seq : LogRow → ℕ
  | .entry row => row.seq
  | .record row => row.seq
  | .lane row => row.seq
  | .fact row => row.seq

/-- The `decode` of a row of `getLog`. -/
def LogRow.decode : LogRow → Except SqliteError LogItem
  | .entry row => (decodeEntry row).map (.entry row.seq)
  | .record row => (decodeRecord row).map (.record row.seq)
  | .lane row => .ok (.lane row.seq row.lane row.leafId)
  | .fact row =>
    match row.kind with
    | .name => .ok (.name row.seq row.value)
    | .label => .ok (.label row.seq (row.key.getD "") row.value)

def getLog (t : Tables) (options : LogOptions) : Except SqliteError (List LogItem) :=
  let afterSeq := options.afterSeq.getD 0
  let limit := options.limit
  let logRows :=
    ((readEntryRows t (some afterSeq) none none .oldestFirst limit).map LogRow.entry ++
      (readRecordRows t { afterSeq := some afterSeq, order := .oldestFirst, limit := limit }).map
        LogRow.record ++ (readLaneMoveRows t afterSeq limit).map LogRow.lane ++
      (readFactRows t afterSeq limit).map LogRow.fact).mergeSort fun a b => a.seq ≤ b.seq
  (sliceLimit options.limit logRows).mapM LogRow.decode

def getName (t : Tables) : Option String := (readLatestFact t .name none).bind FactRow.value

def getLabel (t : Tables) (id : String) : Option String := (readLatestFact t .label (some id)).bind FactRow.value

def getLanes (t : Tables) : Except SqliteError (List (String × Option String)) :=
  (readLanes.run t).map fun p => p.1.map fun row => (row.lane, row.leafId)

/-! ### The repository -/

/-- The rows of a session after `create`, when `uuids` ids were made before. -/
def create (uuids : ℕ) : Except SqliteError Tables := (createInitialLane.run { uuids := uuids }).map Prod.snd

/-- `ForkOptions["position"]`. -/
inductive ForkPosition where
  | before | at_
  deriving DecidableEq, Repr

/-- `ForkOptions`. -/
inductive ForkScope where
  | tree
  | branch (entryId : Option String) (position : Option ForkPosition)
  deriving DecidableEq

/-- What `fork` copies of its source. -/
structure ForkSource where
  entries : List EntryRow
  lanes : List LaneRow
  branchTips : List String
  branchForkTargetId : Option String

/-- `branchForkTargetId`: the message entry a branch fork ends at, or its parent. -/
def forkTarget (t : Tables) (main : LaneRow) (entryId : Option String)
    (position : Option ForkPosition) : SqlM (Option String) :=
  match entryId.or main.leafId with
  | none => return none
  | some selectedEntryId =>
    let notMessage : SqlM (Option String) := throwSession .invalidForkTarget
      ("Fork target is not a message entry: " ++ selectedEntryId)
    match readEntryRow t selectedEntryId with
    | none => notMessage
    | some target =>
      if target.type ≠ .message then notMessage
      else match position.getD (if entryId = none then .at_ else .before) with
        | .at_ => return some target.id
        | .before => return target.parentId

/-- The first half of `fork`, which reads the source. -/
def readForkSource : ForkScope → SqlM ForkSource
  | .tree => do
    let t ← get
    return ⟨readEntryRows t none none none .oldestFirst none, ← readLanes, readBranchTipIds t, none⟩
  | .branch entryId position => do
    let t ← get
    match readLane t "main" with
    | none => throwSession .invalidLane "Lane not found: main"
    | some main =>
      match ← forkTarget t main entryId position with
      | none => return ⟨[], [⟨"main", none, none⟩], [], none⟩
      | some targetId =>
        match readCachedBranch t targetId with
        | none =>
          throwSession .invalidForkTarget ("Fork target is not on a cached branch: " ++ targetId)
        | some cached =>
          return ⟨queryCachedBranchRows t cached { order := .oldestFirst } {},
            [⟨"main", some targetId, none⟩], [targetId], some targetId⟩

/-- `allocateSeq`: the next number of the fork. -/
def allocateSeq : SqlM ℕ := do
  let seq := (← get).nextSeq
  modify fun t => { t with nextSeq := seq + 1 }
  return seq

/-- The lanes of a fork: all of them, numbered, or `main` alone. -/
def copyLanes (source : ForkSource) (isTree : Bool) : SqlM Unit :=
  if isTree then
    source.lanes.forM fun lane => do insertLane (← allocateSeq) lane.lane lane.leafId
  else createInitialLane "main" source.branchForkTargetId

/-- The name of a fork, if its source has one. -/
def copyName (name : Option FactRow) : SqlM Unit :=
  match name.bind FactRow.value with
  | none => return ()
  | some value => do appendFact (← allocateSeq) .name none (some value)

/-- The second half of `fork`, which writes the rows of the new session. -/
def writeFork (source : ForkSource) (isTree : Bool) (name : Option FactRow)
    (labels : List FactRow) : SqlM Unit := do
  source.entries.forM fun entry => do insertEntryRow { entry with seq := ← allocateSeq }
  copyLanes source isTree
  copyName name
  labels.forM fun label => do appendFact (← allocateSeq) .label label.key label.value
  source.branchTips.forM (buildCachedBranch uuidv7)

/-- The rows of the session `id` that `fork` creates. -/
def fork (t : Tables) (id : String) (scope : ForkScope) : Except SqliteError Tables :=
  let forked : Except SqliteError Tables := do
    let (source, _) ← (readForkSource scope).run t
    let copied (row : FactRow) : Bool := scope = .tree || row.key.any fun key => source.entries.any fun e => e.id = key
    let labels := (readLatestLabelFacts t).filter copied
    let messages := (source.entries.filter fun entry => entry.type = .message).length
    let empty : Tables := { stats := { messageCount := messages }, uuids := t.uuids }
    let (_, forked) ← (writeFork uuidv7 source (scope = .tree) (readLatestFact t .name none)
      labels).run empty
    return forked
  forked.mapError fun
    | .session error => .session error
    | .constraint _ => .session ⟨.storage, "Failed to fork SQLite session " ++ id⟩

end EasyPi.Sqlite
