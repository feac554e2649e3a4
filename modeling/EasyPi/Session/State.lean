/-
# The in-memory state of a session

`SessionState` of `packages/agent/src/harness/session/state.ts`: the state
every backend but SQLite keeps, changed only by `applyMutation`. A method
that may throw runs in `SessionM`, where the state reached before a `throw`
is kept, so that the order of checks and writes in the source is visible.

`checkMutation` and `commit` are `applyMutation` in two halves, its checks
and its writes (`applyMutation_run`): every check comes before every write.
-/
import EasyPi.Session.Types
import EasyPi.Lib.Except
import EasyPi.Lib.OrdMap

namespace EasyPi.Session

inductive SessionMutation where
  | entry (lane : Option String) (entry : Entry)
  | record (record : LaneRecord)
  | lane (seq : ℕ) (lane : String) (leafId : Option String)
  | name (seq : ℕ) (name : Option String)
  | label (seq : ℕ) (targetId : String) (label : Option String)
  deriving DecidableEq

def SessionMutation.seq : SessionMutation → ℕ
  | .entry _ e => e.seq
  | .record r => r.seq
  | .lane seq .. | .name seq _ | .label seq .. => seq

/-- `SessionState`. The sets and maps of the source are lists without
repetition and insertion-ordered maps. -/
structure SessionState where
  sequence : ℕ := 0
  usedIds : List String := []
  entries : List Entry := []
  entriesById : OrdMap String Entry := ∅
  records : List LaneRecord := []
  openOperationsByLane : OrdMap String (OrdMap String OperationStartedRecord) := ∅
  lanes : OrdMap String (Option String) := .single "main" none
  log : List LogItem := []
  stats : SessionStats := {}
  name : Option String := none
  labels : OrdMap String String := ∅
  deriving DecidableEq

/-- A method that may throw. What it wrote before the `throw` stays. -/
abbrev SessionM := ExceptT SessionError (StateM SessionState)

namespace SessionState

/-! ### Mutations -/

/-- `invalidMutation`, the default of `applyMutation`'s `invalid`. -/
def invalidMutation (message : String) : SessionError := ⟨.invalidEntry, "Invalid session mutation: " ++ message⟩

variable (s : SessionState)

def nextSequence : ℕ := s.sequence + 1

/-- The open operations of a lane after `op` is added to them. -/
def addOpenOperation (lane : String) (op : OperationStartedRecord) :
    OrdMap String (OrdMap String OperationStartedRecord) :=
  s.openOperationsByLane.set lane (((s.openOperationsByLane.get? lane).getD ∅).set op.id op)

/-- `openOperationsByLane.get(lane)?.delete(runId)`. -/
def removeOpenOperation (lane runId : String) : OrdMap String (OrdMap String OperationStartedRecord) :=
  match s.openOperationsByLane.get? lane with
  | some ops => s.openOperationsByLane.set lane (ops.erase runId)
  | none => s.openOperationsByLane

def SessionStats.addUsage (stats : SessionStats) (usage : Usage) : SessionStats :=
  { stats with
    cachedTokens := stats.cachedTokens + usage.cacheRead
    uncachedTokens := stats.uncachedTokens + (usage.input + usage.cacheWrite)
    totalTokens := stats.totalTokens + usage.totalTokens
    costTotal := stats.costTotal + usage.costTotal }

variable (mutation : SessionMutation)

/-- `applyMutation`: checks the mutation against the state and applies it. -/
def applyMutation (invalid : String → SessionError := invalidMutation) : SessionM Unit := do
  let seq := mutation.seq
  if seq ≠ (← get).sequence + 1 then
    throw (invalid ("has non-consecutive seq " ++ toString seq))
  match mutation with
  | .entry lane entry =>
    if entry.id ∈ (← get).usedIds then throw (invalid ("contains duplicate id " ++ entry.id))
    match lane with
    | none => pure ()
    | some lane =>
      match (← get).lanes.get? lane with
      | none => throw (invalid ("references missing lane " ++ lane))
      | some leafId =>
        if entry.parentId ≠ leafId then throw (invalid "does not chain to the lane leaf")
    match entry.parentId with
    | none => pure ()
    | some parentId =>
      if !(← get).entriesById.has parentId then
        throw (invalid ("references missing parent " ++ parentId))
    modify fun s => { s with sequence := seq }
    modify fun s => { s with usedIds := s.usedIds.insert entry.id }
    modify fun s => { s with entries := s.entries ++ [entry] }
    modify fun s => { s with entriesById := s.entriesById.set entry.id entry }
    match lane with
    | none => pure ()
    | some lane => modify fun s => { s with lanes := s.lanes.set lane (some entry.id) }
    modify fun s => { s with log := s.log ++ [.entry seq entry] }
    if entry.type = .message then
      modify fun s => { s with stats := { s.stats with messageCount := s.stats.messageCount + 1 } }
  | .record record =>
    if !(← get).lanes.has record.lane then
      throw (invalid ("references missing lane " ++ record.lane))
    if record.id ∈ (← get).usedIds then throw (invalid ("contains duplicate id " ++ record.id))
    modify fun s => { s with sequence := seq }
    modify fun s => { s with usedIds := s.usedIds.insert record.id }
    modify fun s => { s with records := s.records ++ [record] }
    match record.operationStarted? with
    | some op => modify fun s =>
        { s with openOperationsByLane := s.addOpenOperation record.lane op }
    | none =>
      match record.data with
      | .operationFinished runId .. => modify fun s =>
          { s with openOperationsByLane := s.removeOpenOperation record.lane runId }
      | _ => pure ()
    modify fun s => { s with log := s.log ++ [.record seq record] }
    match record.data with
    | .usage _ usage => modify fun s => { s with stats := SessionStats.addUsage s.stats usage }
    | _ => pure ()
  | .lane _ lane leafId =>
    match leafId with
    | none => pure ()
    | some id =>
      if !(← get).entriesById.has id then
        throw (invalid ("references missing lane target " ++ id))
    modify fun s => { s with sequence := seq }
    modify fun s => { s with lanes := s.lanes.set lane leafId }
    modify fun s => { s with log := s.log ++ [.lane seq lane leafId] }
  | .name _ name =>
    modify fun s => { s with sequence := seq }
    modify fun s => { s with name := name }
    modify fun s => { s with log := s.log ++ [.name seq name] }
  | .label _ targetId label =>
    if !(← get).entriesById.has targetId then
      throw (invalid ("references missing label target " ++ targetId))
    modify fun s => { s with sequence := seq }
    match label with
    | none => modify fun s => { s with labels := s.labels.erase targetId }
    | some label => modify fun s => { s with labels := s.labels.set targetId label }
    modify fun s => { s with log := s.log ++ [.label seq targetId label] }

/-- The checks of `applyMutation`, in order: the message of the first one that fails. -/
def checkMutation : Option String :=
  if mutation.seq ≠ s.sequence + 1 then some ("has non-consecutive seq " ++ toString mutation.seq)
  else match mutation with
  | .entry lane entry =>
    if entry.id ∈ s.usedIds then some ("contains duplicate id " ++ entry.id)
    else
      let laneProblem := lane.bind fun lane =>
        match s.lanes.get? lane with
        | none => some ("references missing lane " ++ lane)
        | some leafId =>
          if entry.parentId ≠ leafId then some "does not chain to the lane leaf" else none
      laneProblem.or <| entry.parentId.bind fun parentId =>
        if s.entriesById.has parentId then none
        else some ("references missing parent " ++ parentId)
  | .record record =>
    if !s.lanes.has record.lane then some ("references missing lane " ++ record.lane)
    else if record.id ∈ s.usedIds then some ("contains duplicate id " ++ record.id)
    else none
  | .lane _ _ leafId =>
    leafId.bind fun id =>
      if s.entriesById.has id then none else some ("references missing lane target " ++ id)
  | .name .. => none
  | .label _ targetId _ =>
    if s.entriesById.has targetId then none
    else some ("references missing label target " ++ targetId)

/-- The writes of `applyMutation`. -/
def commit : SessionState :=
  match mutation with
  | .entry lane entry =>
    { s with
      sequence := entry.seq
      usedIds := s.usedIds.insert entry.id
      entries := s.entries ++ [entry]
      entriesById := s.entriesById.set entry.id entry
      lanes := match lane with
        | none => s.lanes
        | some lane => s.lanes.set lane (some entry.id)
      log := s.log ++ [.entry entry.seq entry]
      stats := if entry.type = .message then
          { s.stats with messageCount := s.stats.messageCount + 1 }
        else s.stats }
  | .record record =>
    { s with
      sequence := record.seq
      usedIds := s.usedIds.insert record.id
      records := s.records ++ [record]
      openOperationsByLane := match record.data with
        | .operationStarted sourceLeafId intent => s.addOpenOperation record.lane
            ⟨record.id, record.seq, record.lane, record.timestamp, sourceLeafId, intent⟩
        | .operationFinished runId .. => s.removeOpenOperation record.lane runId
        | _ => s.openOperationsByLane
      log := s.log ++ [.record record.seq record]
      stats := match record.data with
        | .usage _ usage => SessionStats.addUsage s.stats usage
        | _ => s.stats }
  | .lane seq lane leafId =>
    { s with
      sequence := seq
      lanes := s.lanes.set lane leafId
      log := s.log ++ [.lane seq lane leafId] }
  | .name seq name =>
    { s with sequence := seq, name := name, log := s.log ++ [.name seq name] }
  | .label seq targetId label =>
    { s with
      sequence := seq
      labels := match label with
        | none => s.labels.erase targetId
        | some label => s.labels.set targetId label
      log := s.log ++ [.label seq targetId label] }

theorem applyMutation_run (invalid : String → SessionError) (s : SessionState) :
    (applyMutation mutation invalid).run s = match s.checkMutation mutation with
      | some message => (.error (invalid message), s)
      | none => (.ok (), s.commit mutation) := by
  unfold applyMutation checkMutation
  rw [run_get]
  by_cases hseq : mutation.seq ≠ s.sequence + 1
  · rw [if_pos hseq, if_pos hseq, run_throw]
  rw [if_neg hseq, if_neg hseq]
  cases mutation with
  | entry lane entry =>
    obtain ⟨⟨id, data⟩, seq, parentId, timestamp⟩ := entry
    simp only [run_get]
    by_cases hid : id ∈ s.usedIds
    · simp only [if_pos hid, run_throw]
    simp only [if_neg hid]
    rcases lane with _ | lane
    · rcases parentId with _ | parentId
      · cases data <;> rfl
      · simp only [run_get]
        cases hp : s.entriesById.has parentId
        · simp [hp]; rfl
        · cases data <;> simp [hp] <;> rfl
    · simp only [run_get, Option.bind_some]
      cases hl : s.lanes.get? lane with
      | none => rfl
      | some leafId =>
        simp only
        by_cases hc : parentId ≠ leafId
        · simp only [if_pos hc, run_throw]; rfl
        simp only [if_neg hc]
        rcases parentId with _ | parentId
        · cases data <;> rfl
        · simp only [run_get]
          cases hp : s.entriesById.has parentId
          · simp [hp]; rfl
          · cases data <;> simp [hp] <;> rfl
  | record record =>
    obtain ⟨⟨id, lane, data⟩, seq, timestamp⟩ := record
    simp only [run_get]
    cases hl : s.lanes.has lane
    · rfl
    by_cases hid : id ∈ s.usedIds
    · simp [hid, run_get]; rfl
    simp only [Bool.not_true, Bool.false_eq_true, if_false, run_get, if_neg hid]
    cases data <;> rfl
  | lane seq lane leafId =>
    rcases leafId with _ | id
    · rfl
    simp only [run_get]
    cases hp : s.entriesById.has id
    · simp [hp]; rfl
    · simp [hp]; rfl
  | name seq name => rfl
  | label seq targetId label =>
    simp only [run_get]
    cases hp : s.entriesById.has targetId
    · rfl
    · rcases label with _ | label <;> rfl

/-! ### Queries -/

def assertValidLimit (limit : Option ℤ) : Except SessionError Unit :=
  match limit with
  | none => .ok ()
  | some limit =>
    if limit ≤ 0 then .error ⟨.invalidQuery, "limit must be a positive integer"⟩ else .ok ()

def assertValidCursor (afterSeq : Option ℤ) : Except SessionError Unit :=
  match afterSeq with
  | none => .ok ()
  | some afterSeq =>
    if afterSeq < 0 then .error ⟨.invalidQuery, "cursor sequence must be a non-negative integer"⟩
    else .ok ()

/-- `ordered`: the items in the order a query asks for. -/
def ordered {α : Type} (items : List α) : EntryOrder → List α
  | .oldestFirst => items
  | .newestFirst => items.reverse

/-- `limit === undefined ? items : items.slice(0, limit)`, for a limit that is not negative. -/
def takeLimit {α : Type} (limit : Option ℤ) (items : List α) : List α :=
  match limit with
  | none => items
  | some limit => items.take limit.toNat

/-- The loop of `findEntries`, `findRecords` and `getLog`: items that do not
match are skipped, and the loop is left when the limit is reached. -/
def collect {α : Type} (accepts : α → Bool) (limit : Option ℤ) (results : List α) :
    List α → List α
  | [] => results
  | item :: items =>
    if !accepts item then collect accepts limit results items
    else
      let results := results ++ [item]
      if limit = some (results.length : ℤ) then results else collect accepts limit results items

/-- The loops of `findEntriesOnBranch`: the results, and whether the loop was left by `break`. -/
def collectUntil {α : Type} (reachedBound accepts : α → Bool) (limit : Option ℤ)
    (results : List α) : List α → List α × Bool
  | [] => (results, false)
  | item :: items =>
    let results := if accepts item then results ++ [item] else results
    if reachedBound item ∨ limit = some (results.length : ℤ) then (results, true)
    else collectUntil reachedBound accepts limit results items

/-- How a run of a generator ends. `running` is a run cut off by its fuel. -/
inductive WalkEnd where
  | returned
  | threw (error : SessionError)
  | running
  deriving DecidableEq

/-- A generator run to its end: what it yields, and how it ends. -/
structure Walk where
  yielded : List Entry
  ending : WalkEnd
  deriving DecidableEq

/-- `entry.id === query.stopAtId || entry.type === query.stopAtType`. -/
def reachedBound (bounds : BranchBounds) (entry : Entry) : Bool :=
  some entry.id = bounds.stopAtId ∨ some entry.type = bounds.stopAtType

/-- The `while` loop of `walkToRoot`. -/
def walkFrom (s : SessionState) (bounds : BranchBounds) : ℕ → List String → Entry → Walk
  | 0, _, _ => ⟨[], .running⟩
  | fuel + 1, visited, current =>
    if current.id ∈ visited then
      ⟨[], .threw ⟨.invalidEntry, "Session branch contains a cycle at " ++ current.id⟩⟩
    else
      let rest : Walk :=
        if reachedBound bounds current then ⟨[], .returned⟩
        else match current.parentId with
          | none => ⟨[], .returned⟩
          | some parentId =>
            match s.entriesById.get? parentId with
            | none => ⟨[], .threw ⟨.invalidEntry, "Entry not found: " ++ parentId⟩⟩
            | some parent => walkFrom s bounds fuel (current.id :: visited) parent
      ⟨current :: rest.yielded, rest.ending⟩

/-- `walkToRoot`: the branch from an entry up to the root or the bounds. No
walk is longer than the number of entries (`walkToRoot_ending_ne_running`). -/
def walkToRoot (start : Option String) (bounds : BranchBounds := {}) : Walk :=
  match start with
  | none => ⟨[], .returned⟩
  | some start =>
    match s.entriesById.get? start with
    | none => ⟨[], .threw ⟨.notFound, "Entry not found: " ++ start⟩⟩
    | some entry => walkFrom s bounds (s.entriesById.toList.length + 1) [] entry

/-- What a consumer that takes every item sees: the items, or the error. -/
def Walk.spread (walk : Walk) : Except SessionError (List Entry) :=
  match walk.ending with
  | .threw error => .error error
  | _ => .ok walk.yielded

/-- What a consumer that may `break` sees: an error behind the break is not reached. -/
def Walk.forOf (walk : Walk) (consume : List Entry → List Entry × Bool) : Except SessionError (List Entry) :=
  match consume walk.yielded, walk.ending with
  | (results, true), _ => .ok results
  | (_, false), .threw error => .error error
  | (results, false), _ => .ok results

def matchesEntryQuery (query : EntryQuery) (entry : Entry) : Bool :=
  (query.type.all fun type => entry.type = type) &&
  (query.customType.all fun customType =>
    entry.type = .custom ∧ entry.data.customType? = some customType) &&
  (query.cursor.all fun afterSeq =>
    if query.order = .oldestFirst then (entry.seq : ℤ) > afterSeq else (entry.seq : ℤ) < afterSeq)

def matchesRecordQuery (query : RecordQuery) (record : LaneRecord) : Bool :=
  (query.lane.all fun lane => record.lane = lane) &&
  (query.type.all fun type => record.type = type) &&
  (query.runId.all fun runId =>
    if record.type = .operationStarted then record.id = runId
    else record.data.runId? = some runId) &&
  (query.operationKind.all fun kind => record.data.operationKind? = some kind) &&
  (query.afterSeq.all fun afterSeq => (record.seq : ℤ) > afterSeq)

def getEntry (id : String) : Option Entry := s.entriesById.get? id

def findEntries (query : EntryQuery := {}) :
    Except SessionError (List Entry) := do
  assertValidLimit query.limit
  assertValidCursor query.cursor
  return collect (matchesEntryQuery query) query.limit [] (ordered s.entries query.order)

def findEntriesOnBranch (query : EntryQuery) (bounds : BranchBounds)
    (start : String) : Except SessionError (List Entry) := do
  assertValidLimit query.limit
  assertValidCursor query.cursor
  match query.order with
  | .oldestFirst =>
    let path ← (s.walkToRoot (some start)).spread
    return (collectUntil (reachedBound bounds) (matchesEntryQuery query) query.limit []
      path.reverse).1
  | .newestFirst =>
    (s.walkToRoot (some start) bounds).forOf
      (collectUntil (fun _ => false) (matchesEntryQuery query) query.limit [])

def findRecords (query : RecordQuery := {}) :
    Except SessionError (List LaneRecord) := do
  assertValidLimit query.limit
  assertValidCursor query.afterSeq
  return collect (matchesRecordQuery query) query.limit [] (ordered s.records query.order)

def findOpenOperations (lane : String) (limit : Option ℤ := none) :
    Except SessionError (List OperationStartedRecord) := do
  assertValidLimit limit
  let openOperations := match s.openOperationsByLane.get? lane with
    | some byId => byId.values.reverse
    | none => []
  return takeLimit limit openOperations

def getLog (options : LogOptions := {}) : Except SessionError (List LogItem) := do
  assertValidLimit options.limit
  assertValidCursor options.afterSeq
  return collect (fun item => !(options.afterSeq.any fun afterSeq => (item.seq : ℤ) ≤ afterSeq))
    options.limit [] s.log

def getName : Option String := s.name

def getLabel (id : String) : Option String := s.labels.get? id

def getStats : SessionStats := s.stats

def getLanes : List (String × Option String) := s.lanes.toList

end SessionState
end EasyPi.Session
