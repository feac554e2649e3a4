/-
# The JSONL session storage

`JsonlSessionStorage` of `packages/agent/src/harness/session/jsonl/storage.ts`:
a session is a file with a header line and one line for each mutation, in the
order they were accepted. An operation checks the state, appends its line and
then applies the mutation; `loadOwned` reads the lines back, and repairs a
file that a crash left without its last line break.

The file is the text the writer lease protects, so the storage carries it as
`content`; `written` is what the writer's `append` returns, and a failed append
writes nothing. The state reads entries and records by their types, so the
storage also carries the objects it was given, `journal`.

An operation is refused, fails in the checks of the in-memory storage, fails to
write, or appends one line and commits its mutation (`runOp_eq`).
-/
import EasyPi.Jsonl.Payload
import EasyPi.Lib.Lines
import EasyPi.Session.Memory

namespace EasyPi.Jsonl

open Session
open Session.Durable (assertDurableEntry assertDurableRecord)

inductive FileErrorCode where
  | aborted | notFound | permissionDenied | notDirectory | isDirectory | invalid | notSupported
  | unknown
  deriving DecidableEq, Repr

structure FileError where
  code : FileErrorCode
  message : String
  deriving DecidableEq, Repr

def fileResult {α : Type} (result : Except FileError α) (message : String) : Except SessionError α :=
  match result with
  | .ok value => .ok value
  | .error error => .error
      ⟨if error.code = .notFound then .notFound else .storage, message ++ ": " ++ error.message⟩

/-- `invalidFile`, with the message of its cause. -/
def invalidFile (path : String) (line : ℕ) (message : String) : SessionError :=
  ⟨.invalidEntry, "Invalid JSONL v4 session " ++ path ++ ": line " ++ toString line ++ " " ++ message⟩

/-! ### Storage -/

structure JsonlSessionMetadata where
  id : String
  createdAt : ℕ
  cwd : String
  path : String
  modifiedAt : ℚ
  sourceFormat : ℕ
  parentSessionId : Option String
  legacyParentSessionPath : Option String
  metadata : Option Fields
  deriving DecidableEq

def metadataFromHeader (header : JsonlV4Header) (path : String) (modifiedAt : ℚ) :
    JsonlSessionMetadata where
  id := header.id
  createdAt := header.createdAt
  cwd := header.cwd
  path := path
  modifiedAt := modifiedAt
  sourceFormat := 4
  parentSessionId := header.parentSessionId
  legacyParentSessionPath := header.legacyParentSessionPath
  metadata := header.metadata

/-- `JsonlSessionStorage`, with its file. -/
structure JsonlSessionStorage where
  metadata : JsonlSessionMetadata
  state : SessionState := {}
  journal : List Mutation := []
  content : String
  writer : Bool
  closing : Bool := false
  writeFailure : Option SessionError := none
  deriving DecidableEq

/-- A method of the storage. What it wrote before a `throw` stays. -/
abbrev StorageM := ExceptT SessionError (StateM JsonlSessionStorage)

/-- An operation of the storage that writes; `now` is what `Date.now()` returns. -/
inductive JsonlOp where
  | createLane (lane : String) (at_ : Option String)
  | moveLane (lane : String) (to_ : Option String)
  | appendEntry (newEntry : Fields) (lane : String) (now : ℕ)
  | appendRecord (newRecord : Fields) (now : ℕ)
  | setName (name : Option String)
  | setLabel (id : String) (label : Option String)
  deriving DecidableEq

inductive JsonlResult where
  | done
  | entry (entry : Fields)
  | record (record : Fields)
  deriving DecidableEq

def readOnly : SessionError := ⟨.storage, "JSONL session is read-only"⟩

def writerClosed : SessionError := ⟨.storage, "JSONL session writer is closed"⟩

/-- `enqueue`. Operations run one after another, so the queue is the order of the calls. -/
def enqueue {α : Type} (operation : StorageM α) : StorageM α := do
  let storage ← get
  if !storage.writer then throw readOnly
  else if storage.closing then throw writerClosed
  else
    match storage.writeFailure with
    | some failure => throw failure
    | none => operation

/-- A method of the state that only reads. -/
def onState {α : Type} (f : SessionState → Except SessionError α) : StorageM α := do
  match f (← get).state with
  | .ok a => pure a
  | .error error => throw error

def applyMutation (mutation : Mutation) : StorageM Unit := do
  let storage ← get
  match (SessionState.applyMutation (viewMutation mutation)).run storage.state with
  | (.ok (), state) => set { storage with state := state, journal := storage.journal ++ [mutation] }
  | (.error error, state) => do
    set { storage with state := state }
    throw error

section Text

variable (J : JsonText)

def appendMutation (written : Except FileError Unit) (mutation : Mutation) : StorageM Unit := do
  let storage ← get
  let result := if !storage.writer then .error readOnly
    else fileResult written ("Failed to append session " ++ storage.metadata.path)
  match result with
  | .ok () => set { storage with content := storage.content ++ encodeMutation J mutation }
  | .error failure => do
    set { storage with writeFailure := some failure }
    throw failure

/-! ### Operations -/

def createLane (lane : String) (at_ : Option String) (written : Except FileError Unit) :
    StorageM Unit := enqueue do
  onState (·.validateNewLane lane)
  onState (·.validateTarget at_)
  let mutation : Mutation := .lane (← get).state.nextSequence lane at_
  appendMutation J written mutation
  applyMutation mutation

def moveLane (lane : String) (to_ : Option String) (written : Except FileError Unit) :
    StorageM Unit := enqueue do
  let _ ← onState (·.requireLane lane)
  onState (·.validateTarget to_)
  let mutation : Mutation := .lane (← get).state.nextSequence lane to_
  appendMutation J written mutation
  applyMutation mutation

def appendEntry (newEntry : Fields) (lane : String) (now : ℕ) (written : Except FileError Unit) :
    StorageM Fields := enqueue do
  let parentId ← onState (·.requireLane lane)
  onState (·.validateUnusedId (text (newEntry.lookup "id")))
  let entry := assign newEntry [("parentId", nullable parentId),
    ("seq", numeral (← get).state.nextSequence), ("timestamp", numeral now)]
  let mutation : Mutation := .entry (some lane) entry
  appendMutation J written mutation
  applyMutation mutation
  return entry

def appendRecord (newRecord : Fields) (now : ℕ) (written : Except FileError Unit) :
    StorageM Fields := enqueue do
  let lane := text (newRecord.lookup "lane")
  let _ ← onState (·.requireLane lane)
  onState (·.validateUnusedId (text (newRecord.lookup "id")))
  let openOperations ← onState (·.findOpenOperations lane (some 1))
  if text (newRecord.lookup "type") = "operation_started" then
    match openOperations.head? with
    | none => pure ()
    | some current => throw ⟨.storage, "Lane " ++ lane ++ " already has an open operation " ++ current.id⟩
  let record := assign newRecord
    [("seq", numeral (← get).state.nextSequence), ("timestamp", numeral now)]
  let mutation : Mutation := .record record
  appendMutation J written mutation
  applyMutation mutation
  return record

def setName (name : Option String) (written : Except FileError Unit) : StorageM Unit := enqueue do
  let mutation : Mutation := .name (← get).state.nextSequence name
  appendMutation J written mutation
  applyMutation mutation

def setLabel (id : String) (label : Option String) (written : Except FileError Unit) :
    StorageM Unit := enqueue do
  onState (·.validateTarget (some id))
  let mutation : Mutation := .label (← get).state.nextSequence id label
  appendMutation J written mutation
  applyMutation mutation

def runOp (written : Except FileError Unit) : JsonlOp → StorageM JsonlResult
  | .createLane lane at_ => do createLane J lane at_ written; return .done
  | .moveLane lane to_ => do moveLane J lane to_ written; return .done
  | .appendEntry newEntry lane now => do return .entry (← appendEntry J newEntry lane now written)
  | .appendRecord newRecord now => do return .record (← appendRecord J newRecord now written)
  | .setName name => do setName J name written; return .done
  | .setLabel id label => do setLabel J id label written; return .done

/-! ### Creating and loading -/

/-- `create`, at a path without a file. -/
def create (path : String) (header : JsonlV4Header) (modifiedAt : ℚ) : JsonlSessionStorage where
  metadata := metadataFromHeader header path modifiedAt
  content := encodeHeader J header
  writer := true

/-- The loop of `loadOwned`, with the lines read so far. -/
def loadLines (before : List String) :
    List String → JsonlSessionStorage → Except SessionError JsonlSessionStorage
  | [], storage =>
    .ok (if storage.writer && !endsWithNewline storage.content then
      { storage with content := storage.content ++ "\n" } else storage)
  | line :: rest, storage =>
    match parseMutation J line with
    | .error error =>
      let isTornTail := !endsWithNewline storage.content && rest.isEmpty &&
        error.kind = .syntaxError
      if isTornTail then
        .ok (if storage.writer then
          { storage with content := "\n".intercalate before ++ "\n" } else storage)
      else .error (invalidFile storage.metadata.path (before.length + 1) error.message)
    | .ok mutation =>
      match (applyMutation mutation).run storage with
      | (.ok (), storage) => loadLines (before ++ [line]) rest storage
      | (.error error, storage) => .error (if error.code = .invalidEntry then
          invalidFile storage.metadata.path (before.length + 1) error.message else error)

/-- The lines of a file: an empty piece behind the last line break is none. -/
def physicalLines (content : String) : List String :=
  let lines := splitLines content
  if lines.getLast? = some "" then lines.dropLast else lines

def loadOwned (path : String) (modifiedAt : ℚ) (writer : Bool) (content : String) :
    Except SessionError JsonlSessionStorage :=
  match physicalLines content with
  | [] => .error (invalidFile path 1 "is missing a header")
  | first :: rest =>
    if first = "" then .error (invalidFile path 1 "is missing a header")
    else
      match parseHeader J first with
      | .error error => .error (invalidFile path 1 error.message)
      | .ok header =>
        loadLines J [first] rest { metadata := metadataFromHeader header path modifiedAt, content, writer }

def load (path : String) (modifiedAt : ℚ) (content : String) : Except SessionError JsonlSessionStorage :=
  loadOwned J path modifiedAt true content

inductive Call where
  | write (op : JsonlOp) (written : Except FileError Unit)
  | release

/-- The storage after a call. `release` only stops later writes. -/
def step (storage : JsonlSessionStorage) : Call → JsonlSessionStorage
  | .write op written => ((runOp J written op).run storage).2
  | .release => { storage with closing := true }

def runCalls (calls : List Call) (storage : JsonlSessionStorage) : JsonlSessionStorage := calls.foldl (step J) storage

end Text

/-! ### What an operation does -/

/-- The operation as the in-memory storage has it. -/
def JsonlOp.view : JsonlOp → StorageOp
  | .createLane lane at_ => .createLane lane at_
  | .moveLane lane to_ => .moveLane lane to_
  | .appendEntry newEntry lane now => .appendEntry (viewProvisioned newEntry) lane now
  | .appendRecord newRecord now => .appendRecord (viewNewRecord newRecord) now
  | .setName name => .setName name
  | .setLabel id label => .setLabel id label

variable (s : SessionState)

def entryPlace (lane : String) (now : ℕ) : Fields :=
  [("parentId", nullable (s.lanes.get? lane).join), ("seq", numeral s.nextSequence), ("timestamp", numeral now)]

def recordPlace (now : ℕ) : Fields := [("seq", numeral s.nextSequence), ("timestamp", numeral now)]

def opMutation : JsonlOp → Mutation
  | .createLane lane at_ => .lane s.nextSequence lane at_
  | .moveLane lane to_ => .lane s.nextSequence lane to_
  | .appendEntry newEntry lane now => .entry (some lane) (assign newEntry (entryPlace s lane now))
  | .appendRecord newRecord now => .record (assign newRecord (recordPlace s now))
  | .setName name => .name s.nextSequence name
  | .setLabel id label => .label s.nextSequence id label

/-- What an operation returns when it succeeds. -/
def opResult (op : JsonlOp) : JsonlResult :=
  match opMutation s op with
  | .entry _ entry => .entry entry
  | .record record => .record record
  | _ => .done

/-- Why an open storage takes no write. -/
def refusal (storage : JsonlSessionStorage) : Option SessionError :=
  if !storage.writer then some readOnly
  else if storage.closing then some writerClosed
  else storage.writeFailure

def accept (J : JsonText) (storage : JsonlSessionStorage) (mutation : Mutation) : JsonlSessionStorage :=
  { storage with
    state := storage.state.commit (viewMutation mutation)
    journal := storage.journal ++ [mutation]
    content := storage.content ++ encodeMutation J mutation }

theorem lookup_entryPlace (newEntry : Fields) (lane : String) (now : ℕ) :
    let entry := assign newEntry (entryPlace s lane now)
    entry.lookup "parentId" = some (nullable (s.lanes.get? lane).join) ∧
      entry.lookup "seq" = some (numeral s.nextSequence) ∧ entry.lookup "timestamp" = some (numeral now) := by
  have hnd : ((entryPlace s lane now).map Prod.fst).Nodup := by simp [entryPlace]
  refine ⟨?_, ?_, ?_⟩ <;> exact lookup_assign_of_mem hnd (by simp [entryPlace])

theorem lookup_recordPlace (newRecord : Fields) (now : ℕ) :
    let record := assign newRecord (recordPlace s now)
    record.lookup "seq" = some (numeral s.nextSequence) ∧ record.lookup "timestamp" = some (numeral now) := by
  have hnd : ((recordPlace s now).map Prod.fst).Nodup := by simp [recordPlace]
  refine ⟨?_, ?_⟩ <;> exact lookup_assign_of_mem hnd (by simp [recordPlace])

theorem natural_numeral (n : ℕ) : natural (some (numeral n)) = n := by
  simp [natural, numeric, numeric?, numeral]

theorem text?_nullable (id : Option String) : text? (some (nullable id)) = id := by
  cases id <;> rfl

theorem viewMutation_opMutation (op : JsonlOp) : viewMutation (opMutation s op) = Memory.opMutation s op.view := by
  cases op with
  | createLane lane at_ => rfl
  | moveLane lane to_ => rfl
  | appendEntry newEntry lane now =>
    obtain ⟨hpar, hseq, htime⟩ := lookup_entryPlace s newEntry lane now
    have hview : viewProvisioned (assign newEntry (entryPlace s lane now)) =
        viewProvisioned newEntry := viewProvisioned_congr fun key hkey => lookup_assign_of_notMem hkey
    simp only [opMutation, viewMutation, viewEntry, hview, hpar, hseq, htime, text?_nullable,
      natural_numeral, Memory.opMutation, JsonlOp.view]
  | appendRecord newRecord now =>
    obtain ⟨hseq, htime⟩ := lookup_recordPlace s newRecord now
    have hview : viewNewRecord (assign newRecord (recordPlace s now)) = viewNewRecord newRecord :=
      viewNewRecord_congr fun key hkey => lookup_assign_of_notMem hkey
    simp only [opMutation, viewMutation, viewRecord, hview, hseq, htime, natural_numeral, Memory.opMutation, JsonlOp.view]
  | setName name => rfl
  | setLabel id label => rfl

theorem viewRecordData_started (record : Fields) :
    (viewRecordData record).type = .operationStarted ↔ text (record.lookup "type") = "operation_started" := by
  unfold viewRecordData
  split <;> simp_all [RecordData.type]

section Run

variable (J : JsonText) {α : Type} (s : JsonlSessionStorage)

theorem run_enqueue {β : Type} (operation : StorageM α) (g : α → StorageM β) :
    ExceptT.run (enqueue operation >>= g) s = match refusal s with
      | some error => (.error error, s)
      | none => ExceptT.run (operation >>= g) s := by
  rw [run_bind, enqueue, run_get, refusal]
  split_ifs
  · rfl
  · rfl
  · cases s.writeFailure with
    | some failure => rfl
    | none => rw [run_bind]

theorem run_onState {β : Type} (f : SessionState → Except SessionError α) (g : α → StorageM β) :
    ExceptT.run (onState f >>= g) s = match f s.state with
      | .ok a => ExceptT.run (g a) s
      | .error error => (.error error, s) := by
  rw [run_bind, onState, run_get]
  cases f s.state <;> rfl

theorem run_applyMutation {mutation : Mutation} (h : s.state.checkMutation (viewMutation mutation) = none) :
    ExceptT.run (applyMutation mutation) s = (.ok (), { s with
      state := s.state.commit (viewMutation mutation), journal := s.journal ++ [mutation] }) := by
  rw [applyMutation, run_get, SessionState.applyMutation_run, h]
  rfl

theorem run_appendMutation {written : Except FileError Unit} (mutation : Mutation) (hwri : s.writer = true) :
    ExceptT.run (appendMutation J written mutation) s =
      match fileResult written ("Failed to append session " ++ s.metadata.path) with
      | .error failure => (.error failure, { s with writeFailure := some failure })
      | .ok () => (.ok (), { s with content := s.content ++ encodeMutation J mutation }) := by
  have hread : (!s.writer) = false := by rw [hwri, Bool.not_true]
  rw [appendMutation, run_get]
  simp only [hread, Bool.false_eq_true, if_false]
  cases fileResult written ("Failed to append session " ++ s.metadata.path) <;> rfl

theorem run_append_apply {written : Except FileError Unit} {mutation : Mutation}
    (hwri : s.writer = true) (h : s.state.checkMutation (viewMutation mutation) = none) (g : Unit → StorageM α) :
    ExceptT.run (appendMutation J written mutation >>= fun _ => applyMutation mutation >>= g) s =
      match fileResult written ("Failed to append session " ++ s.metadata.path) with
      | .error failure => (.error failure, { s with writeFailure := some failure })
      | .ok () => ExceptT.run (g ()) (accept J s mutation) := by
  rw [run_bind, run_appendMutation J s mutation hwri]
  cases fileResult written ("Failed to append session " ++ s.metadata.path) with
  | error failure => rfl
  | ok _ =>
    change ExceptT.run (applyMutation mutation >>= g) _ = _
    rw [run_bind, run_applyMutation { s with content := s.content ++ encodeMutation J mutation } h]
    rfl

end Run

/-- What the checks of an operation and its write come to. -/
def outcome (J : JsonText) (s : JsonlSessionStorage) (written : Except FileError Unit)
    (op : JsonlOp) : Except SessionError JsonlResult × JsonlSessionStorage :=
  match refusal s with
  | some error => (.error error, s)
  | none =>
    match Memory.checkOp s.state op.view with
    | some error => (.error error, s)
    | none =>
      match fileResult written ("Failed to append session " ++ s.metadata.path) with
      | .error failure => (.error failure, { s with writeFailure := some failure })
      | .ok () => (.ok (opResult s.state op), accept J s (opMutation s.state op))

/-- An operation is refused, fails in its checks, fails to write, or appends its mutation. -/
theorem runOp_eq (J : JsonText) {s : JsonlSessionStorage} (h : s.state.RepInv)
    (written : Except FileError Unit) (op : JsonlOp) : (runOp J written op).run s = outcome J s written op := by
  unfold outcome
  cases href : refusal s with
  | some error =>
    cases op <;> simp only [runOp, createLane, moveLane, appendEntry, appendRecord, setName, setLabel, run_enqueue, href]
  | none =>
    have hwri : s.writer = true := by
      unfold refusal at href
      split_ifs at href with hread
      · simpa using hread
    have hm := @Memory.checkMutation_of_checkOp s.state h op.view
    rw [← viewMutation_opMutation] at hm
    have hend : Memory.checkOp s.state op.view = none →
        ExceptT.run (appendMutation J written (opMutation s.state op) >>= fun _ =>
          applyMutation (opMutation s.state op) >>= fun _ => pure (opResult s.state op)) s =
        match fileResult written ("Failed to append session " ++ s.metadata.path) with
        | .error failure => (.error failure, { s with writeFailure := some failure })
        | .ok () => (.ok (opResult s.state op), accept J s (opMutation s.state op)) :=
      fun hchk => run_append_apply J s hwri (hm hchk) _
    cases op with
    | createLane lane at_ =>
      simp only [runOp, createLane, run_enqueue, href, bind_assoc, run_onState, run_get,
        SessionState.validateNewLane, Memory.validateTarget_eq]
      simp only [JsonlOp.view, Memory.checkOp] at hend ⊢
      cases hl : s.state.lanes.has lane with
      | true => rfl
      | false =>
        cases ht : Memory.targetError s.state at_ with
        | none => exact hend (by rw [hl, if_neg (by decide), ht])
        | some error => rfl
    | moveLane lane to_ =>
      simp only [runOp, moveLane, run_enqueue, href, bind_assoc, run_onState, run_get,
        Memory.requireLane_eq, Memory.validateTarget_eq]
      simp only [JsonlOp.view, Memory.checkOp] at hend ⊢
      cases hl : s.state.lanes.has lane with
      | false => rfl
      | true =>
        cases ht : Memory.targetError s.state to_ with
        | none => exact hend (by rw [hl, if_pos rfl, ht])
        | some error => rfl
    | appendEntry newEntry lane now =>
      simp only [runOp, appendEntry, run_enqueue, href, bind_assoc, run_onState, run_get,
        Memory.requireLane_eq, SessionState.validateUnusedId]
      simp only [JsonlOp.view, Memory.checkOp, viewProvisioned] at hend ⊢
      cases hl : s.state.lanes.has lane with
      | false => rfl
      | true =>
        by_cases hid : text (newEntry.lookup "id") ∈ s.state.usedIds
        · simp only [if_pos hid, if_true, Bool.not_true, Bool.false_eq_true, if_false]
        · simp only [hl, if_neg hid, if_true, Bool.not_true, Bool.false_eq_true, if_false] at hend ⊢
          exact hend trivial
    | appendRecord newRecord now =>
      simp only [runOp, appendRecord, run_enqueue, href, bind_assoc, run_onState,
        Memory.requireLane_eq, SessionState.validateUnusedId, Memory.findOpenOperations_one h]
      simp only [JsonlOp.view, Memory.checkOp, viewNewRecord, viewRecordData_started] at hend ⊢
      cases hl : s.state.lanes.has (text (newRecord.lookup "lane")) with
      | false => rfl
      | true =>
        by_cases hid : text (newRecord.lookup "id") ∈ s.state.usedIds
        · simp only [if_pos hid, if_true, Bool.not_true, Bool.false_eq_true, if_false]
        simp only [hl, if_neg hid, if_true, Bool.not_true, Bool.false_eq_true, if_false] at hend ⊢
        by_cases hs : text (newRecord.lookup "type") = "operation_started"
        · simp only [if_pos hs, Memory.head?_take_one_reverse] at hend ⊢
          cases ho : (openOperations s.state.records (text (newRecord.lookup "lane"))).getLast? with
          | none =>
            simp only [bind_assoc, pure_bind, run_get]
            exact hend (by rw [ho]; rfl)
          | some current => rfl
        · simp only [if_neg hs, bind_assoc, pure_bind, run_get] at hend ⊢
          exact hend trivial
    | setName name =>
      simp only [runOp, setName, run_enqueue, href, bind_assoc, run_get]
      exact hend rfl
    | setLabel id label =>
      simp only [runOp, setLabel, run_enqueue, href, bind_assoc, run_onState, run_get, Memory.validateTarget_eq]
      simp only [JsonlOp.view, Memory.checkOp] at hend ⊢
      cases ht : Memory.targetError s.state (some id) with
      | none => exact hend ht
      | some error => rfl

end EasyPi.Jsonl
