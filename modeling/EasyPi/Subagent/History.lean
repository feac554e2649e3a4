/-
# The turns of an agent, page by page

The ledger of turns (`packages/subagent/src/collaboration-store.ts`) and the listing of the turns of an
agent with a cursor (`listAgentTurns`, `packages/subagent/src/collaboration-controller.ts`). The rows of the
table stand in the order of their primary key, the sequence. The caller and the agent have been resolved;
the parts of a record that only its schema reads are a parameter, and so is the digest.
-/
import Mathlib.Logic.Relation
import EasyPi.Ai.JsonBytes
import EasyPi.Lib.Base64
import EasyPi.Lib.Utf8
import EasyPi.Subagent.ContextFork
import EasyPi.Subagent.Quality

namespace EasyPi.Subagent
namespace History

/-! ### Records -/

/-- `CollaborationHistoryCoverage`. -/
inductive HistoryCoverage where
  | complete | retainedOnly
  deriving DecidableEq

/-- `CollaborationTurnView`; `details` are the properties behind the preview. -/
structure TurnView where
  target : String
  turnId : String
  sequence : ℕ
  taskMessageId : Option String := none
  resultMessageId : Option String := none
  status : String
  historyCoverage : HistoryCoverage
  taskPreview : String
  details : Fields := []
  deriving DecidableEq

structure TurnResult where
  preview : String
  metadata : Fields := []
  deriving DecidableEq

/-- `CollaborationTurnRecord`. -/
structure TurnRecord where
  rootSessionId : String
  view : TurnView
  delegation : Option JsonValue := none
  result : Option TurnResult := none
  deriving DecidableEq

structure TurnRow where
  sequence : ℕ
  target : String
  turnId : String
  taskMessageId : Option String
  resultMessageId : Option String
  record : TurnRecord
  deriving DecidableEq

/-- The store: its root session, the coverage of its history, and the table of turns. -/
structure Ledger where
  rootSessionId : String
  coverage : HistoryCoverage
  rows : List TurnRow
  deriving DecidableEq

def coverageText : HistoryCoverage → String
  | .complete => "complete"
  | .retainedOnly => "retained_only"

/-- A text or `null`. -/
def nullable (text : Option String) : JsonValue := (text.map .str).getD .null

def TurnView.fields (view : TurnView) : Fields :=
  [("target", .str view.target), ("turn_id", .str view.turnId), ("sequence", .num view.sequence),
    ("task_message_id", nullable view.taskMessageId), ("result_message_id", nullable view.resultMessageId),
    ("status", .str view.status), ("history_coverage", .str (coverageText view.historyCoverage)),
    ("task_preview", .str view.taskPreview)] ++ view.details

def TurnView.toJson (view : TurnView) : JsonValue := .obj view.fields

/-- The properties of a record without its delegation and its result. -/
def TurnRecord.metadata (record : TurnRecord) : Fields := ("rootSessionId", .str record.rootSessionId) :: record.view.fields

def maxRetainedTurns : ℕ := 4096
def defaultPageSize : ℕ := 10
def maxPageSize : ℕ := 20
def maxTurnMetadataBytes : ℕ := 8192
def maxPageResponseBytes : ℕ := 64 * 1024
def maxTaskPreviewCharacters : ℕ := 256
def maxDepth : ℕ := 4
def maxDelegationBytes : ℕ := 256 * 1024
def maxResultBytes : ℕ := 64 * 1024
/-- `Number.MAX_SAFE_INTEGER`. -/
def maxSafeInteger : ℕ := 2 ^ 53 - 1
/-- What is left of a page for what stands around its turns. -/
def pageWrapperBytes : ℕ := 1024
def maxCursorLength : ℕ := 512

/-! ### Checks -/

/-- `[A-Za-z0-9]`. -/
def isAlphanumeric (c : Char) : Bool := c.isAlphanum

/-- `TaskName`. -/
def isTaskName (segment : List Char) : Bool :=
  segment.head?.any isAlphanumeric && segment.all (fun c => isAlphanumeric c || c == '.' || c == '_' || c == '-') &&
    segment.length ≤ 64

/-- `validateAgentPath`. -/
def isAgentPath (path : String) : Bool :=
  match path.toList.splitOn '/' with
  | [] :: root :: names =>
    root == "root".toList && names.length + 2 ≤ maxDepth + 2 && names.all isTaskName
  | _ => false

/-- What is checked of a record beside the properties of the model: its schema, its delegation, its handoff,
and the source of its result. -/
structure TurnChecks where
  schema : TurnRecord → Bool
  contract : TurnRecord → Bool
  handoff : TurnRecord → Except CollaborationError Unit
  source : TurnRecord → Bool

def storageError (message : String) : CollaborationError := ⟨.storageError, message⟩
def invalidArguments (message : String) : CollaborationError := ⟨.invalidArguments, message⟩

section
variable (K : TurnChecks)

def validateTurn (L : Ledger) (record : TurnRecord) : Except CollaborationError Unit := do
  failIf (K.schema record = false ∨ record.view.sequence < 1 ∨ maxSafeInteger < record.view.sequence ∨
      record.rootSessionId ≠ L.rootSessionId ∨ record.view.historyCoverage ≠ L.coverage ∨
      maxTaskPreviewCharacters < record.view.taskPreview.length) (storageError "Invalid turn identity or shape")
  failIf (isAgentPath record.view.target = false ∨ K.contract record = false) (storageError "Invalid turn contract")
  failIf (record.view.target = "/root") (storageError "Invalid turn target")
  K.handoff record
  failIf (K.source record = false) (storageError "Invalid result source")
  let result := (record.result.map fun result => ("result", JsonValue.obj result.metadata)).toList
  failIf (maxTurnMetadataBytes < jsonBytes (.obj (record.metadata ++ result)) ∨
      record.delegation.any (maxDelegationBytes < jsonBytes ·) = true ∨
      record.result.any (maxResultBytes < ·.preview.utf8ByteSize) = true) (storageError "Turn exceeds history budget")

def decodeTurn (L : Ledger) (row : TurnRow) : Except CollaborationError TurnRecord := do
  let view := row.record.view
  failIf (view.sequence ≠ row.sequence ∨ view.target ≠ row.target ∨ view.turnId ≠ row.turnId ∨
      view.taskMessageId ≠ row.taskMessageId ∨ view.resultMessageId ≠ row.resultMessageId)
    (storageError "Invalid turn index")
  validateTurn K L row.record
  return row.record

/-- `coalesce(max(sequence), 0)`. -/
def maxSequence (L : Ledger) : ℕ := (L.rows.map (·.sequence)).foldl max 0

/-- `highWater`. -/
def readHighWater (L : Ledger) : Except CollaborationError ℕ := do
  failIf (maxSafeInteger < maxSequence L) (storageError "Invalid history sequence")
  return maxSequence L

/-- The rows of a target behind a sequence, up to another. -/
def rowsBetween (L : Ledger) (target : String) (after highWater : ℕ) : List TurnRow :=
  L.rows.filter fun row => row.target = target && after < row.sequence && row.sequence ≤ highWater

/-- The loop of `pageTurns`. -/
def pageLoop : ℕ → List TurnView → Except CollaborationError (List TurnView)
  | _, [] => .ok []
  | bytes, view :: views =>
    let size := jsonBytes view.toJson + 1
    if maxPageResponseBytes < size + pageWrapperBytes then .error (storageError "History record cannot fit page")
    else if maxPageResponseBytes < bytes + size then .ok []
    else (pageLoop (bytes + size) views).map (view :: ·)

def pageTurns (L : Ledger) (target : String) (after highWater limit : ℕ) :
    Except CollaborationError (List TurnView) := do
  let current ← readHighWater L
  failIf (maxSafeInteger < after ∨ maxSafeInteger < highWater ∨ maxSafeInteger < limit ∨ highWater < after ∨
      current < highWater ∨ limit < 1 ∨ maxPageSize < limit) (invalidArguments "Invalid history page bounds")
  let candidates ← ((rowsBetween L target after highWater).take limit).mapM (decodeTurn K L)
  pageLoop pageWrapperBytes (candidates.map (·.view))

/-! ### Cursors -/

/-- What the history takes from the runtime: `sha256` in hexadecimal and `JSON.parse`. -/
structure Host where
  sha256 : String → String
  length_sha256 : ∀ text, (sha256 text).toList.length = 64
  hexadecimal : ∀ text, ∀ c ∈ (sha256 text).toList, c.isDigit = true ∨ c ∈ ['a', 'b', 'c', 'd', 'e', 'f']
  parse : String → Option JsonValue
  parse_stringify : ∀ value, value.WellFormed → parse (Standard.stringify value) = some value

variable (H : Host)

def scopeOf (L : Ledger) (path : String) : String :=
  H.sha256 (Standard.stringify (.arr [.str L.rootSessionId, .str path]))

def cursorValue (scope : String) (after highWater : ℕ) : JsonValue :=
  .obj [("scope", .str scope), ("after", .num after), ("highWater", .num highWater)]

def encodeCursor (scope : String) (after highWater : ℕ) : String :=
  .ofList (base64url (utf8 (.ofChars (Standard.stringify (cursorValue scope after highWater)).toList)))

def decodeCursor (text : String) : Option JsonValue :=
  let decoded := ofBase64url text.toList
  if base64url decoded ≠ text.toList then none
  else H.parse (.ofList (decodeUtf8 decoded.length decoded))

/-- `Number.isSafeInteger`, of a number that is not negative. -/
def safeNatural : Option JsonValue → Option ℕ
  | some (.num n) => if n.den = 1 ∧ 0 ≤ n.num ∧ n.num ≤ maxSafeInteger then some n.num.natAbs else none
  | _ => none

/-- `Object.keys(cursor).sort().join(",")`. -/
def sortedKeys (fields : Fields) : String := ",".intercalate ((fields.map (·.1)).mergeSort textLE)

/-- Where a page starts and ends, by its cursor. -/
def readCursor (L : Ledger) (path text : String) : Except CollaborationError (ℕ × ℕ) := do
  let current ← readHighWater L
  match decodeCursor H text with
  | none => throw (invalidArguments "Invalid history cursor")
  | some (.obj fields) =>
    failIf (sortedKeys fields ≠ "after,highWater,scope") (invalidArguments "Invalid history cursor shape")
    match safeNatural (fields.lookup "after"), safeNatural (fields.lookup "highWater") with
    | some after, some highWater =>
      failIf (fields.lookup "scope" ≠ some (.str (scopeOf H L path)) ∨ after < 1 ∨ highWater < after ∨
          current < highWater) (invalidArguments "Foreign or invalid history cursor")
      let anchor ← pageTurns K L path (after - 1) after 1
      failIf (anchor.head?.map (·.sequence) ≠ some after) (invalidArguments "Cursor anchor belongs to another target")
      return (after, highWater)
    | _, _ => throw (invalidArguments "Foreign or invalid history cursor")
  | some _ => throw (invalidArguments "Invalid history cursor shape")

def pageBounds (L : Ledger) (path : String) : Option String → Except CollaborationError (ℕ × ℕ)
  | none => do return (0, ← readHighWater L)
  | some text => readCursor K H L path text

/-- `CollaborationTurnPage`. -/
structure TurnPage where
  target : String
  historyCoverage : HistoryCoverage
  turns : List TurnView
  nextCursor : Option String
  deriving DecidableEq

def TurnPage.toJson (page : TurnPage) : JsonValue :=
  .obj [("target", .str page.target), ("history_coverage", .str (coverageText page.historyCoverage)),
    ("turns", .arr (page.turns.map (·.toJson))), ("next_cursor", nullable page.nextCursor)]

def boundedResponse (page : TurnPage) : Except CollaborationError TurnPage := do
  failIf (maxPageResponseBytes < jsonBytes page.toJson) (storageError "History response exceeds budget")
  return page

def validArguments (cursor : Option String) (limit : Option ℕ) : Bool :=
  cursor.all (fun text => 1 ≤ text.toList.length && text.toList.length ≤ maxCursorLength &&
      text.toList.all (· ∈ base64Alphabet)) &&
    limit.all fun limit => 1 ≤ limit && limit ≤ maxPageSize

/-- The cursor of the next page, if there is one. -/
def nextCursorOf (L : Ledger) (path : String) (turns : List TurnView) (highWater : ℕ) :
    Except CollaborationError (Option String) :=
  match turns.getLast? with
  | none => .ok none
  | some last => do
    let more ← pageTurns K L path last.sequence highWater 1
    return if more = [] then none else some (encodeCursor (scopeOf H L path) last.sequence highWater)

/-- `listAgentTurns`, of the agent with a path. -/
def listAgentTurns (L : Ledger) (path : String) (cursor : Option String) (limit : Option ℕ) :
    Except CollaborationError TurnPage := do
  failIf (validArguments cursor limit = false) (invalidArguments "Invalid list_agent_turns arguments")
  let (after, highWater) ← pageBounds K H L path cursor
  let turns ← pageTurns K L path after highWater (limit.getD defaultPageSize)
  let nextCursor ← nextCursorOf K H L path turns highWater
  failIf (nextCursor.any (maxCursorLength < ·.toList.length) = true) (storageError "History cursor exceeds budget")
  boundedResponse ⟨path, L.coverage, turns, nextCursor⟩

/-! ### Commits -/

def rowOf (record : TurnRecord) : TurnRow :=
  ⟨record.view.sequence, record.view.target, record.view.turnId, record.view.taskMessageId,
    record.view.resultMessageId, record⟩

/-- `SELECT * FROM turns WHERE target=? AND turn_id=?`. -/
def rowAt (L : Ledger) (target turnId : String) : Option TurnRow :=
  L.rows.find? fun row => row.target = target && row.turnId = turnId

/-- Another row has the result message of a record. -/
def resultTaken (L : Ledger) (record : TurnRecord) : Bool :=
  record.view.resultMessageId.isSome && L.rows.any fun row =>
    row.resultMessageId = record.view.resultMessageId && (row.target ≠ record.view.target ||
      row.turnId ≠ record.view.turnId)

/-- The rows with a new one, by its sequence. -/
def insertRow (rows : List TurnRow) (record : TurnRecord) : List TurnRow :=
  rows.filter (fun row => row.sequence < record.view.sequence) ++ rowOf record ::
    rows.filter fun row => record.view.sequence < row.sequence

/-- A row after the write of a record: a row with its key gets the record, and keeps its sequence. -/
def replaceRow (record : TurnRecord) (row : TurnRow) : TurnRow :=
  if row.target = record.view.target ∧ row.turnId = record.view.turnId then
    { row with
      taskMessageId := record.view.taskMessageId
      resultMessageId := record.view.resultMessageId
      record := record }
  else row

/-- `writeTurn`: a turn that is in the table keeps its key. The uniqueness of the keys is checked by the
table. -/
def writeTurn (L : Ledger) (record : TurnRecord) : Except CollaborationError Ledger := do
  validateTurn K L record
  failIf (resultTaken L record = true) (storageError "UNIQUE constraint failed: turns.result_message_id")
  match rowAt L record.view.target record.view.turnId with
  | none =>
    failIf (maxRetainedTurns ≤ L.rows.length) ⟨.limitReached, "Retained turn history is full"⟩
    failIf (L.rows.any (·.sequence = record.view.sequence) = true)
      (storageError "UNIQUE constraint failed: turns.sequence")
    return { L with rows := insertRow L.rows record }
  | some _ => return { L with rows := L.rows.map (replaceRow record) }

/-- `newTurn`: the record of a turn with the next sequence. -/
def newTurn (L : Ledger) (highWater : ℕ) (turn : TurnRecord) : TurnRecord :=
  { turn with
    rootSessionId := L.rootSessionId
    view.sequence := highWater + 1
    view.historyCoverage := L.coverage }

def addTurn (L : Ledger) (turn : TurnRecord) : Except CollaborationError Ledger := do
  let highWater ← readHighWater L
  writeTurn K L (newTurn L highWater turn)

def changedTurn (turn changed : TurnRecord) : TurnRecord :=
  { changed with
    rootSessionId := turn.rootSessionId
    view.target := turn.view.target
    view.turnId := turn.view.turnId
    view.sequence := turn.view.sequence
    view.historyCoverage := turn.view.historyCoverage }

/-- A turn is changed (`getTurn`, then `writeTurn`). -/
def updateTurn (L : Ledger) (target turnId : String) (change : TurnRecord → TurnRecord) :
    Except CollaborationError Ledger :=
  match rowAt L target turnId with
  | none => .ok L
  | some row => do
    let turn ← decodeTurn K L row
    writeTurn K L (changedTurn turn (change turn))

inductive Write (L : Ledger) : Ledger → Prop where
  | add (turn : TurnRecord) (h : rowAt L turn.view.target turn.view.turnId = none) {L' : Ledger}
      (hwri : addTurn K L turn = .ok L') : Write L L'
  | update (target turnId : String) (change : TurnRecord → TurnRecord) {L' : Ledger}
      (hwri : updateTurn K L target turnId change = .ok L') : Write L L'

def Commits : Ledger → Ledger → Prop := Relation.ReflTransGen (Write K)

end

end History
end EasyPi.Subagent
