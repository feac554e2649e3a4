/-
# Payloads as the types read them

A decoded entry or record is the JSON object of its line, cast to its type.
`SessionState` works on the typed values of `Session/Types.lean`; these
functions read them off the object, property by property, as the types of
`packages/agent/src/harness/session/types.ts` and `packages/ai/src/types.ts`
declare them. A property that is missing or has another shape, which the
validation in front of the cast excludes where the code relies on it, reads
as an empty value.

The reading does not depend on the properties storage adds
(`viewProvisioned_congr`, `viewNewRecord_congr`).
-/
import EasyPi.Jsonl.Codec
import EasyPi.Session.State

namespace EasyPi.Jsonl

open Session

def text? : Option JsonValue → Option String
  | some (.str s) => some s
  | _ => none

def text (value : Option JsonValue) : String := (text? value).getD ""

def numeric? : Option JsonValue → Option ℚ
  | some (.num n) => some n
  | _ => none

def numeric (value : Option JsonValue) : ℚ := (numeric? value).getD 0

def natural (value : Option JsonValue) : ℕ := (numeric value).num.toNat

def flag : Option JsonValue → Bool
  | some (.bool b) => b
  | _ => false

def flag? : Option JsonValue → Option Bool
  | some (.bool b) => some b
  | _ => none

def membersOf : Option JsonValue → Fields
  | some (.obj members) => members
  | _ => []

def itemsOf : Option JsonValue → List JsonValue
  | some (.arr items) => items
  | _ => []

def texts (value : Option JsonValue) : List String := (itemsOf value).map fun item => text (some item)

/-! ### Messages -/

def viewUsage (value : Option JsonValue) : Usage :=
  let data := membersOf value
  let cost := membersOf (data.lookup "cost")
  { input := numeric (data.lookup "input")
    output := numeric (data.lookup "output")
    cacheRead := numeric (data.lookup "cacheRead")
    cacheWrite := numeric (data.lookup "cacheWrite")
    cacheWrite1h := numeric? (data.lookup "cacheWrite1h")
    reasoning := numeric? (data.lookup "reasoning")
    totalTokens := numeric (data.lookup "totalTokens")
    costInput := numeric (cost.lookup "input")
    costOutput := numeric (cost.lookup "output")
    costCacheRead := numeric (cost.lookup "cacheRead")
    costCacheWrite := numeric (cost.lookup "cacheWrite")
    costTotal := numeric (cost.lookup "total") }

def viewUsage? (value : Option JsonValue) : Option Usage := value.map fun v => viewUsage (some v)

def viewStopReason (value : Option JsonValue) : StopReason :=
  match text value with
  | "pending" => .pending
  | "length" => .length
  | "toolUse" => .toolUse
  | "error" => .error
  | "aborted" => .aborted
  | "deferred" => .deferred
  | _ => .stop

variable (value : JsonValue)

def viewDeferredHandle : DeferredHandle :=
  let data := membersOf (some value)
  { provider := text (data.lookup "provider")
    modelId := text (data.lookup "modelId")
    api := text (data.lookup "api")
    id := text (data.lookup "id")
    expiresAt := numeric? (data.lookup "expiresAt")
    pollAfterMs := numeric? (data.lookup "pollAfterMs")
    data := data.lookup "data" }

def viewToolCall (block : Fields) : ToolCall where
  id := text (block.lookup "id")
  name := text (block.lookup "name")
  arguments := (block.lookup "arguments").getD (.obj [])
  thoughtSignature := text? (block.lookup "thoughtSignature")
  callNamespace := text? (block.lookup "namespace")

def viewAssistantBlock : AssistantBlock :=
  let block := membersOf (some value)
  match text (block.lookup "type") with
  | "toolCall" => .toolCall (viewToolCall block)
  | "thinking" => .thinking (text (block.lookup "thinking"))
      (text? (block.lookup "thinkingSignature")) (flag (block.lookup "redacted"))
  | _ => .text (text (block.lookup "text")) (text? (block.lookup "textSignature"))

def viewContentBlock : ContentBlock :=
  let block := membersOf (some value)
  match text (block.lookup "type") with
  | "image" => .image (text (block.lookup "data")) (text (block.lookup "mimeType"))
  | _ => .text (text (block.lookup "text")) (text? (block.lookup "textSignature"))

/-- The content of a user message: a string is one text. -/
def viewUserContent (value : Option JsonValue) : List ContentBlock :=
  match value with
  | some (.str s) => [.text s none]
  | value => (itemsOf value).map viewContentBlock

def viewAssistant (data : Fields) : AssistantMessage where
  content := (itemsOf (data.lookup "content")).map viewAssistantBlock
  api := text (data.lookup "api")
  provider := text (data.lookup "provider")
  model := text (data.lookup "model")
  responseId := text? (data.lookup "responseId")
  diagnostics := data.lookup "diagnostics"
  usage := viewUsage (data.lookup "usage")
  stopReason := viewStopReason (data.lookup "stopReason")
  isResponseCheckpoint := flag (data.lookup "isResponseCheckpoint")
  deferred := (data.lookup "deferred").map viewDeferredHandle
  errorMessage := text? (data.lookup "errorMessage")
  rawStopReason := text? (data.lookup "rawStopReason")
  endTurn := flag? (data.lookup "endTurn")
  timestamp := numeric (data.lookup "timestamp")

def viewToolResult (data : Fields) : ToolResultMessage where
  toolCallId := text (data.lookup "toolCallId")
  toolName := text (data.lookup "toolName")
  content := (itemsOf (data.lookup "content")).map viewContentBlock
  details := data.lookup "details"
  usage := viewUsage? (data.lookup "usage")
  addedToolNames := texts (data.lookup "addedToolNames")
  structuredContent := data.lookup "structuredContent"
  nestedCalls := data.lookup "nestedCalls"
  nestedExecutionOutcomeUnknown := text? (data.lookup "nestedExecutionOutcome") = some "unknown"
  isError := flag (data.lookup "isError")
  timestamp := numeric (data.lookup "timestamp")

def viewMessage (value : Option JsonValue) : AgentMessage :=
  let data := membersOf value
  match text (data.lookup "role") with
  | "user" => .user (viewUserContent (data.lookup "content")) (numeric (data.lookup "timestamp"))
  | "assistant" => .assistant (viewAssistant data)
  | "toolResult" => .toolResult (viewToolResult data)
  | role => .custom role (.obj data)

def viewEntryData (entry : Fields) : EntryData :=
  match text (entry.lookup "type") with
  | "message" => .message (viewMessage (entry.lookup "message")) (flag (entry.lookup "terminate"))
  | "model_change" =>
    .modelChange (text (entry.lookup "provider")) (text (entry.lookup "modelId"))
  | "thinking_level_change" => .thinkingLevelChange (text (entry.lookup "thinkingLevel"))
  | "active_tools_change" => .activeToolsChange (texts (entry.lookup "activeToolNames"))
  | "compaction" => .compaction (text (entry.lookup "summary"))
      ((itemsOf (entry.lookup "retainedTail")).map fun item => viewMessage (some item))
      (numeric (entry.lookup "tokensBefore")) (entry.lookup "details")
      (viewUsage? (entry.lookup "usage"))
  | "branch_summary" => .branchSummary (text (entry.lookup "fromId"))
      (text (entry.lookup "summary")) (entry.lookup "details") (viewUsage? (entry.lookup "usage"))
  | _ => .custom (text (entry.lookup "customType")) (entry.lookup "data")

def viewProvisioned (entry : Fields) : ProvisionedEntry where
  id := text (entry.lookup "id")
  data := viewEntryData entry

def viewEntry (entry : Fields) : Entry where
  toProvisionedEntry := viewProvisioned entry
  seq := natural (entry.lookup "seq")
  parentId := text? (entry.lookup "parentId")
  timestamp := natural (entry.lookup "timestamp")

/-! ### Records -/

def viewIntent (value : Option JsonValue) : Intent :=
  let intent := membersOf value
  match text (intent.lookup "kind") with
  | "compaction" =>
    .compaction (text? (intent.lookup "customInstructions")) (text (intent.lookup "resultEntryId"))
  | "navigation" => .navigation (text? (intent.lookup "targetId")) (flag (intent.lookup "summarize"))
      (text? (intent.lookup "customInstructions")) (text? (intent.lookup "label"))
      (text? (intent.lookup "summaryEntryId"))
  | _ => .run ((itemsOf (intent.lookup "originalPrompt")).map fun item => viewMessage (some item))
      ((itemsOf (intent.lookup "initialMessages")).map fun item =>
        viewProvisioned (membersOf (some item)))
      (text? (intent.lookup "systemPromptOverride")) (intent.lookup "resumeData")

def viewOutcome (value : Option JsonValue) : OperationOutcome :=
  match text value with
  | "aborted" => .aborted
  | "failed" => .failed
  | "declined" => .declined
  | _ => .completed

def viewError : OperationError where
  code := text ((membersOf (some value)).lookup "code")
  message := text ((membersOf (some value)).lookup "message")

def viewStep (step reason : Option JsonValue) : Step :=
  match text step with
  | "branch_summary" => .branchSummary
  | "compaction" => .compaction (match text reason with
    | "threshold" => .threshold
    | "overflow" => .overflow
    | _ => .manual)
  | _ => .assistant

def viewQueue (queue runId : Option JsonValue) : Queue :=
  match text queue with
  | "steer" => .steer (text runId)
  | "followUp" => .followUp (text runId)
  | _ => .nextRun

variable (record : Fields)

def viewCause : UsageCause :=
  let runId := record.lookup "runId"
  let entryId := record.lookup "entryId"
  let attempt := natural (record.lookup "attempt")
  let stopReason := viewStopReason (record.lookup "stopReason")
  match text (record.lookup "cause") with
  | "assistant" => .assistant (text runId) (text entryId) attempt stopReason
  | "compaction" => .compaction (text runId) (text entryId) attempt stopReason
  | "branch_summary" => .branchSummary (text runId) (text entryId) attempt stopReason
  | "deferred_fetch" => .deferredFetch (text runId) (text entryId) attempt stopReason
  | "tool" => .tool (text runId) (text entryId) (text (record.lookup "toolCallId"))
  | "hook" => .hook (text runId) (text entryId)
  | _ => .adjustment (text? runId) (text? entryId) (record.lookup "details")

def viewRecordData : RecordData :=
  let runId := text (record.lookup "runId")
  let toolCallId := text (record.lookup "toolCallId")
  let resultEntryId := text (record.lookup "resultEntryId")
  match text (record.lookup "type") with
  | "operation_started" =>
    .operationStarted (text? (record.lookup "sourceLeafId")) (viewIntent (record.lookup "intent"))
  | "abort_requested" => .abortRequested runId
  | "pause_requested" => .pauseRequested runId
  | "pause_cleared" => .pauseCleared runId
  | "operation_finished" => .operationFinished runId (viewOutcome (record.lookup "outcome"))
      ((record.lookup "error").map viewError)
  | "step_attempt" => .stepAttempt runId
      (viewStep (record.lookup "step") (record.lookup "compactionReason"))
      (natural (record.lookup "attempt")) resultEntryId
  | "tool_started" => .toolStarted runId (text (record.lookup "assistantEntryId"))
      (natural (record.lookup "toolIndex")) toolCallId (text (record.lookup "toolName"))
      ((record.lookup "effectiveArgs").getD (.obj [])) resultEntryId
      (text? (record.lookup "operationId"))
      (if text (record.lookup "replay") = "safe" then .safe else .never)
  | "tool_reconciliation" => .toolReconciliation runId toolCallId resultEntryId
      (text (record.lookup "reason"))
      ((record.lookup "diagnostic").map fun value => viewToolResult (membersOf (some value)))
  | "tool_reconciled" => .toolReconciled runId toolCallId resultEntryId
  | "assistant_checkpoint" => .assistantCheckpoint runId resultEntryId
      (natural (record.lookup "attempt")) (viewAssistant (membersOf (record.lookup "message")))
      ((record.lookup "continuationFailure").map fun value =>
        viewAssistant (membersOf (some value)))
      ((record.lookup "retryAttempt").map fun value => natural (some value))
  | "queue_enqueued" => .queueEnqueued (viewQueue (record.lookup "queue") (record.lookup "runId"))
      (viewProvisioned (membersOf (record.lookup "target")))
  | "queue_cancelled" =>
    .queueCancelled (text? (record.lookup "runId")) (text (record.lookup "entryId"))
  | "write_deferred" => .writeDeferred runId (viewProvisioned (membersOf (record.lookup "target")))
  | _ => .usage (viewCause record) (viewUsage (record.lookup "usage"))

def viewNewRecord : NewRecord where
  id := text (record.lookup "id")
  lane := text (record.lookup "lane")
  data := viewRecordData record

def viewRecord : LaneRecord where
  toNewRecord := viewNewRecord record
  seq := natural (record.lookup "seq")
  timestamp := natural (record.lookup "timestamp")

/-- The mutation as `SessionState` reads it. -/
def viewMutation : Mutation → SessionMutation
  | .entry lane entry => .entry lane (viewEntry entry)
  | .record record => .record (viewRecord record)
  | .lane seq lane leafId => .lane seq lane leafId
  | .name seq name => .name seq name
  | .label seq targetId label => .label seq targetId label

theorem viewProvisioned_congr {a b : Fields}
    (h : ∀ key, key ∉ ["parentId", "seq", "timestamp"] → a.lookup key = b.lookup key) :
    viewProvisioned a = viewProvisioned b := by
  simp only [viewProvisioned, viewEntryData, h "id" (by decide), h "type" (by decide),
    h "message" (by decide), h "terminate" (by decide), h "provider" (by decide),
    h "modelId" (by decide), h "thinkingLevel" (by decide), h "activeToolNames" (by decide),
    h "summary" (by decide), h "retainedTail" (by decide), h "tokensBefore" (by decide),
    h "details" (by decide), h "usage" (by decide), h "fromId" (by decide),
    h "customType" (by decide), h "data" (by decide)]

theorem viewNewRecord_congr {a b : Fields} (h : ∀ key, key ∉ ["seq", "timestamp"] → a.lookup key = b.lookup key) :
    viewNewRecord a = viewNewRecord b := by
  simp only [viewNewRecord, viewRecordData, viewCause, h "id" (by decide), h "lane" (by decide),
    h "type" (by decide), h "runId" (by decide), h "sourceLeafId" (by decide),
    h "intent" (by decide), h "outcome" (by decide), h "error" (by decide), h "step" (by decide),
    h "attempt" (by decide), h "resultEntryId" (by decide), h "compactionReason" (by decide),
    h "assistantEntryId" (by decide), h "toolCallId" (by decide), h "toolName" (by decide),
    h "toolIndex" (by decide), h "effectiveArgs" (by decide), h "operationId" (by decide),
    h "replay" (by decide), h "reason" (by decide), h "diagnostic" (by decide),
    h "message" (by decide), h "continuationFailure" (by decide), h "retryAttempt" (by decide),
    h "queue" (by decide), h "target" (by decide), h "entryId" (by decide), h "usage" (by decide),
    h "cause" (by decide), h "stopReason" (by decide), h "details" (by decide)]

end EasyPi.Jsonl
