/-
# Validation of a decoded journal line

`packages/agent/src/harness/session/validation.ts` on the JSON objects it is
run on: which properties `assertDurableEntry` and `assertDurableRecord` read,
what they ask of them, in which order, and the text of the first check that
fails. Properties they do not read may be anything. `Session/Validation.lean`
has the same checks for payloads that are already typed.

The checks read an object by its properties only, so two objects that agree
on them pass or fail alike (`assertDurableEntry_congr`,
`assertDurableRecord_congr`).
-/
import Mathlib.Algebra.Group.Nat.Defs
import EasyPi.Ai.Json
import EasyPi.Lib.Except

namespace EasyPi.Session
namespace Durable

/-- A check: `ok`, or the message it throws. -/
abbrev Check := Except String Unit

def requireValue (valid : Bool) (field : String) : Check :=
  if valid then .ok () else .error ("Invalid durable " ++ field)

def object (value : Option JsonValue) (field : String) : Except String Fields :=
  match value with
  | some (.obj members) => .ok members
  | _ => .error ("Invalid durable " ++ field)

def string (value : Option JsonValue) (field : String) : Check := requireValue (value.any JsonValue.isString) field

/-- `number`. Every number of the model is finite. -/
def number (value : Option JsonValue) (field : String) : Check := requireValue (value.any JsonValue.isNumber) field

/-- `Number.isSafeInteger(value) && value >= minimum`. -/
def isSafeIntegerFrom (minimum : ℤ) : JsonValue → Bool
  | .num n => n.den = 1 ∧ n.num.natAbs ≤ 2 ^ 53 - 1 ∧ minimum ≤ n.num
  | _ => false

def integer (value : Option JsonValue) (minimum : ℤ) (field : String) : Check :=
  requireValue (value.any (isSafeIntegerFrom minimum)) field

def boolean (value : Option JsonValue) (field : String) : Check := requireValue (value.any JsonValue.isBoolean) field

def nullableId (value : Option JsonValue) (field : String) : Check :=
  if value = some .null then .ok () else string value field

def oneOf (value : Option JsonValue) (values : List String) (field : String) : Check :=
  requireValue (value.any fun
    | .str s => s ∈ values
    | _ => false) field

def array (value : Option JsonValue) (field : String) (validate : Option JsonValue → String → Check) : Check :=
  match value with
  | some (.arr items) => items.forM fun item => validate (some item) field
  | _ => .error ("Invalid durable " ++ field)

def optional (value : Option JsonValue) (field : String) (validate : Option JsonValue → String → Check) : Check :=
  if value = none then .ok () else validate value field

/-- `for (const key of keys) string(data[key], key)`. -/
def strings (data : Fields) (keys : List String) : Check := keys.forM fun key => string (data.lookup key) key

/-! ### Messages -/

def usage (value : Option JsonValue) (field : String) : Check := do
  let data ← object value field
  for key in ["input", "output", "cacheRead", "cacheWrite", "totalTokens"] do
    number (data.lookup key) (field ++ "." ++ key)
  for key in ["cacheWrite1h", "reasoning"] do
    optional (data.lookup key) (field ++ "." ++ key) number
  let cost ← object (data.lookup "cost") (field ++ ".cost")
  for key in ["input", "output", "cacheRead", "cacheWrite", "total"] do
    number (cost.lookup key) (field ++ ".cost." ++ key)

/-- A block of `content`. -/
def contentBlock (allowed : List String) (item : Option JsonValue) : Check := do
  let block ← object item "content block"
  oneOf (block.lookup "type") allowed "content type"
  match block.lookup "type" with
  | some (.str "text") => string (block.lookup "text") "text"
  | some (.str "image") =>
    string (block.lookup "data") "image data"
    string (block.lookup "mimeType") "image mimeType"
  | some (.str "thinking") => string (block.lookup "thinking") "thinking"
  | some (.str "toolCall") =>
    string (block.lookup "id") "tool call id"
    string (block.lookup "name") "tool call name"
    let _ ← object (block.lookup "arguments") "tool call arguments"
    return ()
  | _ => return ()

def content (value : Option JsonValue) (allowed : List String) : Check :=
  array value "message.content" fun item _ => contentBlock allowed item

def userContent (value : Option JsonValue) : Check :=
  if value.any JsonValue.isString then .ok () else content value ["text", "image"]

def stopReasons : List String := ["pending", "stop", "length", "toolUse", "error", "aborted", "deferred"]

/-- The `deferred` handle of a response. -/
def deferredHandle (value : Option JsonValue) : Check := do
  let deferred ← object value "deferred handle"
  for key in ["provider", "modelId", "api", "id"] do
    string (deferred.lookup key) ("deferred." ++ key)
  optional (deferred.lookup "expiresAt") "deferred.expiresAt" number
  optional (deferred.lookup "pollAfterMs") "deferred.pollAfterMs" number

def message (value : Option JsonValue) : Check := do
  let data ← object value "message"
  string (data.lookup "role") "message role"
  match data.lookup "role" with
  | some (.str "user") =>
    userContent (data.lookup "content")
    number (data.lookup "timestamp") "message timestamp"
  | some (.str "assistant") =>
    content (data.lookup "content") ["text", "thinking", "toolCall"]
    strings data ["api", "provider", "model"]
    usage (data.lookup "usage") "message usage"
    oneOf (data.lookup "stopReason") stopReasons "stopReason"
    if data.lookup "isResponseCheckpoint" ≠ none then
      requireValue (data.lookup "isResponseCheckpoint" = some (.bool true)) "isResponseCheckpoint"
    if data.lookup "deferred" ≠ none then
      deferredHandle (data.lookup "deferred")
    number (data.lookup "timestamp") "message timestamp"
  | some (.str "toolResult") =>
    string (data.lookup "toolCallId") "toolCallId"
    string (data.lookup "toolName") "toolName"
    content (data.lookup "content") ["text", "image"]
    boolean (data.lookup "isError") "isError"
    optional (data.lookup "usage") "tool usage" usage
    number (data.lookup "timestamp") "message timestamp"
  | some (.str "bashExecution") =>
    string (data.lookup "command") "command"
    string (data.lookup "output") "output"
    optional (data.lookup "exitCode") "exitCode" number
    boolean (data.lookup "cancelled") "cancelled"
    boolean (data.lookup "truncated") "truncated"
    number (data.lookup "timestamp") "message timestamp"
  | some (.str "custom") =>
    string (data.lookup "customType") "customType"
    userContent (data.lookup "content")
    boolean (data.lookup "display") "display"
    number (data.lookup "timestamp") "message timestamp"
  | some (.str "branchSummary") =>
    string (data.lookup "summary") "summary"
    string (data.lookup "fromId") "fromId"
    number (data.lookup "timestamp") "message timestamp"
  | some (.str "compactionSummary") =>
    string (data.lookup "summary") "summary"
    number (data.lookup "tokensBefore") "tokensBefore"
    number (data.lookup "timestamp") "message timestamp"
  -- messages merged in by other packages have no schema here
  | _ => return ()

/-- `assertDurableEntry`, on the members of the object. -/
def entryMembers (entry : Fields) : Check := do
  string (entry.lookup "id") "entry id"
  match entry.lookup "type" with
  | some (.str "message") =>
    message (entry.lookup "message")
    if entry.lookup "terminate" ≠ none then
      requireValue (entry.lookup "terminate" = some (.bool true)) "terminate"
  | some (.str "model_change") =>
    string (entry.lookup "provider") "provider"
    string (entry.lookup "modelId") "modelId"
  | some (.str "thinking_level_change") => string (entry.lookup "thinkingLevel") "thinkingLevel"
  | some (.str "active_tools_change") =>
    array (entry.lookup "activeToolNames") "activeToolNames" string
  | some (.str "compaction") =>
    string (entry.lookup "summary") "summary"
    array (entry.lookup "retainedTail") "retainedTail" fun item _ => message item
    number (entry.lookup "tokensBefore") "tokensBefore"
    optional (entry.lookup "usage") "compaction usage" usage
  | some (.str "branch_summary") =>
    string (entry.lookup "fromId") "fromId"
    string (entry.lookup "summary") "summary"
    optional (entry.lookup "usage") "branch summary usage" usage
  | some (.str "custom") => string (entry.lookup "customType") "customType"
  | _ => .error "Invalid durable entry type"

def assertDurableEntry (value : Option JsonValue) : Check := do
  entryMembers (← object value "entry")

/-! ### Records -/

/-- The `intent` of an `operation_started` record. -/
def operationIntent (value : Option JsonValue) : Check := do
  let intent ← object value "intent"
  match intent.lookup "kind" with
  | some (.str "run") =>
    array (intent.lookup "originalPrompt") "originalPrompt" fun item _ => message item
    array (intent.lookup "initialMessages") "initialMessages" fun item _ => assertDurableEntry item
    optional (intent.lookup "systemPromptOverride") "systemPromptOverride" string
    optional (intent.lookup "resumeData") "resumeData" fun value field => do
      let _ ← object value field
      return ()
  | some (.str "compaction") =>
    string (intent.lookup "resultEntryId") "resultEntryId"
    optional (intent.lookup "customInstructions") "customInstructions" string
  | some (.str "navigation") =>
    nullableId (intent.lookup "targetId") "targetId"
    boolean (intent.lookup "summarize") "summarize"
    for key in ["customInstructions", "label", "summaryEntryId"] do
      optional (intent.lookup key) key string
  | _ => .error "Invalid durable operation kind"

/-- The `error` of an `operation_finished` record. -/
def operationError (value : Option JsonValue) : Check := do
  let error ← object value "operation error"
  string (error.lookup "code") "error code"
  string (error.lookup "message") "error message"

/-- The `diagnostic` of a `tool_reconciliation` record. -/
def toolDiagnostic (value toolCallId : Option JsonValue) : Check := do
  message value
  let diagnostic ← object value "diagnostic"
  requireValue (diagnostic.lookup "role" = some (.str "toolResult") &&
    diagnostic.lookup "toolCallId" = toolCallId) "tool diagnostic identity"

/-- The `message` of an `assistant_checkpoint` record. -/
def checkpointMessage (value : Option JsonValue) : Check := do
  message value
  let checkpoint ← object value "checkpoint"
  requireValue (checkpoint.lookup "role" = some (.str "assistant") &&
    checkpoint.lookup "isResponseCheckpoint" = some (.bool true)) "assistant checkpoint"

/-- The `continuationFailure` of an `assistant_checkpoint` record. -/
def continuationFailure (value : Option JsonValue) : Check := do
  message value
  let failure ← object value "continuationFailure"
  requireValue (failure.lookup "role" = some (.str "assistant")) "continuationFailure role"

variable (record : Fields)

/-- What a `usage` record says of its cause. -/
def usageCause : Check := do
  if record.lookup "cause" = some (.str "adjustment") then
    optional (record.lookup "runId") "runId" string
    optional (record.lookup "entryId") "entryId" string
  else
    string (record.lookup "runId") "runId"
    string (record.lookup "entryId") "entryId"
    if record.lookup "cause" = some (.str "tool") then
      string (record.lookup "toolCallId") "toolCallId"
    else if record.lookup "cause" ≠ some (.str "hook") then
      integer (record.lookup "attempt") 1 "attempt"
      oneOf (record.lookup "stopReason") ["stop", "length", "toolUse", "error", "aborted", "deferred"] "usage stopReason"

/-- The records that need not belong to a run. -/
def unownedTypes : List String := ["operation_started", "queue_enqueued", "queue_cancelled", "usage"]

def recordPayload : Check := do
  match record.lookup "type" with
  | some (.str "operation_started") =>
    nullableId (record.lookup "sourceLeafId") "sourceLeafId"
    operationIntent (record.lookup "intent")
  | some (.str "abort_requested") | some (.str "pause_requested") | some (.str "pause_cleared") =>
    return ()
  | some (.str "operation_finished") =>
    oneOf (record.lookup "outcome") ["completed", "aborted", "failed", "declined"] "outcome"
    if record.lookup "error" ≠ none then
      operationError (record.lookup "error")
  | some (.str "step_attempt") =>
    oneOf (record.lookup "step") ["assistant", "branch_summary", "compaction"] "step"
    integer (record.lookup "attempt") 1 "attempt"
    string (record.lookup "resultEntryId") "resultEntryId"
    if record.lookup "step" = some (.str "compaction") then
      oneOf (record.lookup "compactionReason") ["manual", "threshold", "overflow"]
        "compactionReason"
  | some (.str "tool_started") =>
    strings record ["assistantEntryId", "toolCallId", "toolName", "resultEntryId"]
    integer (record.lookup "toolIndex") 0 "toolIndex"
    let _ ← object (record.lookup "effectiveArgs") "effectiveArgs"
    optional (record.lookup "operationId") "operationId" string
    oneOf (record.lookup "replay") ["never", "safe"] "replay"
  | some (.str "tool_reconciliation") =>
    string (record.lookup "toolCallId") "toolCallId"
    string (record.lookup "resultEntryId") "resultEntryId"
    string (record.lookup "reason") "reason"
    if record.lookup "diagnostic" ≠ none then
      toolDiagnostic (record.lookup "diagnostic") (record.lookup "toolCallId")
  | some (.str "tool_reconciled") =>
    string (record.lookup "toolCallId") "toolCallId"
    string (record.lookup "resultEntryId") "resultEntryId"
  | some (.str "assistant_checkpoint") =>
    string (record.lookup "resultEntryId") "resultEntryId"
    integer (record.lookup "attempt") 1 "attempt"
    checkpointMessage (record.lookup "message")
    if record.lookup "continuationFailure" ≠ none then
      continuationFailure (record.lookup "continuationFailure")
    if record.lookup "retryAttempt" ≠ none then
      integer (record.lookup "retryAttempt") 1 "retryAttempt"
  | some (.str "queue_enqueued") =>
    oneOf (record.lookup "queue") ["nextRun", "steer", "followUp"] "queue"
    if record.lookup "queue" = some (.str "nextRun") then
      requireValue (record.lookup "runId" = none) "nextRun runId"
    else
      string (record.lookup "runId") "runId"
    assertDurableEntry (record.lookup "target")
  | some (.str "queue_cancelled") =>
    optional (record.lookup "runId") "runId" string
    string (record.lookup "entryId") "entryId"
  | some (.str "write_deferred") => assertDurableEntry (record.lookup "target")
  | some (.str "usage") =>
    usage (record.lookup "usage") "usage"
    oneOf (record.lookup "cause")
      ["assistant", "compaction", "branch_summary", "deferred_fetch", "tool", "hook", "adjustment"]
      "usage cause"
    usageCause record
  | _ => .error "Invalid durable record type"

/-- `assertDurableRecord`, on the members of the object. -/
def recordMembers : Check := do
  string (record.lookup "id") "record id"
  string (record.lookup "lane") "record lane"
  if (unownedTypes.any fun type => record.lookup "type" = some (.str type)) = false then
    string (record.lookup "runId") "runId"
  recordPayload record

def assertDurableRecord (value : Option JsonValue) : Check := do
  recordMembers (← object value "record")

/-- The properties `assertDurableEntry` reads. -/
def entryKeys : List String :=
  ["id", "type", "message", "terminate", "provider", "modelId", "thinkingLevel", "activeToolNames",
    "summary", "retainedTail", "tokensBefore", "usage", "fromId", "customType"]

/-- The properties `assertDurableRecord` reads. -/
def recordKeys : List String :=
  ["id", "lane", "type", "runId", "sourceLeafId", "intent", "outcome", "error", "step", "attempt",
    "resultEntryId", "compactionReason", "assistantEntryId", "toolCallId", "toolName", "toolIndex",
    "effectiveArgs", "operationId", "replay", "reason", "diagnostic", "message",
    "continuationFailure", "retryAttempt", "queue", "target", "entryId", "usage", "cause", "stopReason"]

variable {a b : Fields}

theorem assertDurableEntry_congr (h : ∀ key ∈ entryKeys, a.lookup key = b.lookup key) :
    assertDurableEntry (some (.obj a)) = assertDurableEntry (some (.obj b)) := by
  change entryMembers a = entryMembers b
  simp only [entryMembers, h "id" (by decide), h "type" (by decide), h "message" (by decide),
    h "terminate" (by decide), h "provider" (by decide), h "modelId" (by decide),
    h "thinkingLevel" (by decide), h "activeToolNames" (by decide), h "summary" (by decide),
    h "retainedTail" (by decide), h "tokensBefore" (by decide), h "usage" (by decide),
    h "fromId" (by decide), h "customType" (by decide)]

variable (h : ∀ key ∈ recordKeys, a.lookup key = b.lookup key)

include h in
theorem usageCause_congr : usageCause a = usageCause b := by
  simp only [usageCause, h "runId" (by decide), h "entryId" (by decide), h "cause" (by decide),
    h "toolCallId" (by decide), h "attempt" (by decide), h "stopReason" (by decide)]

include h in
theorem recordPayload_congr : recordPayload a = recordPayload b := by
  have hstr : strings a ["assistantEntryId", "toolCallId", "toolName", "resultEntryId"] =
      strings b ["assistantEntryId", "toolCallId", "toolName", "resultEntryId"] := by
    simp only [strings, List.forM, h "assistantEntryId" (by decide), h "toolCallId" (by decide),
      h "toolName" (by decide), h "resultEntryId" (by decide)]
  simp only [recordPayload, hstr, usageCause_congr h, h "type" (by decide),
    h "runId" (by decide), h "sourceLeafId" (by decide), h "intent" (by decide),
    h "outcome" (by decide), h "error" (by decide), h "step" (by decide), h "attempt" (by decide),
    h "resultEntryId" (by decide), h "compactionReason" (by decide), h "toolIndex" (by decide),
    h "effectiveArgs" (by decide), h "operationId" (by decide), h "replay" (by decide),
    h "toolCallId" (by decide), h "reason" (by decide), h "diagnostic" (by decide),
    h "message" (by decide), h "continuationFailure" (by decide), h "retryAttempt" (by decide),
    h "queue" (by decide), h "target" (by decide), h "entryId" (by decide), h "usage" (by decide), h "cause" (by decide)]

include h in
theorem assertDurableRecord_congr : assertDurableRecord (some (.obj a)) = assertDurableRecord (some (.obj b)) := by
  change recordMembers a = recordMembers b
  simp only [recordMembers, recordPayload_congr h, h "id" (by decide), h "lane" (by decide),
    h "type" (by decide), h "runId" (by decide)]

theorem requireValue_ok {valid : Bool} {field : String} (h : requireValue valid field = .ok ()) : valid = true := by
  unfold requireValue at h
  split_ifs at h with hval
  exact hval

theorem string_ok {value : Option JsonValue} {field : String} (h : string value field = .ok ()) :
    ∃ s, value = some (.str s) := by
  have hvl := requireValue_ok h
  match value, hvl with
  | some (.str s), _ => exact ⟨s, rfl⟩

theorem entry_id_type {entry : Fields} (h : assertDurableEntry (some (.obj entry)) = .ok ()) :
    (∃ id, entry.lookup "id" = some (.str id)) ∧ ∃ type, entry.lookup "type" = some (.str type) := by
  change entryMembers entry = .ok () at h
  obtain ⟨_, hid, htype⟩ := bind_ok_iff.mp h
  refine ⟨string_ok hid, ?_⟩
  split at htype
  all_goals first
    | exact ⟨_, by assumption⟩
    | cases htype

theorem record_id_lane_type {record : Fields} (h : assertDurableRecord (some (.obj record)) = .ok ()) :
    (∃ id, record.lookup "id" = some (.str id)) ∧ (∃ lane, record.lookup "lane" = some (.str lane)) ∧
      ∃ type, record.lookup "type" = some (.str type) := by
  change recordMembers record = .ok () at h
  obtain ⟨_, hid, h⟩ := bind_ok_iff.mp h
  obtain ⟨_, hlane, h⟩ := bind_ok_iff.mp h
  refine ⟨string_ok hid, string_ok hlane, ?_⟩
  have hpay : recordPayload record = .ok () := by
    split_ifs at h
    · obtain ⟨_, -, h⟩ := bind_ok_iff.mp h
      exact h
    · exact h
  unfold recordPayload at hpay
  split at hpay
  all_goals first
    | exact ⟨_, by assumption⟩
    | cases hpay

end Durable
end EasyPi.Session
