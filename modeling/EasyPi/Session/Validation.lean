/-
# Validation of durable payloads

`assertDurableEntry` and `assertDurableRecord` of
`packages/agent/src/harness/session/validation.ts`, which a backend runs on
what it decodes. A field whose type in the model already has the checked
shape needs no check here; what is left are the bounds, the objects and the
identities that a well-typed payload can still miss.
-/
import Mathlib.Algebra.Group.Nat.Defs
import EasyPi.Ai.Json
import EasyPi.Session.Types

namespace EasyPi

namespace Session

open JsonValue

/-- `integer(value, minimum)`: a safe integer, at least `minimum`. -/
def durableInteger (value minimum : ℕ) : Bool := minimum ≤ value ∧ value ≤ 2 ^ 53 - 1

/-- A `text` or `image` block of an application's own message. -/
def durableBlock (block : JsonValue) : Bool :=
  match block.field? "type" with
  | some (.str "text") => block.hasField "text" isString
  | some (.str "image") => block.hasField "data" isString && block.hasField "mimeType" isString
  | _ => false

/-- `userContent`: a string, or text and image blocks. -/
def durableUserContent : JsonValue → Bool
  | .str _ => true
  | .arr blocks => blocks.all durableBlock
  | _ => false

/-- The fields `message` checks of an application's own message. Messages
merged in by other packages have no schema here. -/
def durableCustomMessage (role : String) (data : JsonValue) : Bool :=
  match role with
  | "bashExecution" =>
    data.hasField "command" isString && data.hasField "output" isString &&
    data.optionalField "exitCode" isNumber && data.hasField "cancelled" isBoolean &&
    data.hasField "truncated" isBoolean && data.hasField "timestamp" isNumber
  | "custom" =>
    data.hasField "customType" isString && data.hasField "content" durableUserContent &&
    data.hasField "display" isBoolean && data.hasField "timestamp" isNumber
  | "branchSummary" =>
    data.hasField "summary" isString && data.hasField "fromId" isString &&
    data.hasField "timestamp" isNumber
  | "compactionSummary" =>
    data.hasField "summary" isString && data.hasField "tokensBefore" isNumber &&
    data.hasField "timestamp" isNumber
  -- a message with one of these roles has its own constructor
  | "user" | "assistant" | "toolResult" => false
  | _ => true

/-- `message`, of a response: its tool calls have objects as arguments. -/
def durableAssistant (m : AssistantMessage) : Bool := m.toolCalls.all fun call => call.arguments.isObject

/-- `message`. -/
def durableMessage : AgentMessage → Bool
  | .user .. => true
  | .assistant m => durableAssistant m
  | .toolResult _ => true
  | .custom role data => durableCustomMessage role data

/-- `assertDurableEntry`. -/
def durableEntry : EntryData → Bool
  | .message m _ => durableMessage m
  | .compaction _ retainedTail .. => retainedTail.all durableMessage
  | _ => true

/-- The `intent` of `assertDurableRecord`. -/
def durableIntent : Intent → Bool
  | .run originalPrompt initialMessages _ resumeData =>
    originalPrompt.all durableMessage && (initialMessages.all fun entry => durableEntry entry.data) &&
    resumeData.all isObject
  | .compaction .. | .navigation .. => true

/-- The `usage` cause of `assertDurableRecord`: a request counts its attempts and has ended. -/
def durableCause : UsageCause → Bool
  | .assistant _ _ attempt stopReason | .compaction _ _ attempt stopReason
  | .branchSummary _ _ attempt stopReason | .deferredFetch _ _ attempt stopReason =>
    durableInteger attempt 1 ∧ stopReason ≠ .pending
  | .tool .. | .hook .. | .adjustment .. => true

/-- `assertDurableRecord`. -/
def durableRecord : RecordData → Bool
  | .operationStarted _ intent => durableIntent intent
  | .stepAttempt _ _ attempt _ => durableInteger attempt 1
  | .toolStarted _ _ toolIndex _ _ effectiveArgs .. =>
    durableInteger toolIndex 0 && effectiveArgs.isObject
  | .toolReconciliation _ toolCallId _ _ diagnostic =>
    diagnostic.all fun result => result.toolCallId = toolCallId
  | .assistantCheckpoint _ _ attempt message continuationFailure retryAttempt =>
    durableInteger attempt 1 && durableAssistant message && message.isResponseCheckpoint &&
    continuationFailure.all durableAssistant && (retryAttempt.all fun n => durableInteger n 1)
  | .queueEnqueued _ target | .writeDeferred _ target => durableEntry target.data
  | .usage cause _ => durableCause cause
  | .abortRequested _ | .pauseRequested _ | .pauseCleared _ | .operationFinished ..
  | .toolReconciled .. | .queueCancelled .. => true

end Session
end EasyPi
