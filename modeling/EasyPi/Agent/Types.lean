/-
# Tools of an agent

The tool types of `packages/agent/src/types.ts`, the outcome of a tool that
throws (`tool-outcome.ts`, `harness/tools/bash-outcome.ts`) and the
fingerprints of the no-progress guard (`no-progress.ts`). An exception of
the source is its message, with the fields of `AgentToolError` when it is
one. A fingerprint is the value the source passes to `JSON.stringify`: the
text of a JSON value determines it.
-/
import EasyPi.Ai.Types

namespace EasyPi

def JsonValue.get? (v : JsonValue) (key : String) : Option JsonValue :=
  match v with
  | .obj fields => fields.lookup key
  | _ => none

/-- The pattern tests of `isRetryableAssistantError` on the text of an error. -/
abbrev ErrorPatterns := AssistantMessage → Bool

def isRetryableAssistantError (patterns : ErrorPatterns) (m : AssistantMessage) : Bool :=
  m.stopReason = .error && m.errorMessage.isSome && patterns m

namespace Agent

inductive ToolExecutionMode where
  | sequential | parallel
  deriving DecidableEq

inductive ToolExecutionOutcome where
  | notStarted | confirmed | unknown
  deriving DecidableEq

inductive ThinkingLevel where
  | off | minimal | low | medium | high | xhigh | max
  deriving DecidableEq

inductive SideEffects where
  | none | filesystem | process | external
  deriving DecidableEq

inductive Approval where
  | never | required
  deriving DecidableEq

/-- `ToolContract`: what a tool promises about its execution. -/
structure ToolContract where
  sideEffects : Option SideEffects := none
  readOnly : Bool := false
  idempotent : Bool := false
  timeoutMs : Option ℕ := none
  maxRetries : Option ℕ := none
  approval : Option Approval := none
  deriving DecidableEq

structure AgentToolResult where
  content : Option (List ContentBlock) := some []
  details : Option JsonValue := none
  structuredContent : Option JsonValue := none
  nestedCalls : Option JsonValue := none
  nestedExecutionOutcomeUnknown : Bool := false
  usage : Option Usage := none
  addedToolNames : List String := []
  terminate : Bool := false
  deriving DecidableEq

/-- The fields of an `AgentToolError` beside its message. -/
structure AgentToolErrorFields where
  details : Option JsonValue := none
  executionOutcome : ToolExecutionOutcome := .unknown
  structuredContent : Option JsonValue := none
  nestedCalls : Option JsonValue := none
  nestedExecutionOutcomeUnknown : Bool := false
  usage : Option Usage := none
  deriving DecidableEq

structure Thrown where
  message : String
  toolError : Option AgentToolErrorFields := none
  deriving DecidableEq

def createErrorToolResult (message : String) (details : Option JsonValue := none) : AgentToolResult :=
  { content := some [.text message none]
    details := some (details.getD (.obj [])) }

/-- `isReplaySafeTool`, from the parts of the tool it reads. -/
def isReplaySafe (orchestratesTools : Bool) (contract : Option ToolContract) : Bool :=
  !orchestratesTools &&
    match contract with
    | none => false
    | some c => c.readOnly || c.idempotent || c.sideEffects = some .none

/-- A number of a JSON value that is a safe integer of the source and not negative. -/
def isSafeNat : Option JsonValue → Bool
  | some (.num n) => n.den = 1 && 0 ≤ n && n ≤ 9007199254740991
  | _ => false

/-- `typeof value === "string"`. -/
def isStr : Option JsonValue → Bool
  | some (.str _) => true
  | _ => false

def hasConfirmedBashExit (toolName : String) (details : JsonValue) : Bool :=
  toolName = "bash" &&
    isStr (details.get? "command") &&
    isStr (details.get? "cwd") &&
    details.get? "terminationReason" = some (.str "exit") &&
    isSafeNat (details.get? "exitCode") &&
    details.get? "signal" = some .null &&
    details.get? "terminationRequested" = some (.bool false) &&
    details.get? "timedOut" = some (.bool false) &&
    details.get? "backgroundTaskId" = none &&
    match details.get? "durationMs" with
    | some (.num n) => 0 ≤ n
    | _ => false

/-- `getToolErrorOutcome`: what a tool's exception says about its effect. -/
def getToolErrorOutcome (error : Thrown) (toolName : String) (args : JsonValue)
    (orchestratesTools : Bool) (contract : Option ToolContract) : ToolExecutionOutcome :=
  let byContract := if isReplaySafe orchestratesTools contract then .confirmed else .unknown
  match error.toolError with
  | none => byContract
  | some fields =>
    if fields.nestedExecutionOutcomeUnknown then .unknown
    else if fields.executionOutcome ≠ .unknown then fields.executionOutcome
    else
      match fields.details with
      | none => byContract
      | some details =>
        if hasConfirmedBashExit toolName details && (args.get? "command").isSome &&
          details.get? "command" = args.get? "command"
        then .confirmed
        else byContract

/-- `NO_PROGRESS_REPEAT_LIMIT`. -/
def noProgressRepeatLimit : ℕ := 3

/-- What counts as the action of a turn: the calls without their ids. -/
structure TurnFingerprint where
  stopReason : StopReason
  errorMessage : Option String
  calls : List (String × JsonValue × Option String)
  deriving DecidableEq

structure ResultFingerprint where
  toolName : String
  isError : Bool
  content : List ContentBlock
  deriving DecidableEq

def fingerprintAssistantTurn (m : AssistantMessage) : TurnFingerprint where
  stopReason := m.stopReason
  errorMessage := m.errorMessage
  calls := m.toolCalls.map fun call => (call.name, call.arguments, call.callNamespace)

/-- `fingerprintToolResult`. A text block counts without its signature. -/
def fingerprintToolResult (m : ToolResultMessage) : ResultFingerprint where
  toolName := m.toolName
  isError := m.isError
  content := m.content.map fun
    | .text text _ => .text text none
    | .image data mimeType => .image data mimeType

end Agent
end EasyPi
