/-
# Messages of a conversation

The message types of `packages/ai/src/types.ts` and the `AgentMessage` union
of `packages/agent/src/types.ts`, with the fields the modelled code reads or
writes. Numbers of the source are doubles that are always finite here
(`assertJsonSerializable`); they are rationals in the model. An optional
field is an `Option`; an optional flag that is only ever `true` is a `Bool`.
-/
import Mathlib.Data.Rat.Defs

namespace EasyPi

/-- A JSON value. An object is its list of members in order. -/
inductive JsonValue where
  | null
  | bool (b : Bool)
  | num (n : ℚ)
  | str (s : String)
  | arr (xs : List JsonValue)
  | obj (fields : List (String × JsonValue))
  deriving Inhabited

mutual
/-- Equality of JSON values; the derive handler does not cover nested types. -/
def JsonValue.decEq : (a b : JsonValue) → Decidable (a = b)
  | .null, .null => isTrue rfl
  | .bool a, .bool b => decidable_of_iff (a = b) (by simp)
  | .num a, .num b => decidable_of_iff (a = b) (by simp)
  | .str a, .str b => decidable_of_iff (a = b) (by simp)
  | .arr a, .arr b => @decidable_of_iff _ (a = b) (by simp) (JsonValue.decEqList a b)
  | .obj a, .obj b => @decidable_of_iff _ (a = b) (by simp) (JsonValue.decEqFields a b)
  | .null, .bool _ | .null, .num _ | .null, .str _ | .null, .arr _ | .null, .obj _
  | .bool _, .null | .bool _, .num _ | .bool _, .str _ | .bool _, .arr _ | .bool _, .obj _
  | .num _, .null | .num _, .bool _ | .num _, .str _ | .num _, .arr _ | .num _, .obj _
  | .str _, .null | .str _, .bool _ | .str _, .num _ | .str _, .arr _ | .str _, .obj _
  | .arr _, .null | .arr _, .bool _ | .arr _, .num _ | .arr _, .str _ | .arr _, .obj _
  | .obj _, .null | .obj _, .bool _ | .obj _, .num _ | .obj _, .str _ | .obj _, .arr _ =>
    isFalse (by simp)
def JsonValue.decEqList : (a b : List JsonValue) → Decidable (a = b)
  | [], [] => isTrue rfl
  | [], _ :: _ | _ :: _, [] => isFalse (by simp)
  | a :: as, b :: bs => @decidable_of_iff _ (a = b ∧ as = bs) (by simp)
      (@instDecidableAnd _ _ (JsonValue.decEq a b) (JsonValue.decEqList as bs))
def JsonValue.decEqFields : (a b : List (String × JsonValue)) → Decidable (a = b)
  | [], [] => isTrue rfl
  | [], _ :: _ | _ :: _, [] => isFalse (by simp)
  | (k, a) :: as, (l, b) :: bs =>
    @decidable_of_iff _ (k = l ∧ a = b ∧ as = bs) (by simp [and_assoc]) (@instDecidableAnd _ _ _
        (@instDecidableAnd _ _ (JsonValue.decEq a b) (JsonValue.decEqFields as bs)))
end

instance : DecidableEq JsonValue := JsonValue.decEq

/-- `StopReason`: why a response ended. -/
inductive StopReason where
  | pending | stop | length | toolUse | error | aborted | deferred
  deriving DecidableEq, Repr

/-- `Usage`: the tokens of a request and their cost. -/
structure Usage where
  input : ℚ := 0
  output : ℚ := 0
  cacheRead : ℚ := 0
  cacheWrite : ℚ := 0
  cacheWrite1h : Option ℚ := none
  reasoning : Option ℚ := none
  totalTokens : ℚ := 0
  costInput : ℚ := 0
  costOutput : ℚ := 0
  costCacheRead : ℚ := 0
  costCacheWrite : ℚ := 0
  costTotal : ℚ := 0
  deriving DecidableEq

/-- `DeferredHandle`: where to fetch a deferred response. -/
structure DeferredHandle where
  provider : String
  modelId : String
  api : String
  id : String
  expiresAt : Option ℚ := none
  pollAfterMs : Option ℚ := none
  data : Option JsonValue := none
  deriving DecidableEq

/-- `ToolCall`: a call the model asks for. -/
structure ToolCall where
  id : String
  name : String
  arguments : JsonValue := .obj []
  thoughtSignature : Option String := none
  callNamespace : Option String := none
  deriving DecidableEq

/-- A block of an assistant message: text, thinking or a tool call. -/
inductive AssistantBlock where
  | text (text : String) (textSignature : Option String)
  | thinking (thinking : String) (thinkingSignature : Option String) (redacted : Bool)
  | toolCall (call : ToolCall)
  deriving DecidableEq

/-- The tool call in a block, if it is one. -/
def AssistantBlock.toolCall? : AssistantBlock → Option ToolCall
  | .toolCall call => some call
  | _ => none

/-- `item.type === "thinking"`. -/
def AssistantBlock.isThinking : AssistantBlock → Bool
  | .thinking .. => true
  | _ => false

/-- A block of a user message or a tool result: text or an image. -/
inductive ContentBlock where
  | text (text : String) (textSignature : Option String)
  | image (data mimeType : String)
  deriving DecidableEq

/-- `AssistantMessage`: a response of the provider. -/
structure AssistantMessage where
  content : List AssistantBlock
  api : String := ""
  provider : String := ""
  model : String := ""
  responseId : Option String := none
  diagnostics : Option JsonValue := none
  usage : Usage := {}
  stopReason : StopReason
  isResponseCheckpoint : Bool := false
  deferred : Option DeferredHandle := none
  errorMessage : Option String := none
  rawStopReason : Option String := none
  endTurn : Option Bool := none
  timestamp : ℚ := 0
  deriving DecidableEq

/-- `message.content.filter((c) => c.type === "toolCall")`. -/
def AssistantMessage.toolCalls (m : AssistantMessage) : List ToolCall := m.content.filterMap AssistantBlock.toolCall?

/-- `ToolResultMessage`: the answer to a tool call. -/
structure ToolResultMessage where
  toolCallId : String
  toolName : String
  content : List ContentBlock
  details : Option JsonValue := none
  usage : Option Usage := none
  addedToolNames : List String := []
  structuredContent : Option JsonValue := none
  nestedCalls : Option JsonValue := none
  nestedExecutionOutcomeUnknown : Bool := false
  isError : Bool
  timestamp : ℚ := 0
  deriving DecidableEq

/-- `AgentMessage`: a user message, a response, a tool result, or one of the
application's own messages (`bashExecution`, `custom`, `branchSummary`,
`compactionSummary` and declaration-merged ones), kept as its role and data. -/
inductive AgentMessage where
  | user (content : List ContentBlock) (timestamp : ℚ)
  | assistant (message : AssistantMessage)
  | toolResult (message : ToolResultMessage)
  | custom (role : String) (data : JsonValue)
  deriving DecidableEq

/-- The response in a message, if it is one. -/
def AgentMessage.assistant? : AgentMessage → Option AssistantMessage
  | .assistant m => some m
  | _ => none

end EasyPi
