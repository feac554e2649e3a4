/-
# The host of the agent loop

What `packages/agent/src/agent-loop.ts` works on, and everything it calls:
the listeners behind `emit`, the hooks of its config, the provider and the
tools. A call to the host is recorded in `calls` and its answer is a reply,
which may be an exception. An absent hook is one that answers `undefined`.
The signal may be aborted at any time. The diagnostics of
`reportExecution` and `onProviderContext` cannot change a run and are left out.
-/
import EasyPi.Agent.Types
import EasyPi.Lib.OrdMap
import EasyPi.Lib.Proc

namespace EasyPi.Agent

/-! ### What the loop works on -/

/-- `Model`: the fields a response copies. -/
structure Model where
  api : String
  provider : String
  id : String

structure ResourceRequest where
  key : Option String := none
  exclusive : Bool := true

/-- `AgentTool`, less its texts, its schema and its implementation. -/
structure AgentTool where
  name : String
  orchestratesTools : Bool := false
  contract : Option ToolContract := none
  prepareArguments : Option (JsonValue → Except Thrown JsonValue) := none
  executionMode : Option ToolExecutionMode := none
  executionResource : Option ResourceRequest := none

/-- `ToolPlan`: the tools of one step, bound by name. -/
structure ToolPlan where
  revision : ℕ
  identity : String
  bindings : OrdMap String AgentTool

structure AgentContext where
  systemPrompt : String := ""
  messages : List AgentMessage := []
  tools : Option (List AgentTool) := none
  toolPlan : Option ToolPlan := none

/-- `createToolPlan`. A later tool of the same name takes the place of an earlier one. -/
def createToolPlan (tools : List AgentTool) (revision : ℕ) (identity : String) : ToolPlan where
  revision := revision
  identity := identity
  bindings := tools.foldl (fun m tool => m.set tool.name tool) ∅

def ToolPlan.tools (p : ToolPlan) : List AgentTool := p.bindings.values

/-- The tool a call is for: `toolPlan?.bindings[name] ?? tools?.find(...)`. -/
def AgentContext.findTool (context : AgentContext) (name : String) : Option AgentTool :=
  (context.toolPlan.bind fun p => p.bindings.get? name).or
    (context.tools.bind fun tools => tools.find? fun t => t.name = name)

/-- `{ ...context, messages: [...context.messages, ...messages] }`. -/
def AgentContext.push (context : AgentContext) (messages : List AgentMessage) : AgentContext :=
  { context with messages := context.messages ++ messages }

/-- `AgentLoopConfig`, less its hooks. `validateToolArguments` checks arguments
against the schema of a tool; `errorPatterns` are the tests of
`isRetryableAssistantError`. -/
structure AgentLoopConfig where
  model : Model
  reasoning : Option ThinkingLevel := none
  apiKey : Option String := none
  runId : Option String := none
  stepId : Option String := none
  toolPlanRevision : Option ℕ := none
  toolExecution : Option ToolExecutionMode := none
  executionScheduler : Bool := false
  validateToolArguments : AgentTool → ToolCall → Except Thrown JsonValue := fun _ call =>
    .ok call.arguments
  errorPatterns : ErrorPatterns := fun _ => false

/-- `PrepareNextTurnContext`: a completed turn. -/
structure CompletedTurn where
  message : AssistantMessage
  toolResults : List ToolResultMessage
  context : AgentContext

structure AgentLoopTurnUpdate where
  context : Option AgentContext := none
  model : Option Model := none
  thinkingLevel : Option ThinkingLevel := none

structure BeforeToolCallResult where
  block : Bool := false
  reason : Option String := none
  terminate : Bool := false

structure AfterToolCallResult where
  content : Option (List ContentBlock) := none
  structuredContent : Option JsonValue := none
  details : Option JsonValue := none
  isError : Option Bool := none
  usage : Option Usage := none
  terminate : Option Bool := none

structure ToolAdmissionResult where
  allow : Option Bool := none
  reason : Option String := none

/-- `Context`: what the provider sees of a context. -/
structure ProviderContext where
  systemPrompt : String
  messages : List AgentMessage
  tools : Option (List AgentTool)

/-- An event of a response. `delta` is any `*_start` or `*_delta` event and
`itemEnd` any `*_end` event, with the call when it ends one; `finish` is
`done` or `error`. -/
inductive StreamEvent where
  | start (snapshot : AssistantMessage)
  | delta (snapshot : AssistantMessage)
  | itemEnd (call : Option ToolCall) (contentIndex : ℕ) (itemComplete : Bool) (snapshot : AssistantMessage)
  | finish

inductive AgentEvent where
  | agentStart
  | agentEnd (messages : List AgentMessage)
  | turnStart
  | turnEnd (message : AssistantMessage) (toolResults : List ToolResultMessage)
  | messageStart (message : AgentMessage)
  | messageUpdate (message : AssistantMessage)
  | messageEnd (message : AgentMessage)
  | toolExecutionStart (toolCallId toolName : String) (args : JsonValue)
  | toolExecutionUpdate (toolCallId toolName : String) (args : JsonValue) (partialResult : AgentToolResult)
  | toolExecutionEnd (toolCallId toolName : String) (result : AgentToolResult) (isError : Bool)

/-- A call of the loop to its host. A request records the transcript of the
run at that moment. -/
inductive LoopCall where
  | emit (event : AgentEvent)
  | getSteeringMessages
  | getFollowUpMessages
  | prepareNextTurn (turn : CompletedTurn)
  | shouldStopAfterTurn (turn : CompletedTurn)
  | prepareRequest (context : AgentContext) (model : Model) (thinkingLevel : ThinkingLevel)
  | getRequestRouting
  | getSystemPrompt
  | transformContext (messages : List AgentMessage)
  | convertToLlm (messages : List AgentMessage)
  | getApiKey (provider : String)
  | admitEffect
  | streamFunction (model : Model) (context : ProviderContext) (apiKey : Option String) (newMessages : List AgentMessage)
  | nextEvent
  | result
  | onCompletedOutputItem (stepId : Option String) (contentIndex : ℕ) (block : AssistantBlock)
      (message : AssistantMessage)
  | beforeToolCall (assistant : AssistantMessage) (call : ToolCall) (args : JsonValue)
  | admitToolCall (call : ToolCall) (tool : AgentTool) (args : JsonValue)
  | acquire (resource : Option ResourceRequest)
  | release
  | beforeToolDispatch (call : ToolCall) (tool : AgentTool) (args : JsonValue)
  | execute (assistant : AssistantMessage) (call : ToolCall) (args : JsonValue)
  | updateEvents
  | afterToolCall (assistant : AssistantMessage) (call : ToolCall) (args : JsonValue)
      (result : AgentToolResult) (isError : Bool)
  | onToolResult (message : ToolResultMessage) (assistant : AssistantMessage) (call : ToolCall)
      (terminate : Bool) (executionOutcome : ToolExecutionOutcome)
  | dateNow

/-- An answer of the host. `before` has the arguments as the hook left them,
`executed` the updates the tool reported; `pick` says which of the calls that
run at the same time goes on. -/
inductive LoopReply where
  | done
  | failed (error : Thrown)
  | messages (messages : List AgentMessage)
  | context (messages : List AgentMessage)
  | update (update : Option AgentLoopTurnUpdate)
  | flag (value : Bool)
  | text (value : Option String)
  | event (event : Option StreamEvent)
  | response (message : AssistantMessage)
  | before (result : Option BeforeToolCallResult) (args : JsonValue)
  | admission (result : Option ToolAdmissionResult)
  | lease (granted : Bool)
  | executed (updates : List AgentToolResult) (result : Except Thrown AgentToolResult)
  | after (result : Option AfterToolCallResult)
  | time (now : ℚ)
  | pick (index : ℕ)

/-- The signal, the array the run returns, and the calls to the host so far. -/
structure LoopWorld where
  aborted : Bool := false
  newMessages : List AgentMessage := []
  calls : List LoopCall := []

abbrev Loop := Async LoopWorld LoopReply Thrown

namespace Loop

def record (call : LoopCall) : Loop Unit := Async.modify fun w => { w with calls := w.calls ++ [call] }

/-- The answer of a call: the host's, or its exception. -/
def answerOf {α : Type} (answer : LoopReply → Option α) : LoopReply → Option (Except Thrown α)
  | .failed error => some (.error error)
  | r => (answer r).map .ok

def callHost {α : Type} (call : LoopCall) (answer : LoopReply → Option α) : Loop α := do
  record call
  Async.ask (answerOf answer)

def isDone : LoopReply → Option Unit
  | .done => some ()
  | _ => none

def isFlag : LoopReply → Option Bool
  | .flag b => some b
  | _ => none

def isText : LoopReply → Option (Option String)
  | .text t => some t
  | _ => none

def isMessages : LoopReply → Option (List AgentMessage)
  | .messages ms => some ms
  | _ => none

def isContext : LoopReply → Option (List AgentMessage)
  | .context ms => some ms
  | _ => none

def isUpdate : LoopReply → Option (Option AgentLoopTurnUpdate)
  | .update u => some u
  | _ => none

def isEvent : LoopReply → Option (Option StreamEvent)
  | .event e => some e
  | _ => none

def isResponse : LoopReply → Option AssistantMessage
  | .response m => some m
  | _ => none

def isBefore : LoopReply → Option (Option BeforeToolCallResult × JsonValue)
  | .before r args => some (r, args)
  | _ => none

def isAdmission : LoopReply → Option (Option ToolAdmissionResult)
  | .admission a => some a
  | _ => none

def isLease : LoopReply → Option Bool
  | .lease granted => some granted
  | _ => none

def isExecuted : LoopReply → Option (List AgentToolResult × Except Thrown AgentToolResult)
  | .executed updates result => some (updates, result)
  | _ => none

def isAfter : LoopReply → Option (Option AfterToolCallResult)
  | .after r => some r
  | _ => none

def isTime : LoopReply → Option ℚ
  | .time t => some t
  | _ => none

def isPick : LoopReply → Option ℕ
  | .pick i => some i
  | _ => none

/-- `await emit(event)`. -/
def emit (event : AgentEvent) : Loop Unit := callHost (.emit event) isDone

/-- `Date.now()`. -/
def dateNow : Loop ℚ := callHost .dateNow isTime

/-- `signal?.aborted`. -/
def signalAborted : Loop Bool := Async.read (·.aborted)

/-- `newMessages.push(...messages)`. -/
def pushNew (messages : List AgentMessage) : Loop Unit :=
  Async.modify fun w => { w with newMessages := w.newMessages ++ messages }

/-- `(await config.getSteeringMessages?.()) || []`. -/
def getSteeringMessages : Loop (List AgentMessage) := callHost .getSteeringMessages isMessages

/-- `(await config.getFollowUpMessages?.()) || []`. -/
def getFollowUpMessages : Loop (List AgentMessage) := callHost .getFollowUpMessages isMessages

def resolveSystemPrompt (snapshot : String) : Loop String :=
  tryCatch (do
    let prompt ← callHost .getSystemPrompt isText
    return prompt.getD snapshot)
    fun _ => return snapshot

end Loop
end EasyPi.Agent
