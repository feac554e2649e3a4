/-
# Tool calls of the agent loop

The batches of `packages/agent/src/agent-loop.ts`: a call is prepared,
executed, finalized and its result handed over, one call after the other or
all of a batch at the same time. After an abort no further call is started,
so a batch may end with fewer results than calls.
-/
import EasyPi.Agent.Host

namespace EasyPi.Agent
namespace Loop

structure PreparedToolCall where
  toolCall : ToolCall
  tool : AgentTool
  args : JsonValue

structure ImmediateToolCallOutcome where
  result : AgentToolResult
  isError : Bool

structure ExecutedToolCallOutcome where
  result : AgentToolResult
  isError : Bool
  executionOutcome : ToolExecutionOutcome

structure FinalizedToolCallOutcome where
  toolCall : ToolCall
  result : AgentToolResult
  isError : Bool
  executionOutcome : ToolExecutionOutcome
  message : Option ToolResultMessage := none

structure ExecutedToolCallBatch where
  messages : List ToolResultMessage
  terminate : Bool

def shouldTerminateToolBatch (finalized : List FinalizedToolCallOutcome) : Bool :=
  !finalized.isEmpty && finalized.all fun f => f.result.terminate

def prepareToolCallArguments (tool : AgentTool) (call : ToolCall) : Except Thrown ToolCall :=
  match tool.prepareArguments with
  | none => .ok call
  | some prepare => do return { call with arguments := ← prepare call.arguments }

/-- The arguments of a call, prepared and checked. -/
def validatedArguments (config : AgentLoopConfig) (tool : AgentTool) (call : ToolCall) :
    Except Thrown JsonValue := do
  config.validateToolArguments tool (← prepareToolCallArguments tool call)

def immediateError (message : String) : ImmediateToolCallOutcome where
  result := createErrorToolResult message
  isError := true

def prepareToolCall (context : AgentContext) (assistant : AssistantMessage) (call : ToolCall)
    (config : AgentLoopConfig) : Loop (ImmediateToolCallOutcome ⊕ PreparedToolCall) :=
  match context.findTool call.name with
  | none => return .inl (immediateError s!"Tool {call.name} not found")
  | some tool =>
    tryCatch (do
      let validatedArgs ← ExceptT.mk (pure (validatedArguments config tool call))
      let (beforeResult, args) ←
        callHost (.beforeToolCall assistant call validatedArgs) isBefore
      if ← signalAborted then
        return .inl (immediateError "Operation aborted")
      match beforeResult with
      | some { block := true, reason, terminate } =>
        let reason := if reason = some "" then none else reason
        return .inl
          { result := { createErrorToolResult (reason.getD "Tool execution was blocked") with
              terminate := terminate }
            isError := true }
      | _ =>
        -- The hook may have changed the arguments in place.
        let revalidatedArgs ← ExceptT.mk
          (pure (config.validateToolArguments tool { call with arguments := args }))
        if ← signalAborted then
          return .inl (immediateError "Operation aborted")
        return .inr { toolCall := call, tool := tool, args := revalidatedArgs })
      fun error : Thrown => return .inl (immediateError error.message)

/-- The outcome of a call that was not started. -/
def notStarted (message : String) : ExecutedToolCallOutcome where
  result := createErrorToolResult message
  isError := true
  executionOutcome := .notStarted

def thrownToolResult (error : Thrown) : AgentToolResult :=
  match error.toolError with
  | none => createErrorToolResult error.message
  | some fields =>
    { createErrorToolResult error.message fields.details with
      structuredContent := fields.structuredContent
      nestedCalls := fields.nestedCalls
      nestedExecutionOutcomeUnknown := fields.nestedExecutionOutcomeUnknown
      usage := fields.usage }

variable (assistant : AssistantMessage) (prepared : PreparedToolCall)

/-- The tool runs: its updates are emitted, and awaited when it has settled. -/
def executeTool :
    Loop ExecutedToolCallOutcome := do
  let call := prepared.toolCall
  let (updates, result) ← callHost (.execute assistant call prepared.args) isExecuted
  updates.forM fun update =>
    record (.emit (.toolExecutionUpdate call.id call.name call.arguments update))
  callHost .updateEvents isDone
  match result with
  | .ok result => return { result, isError := false, executionOutcome := .confirmed }
  | .error error =>
    return {
      result := thrownToolResult error
      isError := true
      executionOutcome := getToolErrorOutcome error call.name prepared.args
        prepared.tool.orchestratesTools prepared.tool.contract }

/-- `await executionScheduler?.acquire(resource, signal)`: whether the call may go on. -/
def acquireLease (scheduled : Bool) (resource : Option ResourceRequest) : Loop Bool :=
  if scheduled then callHost (.acquire resource) isLease else pure true

/-- `lease?.release()`. -/
def releaseLease (scheduled : Bool) : Loop Unit :=
  if scheduled then record .release else pure ()

/-- `executePreparedToolCall`, from the lease on. -/
def dispatchToolCall (scheduled : Bool) : Loop ExecutedToolCallOutcome := do
  if !(← signalAborted) then
    tryCatch (callHost (.beforeToolDispatch prepared.toolCall prepared.tool prepared.args) isDone)
      fun error => do
        releaseLease scheduled
        throw error
  let admitted ← callHost .admitEffect isFlag
  if (← signalAborted) || !admitted then
    releaseLease scheduled
    return notStarted "Operation aborted"
  Async.finally_ (executeTool assistant prepared) (releaseLease scheduled)

def executePreparedToolCall (config : AgentLoopConfig) : Loop ExecutedToolCallOutcome := do
  let tool := prepared.tool
  if tool.orchestratesTools && tool.executionResource.isSome then
    return notStarted "Orchestrators must leave execution resources to their nested tools"
  let scheduled := config.executionScheduler && !tool.orchestratesTools
  let admission ← callHost (.admitToolCall prepared.toolCall tool prepared.args) isAdmission
  match admission with
  | some { allow := some false, reason } =>
    return notStarted (reason.getD "Tool execution was denied")
  | _ =>
    let granted ← acquireLease scheduled tool.executionResource
    if !granted then
      return notStarted "Operation aborted"
    dispatchToolCall assistant prepared scheduled

/-- The result of a call after `afterToolCall`. -/
def applyAfterToolCall (result : AgentToolResult) (after : AfterToolCallResult) : AgentToolResult :=
  { result with
    content := after.content.or result.content
    structuredContent := after.structuredContent.or result.structuredContent
    details := after.details.or result.details
    usage := after.usage.or result.usage
    terminate := after.terminate.getD result.terminate }

def finalizeExecutedToolCall (executed : ExecutedToolCallOutcome) : Loop FinalizedToolCallOutcome := do
  let (result, isError) ← tryCatch (do
      let after ← callHost (.afterToolCall assistant prepared.toolCall prepared.args executed.result
        executed.isError) isAfter
      match after with
      | none => return (executed.result, executed.isError)
      | some after =>
        return (applyAfterToolCall executed.result after, after.isError.getD executed.isError))
    fun error => return (createErrorToolResult error.message, true)
  return { toolCall := prepared.toolCall, result, isError
           executionOutcome := executed.executionOutcome }

variable (finalized : FinalizedToolCallOutcome)

def createToolResultMessage (timestamp : ℚ) : ToolResultMessage :=
  finalized.message.getD
    { toolCallId := finalized.toolCall.id
      toolName := finalized.toolCall.name
      content := finalized.result.content.getD []
      details := finalized.result.details
      usage := finalized.result.usage
      structuredContent := finalized.result.structuredContent
      nestedCalls := finalized.result.nestedCalls
      nestedExecutionOutcomeUnknown := finalized.result.nestedExecutionOutcomeUnknown
      addedToolNames := finalized.result.addedToolNames
      isError := finalized.isError
      timestamp := timestamp }

/-- `persistToolResult`: the message, which the outcome keeps from now on. -/
def persistToolResult (assistant : AssistantMessage) :
    Loop (ToolResultMessage × FinalizedToolCallOutcome) := do
  let message := createToolResultMessage finalized (← dateNow)
  callHost (.onToolResult message assistant finalized.toolCall finalized.result.terminate
    finalized.executionOutcome) isDone
  return (message, { finalized with message := some message })

def emitToolExecutionEnd : Loop Unit :=
  emit (.toolExecutionEnd finalized.toolCall.id finalized.toolCall.name finalized.result
    finalized.isError)

def emitToolResultMessage (message : ToolResultMessage) : Loop Unit := do
  emit (.messageStart (.toolResult message))
  emit (.messageEnd (.toolResult message))

variable (call : ToolCall)

/-- `emit({ type: "tool_execution_start", ... })`. -/
def emitToolExecutionStart : Loop Unit := emit (.toolExecutionStart call.id call.name call.arguments)

/-- The outcome of a call that is refused before it is executed. -/
def immediateOutcome (o : ImmediateToolCallOutcome) :
    FinalizedToolCallOutcome where
  toolCall := call
  result := o.result
  isError := o.isError
  executionOutcome := .notStarted

/-- Execution and `afterToolCall` of a prepared call. -/
def executeAndFinalize (config : AgentLoopConfig) : Loop FinalizedToolCallOutcome := do
  let executed ← executePreparedToolCall assistant prepared config
  finalizeExecutedToolCall assistant prepared executed

/-- The outcome of a call that has been prepared. -/
def outcomeOf (config : AgentLoopConfig) :
    ImmediateToolCallOutcome ⊕ PreparedToolCall → Loop FinalizedToolCallOutcome
  | .inl immediate => return immediateOutcome call immediate
  | .inr prepared => executeAndFinalize assistant prepared config

/-- The text of the result of a truncated call. -/
def truncatedText (name : String) : String :=
  s!"Tool call \"{name}\" was not executed: the response hit the output token limit, " ++
    "so its arguments may be truncated. Re-issue the tool call with complete arguments."

/-- `failToolCallsFromTruncatedMessage`, from the results so far on. -/
def failToolCallsFromTruncatedMessage (assistant : AssistantMessage) :
    List ToolCall → List ToolResultMessage → Loop ExecutedToolCallBatch
  | [], messages => return { messages, terminate := false }
  | call :: calls, messages => do
    emitToolExecutionStart call
    let finalized := immediateOutcome call (immediateError (truncatedText call.name))
    let (message, finalized) ← persistToolResult finalized assistant
    emitToolExecutionEnd finalized
    emitToolResultMessage message
    failToolCallsFromTruncatedMessage assistant calls (messages ++ [message])

/-- `executeToolCallsSequential`, from the outcomes and results so far on. -/
def executeToolCallsSequential (context : AgentContext) (assistant : AssistantMessage) (config : AgentLoopConfig) :
    List ToolCall → List FinalizedToolCallOutcome → List ToolResultMessage → Loop ExecutedToolCallBatch
  | [], finalizedCalls, messages =>
    return { messages, terminate := shouldTerminateToolBatch finalizedCalls }
  | call :: calls, finalizedCalls, messages => do
    emitToolExecutionStart call
    let preparation ← prepareToolCall context assistant call config
    let finalized ← outcomeOf assistant call config preparation
    let (message, finalized) ← persistToolResult finalized assistant
    emitToolExecutionEnd finalized
    emitToolResultMessage message
    if ← signalAborted then
      return { messages := messages ++ [message]
               terminate := shouldTerminateToolBatch (finalizedCalls ++ [finalized]) }
    executeToolCallsSequential context assistant config calls (finalizedCalls ++ [finalized]) (messages ++ [message])

/-- `FinalizedToolCallEntry`: the outcome, or the call that is still to run. -/
inductive FinalizedToolCallEntry where
  | finalized (outcome : FinalizedToolCallOutcome)
  | deferred (prepared : PreparedToolCall)

/-- The entry of a call that has been prepared. -/
def entryOf :
    ImmediateToolCallOutcome ⊕ PreparedToolCall → Loop FinalizedToolCallEntry
  | .inl immediate => do
    let (_, finalized) ← persistToolResult (immediateOutcome call immediate) assistant
    emitToolExecutionEnd finalized
    return .finalized finalized
  | .inr prepared => return .deferred prepared

/-- The calls prepared in order, with the outcomes of those that are refused. -/
def prepareToolCalls (context : AgentContext) (assistant : AssistantMessage) (config : AgentLoopConfig) :
    List ToolCall → List FinalizedToolCallEntry → Loop (List FinalizedToolCallEntry)
  | [], entries => return entries
  | call :: calls, entries => do
    emitToolExecutionStart call
    let preparation ← prepareToolCall context assistant call config
    let entry ← entryOf assistant call preparation
    if ← signalAborted then
      return entries ++ [entry]
    prepareToolCalls context assistant config calls (entries ++ [entry])

def runEntry (config : AgentLoopConfig) :
    FinalizedToolCallEntry → Loop FinalizedToolCallOutcome
  | .finalized outcome => return outcome
  | .deferred prepared => do
    let finalized ← executeAndFinalize assistant prepared config
    let (_, finalized) ← persistToolResult finalized assistant
    emitToolExecutionEnd finalized
    return finalized

/-- The outcomes in call order; a rejected one is thrown. -/
def fulfilled : List (Except Thrown FinalizedToolCallOutcome) → Except Thrown (List FinalizedToolCallOutcome)
  | [] => .ok []
  | .error error :: _ => .error error
  | .ok outcome :: outcomes => do return outcome :: (← fulfilled outcomes)

/-- The message of an outcome; the clock is read for a new one. -/
def resultMessage (finalized : FinalizedToolCallOutcome) : Loop ToolResultMessage :=
  match finalized.message with
  | some message => return message
  | none => do return createToolResultMessage finalized (← dateNow)

/-- The results in call order, emitted one after the other. -/
def emitToolResults : List FinalizedToolCallOutcome → List ToolResultMessage → Loop (List ToolResultMessage)
  | [], messages => return messages
  | finalized :: rest, messages => do
    let message ← resultMessage finalized
    emitToolResultMessage message
    emitToolResults rest (messages ++ [message])

def executeToolCallsParallel (fuel : ℕ) (context : AgentContext) (assistant : AssistantMessage)
    (config : AgentLoopConfig) (calls : List ToolCall) : Loop ExecutedToolCallBatch := do
  let entries ← prepareToolCalls context assistant config calls []
  -- `Promise.allSettled`: every call runs to its end, even when another one is rejected.
  let outcomes ← ExceptT.lift
    (Proc.interleave isPick fuel (entries.map fun entry => (runEntry assistant config entry).run))
  let ordered ← ExceptT.mk (pure (fulfilled outcomes))
  let messages ← emitToolResults ordered []
  return { messages, terminate := shouldTerminateToolBatch ordered }

def executeToolCalls (fuel : ℕ) (context : AgentContext) (assistant : AssistantMessage)
    (config : AgentLoopConfig) (calls : List ToolCall) : Loop ExecutedToolCallBatch :=
  let hasSequentialToolCall := calls.any fun call =>
    (context.findTool call.name).bind (·.executionMode) = some ToolExecutionMode.sequential
  if config.toolExecution = some .sequential || hasSequentialToolCall then
    executeToolCallsSequential context assistant config calls [] []
  else
    executeToolCallsParallel fuel context assistant config calls

end Loop
end EasyPi.Agent
