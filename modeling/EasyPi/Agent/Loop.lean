/-
# The agent loop

`packages/agent/src/agent-loop.ts`: requests to the provider and batches of
tool calls in turn, until the model stops. Loops carry fuel, which bounds how
long the program is followed.
-/
import EasyPi.Agent.ToolCalls
import Mathlib.Data.List.DropRight
import Mathlib.Data.List.Sort

namespace EasyPi.Agent
namespace Loop

/-! ### The steps of a turn -/

def stepIdOf (config : AgentLoopConfig) (stepNumber : ℕ) : String :=
  config.runId.getD "run" ++ "-step-" ++ toString stepNumber

variable (context : AgentContext)

/-- The context of `createStepSnapshot`: the tools are bound to the step. -/
def createStepSnapshot (config : AgentLoopConfig) (stepNumber : ℕ) : AgentContext :=
  let tools := context.tools.getD ((context.toolPlan.map ToolPlan.tools).getD [])
  let plan := createToolPlan tools stepNumber (stepIdOf config stepNumber)
  { context with
    tools := some plan.tools
    toolPlan := some plan }

def applyThinkingLevel (reasoning : Option ThinkingLevel) :
    Option ThinkingLevel → Option ThinkingLevel
  | none => reasoning
  | some .off => none
  | some level => some level

/-- The context and the config after `prepareNextTurn` or `prepareRequest`. -/
def applyUpdate (config : AgentLoopConfig) :
    Option AgentLoopTurnUpdate → AgentContext × AgentLoopConfig
  | none => (context, config)
  | some update =>
    (update.context.getD context,
      { config with
        model := update.model.getD config.model
        reasoning := applyThinkingLevel config.reasoning update.thinkingLevel })

def createAbortedAssistantMessage (config : AgentLoopConfig) (timestamp : ℚ) :
    AssistantMessage where
  content := [.text "" none]
  api := config.model.api
  provider := config.model.provider
  model := config.model.id
  stopReason := .aborted
  errorMessage := some "Operation aborted"
  timestamp := timestamp

def buildProviderContext : Loop ProviderContext := do
  let messages ← callHost (.transformContext context.messages) isContext
  let llmMessages ← callHost (.convertToLlm messages) isContext
  return { systemPrompt := context.systemPrompt, messages := llmMessages, tools := context.tools }

/-- What `streamAssistantResponse` keeps while it reads a response: the
context's messages with the unfinished response at the end, that response,
and the blocks that are complete. -/
structure StreamState where
  messages : List AgentMessage
  partialMessage : Option AssistantMessage := none
  addedPartial : Bool := false
  completedBlocks : OrdMap ℕ AssistantBlock := ∅

def completedBlock (call : Option ToolCall) (contentIndex : ℕ) (snapshot : AssistantMessage) : Option AssistantBlock :=
  match call with
  | some call => some (.toolCall call)
  | none => snapshot.content[contentIndex]?

def updatePartial (s : StreamState) (snapshot : AssistantMessage) : Loop StreamState := do
  if s.partialMessage.isSome then
    emit (.messageUpdate snapshot)
    return { s with
      partialMessage := some snapshot
      messages := s.messages.dropLast ++ [.assistant snapshot] }
  else
    return s

/-- The loop `for await (const event of response)`. -/
def readResponse (stepId : Option String) : ℕ → StreamState → Loop StreamState
  | 0, _ => Async.spent
  | fuel + 1, s => do
    match ← callHost .nextEvent isEvent with
    | none | some .finish => return s
    | some (.start snapshot) =>
      emit (.messageStart (.assistant snapshot))
      readResponse stepId fuel { s with
        partialMessage := some snapshot
        addedPartial := true
        messages := s.messages ++ [.assistant snapshot] }
    | some (.delta snapshot) =>
      let s ← updatePartial s snapshot
      readResponse stepId fuel s
    | some (.itemEnd call contentIndex itemComplete snapshot) =>
      match itemComplete, completedBlock call contentIndex snapshot with
      | true, some block =>
        callHost (.onCompletedOutputItem stepId contentIndex block snapshot) isDone
        let s ← updatePartial
          { s with completedBlocks := s.completedBlocks.set contentIndex block } snapshot
        readResponse stepId fuel s
      | _, _ =>
        let s ← updatePartial s snapshot
        readResponse stepId fuel s

/-- The complete blocks by index, without the thinking at their end. -/
def retainedBlocks (completed : OrdMap ℕ AssistantBlock) : List (ℕ × AssistantBlock) :=
  (completed.toList.insertionSort fun a b => a.1 ≤ b.1).rdropWhile fun p => p.2.isThinking

/-- The checkpoint of a failed response: its complete blocks as a response of their own. -/
def checkpointMessage (m : AssistantMessage) (content : List AssistantBlock) : AssistantMessage :=
  { m with
    content := content
    isResponseCheckpoint := true
    stopReason := if content.any fun b => b.toolCall?.isSome then .toolUse else .stop
    responseId := none
    deferred := none
    errorMessage := none
    rawStopReason := none
    endTurn := none
    diagnostics := none
    usage := {} }

structure StreamedAssistantResponse where
  message : AssistantMessage
  checkpoint : Option AssistantMessage := none

/-- The response after its stream ended: a retryable failure with complete
blocks is split into a checkpoint and the rest. -/
def splitResponse (patterns : ErrorPatterns) (aborted : Bool) (m : AssistantMessage)
    (completed : OrdMap ℕ AssistantBlock) : StreamedAssistantResponse :=
  let retained := retainedBlocks completed
  if !aborted && isRetryableAssistantError patterns m && !retained.isEmpty then
    { checkpoint := some (checkpointMessage m (retained.map Prod.snd))
      message :=
        { m with content := ((m.content.zipIdx.filter fun p => p.2 ∉ retained.map Prod.fst).map
            Prod.fst) } }
  else { message := m }

/-- The gate before a request: the signal, and the final admission of the host. -/
def admitRequest : Loop Bool := do
  if ← signalAborted then
    return false
  callHost .admitEffect isFlag

/-- An abort wins over a failure of the stream that the provider had already queued. -/
def abortWins (aborted : Bool) (m : AssistantMessage) : AssistantMessage :=
  if aborted && m.stopReason = .error then
    { m with stopReason := .aborted, errorMessage := some "Operation aborted" }
  else m

/-- The unfinished response leaves the context; a response without one is announced. -/
def endPartial (s : StreamState) (m : AssistantMessage) : Loop (List AgentMessage) := do
  if s.addedPartial then
    return s.messages.dropLast
  emit (.messageStart (.assistant m))
  return s.messages

/-- `streamAssistantResponse`, with the messages of the context afterwards. -/
def streamAssistantResponse (fuel : ℕ) (context : AgentContext) (config : AgentLoopConfig) :
    Loop (StreamedAssistantResponse × AgentContext) := do
  let llmContext ← buildProviderContext context
  let systemPrompt ← resolveSystemPrompt llmContext.systemPrompt
  let apiKey ← callHost (.getApiKey config.model.provider) isText
  if !(← admitRequest) then
    let abortedMessage := createAbortedAssistantMessage config (← dateNow)
    emit (.messageStart (.assistant abortedMessage))
    return ({ message := abortedMessage }, context)
  let newMessages ← Async.read (·.newMessages)
  callHost (.streamFunction config.model { llmContext with systemPrompt := systemPrompt }
    (apiKey.or config.apiKey) newMessages) isDone
  let s ← readResponse config.stepId fuel { messages := context.messages }
  let finalResult ← callHost .result isResponse
  let finalMessage := abortWins (← signalAborted) finalResult
  let messages ← endPartial s finalMessage
  return (splitResponse config.errorPatterns (← signalAborted) finalMessage s.completedBlocks,
    { context with messages := messages })

/-! ### The loop -/

/-- The variables of `runLoop`. -/
structure LoopState where
  context : AgentContext
  config : AgentLoopConfig
  lastCompletedTurn : Option CompletedTurn := none
  lastTurnFingerprint : Option (TurnFingerprint × List ResultFingerprint) := none
  turnFingerprintRepeats : ℕ := 0
  stepNumber : ℕ := 0
  pendingMessages : List AgentMessage := []

def noProgressStopMessage (config : AgentLoopConfig) (calls : List ToolCall) (timestamp : ℚ) : AssistantMessage :=
  let names := (calls.map (·.name)).foldl (fun l n => if n ∈ l then l else l ++ [n]) []
  let text := "Stopped: no progress. " ++ ", ".intercalate names ++
    s!" returned identical results to identical arguments {noProgressRepeatLimit} turns in a row." ++
    " The agent is stuck in a loop; change the approach or the arguments."
  { content := [.text text none]
    api := config.model.api
    provider := config.model.provider
    model := config.model.id
    stopReason := .error
    errorMessage := some text
    timestamp := timestamp }

/-- `await emit({ type: "agent_end", messages: newMessages })`. -/
def emitAgentEnd : Loop Unit := do
  let newMessages ← Async.read (·.newMessages)
  emit (.agentEnd newMessages)

/-- Preparation of a turn can be long: messages queued meanwhile are taken,
unless some have been already. -/
def pollSteering (pendingMessages : List AgentMessage) : Loop (List AgentMessage) :=
  if pendingMessages.isEmpty then getSteeringMessages else return pendingMessages

/-- The start of a turn that follows another one. -/
def prepareNextTurn (s : LoopState) : Loop LoopState :=
  match s.lastCompletedTurn with
  | none => return s
  | some turn => do
    let update ← callHost (.prepareNextTurn turn) isUpdate
    let (context, config) := applyUpdate s.context s.config update
    let pendingMessages ← pollSteering s.pendingMessages
    emit .turnStart
    return { s with context, config, pendingMessages }

/-- The pending messages are added, one after the other. -/
def injectMessages : List AgentMessage → AgentContext → Loop AgentContext
  | [], context => return context
  | message :: messages, context => do
    emit (.messageStart message)
    emit (.messageEnd message)
    pushNew [message]
    injectMessages messages (context.push [message])

variable (s : LoopState)

/-- Pending messages are injected before the next response. -/
def injectPending : Loop LoopState := do
  if s.pendingMessages.isEmpty then
    return s
  let context ← injectMessages s.pendingMessages s.context
  let systemPrompt ← resolveSystemPrompt context.systemPrompt
  return { s with
    context := { context with systemPrompt := systemPrompt }
    lastTurnFingerprint := none
    turnFingerprintRepeats := 0
    pendingMessages := [] }

/-- The request is prepared and its context, model and tools are bound to the step. -/
def bindStep : Loop LoopState := do
  let update ← callHost
    (.prepareRequest s.context s.config.model (s.config.reasoning.getD .off)) isUpdate
  let (context, config) := applyUpdate s.context s.config update
  callHost .getRequestRouting isDone
  let stepNumber := s.stepNumber + 1
  return { s with
    context := createStepSnapshot context config stepNumber
    config := { config with
      stepId := some (stepIdOf config stepNumber)
      toolPlanRevision := some stepNumber }
    stepNumber := stepNumber }

def checkpointBatch (fuel : ℕ) (context : AgentContext) (checkpoint : AssistantMessage)
    (config : AgentLoopConfig) : Loop ExecutedToolCallBatch :=
  if checkpoint.toolCalls.isEmpty then return { messages := [], terminate := false }
  else executeToolCalls fuel context checkpoint config checkpoint.toolCalls

/-- The response after a checkpoint whose recovery was stopped. -/
def stopRecovery (stopped : Bool) (m : AssistantMessage) : AssistantMessage :=
  if stopped then
    { m with stopReason := .aborted
             errorMessage := some "Interrupted response recovery stopped" }
  else m

/-- A checkpoint is committed and its calls are executed: the response to
commit after it, the results, and the context. -/
def commitCheckpoint (fuel : ℕ) (config : AgentLoopConfig) (context : AgentContext)
    (checkpoint message : AssistantMessage) :
    Loop (AssistantMessage × List ToolResultMessage × AgentContext) := do
  pushNew [.assistant checkpoint]
  let context := context.push [.assistant checkpoint]
  emit (.messageEnd (.assistant checkpoint))
  let batch ← checkpointBatch fuel context checkpoint config
  pushNew (batch.messages.map .toolResult)
  let message := stopRecovery ((← signalAborted) || batch.terminate) message
  emit (.messageStart (.assistant message))
  return (message, batch.messages, context.push (batch.messages.map .toolResult))

/-- The response to commit, after the checkpoint if there is one. -/
def recoverResponse (fuel : ℕ) (config : AgentLoopConfig) (context : AgentContext)
    (streamed : StreamedAssistantResponse) : Loop (AssistantMessage × List ToolResultMessage × AgentContext) :=
  match streamed.checkpoint with
  | none => return (streamed.message, [], context)
  | some checkpoint => commitCheckpoint fuel config context checkpoint streamed.message

/-- The response of a step is streamed and committed, after its checkpoint if it has one. -/
def commitResponse (fuel : ℕ) (s : LoopState) :
    Loop (AssistantMessage × List ToolResultMessage × LoopState) := do
  let (streamed, context) ← streamAssistantResponse fuel s.context s.config
  let (message, recovered, context) ← recoverResponse fuel s.config context streamed
  pushNew [.assistant message]
  emit (.messageEnd (.assistant message))
  return (message, recovered, { s with context := context.push [.assistant message] })

/-- The batch of a response. After a "length" stop the arguments may be cut
off, so no call is executed. -/
def responseBatch (fuel : ℕ) (s : LoopState) (message : AssistantMessage) : Loop ExecutedToolCallBatch :=
  if message.stopReason = .length then
    failToolCallsFromTruncatedMessage message message.toolCalls []
  else executeToolCalls fuel s.context message s.config message.toolCalls

/-- The tool calls of a response: the results, and whether the loop goes on for them. -/
def runToolCalls (fuel : ℕ) (s : LoopState) (message : AssistantMessage) :
    Loop (List ToolResultMessage × Bool) := do
  if message.toolCalls.isEmpty then
    return ([], false)
  let batch ← responseBatch fuel s message
  pushNew (batch.messages.map .toolResult)
  return (batch.messages, !batch.terminate)

/-- The guard's record after a turn: `none` when the turn was no tool turn. -/
def noteFingerprint (message : AssistantMessage)
    (toolResults : List ToolResultMessage) (hasMoreToolCalls : Bool) : LoopState :=
  if hasMoreToolCalls && !message.toolCalls.isEmpty then
    let fingerprint := (fingerprintAssistantTurn message, toolResults.map fingerprintToolResult)
    if s.lastTurnFingerprint = some fingerprint then
      { s with turnFingerprintRepeats := s.turnFingerprintRepeats + 1 }
    else { s with lastTurnFingerprint := some fingerprint, turnFingerprintRepeats := 1 }
  else { s with lastTurnFingerprint := none, turnFingerprintRepeats := 0 }

/-- The end of a run that makes no progress. -/
def stopNoProgress (message : AssistantMessage) : Loop Unit := do
  let stopMessage := noProgressStopMessage s.config message.toolCalls (← dateNow)
  pushNew [.assistant stopMessage]
  emit (.messageStart (.assistant stopMessage))
  emit (.messageEnd (.assistant stopMessage))
  emitAgentEnd

/-- The part of a turn after its response: `none` when the run is over. -/
def finishTurn (fuel : ℕ) (s : LoopState) (message : AssistantMessage)
    (recovered : List ToolResultMessage) : Loop (Option (LoopState × Bool)) := do
  if message.stopReason = .error || message.stopReason = .aborted then
    emit (.turnEnd message recovered)
    emitAgentEnd
    return none
  let (toolResults, hasMoreToolCalls) ← runToolCalls fuel s message
  emit (.turnEnd message toolResults)
  let context := s.context.push (toolResults.map .toolResult)
  let turn : CompletedTurn := { message, toolResults, context }
  let s := noteFingerprint { s with context, lastCompletedTurn := some turn } message toolResults
    hasMoreToolCalls
  if noProgressRepeatLimit ≤ s.turnFingerprintRepeats then
    stopNoProgress s message
    return none
  if ← callHost (.shouldStopAfterTurn turn) isFlag then
    emitAgentEnd
    return none
  let pendingMessages ← getSteeringMessages
  return some ({ s with pendingMessages }, hasMoreToolCalls)

/-- One pass of the inner loop: `none` when the run is over. -/
def runTurn (fuel : ℕ) (s : LoopState) : Loop (Option (LoopState × Bool)) := do
  let s ← prepareNextTurn s
  let s ← injectPending s
  let s ← bindStep s
  let (message, recovered, s) ← commitResponse fuel s
  finishTurn fuel s message recovered

/-- The inner loop: tool calls and steering messages. -/
def innerLoop : ℕ → LoopState → Bool → Loop (Option LoopState)
  | 0, _, _ => Async.spent
  | fuel + 1, s, hasMoreToolCalls => do
    if hasMoreToolCalls || !s.pendingMessages.isEmpty then
      match ← runTurn fuel s with
      | none => return none
      | some (s, hasMoreToolCalls) => innerLoop fuel s hasMoreToolCalls
    else
      return some s

/-- The outer loop: follow-up messages, when the agent would stop. -/
def outerLoop : ℕ → LoopState → Loop Unit
  | 0, _ => Async.spent
  | fuel + 1, s => do
    match ← innerLoop fuel s true with
    | none => return
    | some s =>
      let followUpMessages ← getFollowUpMessages
      if followUpMessages.isEmpty then
        emitAgentEnd
      else
        outerLoop fuel { s with pendingMessages := followUpMessages }

def runLoop (fuel : ℕ) (context : AgentContext) (config : AgentLoopConfig)
    (recoveredTurn : Option CompletedTurn := none) : Loop Unit := do
  let pendingMessages ← getSteeringMessages
  outerLoop fuel { context, config, lastCompletedTurn := recoveredTurn, pendingMessages }

def emitPrompts (prompts : List AgentMessage) : Loop Unit :=
  prompts.forM fun prompt => do
    emit (.messageStart prompt)
    emit (.messageEnd prompt)

def runAgentLoop (fuel : ℕ) (prompts : List AgentMessage) (context : AgentContext)
    (config : AgentLoopConfig) : Loop (List AgentMessage) := do
  pushNew prompts
  emit .agentStart
  emit .turnStart
  emitPrompts prompts
  let systemPrompt ← resolveSystemPrompt context.systemPrompt
  runLoop fuel { context.push prompts with systemPrompt := systemPrompt } config
  Async.read (·.newMessages)

/-- The last message of a context does not let a run continue: a response
other than a text-only checkpoint. -/
def blocksContinue : Option AgentMessage → Bool
  | some (.assistant m) => !(m.isResponseCheckpoint && m.stopReason = .stop)
  | _ => false

/-- The checks of `runAgentLoopContinue`. -/
def checkContinue : Except Thrown Unit :=
  if context.messages.isEmpty then
    .error { message := "Cannot continue: no messages in context" }
  else if blocksContinue context.messages.getLast? then
    .error { message := "Cannot continue from message role: assistant" }
  else .ok ()

def runAgentLoopContinue (fuel : ℕ) (context : AgentContext) (config : AgentLoopConfig) :
    Loop (List AgentMessage) := do
  ExceptT.mk (pure (checkContinue context))
  emit .agentStart
  emit .turnStart
  runLoop fuel context config
  Async.read (·.newMessages)

/-- The results recovered for a batch are one for each of some of its calls. -/
def validRecovered (calls : List ToolCall) (completedResults : List ToolResultMessage) : Bool :=
  (completedResults.map (·.toolCallId)).Nodup ∧ ∀ result ∈ completedResults, ∃ call ∈ calls,
      call.id = result.toolCallId ∧ call.name = result.toolName

/-- The calls of a recovered response that have no result yet. -/
def unresolvedCalls (assistant : AssistantMessage) (completedResults : List ToolResultMessage) : List ToolCall :=
  assistant.toolCalls.filter fun call => call.id ∉ completedResults.map (·.toolCallId)

/-- The results of a batch in call order, from those recovered and those of this run. -/
def orderedResults (calls : List ToolCall) (results : List ToolResultMessage) : List ToolResultMessage :=
  calls.filterMap fun call => results.reverse.find? fun r => r.toolCallId = call.id

/-- The checks of `runAgentLoopResumeTools`. -/
def checkRecovery (assistantIndex : ℕ) (assistant : AssistantMessage)
    (completedResults : List ToolResultMessage) : Except Thrown Unit :=
  let calls := assistant.toolCalls
  if context.messages[assistantIndex]? ≠ some (.assistant assistant) || calls.isEmpty ||
      !decide (calls.map (·.id)).Nodup then
    .error { message := "Invalid recovery assistant" }
  else if !validRecovered calls completedResults then
    .error { message := "Invalid recovered tool results" }
  else if assistant.stopReason = .error || assistant.stopReason = .aborted ||
      assistant.stopReason = .length then
    .error { message := "Cannot execute tools from an incomplete assistant response" }
  else .ok ()

/-- Whether a run ends with the batch it recovered. -/
def stopAfterRecovery (batch : ExecutedToolCallBatch) (turn : CompletedTurn) : Loop Bool := do
  if (← signalAborted) || batch.terminate then
    return true
  callHost (.shouldStopAfterTurn turn) isFlag

/-- `runAgentLoopResumeTools`. The assistant is given by its place in the context. -/
def runAgentLoopResumeTools (fuel : ℕ) (context : AgentContext) (assistantIndex : ℕ)
    (assistant : AssistantMessage) (completedResults : List ToolResultMessage)
    (config : AgentLoopConfig) : Loop (List AgentMessage) := do
  ExceptT.mk (pure (checkRecovery context assistantIndex assistant completedResults))
  emit .agentStart
  emit .turnStart
  let batch ← executeToolCalls fuel context assistant config
    (unresolvedCalls assistant completedResults)
  let ordered := orderedResults assistant.toolCalls (completedResults ++ batch.messages)
  let currentContext := { context with
    messages := context.messages.take (assistantIndex + 1) ++ ordered.map .toolResult }
  pushNew (batch.messages.map .toolResult)
  emit (.turnEnd assistant ordered)
  let turn : CompletedTurn := { message := assistant, toolResults := ordered, context := currentContext }
  if ← stopAfterRecovery batch turn then
    emitAgentEnd
  else
    runLoop fuel currentContext config (some turn)
  Async.read (·.newMessages)

/-- What happens while a run goes on: the signal is aborted, or the host answers. -/
inductive LoopEvent where
  | abort
  | reply (r : LoopReply)

/-- The program and the world after an event. An answer the program does not
wait for has no effect. -/
def next {α : Type} (s : Proc LoopWorld LoopReply α × LoopWorld) :
    LoopEvent → Proc LoopWorld LoopReply α × LoopWorld
  | .abort => (s.1, { s.2 with aborted := true })
  | .reply r => (s.1.step s.2 r).getD s

/-- The program and the world after a list of events. -/
def run {α : Type} (p : Loop α) (events : List LoopEvent) : Proc LoopWorld LoopReply (Except Thrown α) × LoopWorld :=
  events.foldl next (ExceptT.run p, {})

end Loop
end EasyPi.Agent
