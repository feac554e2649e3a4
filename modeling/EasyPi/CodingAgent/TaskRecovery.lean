/-
# The task-recovery journal

`TaskRecoveryJournal` (`packages/coding-agent/src/core/task-recovery.ts`) on one branch of a
session. The journal is the last record of its type on the branch, and every operation reads it
again before each record it appends. An operation is the list of its appends; a crash may come
between any two of them. Between operations the host appends entries of its own.

Records are of version 2. `randomUUID` yields an id that no entry or group has had so far: the
ids drawn for an append are numbered by it. A queued group carries the number of the append
that accepted it, which nothing in the code reads.
-/
import EasyPi.Ai.JsonText
import EasyPi.Lib.CodeUnits

namespace EasyPi.CodingAgent
namespace TaskRecovery

/-- An id: one that the host has chosen, or a UUID. The UUIDs drawn for an append are numbered by two
numbers. -/
inductive EntryId where
  | named (s : String)
  | uuid (save k i : ℕ)
  deriving DecidableEq

structure RecoveryTool where
  call : ToolCall
  parentToolCallId : Option String := none
  safe : Bool
  args : Option JsonValue := none
  dispatched : Bool
  definition : Option String := none
  result : Option ToolResultMessage := none
  resultEntryId : Option EntryId := none
  terminate : Bool := false
  deriving DecidableEq

inductive TaskStatus where
  | running
  | interrupted
  | cancelled
  | needsReconciliation
  | completed
  deriving DecidableEq

def TaskStatus.text : TaskStatus → String
  | running => "running"
  | interrupted => "interrupted"
  | cancelled => "cancelled"
  | needsReconciliation => "needs_reconciliation"
  | completed => "completed"

inductive QueueKind where
  | steer
  | followUp
  | nextTurn
  deriving DecidableEq

/-- A group of `queued`, and the number of the append that accepted it. -/
structure QueuedGroup where
  kind : QueueKind
  messages : List AgentMessage
  entryIds : List EntryId
  label : Option String := none
  cancelled : Bool := false
  number : ℕ
  deriving DecidableEq

/-- `step` of a task. -/
structure TaskStep where
  sourceLeafId : Option EntryId
  message : Option AssistantMessage := none
  assistantEntryId : Option EntryId := none
  recoverable : Option Bool := none
  items : List (ℕ × AssistantBlock) := []
  deriving DecidableEq

/-- `TaskRecoveryState` without the suspended tasks. -/
structure Task where
  id : EntryId
  status : TaskStatus
  retirement : Bool := false
  sourceLeafId : Option EntryId
  prompt : List (AgentMessage × EntryId)
  queued : List QueuedGroup
  systemPrompt : Option String := none
  retryAttempt : ℕ := 0
  step : Option TaskStep := none
  tools : List RecoveryTool
  deriving DecidableEq

/-- `SuspendedTaskRecovery`. -/
structure SuspendedTask where
  leafId : EntryId
  state : Task
  deriving DecidableEq

/-- `TaskRecoveryState`. -/
structure TaskState where
  task : Task
  suspendedTasks : List SuspendedTask := []
  deriving DecidableEq

/-- What an entry of the session holds: a record of the journal, which may have been copied from
another session, a tool interruption, a message, the notice of a retirement, or what the journal
does not look at. -/
inductive EntryData where
  | recovery (state : TaskState) (copied : Bool)
  | interruption (message : ToolResultMessage)
  | message (message : AgentMessage)
  | notice (taskId : EntryId)
  | other

structure Entry where
  id : EntryId
  data : EntryData

/-- The selected branch, the other entries of the session, and the number of appends so far. -/
structure Session where
  branch : List Entry := []
  elsewhere : List Entry := []
  saves : ℕ := 0

/-- `JSON.parse`, and `JSON.stringify` of recorded evidence. -/
structure Options where
  parse : String → Option JsonValue
  stringifyEvidence : List (ToolCall × Option ToolResultMessage) → String
  evidence : List (ToolCall × Option ToolResultMessage) → JsonValue

mutual
/-- `isDeepStrictEqual` on JSON values: the order of the members of an object does not matter. -/
def deepEqual : JsonValue → JsonValue → Bool
  | .null, .null => true
  | .bool a, .bool b => a = b
  | .num a, .num b => a = b
  | .str a, .str b => a = b
  | .arr xs, .arr ys => deepEqualList xs ys
  | .obj fields, .obj fields' => fields.length = fields'.length && deepEqualFields fields fields'
  | _, _ => false
def deepEqualList : List JsonValue → List JsonValue → Bool
  | [], [] => true
  | x :: xs, y :: ys => deepEqual x y && deepEqualList xs ys
  | _, _ => false
/-- Every member of the one object has an equal one in the other. -/
def deepEqualFields : List (String × JsonValue) → List (String × JsonValue) → Bool
  | [], _ => true
  | (key, x) :: fields, fields' =>
    (match fields'.lookup key with
      | some y => deepEqual x y
      | none => false) && deepEqualFields fields fields'
end

/-- `isDeepStrictEqual` on arguments, which may be `undefined`. -/
def deepEqualArgs : Option JsonValue → Option JsonValue → Bool
  | none, none => true
  | some a, some b => deepEqual a b
  | _, _ => false

/-! ### Reading the journal -/

variable (tool : RecoveryTool)

/-- The tool has been dispatched, is not safe to repeat, and has no result. -/
def RecoveryTool.unknown : Bool := tool.dispatched && !tool.safe && tool.result.isNone

/-- `status` of a JSON object is a string, and so on: the fields of `hasConfirmedBashExit`. -/
def hasConfirmedBashExit (toolName : String) (details : Option JsonValue) : Bool :=
  match details with
  | some (.obj fields) =>
    toolName = "bash" &&
      (fields.lookup "command").any JsonValue.isString && (fields.lookup "cwd").any JsonValue.isString &&
      fields.lookup "terminationReason" = some (.str "exit") &&
      (match fields.lookup "exitCode" with
        | some (.num n) => decide (n.den = 1 ∧ 0 ≤ n ∧ n ≤ 9007199254740991)
        | _ => false) &&
      fields.lookup "signal" = some .null && fields.lookup "terminationRequested" = some (.bool false) &&
      fields.lookup "timedOut" = some (.bool false) && fields.lookup "backgroundTaskId" = none &&
      (match fields.lookup "durationMs" with
        | some (.num n) => decide (0 ≤ n)
        | _ => false)
  | _ => false

def isUnfinishedComputerCaptureTask (tools : List RecoveryTool) : Bool :=
  let unfinished := tools.filter (·.result.isNone)
  !unfinished.isEmpty && unfinished.all fun tool =>
    tool.dispatched && tool.call.name = "computer" &&
      ((tool.call.arguments.field? "request").bind (·.field? "op")) = some (.str "capture")

/-- An interruption entry that records the exit of a Bash call. -/
def confirmsExit (e : Entry) : Option ToolResultMessage :=
  match e.data with
  | .interruption message =>
    if message.toolCallId = tool.call.id ∧ message.nestedExecutionOutcomeUnknown = false ∧
        hasConfirmedBashExit message.toolName message.details = true ∧
        (message.details.bind (·.field? "command")) = tool.call.arguments.field? "command" then
      some message
    else none
  | _ => none

/-- A tool with the result that older drivers have saved as a diagnostic only. -/
def restoreTool (entries : List Entry) (tool : RecoveryTool) : RecoveryTool :=
  if tool.unknown && tool.call.name = "bash" then
    match entries.reverse.findSome? (confirmsExit tool) with
    | some message => { tool with result := some message }
    | none => tool
  else tool

/-- The entries behind the anchor of a task, unless the anchor is missing. -/
def entriesBehind (branch : List Entry) : Option EntryId → Option (List Entry)
  | none => some branch
  | some anchor => (branch.findIdx? (·.id = anchor)).map fun i => branch.drop (i + 1)

/-- The entry behind which a task has done its work. -/
def Task.anchor (task : Task) : Option EntryId :=
  match task.step with
  | some step => step.sourceLeafId
  | none => task.sourceLeafId

/-- The loop of `get state` for one task. -/
def restoreTask (branch : List Entry) (task : Task) : Task :=
  match entriesBehind branch task.anchor with
  | none => task
  | some entries =>
    let task := { task with tools := task.tools.map (restoreTool entries) }
    if task.status = .needsReconciliation ∧ task.tools.all (fun tool => !tool.unknown) then
      { task with status := .interrupted }
    else task

/-- The record of a retired task is as the retirement has left it. -/
def validRetirement (task : Task) : Bool :=
  !task.retirement || (task.status = .cancelled && isUnfinishedComputerCaptureTask task.tools)

def TaskState.tasks (state : TaskState) : List Task := state.task :: state.suspendedTasks.map (·.state)

def restore (branch : List Entry) (state : TaskState) : TaskState where
  task := restoreTask branch state.task
  suspendedTasks := state.suspendedTasks.map fun suspended =>
    { suspended with state := restoreTask branch suspended.state }

def Entry.anyRecord? (e : Entry) : Option TaskState :=
  match e.data with
  | .recovery state _ => some state
  | _ => none

/-- The record of an entry, if it is one of this session. -/
def Entry.record? (e : Entry) : Option TaskState :=
  match e.data with
  | .recovery state false => some state
  | _ => none

namespace Session

variable (s : Session)

/-- The last record of the journal on the branch. -/
def stored : Option TaskState := s.branch.reverse.findSome? Entry.record?

/-- `get state`. -/
def state : Except String (Option TaskState) :=
  match s.stored with
  | none => .ok none
  | some stored =>
    if stored.tasks.all validRetirement then .ok (some (restore s.branch stored))
    else .error "Invalid task retirement record"

/-- `getLeafId`. -/
def leafId : Option EntryId := s.branch.getLast?.map (·.id)

def onBranch (id : EntryId) : Bool := s.branch.any (·.id = id)

/-- `getEntry`. -/
def entry? (id : EntryId) : Option Entry := (s.branch ++ s.elsewhere).find? (·.id = id)

end Session

/-- `get suspendedTasks`. -/
def TaskState.openSuspended (state : TaskState) : List SuspendedTask := state.suspendedTasks.filter (!·.state.retirement)

/-- `get allUnknownTools`, with the task of each tool. -/
def TaskState.unknownTools (state : TaskState) : List (EntryId × RecoveryTool) :=
  (state.task :: state.openSuspended.map (·.state)).flatMap fun task =>
    if task.retirement then [] else (task.tools.filter (·.unknown)).map fun tool => (task.id, tool)

variable (s : Session)

/-- `plannedCalls`: of the committed response, else of the checkpoint. -/
def plannedCalls (task : Task) : List ToolCall :=
  let committed := task.step.bind fun step => step.assistantEntryId.bind fun id =>
    match s.entry? id with
    | some ⟨_, .message (.assistant message)⟩ => some message.content
    | _ => none
  let content := match committed, task.step with
    | some content, _ => content
    | none, some step =>
      if step.recoverable = some false then []
      else (step.items.mergeSort fun a b : ℕ × AssistantBlock => decide (a.1 ≤ b.1)).map Prod.snd
    | none, none => []
  content.filterMap AssistantBlock.toolCall?

def hasUnaccountedCalls (task : Task) : Bool :=
  task.tools.any (·.result.isNone) ||
    (plannedCalls s task).any fun call =>
      !task.tools.any fun tool => tool.call.id = call.id && tool.result.isSome

/-! ### Appending -/

/-- What an operation appends: a record of the journal, or the notice of a retirement. -/
inductive Content where
  | record (state : TaskState)
  | notice (taskId : EntryId)

def Content.data : Content → EntryData
  | .record state => .recovery state false
  | .notice taskId => .notice taskId

/-- An append: it reads the session, and may find that there is nothing to append. -/
abbrev Save := Session → Except String (Option Content)

namespace Session

/-- A UUID drawn for the next append. The first one is the id of the entry. -/
def uuid (s : Session) (k : ℕ) (i : ℕ := 0) : EntryId := .uuid s.saves k i

/-- The id has been drawn, or is none of `randomUUID`. -/
def known (s : Session) : EntryId → Bool
  | .named _ => true
  | .uuid save _ _ => save < s.saves

/-- `appendCustomEntry`. -/
def append (s : Session) (content : Content) : Session :=
  { s with branch := s.branch ++ [⟨s.uuid 0, content.data⟩], saves := s.saves + 1 }

/-- The appends of an operation, until one throws. -/
def perform (s : Session) : List Save → Session
  | [] => s
  | save :: saves =>
    match save s with
    | .error _ => s
    | .ok none => s.perform saves
    | .ok (some content) => (s.append content).perform saves

end Session

def update (change : Session → TaskState → Except String TaskState) : Save := fun s =>
  match s.state with
  | .error message => .error message
  | .ok none => .ok none
  | .ok (some state) =>
    if state.task.status = .completed then .ok none
    else (fun state => some (.record state)) <$> change s state

/-- `save(state)` of the state that has been read and changed, if there is one. -/
def saveState (change : Session → TaskState → Except String (Option TaskState)) : Save := fun s =>
  match s.state with
  | .error message => .error message
  | .ok none => .ok none
  | .ok (some state) => (Option.map .record) <$> change s state

/-! ### Tasks -/

/-- The group is not cancelled, and not all of its entries are on the branch. -/
def pending (group : QueuedGroup) : Bool := !group.cancelled && group.entryIds.any fun id => !s.onBranch id

/-- The task is kept as a suspended one when another is started. -/
def suspending (task : Task) : Bool :=
  !task.retirement && (task.tools.any (·.unknown) ||
    (task.status ≠ .cancelled && task.status ≠ .completed && hasUnaccountedCalls s task))

/-- The task as `start` suspends it. -/
def pause (task : Task) (inheritQueuedInputs : Bool) : Task :=
  { task with
    status := if task.tools.any (·.unknown) then .needsReconciliation else .interrupted
    queued := if inheritQueuedInputs then task.queued.filter (·.kind ≠ .nextTurn) else task.queued }

def inherited (previous : Option TaskState) : List QueuedGroup :=
  match previous with
  | none => []
  | some previous => previous.task.queued.filter fun group =>
      (!suspending s previous.task || group.kind = .nextTurn) && pending s group

def start (prompt : List AgentMessage) (systemPrompt : Option String)
    (promptEntryIds : Option (List EntryId)) (inheritQueuedInputs : Bool) : Save := fun s =>
  match s.state with
  | .error message => .error message
  | .ok previous =>
    let queued := if inheritQueuedInputs then inherited s previous else []
    let task : Task := {
      id := s.uuid 1
      status := .running
      sourceLeafId := s.leafId
      prompt := prompt.zip (promptEntryIds.getD ((List.range prompt.length).map fun i => s.uuid (i + 2)))
      queued := queued
      systemPrompt := systemPrompt
      tools := [] }
    match previous with
    | none => .ok (some (.record ⟨task, []⟩))
    | some previous =>
      if suspending s previous.task then
        match s.leafId with
        | none => .error "Paused task has no recovery anchor"
        | some leafId => .ok (some (.record ⟨task,
            previous.suspendedTasks ++ [⟨leafId, pause previous.task inheritQueuedInputs⟩]⟩))
      else .ok (some (.record ⟨task, previous.suspendedTasks⟩))

/-- The task is retired, or can be when the computer tool is gone. -/
def retirable (task : Task) : Bool := task.retirement || isUnfinishedComputerCaptureTask task.tools

/-- The loop of `retireRemovedComputerCaptures`, for one task. -/
def retireTask (task : Task) : Task :=
  if retirable task && !task.retirement then
    { task with
      retirement := true
      status := .cancelled
      queued := task.queued.map fun group => { group with cancelled := true } }
  else task

/-- The notices of retirements on the branch. -/
def notices : List EntryId := s.branch.filterMap fun e =>
  match e.data with
  | .notice taskId => some taskId
  | _ => none

/-- `retireRemovedComputerCaptures`: the record, and the notices that are missing. -/
def retireRemovedComputerCaptures (computerInstalled : Bool) (s : Session) : List Save :=
  if computerInstalled then []
  else
    match s.state with
    | .ok (some state) =>
      let retired := state.tasks.filter retirable
      (saveState fun _ state =>
        if state.tasks.all fun task => !retirable task || task.retirement then .ok none
        else .ok (some ⟨retireTask state.task,
          state.suspendedTasks.map fun suspended => { suspended with state := retireTask suspended.state }⟩)) ::
        ((retired.filter fun task => task.id ∉ notices s).map fun task _ => .ok (some (.notice task.id)))
    | _ => []

/-! ### Reconciliation -/

/-- How the outcome of an unknown tool is settled. -/
inductive Resolution where
  | retry
  | result (message : ToolResultMessage)

/-- The status of a task that has been reconciled. -/
def reconciledStatus (tools : List RecoveryTool) : TaskStatus :=
  if tools.any (·.unknown) then .needsReconciliation else .interrupted

/-- The task has an unknown tool of the call id and is not retired. -/
def Task.awaits (task : Task) (toolCallId : String) : Bool :=
  !task.retirement && task.tools.any fun tool => tool.call.id = toolCallId && tool.unknown

def changeTool (tools : List RecoveryTool) (toolCallId : String) (f : RecoveryTool → RecoveryTool) : List RecoveryTool :=
  tools.map fun tool => if tool.call.id = toolCallId then f tool else tool

/-- The task with the outcome of a tool settled. -/
def reconcileTask (task : Task) (toolCallId : String) (resolution : Resolution) : Task :=
  let tools := changeTool task.tools toolCallId fun tool =>
    match resolution with
    | .retry => { tool with dispatched := false }
    | .result message => { tool with result := some message }
  { task with tools := tools, status := reconciledStatus tools }

/-- The error of `reconcile` for a resolution that does not suit the tool. -/
def reconcileError (resolution : Resolution) : Option String :=
  match resolution with
  | .retry =>
    if tool.parentToolCallId.isSome then
      some "Nested operations cannot be independently retried; inspect their external outcome"
    else none
  | .result message =>
    if message.toolCallId ≠ tool.call.id ∨ message.toolName ≠ tool.call.name then
      some "Reconciled result does not match the tool call"
    else none

def reconcile (toolCallId : String) (resolution : Resolution) : Save := fun s =>
  match s.state with
  | .error message => .error message
  | .ok none => .error s!"No unknown tool call {toolCallId}"
  | .ok (some active) =>
    match active.tasks.filter (·.awaits toolCallId) with
    | [task] =>
      match task.tools.find? (·.call.id = toolCallId) with
      | none => .error s!"No unknown tool call {toolCallId}"
      | some tool =>
        match reconcileError tool resolution with
        | some message => .error message
        | none => .ok (some (.record ⟨
            if active.task.awaits toolCallId then reconcileTask active.task toolCallId resolution
            else active.task,
            active.suspendedTasks.map fun suspended =>
              if suspended.state.awaits toolCallId then
                { suspended with state := reconcileTask suspended.state toolCallId resolution }
              else suspended⟩))
    | _ => .error s!"No unique unknown tool call {toolCallId}"

variable (o : Options)

/-- The last record with a result of the call, and the call and the result in it, if the inspection
was read-only and has succeeded. -/
def recordedEvidence (entries : List Entry) (id : String) :
    Except String (ToolCall × Option ToolResultMessage) :=
  match entries.reverse.findSome? fun e => e.anyRecord?.bind fun state =>
      state.task.tools.find? fun tool => tool.call.id = id && tool.result.isSome with
  | none => .error s!"No recorded evidence {id}"
  | some observed =>
    let unsuccessful := s!"Evidence {id} is not a successful read-only inspection"
    match observed.definition with
    | none => .error unsuccessful
    | some definition =>
      match o.parse definition with
      | none => .error "Unexpected token in JSON"
      | some definition =>
        if !observed.safe || (observed.result.any (·.isError)) ||
            ((definition.field? "contract").bind (·.field? "readOnly")) ≠ some (.bool true) then
          .error unsuccessful
        else .ok (observed.call, observed.result)

def reconcileFromEvidence (toolCallId : String) (evidenceIds : List String)
    (conclusion : String) (failed : Bool) (now : ℚ) : Save := fun s =>
  match s.state with
  | .error message => .error message
  | .ok none => .error s!"No unknown tool call {toolCallId}"
  | .ok (some state) =>
    match state.unknownTools.find? (·.2.call.id = toolCallId) with
    | none => .error s!"No unknown tool call {toolCallId}"
    | some (_, tool) =>
      if evidenceIds.isEmpty || conclusion.toList.all CodeUnits.isSpace then
        .error "An observed outcome and recorded read-only evidence are required"
      else
        -- Of an anchor that is missing, the index is -1.
        let entries := (entriesBehind s.branch state.task.sourceLeafId).getD s.branch
        match evidenceIds.mapM (recordedEvidence o entries) with
        | .error message => .error message
        | .ok evidence => reconcile toolCallId (.result {
            toolCallId := toolCallId
            toolName := tool.call.name
            content := [.text (s!"Observed outcome: {conclusion}\nInspection evidence: " ++
              o.stringifyEvidence evidence) none]
            details := some (.obj [("reconciliation", .str "inspection"), ("evidence", o.evidence evidence)])
            isError := failed
            timestamp := now }) s

/-- `queue`. A journal without a task, or with a completed one, first gets a task. -/
def queue (kind : QueueKind) (messages : List AgentMessage) (label : Option String) (s : Session) : List Save :=
  let accept : Save := update fun s state => .ok { state with task := { state.task with
    queued := state.task.queued ++ [{
      kind := kind
      messages := messages
      entryIds := (List.range messages.length).map fun i => s.uuid (i + 1)
      label := label
      number := s.saves }] } }
  match s.state with
  | .error _ => []
  | .ok (some state) =>
    if state.task.status = .completed then
      [start [] none none true, update fun _ state =>
        .ok { state with task := { state.task with status := .interrupted } }, accept]
    else [accept]
  | .ok none => [start [] none none true, update fun _ state =>
      .ok { state with task := { state.task with status := .interrupted } }, accept]

/-- The id is one of an entry of another branch. -/
def offBranch (id : EntryId) : Bool := (s.entry? id).isSome && !s.onBranch id

/-- The group with new ids for the entries that are on other branches. -/
def rebindGroup (position : ℕ) (group : QueuedGroup) : QueuedGroup :=
  if group.cancelled then group
  else
    { group with
      entryIds := group.entryIds.mapIdx fun i id =>
        if offBranch s id then s.uuid (position + 1) i else id }

def rebindQueuedReceipts : Save := saveState fun s state =>
  if state.task.queued.any fun group => !group.cancelled && group.entryIds.any (offBranch s) then
    .ok (some { state with task := { state.task with queued := state.task.queued.mapIdx (rebindGroup s) } })
  else .ok none

/-- The loop of `cancelQueued`, for one group. -/
def cancelGroup (entryIds : List EntryId) (group : QueuedGroup) : QueuedGroup :=
  if group.kind ≠ .nextTurn ∧ group.entryIds.any (fun id => id ∈ entryIds) = true then
    { group with cancelled := true }
  else group

def cancelQueued (entryIds : List EntryId) : Save := fun s =>
  if entryIds.isEmpty then .ok none
  else saveState (fun _ state => .ok (some { state with
    task := { state.task with queued := state.task.queued.map (cancelGroup entryIds) } })) s

/-! ### Steps and tools -/

def beginStep (message : AssistantMessage) : Save := update fun s state =>
  if state.task.status = .needsReconciliation then
    .error "Cannot start a model step before tool reconciliation"
  else .ok { state with task := { state.task with
    step := some { sourceLeafId := s.leafId, message := some message }, tools := [] } }

def completeItem (index : ℕ) (block : AssistantBlock) (message : AssistantMessage) : Save :=
  update fun s state =>
    let step := state.task.step.getD { sourceLeafId := s.leafId }
    .ok { state with task := { state.task with step := some { step with
      message := some message
      items := step.items.filter (·.1 ≠ index) ++ [(index, block)] } } }

/-- `commitAssistant`; `retryable` is `isRetryableAssistantError(message)`. -/
def commitAssistant (message : AssistantMessage) (entryId : EntryId) (retryable : Bool) : Save :=
  update fun s state =>
    let step := state.task.step.getD { sourceLeafId := s.leafId }
    let step := { step with
      recoverable := some (message.stopReason ≠ .length && (message.stopReason ≠ .error || retryable)) }
    .ok { state with task := { state.task with step := some (
      if message.stopReason ≠ .error ∧ message.stopReason ≠ .aborted then
        { step with message := some message, assistantEntryId := some entryId }
      else step) } }

def result (message : ToolResultMessage) (call : ToolCall) (terminate uncertain : Bool)
    (parentToolCallId : Option String) : Save := update fun _ state =>
  let old := state.task.tools.find? (·.call.id = call.id)
  if old.any fun old => old.call.name ≠ call.name || old.parentToolCallId ≠ parentToolCallId then
    .error s!"Tool result {call.id} does not match its dispatch owner"
  else if uncertain && old.any (·.unknown) then
    .ok { state with task := { state.task with
      status := if state.task.status = .cancelled then .cancelled else .needsReconciliation } }
  else
    let tool : RecoveryTool := old.getD { call := call, safe := false, dispatched := false }
    .ok { state with task := { state.task with
      tools := state.task.tools.filter (·.call.id ≠ call.id) ++ [{ tool with
        call := call
        parentToolCallId := parentToolCallId.or tool.parentToolCallId
        result := some message
        terminate := terminate }] } }

/-- The parents of a nested call, from the inside out; `n` bounds their number. -/
def markParents : ℕ → List RecoveryTool → Option String → Except String (List RecoveryTool)
  | _, tools, none => .ok tools
  | 0, _, some _ => .error "Nested dispatch has no active parent occurrence"
  | n + 1, tools, some parentId =>
    match tools.find? (·.call.id = parentId) with
    | none => .error "Nested dispatch has no active parent occurrence"
    | some parent =>
      if !parent.dispatched || parent.result.isSome then
        .error "Nested dispatch has no active parent occurrence"
      else markParents n (changeTool tools parentId fun tool => { tool with safe := false })
        parent.parentToolCallId

/-- An unknown tool of a suspended task with the name and the arguments of the call. -/
def pendingTool (state : TaskState) (call : ToolCall) (args : Option JsonValue) : Option RecoveryTool :=
  (state.openSuspended.flatMap (·.state.tools)).find? fun tool =>
    tool.unknown && tool.call.name = call.name &&
      (deepEqualArgs tool.args args || deepEqual tool.call.arguments call.arguments)

/-- The tool has been dispatched as a safe one and is now dispatched in another way. The texts of
arguments are equal if the arguments are. -/
def changed (previous : RecoveryTool) (args : Option JsonValue) (safe : Bool) (definition : Option String) : Bool :=
  previous.dispatched && previous.result.isNone && previous.safe &&
    (!safe || previous.definition ≠ definition || definition.getD "" = "" || previous.args ≠ args)

/-- The last part of `dispatch`: the tools with the call dispatched. -/
def dispatchTools (task : Task) (call : ToolCall) (args : Option JsonValue) (safe : Bool)
    (definition : Option String) (parentToolCallId : Option String) : Except String (List RecoveryTool) :=
  if task.status ≠ .running then .error ("Task is " ++ task.status.text ++ "; tool dispatch is paused")
  else
    match markParents task.tools.length task.tools parentToolCallId with
    | .error message => .error message
    | .ok tools =>
      match tools.find? (·.call.id = call.id) with
      | some old =>
        if old.result.isSome then .error s!"Tool {call.id} already has a committed result"
        else if old.dispatched && !old.safe then
          .error s!"Tool {call.id} requires reconciliation before retry"
        else .ok (tools.filter (·.call.id ≠ call.id) ++ [{
          call := call, args := args, safe := safe, definition := definition, dispatched := true
          parentToolCallId := parentToolCallId }])
      | none => .ok (tools.filter (·.call.id ≠ call.id) ++ [{
          call := call, args := args, safe := safe, definition := definition, dispatched := true
          parentToolCallId := parentToolCallId }])

/-- The result of a call that is refused because it repeats one whose outcome is unknown. -/
def refusal (pending : RecoveryTool) (call : ToolCall) (now : ℚ) : ToolResultMessage where
  toolCallId := call.id
  toolName := call.name
  content := [.text (s!"Tool {pending.call.id} has an unknown outcome; " ++
    "inspect it before repeating this operation") none]
  isError := true
  timestamp := now

/-- `dispatch`: what it appends, whether or not it throws behind it. -/
def dispatch (call : ToolCall) (args : Option JsonValue) (safe : Bool) (definition : Option String)
    (parentToolCallId : Option String) (now : ℚ) : Save := fun s =>
  match s.state with
  | .error message => .error message
  | .ok none => .ok none
  | .ok (some state) =>
    match pendingTool state call args with
    | some pending => result (refusal pending call now) call false false parentToolCallId s
    | none =>
      let previous := state.task.tools.find? (·.call.id = call.id)
      if previous.any fun previous =>
          previous.call.name ≠ call.name || previous.parentToolCallId ≠ parentToolCallId then
        .error s!"Tool call {call.id} belongs to a different execution occurrence"
      else if previous.any (changed · args safe definition) then
        update (fun _ state => .ok { state with task := { state.task with
          tools := changeTool state.task.tools call.id fun tool => { tool with safe := false }
          status := .needsReconciliation } }) s
      else
        update (fun _ state => (fun tools => { state with task := { state.task with tools := tools } }) <$>
          dispatchTools state.task call args safe definition parentToolCallId) s

/-- The tools of a task with the receipt of a result. -/
def receiptTask (task : Task) (message : ToolResultMessage)
    (resultEntryId : Option EntryId) : Option Task :=
  match task.tools.find? fun tool => tool.call.id = message.toolCallId && tool.call.name = message.toolName with
  | none => none
  | some tool =>
    if tool.result.isNone || tool.parentToolCallId.isSome then none
    else
      let receipt := resultEntryId.or tool.resultEntryId
      let id := match receipt with
        | some id => if (s.entry? id).isNone || s.onBranch id then id else s.uuid 1
        | none => s.uuid 1
      some { task with tools := changeTool task.tools tool.call.id fun tool =>
        { tool with result := some message, resultEntryId := some id } }

/-- The first task of a response, with the receipt of a result. -/
def receiptTasks (assistantEntryId : EntryId) (message : ToolResultMessage)
    (resultEntryId : Option EntryId) (state : TaskState) : Option TaskState :=
  let ofResponse (task : Task) : Bool := (task.step.bind (·.assistantEntryId)) = some assistantEntryId
  if ofResponse state.task then
    (receiptTask s state.task message resultEntryId).map fun task => { state with task := task }
  else
    match state.suspendedTasks.findIdx? (fun suspended => ofResponse suspended.state) with
    | none => none
    | some i => (state.suspendedTasks[i]?.bind fun suspended =>
        (receiptTask s suspended.state message resultEntryId).map fun task =>
          { state with suspendedTasks := state.suspendedTasks.set i { suspended with state := task } })

def recordResultEntry (assistantEntryId : EntryId) (message : ToolResultMessage)
    (resultEntryId : Option EntryId) : Save :=
  saveState fun s state => .ok (receiptTasks s assistantEntryId message resultEntryId state)

/-! ### The session -/

/-- The operations of the journal on the branch. The last two are those of `update` by the host. -/
inductive Op where
  | start (prompt : List AgentMessage) (systemPrompt : Option String)
      (promptEntryIds : Option (List EntryId)) (inheritQueuedInputs : Bool)
  | retireRemovedComputerCaptures (computerInstalled : Bool)
  | reconcile (toolCallId : String) (resolution : Resolution)
  | reconcileFromEvidence (toolCallId : String) (evidenceIds : List String) (conclusion : String)
      (failed : Bool) (now : ℚ)
  | queue (kind : QueueKind) (messages : List AgentMessage) (label : Option String)
  | rebindQueuedReceipts
  | cancelQueued (entryIds : List EntryId)
  | beginStep (message : AssistantMessage)
  | completeItem (index : ℕ) (block : AssistantBlock) (message : AssistantMessage)
  | commitAssistant (message : AssistantMessage) (entryId : EntryId) (retryable : Bool)
  | dispatch (call : ToolCall) (args : Option JsonValue) (safe : Bool) (definition : Option String)
      (parentToolCallId : Option String) (now : ℚ)
  | result (message : ToolResultMessage) (call : ToolCall) (terminate uncertain : Bool) (parentToolCallId : Option String)
  | recordResultEntry (assistantEntryId : EntryId) (message : ToolResultMessage) (resultEntryId : Option EntryId)
  | setStatus (status : TaskStatus)
  | setRetryAttempt (retryAttempt : ℕ)

def Op.saves (s : Session) : Op → List Save
  | .start prompt systemPrompt ids inheritQueuedInputs =>
    [TaskRecovery.start prompt systemPrompt ids inheritQueuedInputs]
  | .retireRemovedComputerCaptures installed => TaskRecovery.retireRemovedComputerCaptures installed s
  | .reconcile toolCallId resolution => [TaskRecovery.reconcile toolCallId resolution]
  | .reconcileFromEvidence toolCallId evidenceIds conclusion failed now =>
    [TaskRecovery.reconcileFromEvidence o toolCallId evidenceIds conclusion failed now]
  | .queue kind messages label => TaskRecovery.queue kind messages label s
  | .rebindQueuedReceipts => [TaskRecovery.rebindQueuedReceipts]
  | .cancelQueued entryIds => [TaskRecovery.cancelQueued entryIds]
  | .beginStep message => [TaskRecovery.beginStep message]
  | .completeItem index block message => [TaskRecovery.completeItem index block message]
  | .commitAssistant message entryId retryable => [TaskRecovery.commitAssistant message entryId retryable]
  | .dispatch call args safe definition parent now =>
    [TaskRecovery.dispatch call args safe definition parent now]
  | .result message call terminate uncertain parent =>
    [TaskRecovery.result message call terminate uncertain parent]
  | .recordResultEntry assistantEntryId message resultEntryId =>
    [TaskRecovery.recordResultEntry assistantEntryId message resultEntryId]
  | .setStatus status =>
    [update fun _ state => .ok { state with task := { state.task with status := status } }]
  | .setRetryAttempt retryAttempt =>
    [update fun _ state => .ok { state with task := { state.task with retryAttempt := retryAttempt } }]

/-- What happens to a session: an operation is called and, unless there is a crash, makes all its
appends, or the host appends an entry of its own to the branch or to another one. -/
inductive Input where
  | call (op : Op)
  | crash (op : Op) (appends : ℕ)
  | append (e : Entry)
  | appendElsewhere (e : Entry)

/-- The entry is one that the host may append: it is no record of the journal, and its id is not one
that is drawn later. -/
def Session.admits (e : Entry) : Bool := e.record?.isNone && s.known e.id

def Session.step (s : Session) : Input → Session
  | .call op => s.perform (op.saves o s)
  | .crash op appends => s.perform ((op.saves o s).take appends)
  | .append e => if s.admits e then { s with branch := s.branch ++ [e] } else s
  | .appendElsewhere e => if s.admits e then { s with elsewhere := s.elsewhere ++ [e] } else s

end TaskRecovery
end EasyPi.CodingAgent
