/-
# Entries, records and queries of a session

The data of `packages/agent/src/harness/session/types.ts`. A session is a
tree of entries under one shared sequence, lanes that point into the tree,
and an append-only list of records per lane. What a caller provisions (an id
and a payload) and what storage adds (parent, sequence number, timestamp) are
separate structures, as `ProvisionedEntry` and `NewRecord` are in the source.
-/
import EasyPi.Ai.Types

namespace EasyPi.Session

/-- The discriminant `Entry["type"]`. -/
inductive EntryType where
  | message | modelChange | thinkingLevelChange | activeToolsChange | compaction | branchSummary
  | custom
  deriving DecidableEq, Repr

inductive EntryData where
  | message (message : AgentMessage) (terminate : Bool)
  | modelChange (provider modelId : String)
  | thinkingLevelChange (thinkingLevel : String)
  | activeToolsChange (activeToolNames : List String)
  | compaction (summary : String) (retainedTail : List AgentMessage) (tokensBefore : ℚ)
      (details : Option JsonValue) (usage : Option Usage)
  | branchSummary (fromId summary : String) (details : Option JsonValue) (usage : Option Usage)
  | custom (customType : String) (data : Option JsonValue)
  deriving DecidableEq

def EntryData.type : EntryData → EntryType
  | .message .. => .message
  | .modelChange .. => .modelChange
  | .thinkingLevelChange .. => .thinkingLevelChange
  | .activeToolsChange .. => .activeToolsChange
  | .compaction .. => .compaction
  | .branchSummary .. => .branchSummary
  | .custom .. => .custom

/-- `entry.customType`, present on custom entries only. -/
def EntryData.customType? : EntryData → Option String
  | .custom customType _ => some customType
  | _ => none

/-- `ProvisionedEntry`: an entry before storage gives it its place. -/
structure ProvisionedEntry where
  id : String
  data : EntryData
  deriving DecidableEq

/-- `Entry`: a committed entry. -/
structure Entry extends ProvisionedEntry where
  seq : ℕ
  parentId : Option String
  timestamp : ℕ
  deriving DecidableEq

abbrev Entry.type (e : Entry) : EntryType := e.data.type

/-! ### Records -/

/-- `OperationStartedRecord["intent"]["kind"]`. -/
inductive OperationKind where
  | run | compaction | navigation
  deriving DecidableEq, Repr

/-- `OperationStartedRecord["intent"]`. -/
inductive Intent where
  | run (originalPrompt : List AgentMessage) (initialMessages : List ProvisionedEntry)
      (systemPromptOverride : Option String) (resumeData : Option JsonValue)
  | compaction (customInstructions : Option String) (resultEntryId : String)
  | navigation (targetId : Option String) (summarize : Bool) (customInstructions : Option String)
      (label : Option String) (summaryEntryId : Option String)
  deriving DecidableEq

def Intent.kind : Intent → OperationKind
  | .run .. => .run
  | .compaction .. => .compaction
  | .navigation .. => .navigation

/-- `OperationFinishedRecord["outcome"]`. -/
inductive OperationOutcome where
  | completed | aborted | failed | declined
  deriving DecidableEq, Repr

structure OperationError where
  code : String
  message : String
  deriving DecidableEq, Repr

inductive CompactionReason where
  | manual | threshold | overflow
  deriving DecidableEq, Repr

/-- `StepAttemptRecord["step"]`, a compaction step with its reason. -/
inductive Step where
  | assistant
  | branchSummary
  | compaction (compactionReason : CompactionReason)
  deriving DecidableEq, Repr

/-- Whether a tool call may be dispatched again without asking. -/
inductive Replay where
  | never | safe
  deriving DecidableEq, Repr

/-- `QueueEnqueuedRecord`: the queue, with the run a `steer` or `followUp`
item belongs to. A `nextRun` item has no run. -/
inductive Queue where
  | steer (runId : String)
  | followUp (runId : String)
  | nextRun
  deriving DecidableEq, Repr

def Queue.runId? : Queue → Option String
  | .steer runId | .followUp runId => some runId
  | .nextRun => none

/-- `UsageRecord["cause"]` with the fields of each cause. -/
inductive UsageCause where
  | assistant (runId entryId : String) (attempt : ℕ) (stopReason : StopReason)
  | compaction (runId entryId : String) (attempt : ℕ) (stopReason : StopReason)
  | branchSummary (runId entryId : String) (attempt : ℕ) (stopReason : StopReason)
  | deferredFetch (runId entryId : String) (attempt : ℕ) (stopReason : StopReason)
  | tool (runId entryId toolCallId : String)
  | hook (runId entryId : String)
  | adjustment (runId entryId : Option String) (details : Option JsonValue)
  deriving DecidableEq

def UsageCause.runId? : UsageCause → Option String
  | .assistant runId .. | .compaction runId .. | .branchSummary runId .. | .deferredFetch runId ..
  | .tool runId .. | .hook runId .. => some runId
  | .adjustment runId .. => runId

/-- The discriminant `LaneRecord["type"]`. -/
inductive RecordType where
  | operationStarted | abortRequested | pauseRequested | pauseCleared | operationFinished
  | stepAttempt | toolStarted | toolReconciliation | toolReconciled | assistantCheckpoint
  | queueEnqueued | queueCancelled | writeDeferred | usage
  deriving DecidableEq, Repr

inductive RecordData where
  | operationStarted (sourceLeafId : Option String) (intent : Intent)
  | abortRequested (runId : String)
  | pauseRequested (runId : String)
  | pauseCleared (runId : String)
  | operationFinished (runId : String) (outcome : OperationOutcome) (error : Option OperationError)
  | stepAttempt (runId : String) (step : Step) (attempt : ℕ) (resultEntryId : String)
  | toolStarted (runId assistantEntryId : String) (toolIndex : ℕ) (toolCallId toolName : String)
      (effectiveArgs : JsonValue) (resultEntryId : String) (operationId : Option String)
      (replay : Replay)
  | toolReconciliation (runId toolCallId resultEntryId reason : String) (diagnostic : Option ToolResultMessage)
  | toolReconciled (runId toolCallId resultEntryId : String)
  | assistantCheckpoint (runId resultEntryId : String) (attempt : ℕ) (message : AssistantMessage)
      (continuationFailure : Option AssistantMessage) (retryAttempt : Option ℕ)
  | queueEnqueued (queue : Queue) (target : ProvisionedEntry)
  | queueCancelled (runId : Option String) (entryId : String)
  | writeDeferred (runId : String) (target : ProvisionedEntry)
  | usage (cause : UsageCause) (usage : Usage)
  deriving DecidableEq

def RecordData.type : RecordData → RecordType
  | .operationStarted .. => .operationStarted
  | .abortRequested .. => .abortRequested
  | .pauseRequested .. => .pauseRequested
  | .pauseCleared .. => .pauseCleared
  | .operationFinished .. => .operationFinished
  | .stepAttempt .. => .stepAttempt
  | .toolStarted .. => .toolStarted
  | .toolReconciliation .. => .toolReconciliation
  | .toolReconciled .. => .toolReconciled
  | .assistantCheckpoint .. => .assistantCheckpoint
  | .queueEnqueued .. => .queueEnqueued
  | .queueCancelled .. => .queueCancelled
  | .writeDeferred .. => .writeDeferred
  | .usage .. => .usage

/-- The `runId` property of a record, `undefined` or absent as `none`. The
start of an operation has none: its own id is the run's. -/
def RecordData.runId? : RecordData → Option String
  | .operationStarted .. => none
  | .abortRequested runId | .pauseRequested runId | .pauseCleared runId
  | .operationFinished runId .. | .stepAttempt runId .. | .toolStarted runId ..
  | .toolReconciliation runId .. | .toolReconciled runId .. | .assistantCheckpoint runId ..
  | .writeDeferred runId .. => some runId
  | .queueEnqueued queue _ => queue.runId?
  | .queueCancelled runId _ => runId
  | .usage cause _ => cause.runId?

/-- `NewRecord`: a record before storage gives it its place. -/
structure NewRecord where
  id : String
  lane : String
  data : RecordData
  deriving DecidableEq

/-- `LaneRecord`: a committed record. -/
structure LaneRecord extends NewRecord where
  seq : ℕ
  timestamp : ℕ
  deriving DecidableEq

abbrev LaneRecord.type (r : LaneRecord) : RecordType := r.data.type

structure OperationStartedRecord where
  id : String
  seq : ℕ
  lane : String
  timestamp : ℕ
  sourceLeafId : Option String
  intent : Intent
  deriving DecidableEq

/-- The record as the start of an operation, if it is one. -/
def LaneRecord.operationStarted? (r : LaneRecord) : Option OperationStartedRecord :=
  match r.data with
  | .operationStarted sourceLeafId intent =>
    some ⟨r.id, r.seq, r.lane, r.timestamp, sourceLeafId, intent⟩
  | _ => none

/-- `record.intent.kind`, on the start of an operation only. -/
def RecordData.operationKind? : RecordData → Option OperationKind
  | .operationStarted _ intent => some intent.kind
  | _ => none

/-! ### Queries and errors -/

inductive EntryOrder where
  | newestFirst | oldestFirst
  deriving DecidableEq, Repr

/-- `EntryQuery`. A limit or a cursor is any integer: storage checks it. -/
structure EntryQuery where
  type : Option EntryType := none
  customType : Option String := none
  order : EntryOrder := .newestFirst
  limit : Option ℤ := none
  cursor : Option ℤ := none
  deriving DecidableEq

/-- `BranchBounds` without the start. -/
structure BranchBounds where
  stopAtType : Option EntryType := none
  stopAtId : Option String := none
  deriving DecidableEq

structure RecordQuery where
  lane : Option String := none
  type : Option RecordType := none
  runId : Option String := none
  operationKind : Option OperationKind := none
  afterSeq : Option ℤ := none
  order : EntryOrder := .newestFirst
  limit : Option ℤ := none
  deriving DecidableEq

structure LogOptions where
  afterSeq : Option ℤ := none
  limit : Option ℤ := none
  deriving DecidableEq

inductive LogItem where
  | entry (seq : ℕ) (entry : Entry)
  | record (seq : ℕ) (record : LaneRecord)
  | lane (seq : ℕ) (lane : String) (leafId : Option String)
  | name (seq : ℕ) (name : Option String)
  | label (seq : ℕ) (targetId : String) (label : Option String)
  deriving DecidableEq

def LogItem.seq : LogItem → ℕ
  | .entry seq _ | .record seq _ | .lane seq .. | .name seq _ | .label seq .. => seq

def LogItem.entryOf? : LogItem → Option Entry
  | .entry _ e => some e
  | _ => none

def LogItem.record? : LogItem → Option LaneRecord
  | .record _ r => some r
  | _ => none

inductive SessionErrorCode where
  | notFound | alreadyExists | invalidEntry | invalidPayload | invalidLane | invalidQuery
  | invalidForkTarget | storage
  deriving DecidableEq, Repr

/-- `SessionError`: the code callers dispatch on and the text shown. -/
structure SessionError where
  code : SessionErrorCode
  message : String
  deriving DecidableEq, Repr

structure SessionStats where
  messageCount : ℕ := 0
  cachedTokens : ℚ := 0
  uncachedTokens : ℚ := 0
  totalTokens : ℚ := 0
  costTotal : ℚ := 0
  deriving DecidableEq

end EasyPi.Session
