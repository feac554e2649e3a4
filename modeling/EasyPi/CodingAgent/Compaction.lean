/-
# Preparing a compaction

`findCutPoint` and `prepareCompaction` (`packages/coding-agent/src/core/compaction/compaction.ts`): the
estimate of the tokens of a message, the entry to cut at, and the messages before the cut. An index that
the source writes as `-1` is no index here.
-/
import EasyPi.Ai.JsonText
import EasyPi.CodingAgent.SessionEntries

namespace EasyPi.CodingAgent
namespace Compaction

/-! ### Tokens -/

/-- `text.length`. -/
def utf16Length (text : String) : ℕ := (text.toList.map fun c => if c.toNat < 0x10000 then 1 else 2).sum

/-- `ESTIMATED_IMAGE_CHARS`. -/
def estimatedImageChars : ℕ := 4800

def blockChars : ContentBlock → ℕ
  | .text text _ => utf16Length text
  | .image .. => estimatedImageChars

def estimateTextAndImageContentChars : MessageContent → ℕ
  | .text text => utf16Length text
  | .blocks blocks => (blocks.map blockChars).sum

section
variable (J : JsonText)

def assistantBlockChars : AssistantBlock → ℕ
  | .text text _ => utf16Length text
  | .thinking thinking .. => utf16Length thinking
  | .toolCall call => utf16Length call.name + utf16Length (J.stringify call.arguments)

/-- The characters that `estimateTokens` counts. -/
def messageChars : SessionMessage → ℕ
  | .user content | .toolResult _ _ content => (content.map estimateTextAndImageContentChars).getD 0
  | .assistant content _ => ((content.getD []).map (assistantBlockChars J)).sum
  | .custom _ content _ _ => estimateTextAndImageContentChars content
  | .bashExecution command output => utf16Length command + utf16Length output
  | .branchSummary summary _ | .compactionSummary summary _ => utf16Length summary

/-- `estimateTokens`: `Math.ceil(chars / 4)`. -/
def estimateTokens (message : SessionMessage) : ℕ := (messageChars J message + 3) / 4

def calculateContextTokens (usage : Usage) : ℚ :=
  if usage.totalTokens ≠ 0 then usage.totalTokens
  else usage.input + usage.output + usage.cacheRead + usage.cacheWrite

def getAssistantUsage : SessionMessage → Option Usage
  | .assistant _ info =>
    if info.stopReason = .aborted ∨ info.stopReason = .error then none
    else info.usage.filter fun usage => 0 < calculateContextTokens usage
  | _ => none

/-- `estimateContextTokens(messages).tokens`; the messages come from the last one on. -/
def contextTokensLoop : ℕ → List SessionMessage → ℚ
  | trailing, [] => trailing
  | trailing, message :: before =>
    match getAssistantUsage message with
    | some usage => calculateContextTokens usage + trailing
    | none => contextTokensLoop (trailing + estimateTokens J message) before

def estimateContextTokens (messages : List SessionMessage) : ℚ := contextTokensLoop J 0 messages.reverse

/-! ### The cut -/

def isCutPointMessage : SessionMessage → Bool
  | .toolResult .. => false
  | _ => true

def isTurnStartMessage : SessionMessage → Bool
  | .assistant .. | .toolResult .. => false
  | _ => true

variable (entry : SessionEntry)

def isTurnStartEntry : Bool :=
  !entry.isCompaction && (sessionEntryToContextMessages entry).any isTurnStartMessage

def isCutPoint : Bool :=
  !entry.isCompaction && (sessionEntryToContextMessages entry).any isCutPointMessage

def isVisible : Bool := !(sessionEntryToContextMessages entry).isEmpty

def holdsAt (p : SessionEntry → Bool) (entries : List SessionEntry) (i : ℕ) : Bool := entries[i]?.any p

def findValidCutPoints (entries : List SessionEntry) (startIndex endIndex : ℕ) : List ℕ :=
  (List.range' startIndex (endIndex - startIndex)).filter (holdsAt isCutPoint entries)

/-- `findTurnStartIndex`, from `startIndex + n` down. -/
def turnStartLoop (entries : List SessionEntry) (startIndex : ℕ) : ℕ → Option ℕ
  | 0 => if holdsAt isTurnStartEntry entries startIndex then some startIndex else none
  | n + 1 =>
    if holdsAt isTurnStartEntry entries (startIndex + n + 1) then some (startIndex + n + 1)
    else turnStartLoop entries startIndex n

def findTurnStartIndex (entries : List SessionEntry) (entryIndex startIndex : ℕ) : Option ℕ :=
  if startIndex ≤ entryIndex then turnStartLoop entries startIndex (entryIndex - startIndex) else none

def entryTokens : ℕ := ((sessionEntryToContextMessages entry).map (estimateTokens J)).sum

def tokensAt (entries : List SessionEntry) (i : ℕ) : ℕ := (entries[i]?.map (entryTokens J)).getD 0

/-- The loop that walks backwards from `startIndex + n`: the index at which the budget is reached. -/
def budgetLoop (entries : List SessionEntry) (startIndex : ℕ) (keepRecentTokens : ℚ) : ℕ → ℕ → Option ℕ
  | 0, _ => none
  | n + 1, accumulated =>
    let messageTokens := tokensAt J entries (startIndex + n)
    if messageTokens = 0 then budgetLoop entries startIndex keepRecentTokens n accumulated
    else if keepRecentTokens ≤ (accumulated + messageTokens : ℕ) then some (startIndex + n)
    else budgetLoop entries startIndex keepRecentTokens n (accumulated + messageTokens)

/-- The loop that takes in the entries before the cut that put nothing into the context; `n` are left. -/
def absorbLoop (entries : List SessionEntry) (startIndex : ℕ) : ℕ → ℕ
  | 0 => startIndex
  | n + 1 =>
    if holdsAt (fun entry => entry.isCompaction || isVisible entry) entries (startIndex + n) then
      startIndex + n + 1
    else absorbLoop entries startIndex n

structure CutPointResult where
  firstKeptEntryIndex : ℕ
  turnStartIndex : Option ℕ
  isSplitTurn : Bool
  deriving DecidableEq

def findCutPoint (entries : List SessionEntry) (startIndex endIndex : ℕ) (keepRecentTokens : ℚ) : CutPointResult :=
  match findValidCutPoints entries startIndex endIndex with
  | [] => ⟨startIndex, none, false⟩
  | first :: others =>
    let cutIndex :=
      match budgetLoop J entries startIndex keepRecentTokens (endIndex - startIndex) 0 with
      | none => first
      | some i => ((first :: others).find? (i ≤ ·)).getD first
    let cutIndex := absorbLoop entries startIndex (cutIndex - startIndex)
    let startsTurn := holdsAt isTurnStartEntry entries cutIndex
    let turnStartIndex := if startsTurn then none else findTurnStartIndex entries cutIndex startIndex
    ⟨cutIndex, turnStartIndex, !startsTurn && turnStartIndex.isSome⟩

/-! ### Preparation -/

structure FileOperations where
  read : List JsonValue := []
  written : List JsonValue := []
  edited : List JsonValue := []
  deriving DecidableEq

/-- `set.add`. -/
def addTo (set : List JsonValue) (value : JsonValue) : List JsonValue :=
  if value ∈ set then set else set ++ [value]

def extractFileOpsFromCall (fileOps : FileOperations) (call : ToolCall) : FileOperations :=
  match call.arguments.field? "path" with
  | some (.str path) =>
    if path = "" then fileOps
    else if call.name = "read" then { fileOps with read := addTo fileOps.read (.str path) }
    else if call.name = "write" then { fileOps with written := addTo fileOps.written (.str path) }
    else if call.name = "edit" then { fileOps with edited := addTo fileOps.edited (.str path) }
    else fileOps
  | _ => fileOps

def extractFileOpsFromMessage (fileOps : FileOperations) : SessionMessage → FileOperations
  | .assistant content _ =>
    ((content.getD []).filterMap AssistantBlock.toolCall?).foldl extractFileOpsFromCall fileOps
  | _ => fileOps

def arrayElements : Option JsonValue → List JsonValue
  | some (.arr elements) => elements
  | _ => []

def extractFileOperations (messages : List SessionMessage) (previous : Option CompactionData) : FileOperations :=
  let fileOps : FileOperations :=
    match previous with
    | some data =>
      if data.fromHook then {}
      else
        let details := data.details.getD .null
        { read := (arrayElements (details.field? "readFiles")).foldl addTo []
          edited := (arrayElements (details.field? "modifiedFiles")).foldl addTo [] }
    | none => {}
  messages.foldl extractFileOpsFromMessage fileOps

structure CompactionSettings where
  enabled : Bool := true
  reserveTokens : ℚ := 16384
  keepRecentTokens : ℚ := 8192
  deriving DecidableEq

structure CompactionPreparation where
  firstKeptEntryId : String
  messagesToSummarize : List SessionMessage
  sourceMessages : List SessionMessage
  turnPrefixMessages : List SessionMessage
  turnPrefixSourceMessages : List SessionMessage
  isSplitTurn : Bool
  tokensBefore : ℚ
  previousSummary : Option String
  fileOps : FileOperations
  settings : CompactionSettings
  deriving DecidableEq

/-- `entries.slice(start, end)`. -/
def slice (entries : List SessionEntry) (startIndex endIndex : ℕ) : List SessionEntry :=
  (entries.take endIndex).drop startIndex

def getMessageFromEntryForCompaction : Option SessionMessage :=
  if entry.isCompaction then none else (sessionEntryToContextMessages entry).head?

def collectSourceMessages (entries : List SessionEntry) (startIndex endIndex : ℕ)
    (previousCompactionIndex : Option ℕ) : List SessionMessage :=
  ((previousCompactionIndex.bind (entries[·]?)).map sessionEntryToContextMessages).getD [] ++
    ((List.range' startIndex (endIndex - startIndex)).filter (some · ≠ previousCompactionIndex)).flatMap
      fun i => (entries[i]?.map sessionEntryToContextMessages).getD []

def lastCompactionIndex (entries : List SessionEntry) : Option ℕ :=
  ((List.range entries.length).filter (holdsAt SessionEntry.isCompaction entries)).getLast?

/-- Where the entries start that the last compaction has left active. -/
def boundaryStart (entries : List SessionEntry) (previousCompactionIndex : Option ℕ) : ℕ :=
  match previousCompactionIndex with
  | none => 0
  | some previous =>
    let firstKept := (entries[previous]?.bind SessionEntry.compaction?).bind (·.firstKeptEntryId)
    match entries.findIdx? fun entry => some entry.id = firstKept with
    | some index => index
    | none => previous + 1

/-- The preparation for a cut, of a path whose entries are active from `start` on. -/
def preparationAt (pathEntries : List SessionEntry) (settings : CompactionSettings)
    (prevCompactionIndex : Option ℕ) (start : ℕ) (tokensBefore : ℚ) (cutPoint : CutPointResult) :
    Option CompactionPreparation :=
  match pathEntries[cutPoint.firstKeptEntryIndex]? with
  | none => none
  | some firstKeptEntry =>
    let previous := (prevCompactionIndex.bind (pathEntries[·]?)).bind SessionEntry.compaction?
    let historyEnd :=
      if cutPoint.isSplitTurn then cutPoint.turnStartIndex.getD 0 else cutPoint.firstKeptEntryIndex
    let messagesToSummarize := (slice pathEntries start historyEnd).filterMap getMessageFromEntryForCompaction
    let turnPrefixMessages :=
      if cutPoint.isSplitTurn then
        (slice pathEntries historyEnd cutPoint.firstKeptEntryIndex).filterMap getMessageFromEntryForCompaction
      else []
    let turnPrefixSourceMessages :=
      if cutPoint.isSplitTurn then
        collectSourceMessages pathEntries start cutPoint.firstKeptEntryIndex prevCompactionIndex
      else []
    if firstKeptEntry.id = "" then none
    else if messagesToSummarize = [] ∧ turnPrefixMessages = [] then none
    else some {
      firstKeptEntryId := firstKeptEntry.id
      messagesToSummarize := messagesToSummarize
      sourceMessages := collectSourceMessages pathEntries start historyEnd prevCompactionIndex
      turnPrefixMessages := turnPrefixMessages
      turnPrefixSourceMessages := turnPrefixSourceMessages
      isSplitTurn := cutPoint.isSplitTurn
      tokensBefore := tokensBefore
      previousSummary := previous.bind (·.summary)
      fileOps := turnPrefixMessages.foldl extractFileOpsFromMessage (extractFileOperations messagesToSummarize previous)
      settings := settings }

def prepareCompaction (pathEntries : List SessionEntry) (settings : CompactionSettings) :
    Except String (Option CompactionPreparation) := do
  if (pathEntries.getLast?.any SessionEntry.isCompaction) then return none
  let prevCompactionIndex := lastCompactionIndex pathEntries
  let start := boundaryStart pathEntries prevCompactionIndex
  let tokensBefore := estimateContextTokens J (← buildSessionContext pathEntries).messages
  let cutPoint := findCutPoint J pathEntries start pathEntries.length settings.keepRecentTokens
  return preparationAt pathEntries settings prevCompactionIndex start tokensBefore cutPoint

end

end Compaction
end EasyPi.CodingAgent
