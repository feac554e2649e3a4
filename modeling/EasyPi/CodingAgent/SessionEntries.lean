/-
# The entries of a session and its context

The entries of a session file and the messages that they put into the context of the model
(`packages/coding-agent/src/core/session-manager.ts`): the path from the root to a leaf, the entries that
a compaction leaves active, and the context built from them. Times are left out.
-/
import EasyPi.CodingAgent.SessionMigration
import Mathlib.Data.List.Chain
import Mathlib.Data.List.Induction

namespace EasyPi.CodingAgent

open List

/-- The content of a user message, a tool result or a custom message. -/
inductive MessageContent where
  | text (text : String)
  | blocks (blocks : List ContentBlock)
  deriving DecidableEq

/-- What is kept about a response beside its content. -/
structure ResponseInfo where
  provider : String := ""
  model : String := ""
  usage : Option Usage := none
  stopReason : StopReason := .stop
  deriving DecidableEq

/-- `AgentMessage`, with the messages of the coding agent. The content that a session file holds may be
missing. -/
inductive SessionMessage where
  | user (content : Option MessageContent)
  | assistant (content : Option (List AssistantBlock)) (info : ResponseInfo)
  | toolResult (toolCallId toolName : String) (content : Option MessageContent)
  | custom (customType : String) (content : MessageContent) (display : Bool) (details : Option JsonValue)
  | bashExecution (command output : String)
  | branchSummary (summary fromId : String)
  | compactionSummary (summary : String) (tokensBefore : ℚ)
  deriving DecidableEq

/-- `CompactionEntry`. -/
structure CompactionData where
  summary : Option String := none
  firstKeptEntryId : Option String := none
  tokensBefore : ℚ := 0
  replacementHistory : Option (List SessionMessage) := none
  details : Option JsonValue := none
  fromHook : Bool := false
  deriving DecidableEq

inductive EntryBody where
  | message (message : SessionMessage)
  | thinkingLevelChange (thinkingLevel : String)
  | modelChange (provider modelId : String)
  | compaction (data : CompactionData)
  | branchSummary (fromId summary : String)
  | custom (customType : String) (data : Option JsonValue)
  | customMessage (customType : String) (content : Option MessageContent) (display : Bool) (details : Option JsonValue)
  | label (targetId : String) (label : Option String)
  | sessionInfo (name : Option String)
  deriving DecidableEq

structure SessionEntry where
  id : String
  parentId : Option String
  body : EntryBody
  deriving DecidableEq

namespace SessionEntry

/-- The compaction in an entry, if it is one. -/
def compaction? (entry : SessionEntry) : Option CompactionData :=
  match entry.body with
  | .compaction data => some data
  | _ => none

/-- `entry.type === "compaction"`. -/
def isCompaction (entry : SessionEntry) : Bool := entry.compaction?.isSome

end SessionEntry

open SessionMigration (isNonBlank)

/-- A message with missing content gets an empty one. -/
def withContent : SessionMessage → SessionMessage
  | .user none => .user (some (.blocks []))
  | .assistant none info => .assistant (some []) info
  | .toolResult toolCallId toolName none => .toolResult toolCallId toolName (some (.blocks []))
  | message => message

def sessionEntryToContextMessages (entry : SessionEntry) : List SessionMessage :=
  match entry.body with
  | .message message => [withContent message]
  | .customMessage customType content display details =>
    [.custom customType (content.getD (.blocks [])) display details]
  | .branchSummary fromId summary => if summary = "" then [] else [.branchSummary summary fromId]
  | .compaction data =>
    match data.summary with
    | none => []
    | some summary => if summary = "" then [] else [.compactionSummary summary data.tokensBefore]
  | _ => []

/-- `buildEntryIndex`: the entries by their ids. -/
def indexEntries : List (String × SessionEntry) → List SessionEntry → Except String (List (String × SessionEntry))
  | index, [] => .ok index
  | index, entry :: entries =>
    if isNonBlank entry.id then
      if entry.id ∈ index.map (·.1) then .error ("Duplicate session entry id: " ++ entry.id)
      else indexEntries (index ++ [(entry.id, entry)]) entries
    else .error "Session entry id must be non-empty"

/-- `current.parentId ? index.get(current.parentId) : undefined`. -/
def parentIn (index : List (String × SessionEntry)) (entry : SessionEntry) : Option SessionEntry :=
  entry.parentId.bind fun parentId => if parentId = "" then none else index.lookup parentId

/-- The loop of `buildSessionPath`; the path is built from its end. No id is visited twice, so there are
not many more passes than entries. -/
def pathLoop (index : List (String × SessionEntry)) :
    ℕ → List SessionEntry → Option SessionEntry → Except String (List SessionEntry)
  | _, path, none => .ok path
  | 0, _, some entry => .error ("Cycle in session parent links: " ++ entry.id)
  | fuel + 1, path, some entry =>
    if entry.id ∈ path.map (·.id) then .error ("Cycle in session parent links: " ++ entry.id)
    else pathLoop index fuel (entry :: path) (parentIn index entry)

/-- `leafId`: not given, `null` or an id. -/
inductive LeafId where
  | unspecified
  | null
  | id (id : String)
  deriving DecidableEq

def buildSessionPath (entries : List SessionEntry) (leafId : LeafId := .unspecified) :
    Except String (List SessionEntry) := do
  let index ← indexEntries [] entries
  match leafId with
  | .null => return []
  | .unspecified => pathLoop index (entries.length + 1) [] entries.getLast?
  | .id id =>
    let leaf := if id = "" then none else index.lookup id
    pathLoop index (entries.length + 1) [] (leaf <|> entries.getLast?)

/-! ### The context -/

/-- The kept entries: from the first one kept on. -/
def keptFrom (firstKeptEntryId : Option String) (entries : List SessionEntry) : List SessionEntry :=
  match firstKeptEntryId with
  | none => []
  | some id => if id = "" then [] else entries.dropWhile (·.id ≠ id)

/-- `buildContextEntries`, of a path. -/
def contextEntriesOf (path : List SessionEntry) : List SessionEntry :=
  match (path.filter SessionEntry.isCompaction).getLast? with
  | none => path
  | some entry =>
    let compactionIdx := path.findIdx (·.id = entry.id)
    entry :: keptFrom (entry.compaction?.bind (·.firstKeptEntryId)) (path.take compactionIdx) ++
      path.drop (compactionIdx + 1)

def buildContextEntries (entries : List SessionEntry) (leafId : LeafId := .unspecified) :
    Except String (List SessionEntry) := do
  return contextEntriesOf (← buildSessionPath entries leafId)

structure SessionContext where
  messages : List SessionMessage
  thinkingLevel : String
  model : Option (String × String)

/-- `getSessionContextSettings`: the thinking level and the model. -/
def getSessionContextSettings (path : List SessionEntry) : String × Option (String × String) :=
  path.foldl (fun (thinkingLevel, model) entry =>
    match entry.body with
    | .thinkingLevelChange level => (level, model)
    | .modelChange provider modelId => (thinkingLevel, some (provider, modelId))
    | .message (.assistant _ info) => (thinkingLevel, some (info.provider, info.model))
    | _ => (thinkingLevel, model)) ("off", none)

/-- The last checkpoint of a path with a replacement history: the history, and what follows it. -/
def lastReplacement : List SessionEntry → Option (List SessionMessage × List SessionEntry)
  | [] => none
  | entry :: rest =>
    match lastReplacement rest with
    | some found => some found
    | none => (entry.compaction?.bind (·.replacementHistory)).map (·, rest)

def buildSessionContext (entries : List SessionEntry) (leafId : LeafId := .unspecified) :
    Except String SessionContext := do
  let path ← buildSessionPath entries leafId
  let (thinkingLevel, model) := getSessionContextSettings path
  match lastReplacement path with
  | some (replacementHistory, rest) =>
    return ⟨replacementHistory ++ rest.flatMap sessionEntryToContextMessages, thinkingLevel, model⟩
  | none =>
    let entries ← buildContextEntries entries leafId
    return ⟨entries.flatMap sessionEntryToContextMessages, thinkingLevel, model⟩

/-! ### Paths -/

/-- The entries have distinct ids, each is the parent of the next, and the first has no parent among
them. -/
structure IsPath (path : List SessionEntry) : Prop where
  nonBlank : ∀ entry ∈ path, isNonBlank entry.id = true
  distinct : (path.map (·.id)).Nodup
  root : ∀ entry ∈ path.head?, ∀ parentId, entry.parentId = some parentId → parentId ∉ path.map (·.id)
  linked : path.IsChain fun entry next => next.parentId = some entry.id

section
variable {path : List SessionEntry}

theorem indexEntries_of_distinct {index : List (String × SessionEntry)} (hbl : ∀ entry ∈ path, isNonBlank entry.id = true)
    (hdst : (index.map (·.1) ++ path.map (·.id)).Nodup) :
    indexEntries index path = .ok (index ++ path.map fun entry => (entry.id, entry)) := by
  induction path generalizing index with
  | nil => rw [indexEntries, map_nil, append_nil]
  | cons entry path ih =>
    obtain ⟨hent, hbl⟩ := forall_mem_cons.mp hbl
    rw [map_cons] at hdst
    have hnew : entry.id ∉ index.map (·.1) := by
      intro hmem
      exact (nodup_append.mp hdst).2.2 _ hmem _ (mem_cons_self ..) rfl
    rw [indexEntries, if_pos hent, if_neg hnew, ih hbl, map_cons, append_assoc, singleton_append]
    rw [map_append, map_singleton, append_assoc, singleton_append]
    exact hdst

theorem lookup_of_mem_path {entries : List SessionEntry} (hdst : (entries.map (·.id)).Nodup)
    {entry : SessionEntry} (hent : entry ∈ entries) :
    (entries.map fun entry => (entry.id, entry)).lookup entry.id = some entry := by
  refine OrdMap.lookup_of_mem ?_ (mem_map_of_mem hent)
  rw [map_map]
  exact hdst

theorem lookup_of_notMem_path {entries : List SessionEntry} {id : String}
    (h : id ∉ entries.map (·.id)) : (entries.map fun entry => (entry.id, entry)).lookup id = none := by
  rw [OrdMap.lookup_eq_none_iff_notMem, map_map]
  exact h

theorem ne_empty_of_isNonBlank {id : String} (h : isNonBlank id = true) : id ≠ "" := by
  rintro rfl
  exact absurd h (by decide)

theorem pathLoop_of_isPath (h : IsPath path) (before : List SessionEntry) {entry : SessionEntry}
    {after : List SessionEntry} (hpath : path = before ++ entry :: after) {fuel : ℕ} (hfuel : before.length < fuel) :
    pathLoop (path.map fun entry => (entry.id, entry)) fuel after (some entry) = .ok path := by
  induction before using List.reverseRecOn generalizing entry after fuel with
  | nil =>
    obtain ⟨fuel, rfl⟩ := Nat.exists_eq_succ_of_ne_zero (Nat.ne_of_gt hfuel)
    have hnew : entry.id ∉ after.map (·.id) := by
      have hdst := h.distinct
      rw [hpath, nil_append, map_cons, nodup_cons] at hdst
      exact hdst.1
    have hpar : parentIn (path.map fun entry => (entry.id, entry)) entry = none := by
      rw [parentIn]
      cases hpare : entry.parentId with
      | none => rfl
      | some parentId =>
        have hroot := h.root entry (by rw [hpath]; rfl) parentId hpare
        rw [Option.bind_some, lookup_of_notMem_path hroot, ite_self]
    rw [pathLoop, if_neg hnew, hpar, pathLoop, hpath, nil_append]
  | append_singleton before parent ih =>
    obtain ⟨fuel, rfl⟩ := Nat.exists_eq_succ_of_ne_zero (show fuel ≠ 0 by omega)
    have hdst := h.distinct
    have hnew : entry.id ∉ after.map (·.id) := by
      rw [hpath, map_append, map_cons] at hdst
      exact (nodup_cons.mp (nodup_append.mp hdst).2.1).1
    have hpath' : path = before ++ parent :: (entry :: after) := by
      rw [hpath, append_assoc, singleton_append]
    have hmem : parent ∈ path := by
      rw [hpath']
      exact mem_append_right _ (mem_cons_self ..)
    have hlink : entry.parentId = some parent.id := by
      have hlin := h.linked
      rw [hpath', isChain_append] at hlin
      exact (isChain_cons_cons.mp hlin.2.1).1
    have hpar : parentIn (path.map fun entry => (entry.id, entry)) entry = some parent := by
      rw [parentIn, hlink, Option.bind_some, if_neg (ne_empty_of_isNonBlank (h.nonBlank parent hmem)),
        lookup_of_mem_path hdst hmem]
    rw [pathLoop, if_neg hnew, hpar]
    refine ih hpath' ?_
    rw [length_append, length_singleton] at hfuel
    omega

/-- **A path is the path to its last entry.** -/
theorem buildSessionPath_of_isPath (h : IsPath path) : buildSessionPath path = .ok path := by
  have hidx := @indexEntries_of_distinct path [] h.nonBlank h.distinct
  rw [nil_append] at hidx
  rw [buildSessionPath, hidx]
  change pathLoop (path.map fun entry => (entry.id, entry)) (path.length + 1) [] path.getLast? = .ok path
  rcases eq_nil_or_concat' path with rfl | ⟨before, entry, hpath⟩
  · rfl
  · have hlast : path.getLast? = some entry := by
      rw [hpath, List.getLast?_append_of_ne_nil _ (cons_ne_nil _ _)]
      rfl
    rw [hlast]
    refine pathLoop_of_isPath h before hpath ?_
    rw [hpath, length_append]
    omega

/-- The messages that a path puts into the context. -/
def contextMessages (path : List SessionEntry) : List SessionMessage :=
  match lastReplacement path with
  | some (replacementHistory, rest) => replacementHistory ++ rest.flatMap sessionEntryToContextMessages
  | none => (contextEntriesOf path).flatMap sessionEntryToContextMessages

theorem buildSessionContext_of_isPath (h : IsPath path) : buildSessionContext path =
      .ok ⟨contextMessages path, (getSessionContextSettings path).1, (getSessionContextSettings path).2⟩ := by
  have hents : buildContextEntries path = .ok (contextEntriesOf path) := by
    rw [buildContextEntries, buildSessionPath_of_isPath h]
    rfl
  rw [buildSessionContext, buildSessionPath_of_isPath h, hents, contextMessages]
  cases hrep : lastReplacement path with
  | none | some found =>
    change (match lastReplacement path with
      | some (replacementHistory, rest) => _
      | none => _) = _
    rw [hrep]
    rfl

end

end EasyPi.CodingAgent
