/-
# Migration of legacy session entries

`migrateSessionEntries` and `validateSessionGraph` (`packages/coding-agent/src/core/session-manager.ts`).
The entries of a session file are the objects that its lines hold. The random source is a sequence of
identifiers, which are used up one by one. A version that is not a number compares as `NaN` does.
-/
import EasyPi.Ai.Json
import EasyPi.Lib.Except

namespace EasyPi.CodingAgent
namespace SessionMigration

/-- An object of the file: the header or an entry. -/
abbrev FileEntry := Fields

/-- A random UUID; its first eight characters are hexadecimal digits. -/
structure Uuid where
  text : List Char
  length : 8 ≤ text.length
  hex : ∀ c ∈ text.take 8, c ∈ "0123456789abcdef".toList

variable (entry : FileEntry)

def hasType (type : String) : Bool := entry.lookup "type" = some (.str type)

/-- `entry.type === "session"`. -/
def isHeader : Bool := hasType entry "session"

/-- `entry[key] = value`. -/
def set (key : String) (value : JsonValue) : FileEntry := assign entry [(key, value)]

/-- `entry[key] = value`, where `undefined` is no value. -/
def setOptional (key : String) : Option JsonValue → FileEntry
  | some value => set entry key value
  | none => without entry [key]

/-- `randomUUID().slice(0, 8)`. -/
def Uuid.short (uuid : Uuid) : String := String.ofList (uuid.text.take 8)

/-- The attempts of `generateId`: the identifier, and how many of the random source are used up. -/
def generateIdLoop (random : ℕ → Uuid) (byId : List String) : ℕ → ℕ → String × ℕ
  | 0, used => (String.ofList (random used).text, used + 1)
  | attempts + 1, used =>
    if (random used).short ∈ byId then generateIdLoop random byId attempts (used + 1)
    else ((random used).short, used + 1)

def generateId (random : ℕ → Uuid) (byId : List String) (used : ℕ) : String × ℕ := generateIdLoop random byId 100 used

/-! ### The migrations -/

/-- `entries[index]`. -/
def entryAt (entries : List FileEntry) (index : ℚ) : Option FileEntry :=
  if index.isInt ∧ 0 ≤ index then entries[index.num.toNat]? else none

/-- The index of the first entry kept becomes its id. -/
def convertIndex (entries : List FileEntry) (entry : FileEntry) : FileEntry :=
  match entry.lookup "firstKeptEntryIndex" with
  | some (.num index) =>
    let converted :=
      match entryAt entries index with
      | some target =>
        if isHeader target then entry else setOptional entry "firstKeptEntryId" (target.lookup "id")
      | none => entry
    without converted ["firstKeptEntryIndex"]
  | _ => entry

/-- A parent link: `null`, or the id of the entry before. -/
def parentLink : Option String → JsonValue
  | none => .null
  | some id => .str id

/-- The loop of `migrateV1ToV2`; `done` are the entries that it has passed. -/
def migrateV1ToV2Loop (random : ℕ → Uuid) (ids : List String) :
    Option String → ℕ → List FileEntry → List FileEntry → List FileEntry
  | _, _, done, [] => done
  | prevId, used, done, entry :: rest =>
    if isHeader entry then
      migrateV1ToV2Loop random ids prevId used (done ++ [set entry "version" (.num 2)]) rest
    else
      let (id, used) := generateId random ids used
      let entry := set (set entry "id" (.str id)) "parentId" (parentLink prevId)
      let entry :=
        if hasType entry "compaction" then convertIndex (done ++ entry :: rest) entry else entry
      migrateV1ToV2Loop random ids (some id) used (done ++ [entry]) rest

/-- `migrateV1ToV2`. The set of ids that the loop checks against stays empty. -/
def migrateV1ToV2 (random : ℕ → Uuid) (entries : List FileEntry) : List FileEntry :=
  migrateV1ToV2Loop random [] none 0 [] entries

def renameRole : FileEntry :=
  match entry.lookup "message" with
  | some (.obj message) =>
    if message.lookup "role" = some (.str "hookMessage") then
      set entry "message" (.obj (set message "role" (.str "custom")))
    else entry
  | _ => entry

/-- The body of the loop of `migrateV2ToV3`. -/
def migrateEntryToV3 : FileEntry :=
  if isHeader entry then set entry "version" (.num 3)
  else if hasType entry "message" then renameRole entry
  else entry

def migrateV2ToV3 (entries : List FileEntry) : List FileEntry := entries.map migrateEntryToV3

/-- `header?.version ?? 1`, which is a number by its type: nothing for another value, which the comparisons would
coerce. -/
def versionOf (entries : List FileEntry) : Option ℚ :=
  match (entries.find? isHeader).bind (·.lookup "version") with
  | none | some .null => some 1
  | some (.num version) => some version
  | some _ => none

/-- `migrateToCurrentVersion`: the entries, and whether a migration was applied. -/
def migrateToCurrentVersion (random : ℕ → Uuid) (entries : List FileEntry) : List FileEntry × Bool :=
  let version := versionOf entries
  if version.any (3 ≤ ·) then (entries, false)
  else
    let entries := if version.any (· < 2) then migrateV1ToV2 random entries else entries
    let entries := if version.any (· < 3) then migrateV2ToV3 entries else entries
    (entries, true)

def migrateSessionEntries (random : ℕ → Uuid) (entries : List FileEntry) : List FileEntry :=
  (migrateToCurrentVersion random entries).1

/-! ### Validation -/

/-- The white space and line terminators that `trim` strips. -/
def isWhiteSpace (c : Char) : Bool :=
  let n := c.toNat
  (0x9 ≤ n && n ≤ 0xD) || (0x2000 ≤ n && n ≤ 0x200A) ||
    n ∈ [0x20, 0xA0, 0x1680, 0x2028, 0x2029, 0x202F, 0x205F, 0x3000, 0xFEFF]

/-- `id.trim()` is not empty. -/
def isNonBlank (id : String) : Bool := id.toList.any fun c => !isWhiteSpace c

/-- `buildEntryIndex`: the entries by their ids, in order. -/
def buildEntryIndex : List (String × FileEntry) → List FileEntry → Except String (List (String × FileEntry))
  | index, [] => .ok index
  | index, entry :: entries =>
    match entry.lookup "id" with
    | some (.str id) =>
      if isNonBlank id then
        if id ∈ index.map (·.1) then .error ("Duplicate session entry id: " ++ id)
        else buildEntryIndex (index ++ [(id, entry)]) entries
      else .error "Session entry id must be non-empty"
    | _ => .error "Session entry id must be non-empty"

/-- `current.parentId ? index.get(current.parentId) : undefined`. -/
def parentOf (index : List (String × FileEntry)) (entry : FileEntry) : Option (String × FileEntry) :=
  match entry.lookup "parentId" with
  | some (.str parentId) => if parentId = "" then none else (index.lookup parentId).map (parentId, ·)
  | _ => none

/-- The walk from an entry to its ancestors: the ids visited. Each pass but the last visits one entry
more, so there are not many more passes than entries. -/
def walkParents (index : List (String × FileEntry)) (checked : List String) :
    ℕ → List String → Option (String × FileEntry) → Except String (List String)
  | _, visiting, none => .ok visiting
  | 0, _, some (id, _) => .error ("Cycle in session parent links: " ++ id)
  | fuel + 1, visiting, some (id, entry) =>
    if id ∈ checked then .ok visiting
    else if id ∈ visiting then .error ("Cycle in session parent links: " ++ id)
    else walkParents index checked fuel (visiting ++ [id]) (parentOf index entry)

/-- The loop of `validateSessionGraph` over the entries of the index. -/
def checkEntries (index : List (String × FileEntry)) :
    List String → List (String × FileEntry) → Except String Unit
  | _, [] => .ok ()
  | checked, entry :: rest => do
    let visiting ← walkParents index checked (index.length + 1) [] (some entry)
    checkEntries index (checked ++ visiting) rest

def validateSessionGraph (entries : List FileEntry) : Except String Unit := do
  let index ← buildEntryIndex [] (entries.filter fun entry => !isHeader entry)
  checkEntries index [] index

end SessionMigration
end EasyPi.CodingAgent
