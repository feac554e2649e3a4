/-
# The compilation of a request

`compileSubagentDagRequest` and `compileSubagentDagExpansion` of `packages/subagent/src/contracts.ts`: the tasks
of a request are checked and become contracts, which own paths. What reads the file system or hashes is a
parameter (`Host`).
-/
import Mathlib.Data.List.DropRight
import Mathlib.Data.List.Infix
import EasyPi.Lib.Except
import EasyPi.Subagent.Quality

namespace EasyPi.Subagent
namespace DagRequest

/-! ### Requests and contracts -/

/-- What the role of a `SubagentTaskRequest` asks for. -/
inductive TaskKind where
  | analyst
  | reviewer
  | writer (ownedPaths : List String) (validationCommandIds : Option (List String))
  | externalWriter (externalOwnedPaths : List String)
  deriving DecidableEq

/-- `SubagentTaskRequest`. -/
structure TaskRequest where
  id : String
  objective : String
  nonGoals : Option (List String) := none
  focusPaths : Option (List String) := none
  acceptance : Option (List String) := none
  dependsOn : Option (List String) := none
  maxAttempts : Option ℤ := none
  kind : TaskKind
  deriving DecidableEq

/-- `SubagentDagStartRequest`. -/
structure StartRequest where
  tasks : List TaskRequest
  objective : Option String := none
  createCandidate : Option Bool := none
  openGraph : Option Bool := none
  deriving DecidableEq

/-- `SubagentDagExpandRequest`. -/
structure ExpandRequest where
  tasks : List TaskRequest
  sealGraph : Option Bool := none
  deriving DecidableEq

inductive ReadOnlyRole where
  | scout | testAnalyst | failureAnalyst | reviewer
  deriving DecidableEq

/-- What the role of a `DagTaskContract` allows. -/
inductive ContractKind where
  | readOnly (role : ReadOnlyRole)
  | writer (ownedPaths validationCommandIds : List String)
  | externalWriter (externalOwnedPaths : List String)
  deriving DecidableEq

/-- A `DagTaskContract` without its hash. -/
structure Unhashed where
  id : String
  objective : String
  nonGoals : List String
  readPaths : List String
  acceptance : List String
  dependsOn : List String
  maxAttempts : ℤ
  kind : ContractKind
  deriving DecidableEq

/-- `DagTaskContract`. -/
structure TaskContract extends Unhashed where
  contractHash : String
  deriving DecidableEq

/-- `CompiledSubagentDagRequest`; `maxTokens` is its budget. -/
structure CompiledRequest where
  version : ℕ := 2
  handoffProtocolVersion : ℕ := 2
  objective : String
  tasks : List TaskContract
  maxTokens : ℤ
  budgetScope : Option String := some "task"
  mergeEnabled : Bool
  refPrefix : String := "pi/subagent/integration"
  sealed : Bool
  deriving DecidableEq

/-- What the compilation reads of a `SubagentPolicy`. -/
structure Policy where
  maxTasks : ℤ := 32
  defaultMaxTokens : ℤ := 10000000
  maximumMaxTokens : ℤ := 1000000000
  allowedValidationCommandIds : Option (List String) := some []
  maxTaskAttempts : Option ℤ := some 3
  deriving DecidableEq

/-- The hash of a contract, and the paths of the host. -/
structure Host where
  contractHash : Unhashed → String
  isAbsolute : String → Bool
  canonicalizeProspectivePath : String → String → Except String String

/-- `MIN_SUBAGENT_TOKENS_PER_TASK`. -/
def minTokensPerTask : ℤ := 100000

/-- `MAX_SUBAGENT_TOKENS_PER_TASK`. -/
def maxTokensPerTask : ℤ := 1000000000

/-- `toLocaleString("en-US")`, of digits. -/
def groupDigits : List Char → List Char
  | [] => []
  | [c] => [c]
  | c :: d :: rest => if (rest.length + 1) % 3 = 0 then c :: ',' :: groupDigits (d :: rest) else c :: groupDigits (d :: rest)

def toLocaleString (n : ℤ) : String := .ofList (groupDigits (toString n).toList)

def policyMaximumTokens (policy : Policy) : Except String ℤ := do
  failIf (isSafeInteger policy.maximumMaxTokens = false ∨ policy.maximumMaxTokens < minTokensPerTask)
    s!"Subagent maximum task budget must be a safe integer of at least {toLocaleString minTokensPerTask} tokens"
  return min policy.maximumMaxTokens maxTokensPerTask

def policyBudget (policy : Policy) : Except String ℤ := do
  let maximum ← policyMaximumTokens policy
  let maxTokens := min policy.defaultMaxTokens maximum
  failIf (isSafeInteger maxTokens = false ∨ maxTokens < minTokensPerTask ∨ maximum < maxTokens)
    s!"Subagent task budget must be between {toLocaleString minTokensPerTask} and {toLocaleString maximum} tokens"
  return maxTokens

/-- The characters that `trim` strips. -/
def isWhiteSpace (c : Char) : Bool :=
  (0x9 ≤ c.toNat && c.toNat ≤ 0xD) || (0x2000 ≤ c.toNat && c.toNat ≤ 0x200A) ||
    c.toNat ∈ [0x20, 0xA0, 0x1680, 0x2028, 0x2029, 0x202F, 0x205F, 0x3000, 0xFEFF]

/-- `value.trim()`. -/
def trim (value : String) : String := .ofList ((value.toList.dropWhile isWhiteSpace).rdropWhile isWhiteSpace)

def trimmedRequired (value kind : String) : Except String String := do
  failIf (trim value = "") s!"{kind} must contain non-whitespace text"
  return trim value

def normalizedStrings (values : Option (List String)) (kind : String) : Except String (List String) :=
  (values.getD []).mapM (trimmedRequired · kind)

/-- `[A-Za-z0-9]`. -/
def isAlphanumeric (c : Char) : Bool := c.isAlphanum

def isValidationCommandId (value : String) : Bool :=
  1 ≤ value.toList.length && value.toList.length ≤ 64 && value.toList.head?.any (·.isAlphanum) &&
    value.toList.all fun c => c.isAlphanum || c == '.' || c == '_' || c == ':' || c == '-'

/-! ### Paths -/

/-- `/^[A-Za-z]:\//`. -/
def hasDrive : List Char → Bool
  | c :: ':' :: '/' :: _ => c.isAlpha
  | _ => false

/-- `value.replaceAll("\\", "/")`. -/
def slashes (value : List Char) : List Char := value.map fun c => if c = '\\' then '/' else c

/-- `path.replace(/^\.\//, "")`. -/
def withoutDot : List Char → List Char
  | '.' :: '/' :: rest => rest
  | path => path

def normalizedPathInput (value : String) : String :=
  let path := withoutDot (slashes value.toList)
  if 1 < path.length ∧ path.getLast? = some '/' ∧ ¬ (hasDrive path ∧ path.length = 3) then .ofList path.dropLast
  else .ofList path

/-- `path.startsWith(text)`. -/
def startsWith (path text : String) : Bool := text.toList.isPrefixOf path.toList

/-- `path.includes(text)`. -/
def includes (path text : String) : Bool := decide (text.toList <:+: path.toList)

/-- What `normalizeFocusPaths` refuses. -/
def unsafeFocusPath (path : String) : Bool :=
  path = "" || path = "." ||
    (!(startsWith path "/" || hasDrive path.toList) &&
      (path = ".." || startsWith path "../" || includes path "/../")) ||
    includes path "\x00" || ".git".toList ∈ path.toList.splitOn '/'

/-- What `normalizeOwnedPaths` refuses. -/
def unsafeOwnedPath (path : String) : Bool :=
  path = "" || path = "." || startsWith path "/" || hasDrive path.toList || path = ".." || startsWith path "../" ||
    includes path "/../" || includes path "\x00" || path = ".git" || startsWith path ".git/"

/-- `if (!normalized.includes(path)) normalized.push(path)`. -/
def pushNew (normalized : List String) (path : String) : List String :=
  if path ∈ normalized then normalized else normalized ++ [path]

def normalizeFocusPaths (paths : Option (List String)) (taskId : String) : Except String (List String) :=
  (paths.getD []).foldlM (fun normalized value => do
    let path := normalizedPathInput value
    failIf (unsafeFocusPath path = true) (s!"Task {taskId} has an unsafe focus path: {value}. " ++
      "Use a workspace-relative or absolute read path, or omit focusPaths to inspect the workspace.")
    return pushNew normalized path) []

def normalizeOwnedPaths (paths : List String) (taskId : String) : Except String (List String) :=
  paths.foldlM (fun normalized value => do
    let path := normalizedPathInput value
    failIf (unsafeOwnedPath path = true)
      s!"Task {taskId} has an unsafe owned path: {value}. Use a path relative to the workspace root."
    return pushNew normalized path) []

def pathsOverlap (left right : String) : Bool :=
  left = right || startsWith left (right ++ "/") || startsWith right (left ++ "/")

structure Claim where
  taskId : String
  path : String
  deriving DecidableEq

structure Claims where
  paths : List Claim := []
  external : List Claim := []
  deriving DecidableEq

def claimPaths (message : String → Claim → String) (taskId : String) :
    List Claim → List String → Except String (List Claim)
  | claimed, [] => .ok claimed
  | claimed, path :: paths =>
    match claimed.find? (pathsOverlap ·.path path) with
    | some existing => .error (message path existing)
    | none => claimPaths message taskId (claimed ++ [⟨taskId, path⟩]) paths

section
variable (host : Host)

def normalizeExternalOwnedPaths (paths : List String) (taskId : String) : Except String (List String) :=
  paths.foldlM (fun normalized value => do
    let path := normalizedPathInput value
    failIf (path = "" ∨ (startsWith path "/" || hasDrive path.toList) = false ∨ includes path "\x00" = true)
      s!"External writer task {taskId} requires normalized absolute externalOwnedPaths: {value}"
    let canonical ← if host.isAbsolute path then host.canonicalizeProspectivePath path path else pure path
    return pushNew normalized canonical) []

/-! ### Tasks -/

/-- `{ ...unhashed, contractHash: contractHash(unhashed) }`. -/
def hashed (unhashed : Unhashed) : TaskContract := { unhashed with contractHash := host.contractHash unhashed }

variable (policy : Policy)

/-- The checks of the dependencies of a task. -/
def compileDependsOn (ids : List String) (task : TaskRequest) : Except String (List String) := do
  let dependsOn := (task.dependsOn.getD []).foldl pushNew []
  failIf (max 0 (policy.maxTasks - 1) < dependsOn.length) s!"Task {task.id} has too many dependencies"
  dependsOn.forM fun dependency => do
    failIf (dependency = task.id) s!"Task {task.id} cannot depend on itself"
    failIf (dependency ∉ ids) s!"Task {task.id} depends on unknown task {dependency}"
  return dependsOn

variable (task : TaskRequest)

def compileMaxAttempts : Except String ℤ :=
  let maxTaskAttempts := policy.maxTaskAttempts.getD 1
  match task.kind with
  | .externalWriter _ => do
    failIf (task.maxAttempts.any (· ≠ 1) = true)
      (s!"External writer task {task.id} must use maxAttempts 1 because live writes cannot be retried safely")
    return 1
  | _ => return min (task.maxAttempts.getD maxTaskAttempts) maxTaskAttempts

def registeredCommands (allowed : List String) : String :=
  let registered := ", ".intercalate (allowed.mergeSort textLE)
  if registered = "" then "none (omit validationCommandIds)" else registered

/-- The checks of the validation commands of a writer. -/
def compileCommands (allowed : List String) (taskId : String) (commands : Option (List String)) :
    Except String (List String) := do
  let commandIds := (commands.getD []).foldl pushNew []
  commandIds.forM fun commandId => do
    failIf (isValidationCommandId commandId = false)
      ("Validation command id must be 1-64 characters and match ^[A-Za-z0-9][A-Za-z0-9._:-]*$: " ++
        if commandId = "" then "<empty>" else commandId)
    failIf (commandId ∉ allowed)
      (s!"Writer task {taskId} requests unregistered validation command {commandId}; registered: " ++
        registeredCommands allowed)
  return commandIds

def compileKind (allowed : List String) (task : TaskRequest) (claims : Claims) : Except String (ContractKind × Claims) :=
  match task.kind with
  | .analyst => .ok (.readOnly .scout, claims)
  | .reviewer => .ok (.readOnly .reviewer, claims)
  | .externalWriter paths => do
    let externalOwnedPaths ← normalizeExternalOwnedPaths host paths task.id
    failIf (externalOwnedPaths = []) s!"External writer task {task.id} requires at least one externalOwnedPath"
    let message (path : String) (existing : Claim) :=
      s!"External writer task {task.id} path {path} overlaps {existing.taskId}:{existing.path}"
    let external ← claimPaths message task.id claims.external externalOwnedPaths
    return (.externalWriter externalOwnedPaths, { claims with external })
  | .writer paths commands => do
    let ownedPaths ← normalizeOwnedPaths paths task.id
    failIf (ownedPaths = []) s!"Writer task {task.id} requires at least one owned path"
    let message (path : String) (existing : Claim) :=
      s!"Writer task {task.id} owned path {path} overlaps {existing.taskId}:{existing.path}"
    let claimed ← claimPaths message task.id claims.paths ownedPaths
    let validationCommandIds ← compileCommands allowed task.id commands
    return (.writer ownedPaths validationCommandIds, { claims with paths := claimed })

/-- The contract of a task, and the paths that are claimed behind it. -/
def compileTask (allowed ids : List String) (task : TaskRequest) (claims : Claims) :
    Except String (TaskContract × Claims) := do
  let dependsOn ← compileDependsOn policy ids task
  let maxAttempts ← compileMaxAttempts policy task
  let objective ← trimmedRequired task.objective s!"Task {task.id} objective"
  let nonGoals ← normalizedStrings task.nonGoals s!"Task {task.id} non-goal"
  let readPaths ← normalizeFocusPaths task.focusPaths task.id
  let acceptance ← normalizedStrings task.acceptance s!"Task {task.id} acceptance criterion"
  let (kind, claims) ← compileKind host allowed task claims
  return (hashed host ⟨task.id, objective, nonGoals, readPaths, acceptance, dependsOn, maxAttempts, kind⟩, claims)

def compileTasks (policy : Policy) (allowed ids : List String) :
    Claims → List TaskRequest → Except String (List TaskContract)
  | _, [] => .ok []
  | claims, task :: tasks => do
    let (contract, claims) ← compileTask host policy allowed ids task claims
    let contracts ← compileTasks policy allowed ids claims tasks
    return contract :: contracts

/-! ### Requests -/

/-- The tasks that are not being visited. -/
def unvisited (tasks : List TaskContract) (visiting : List String) : List TaskContract :=
  tasks.filter fun task => task.id ∉ visiting

theorem unvisited_lt {tasks : List TaskContract} {visiting : List String} {taskId : String} {task : TaskContract}
    (hvis : taskId ∉ visiting) (htask : task ∈ tasks) (hid : task.id = taskId) :
    (unvisited tasks (taskId :: visiting)).length < (unvisited tasks visiting).length := by
  have hfil : unvisited tasks (taskId :: visiting) = (unvisited tasks visiting).filter (·.id ≠ taskId) := by
    rw [unvisited, unvisited, List.filter_filter]
    exact List.filter_congr fun other _ => by simp [List.mem_cons, not_or]
  rw [hfil, List.length_filter_lt_length_iff_exists]
  refine ⟨task, List.mem_filter.mpr ⟨htask, ?_⟩, ?_⟩
  · rw [hid]
    exact decide_eq_true hvis
  · simp [hid]

/-- `visit` of `assertAcyclic`: the tasks that have been visited behind a task. -/
def visit (tasks : List TaskContract) (visiting visited : List String) (taskId : String) : Except String (List String) :=
  if taskId ∈ visited then .ok visited
  else if _ : taskId ∈ visiting then .error s!"Task dependency cycle includes {taskId}"
  else
    match _ : tasks.find? (·.id = taskId) with
    | none => .error s!"Unknown task dependency: {taskId}"
    | some task => do
      let visited ← task.dependsOn.foldlM (visit tasks (taskId :: visiting)) visited
      return taskId :: visited
termination_by (unvisited tasks visiting).length
decreasing_by
  rename_i hvis hfind
  exact unvisited_lt hvis (List.mem_of_find?_eq_some hfind) (by simpa using List.find?_some hfind)

def assertAcyclic (tasks : List TaskContract) : Except String Unit := do
  let _ ← tasks.foldlM (fun visited task => visit tasks [] visited task.id) []
  return ()

def missingValidation (tasks : List TaskContract) : List String :=
  tasks.filterMap fun task => match task.kind with
    | .writer _ [] => some task.id
    | _ => none

def isWriter : Bool := match task.kind with
  | .writer .. => true
  | _ => false

def isExternalWriter : Bool := match task.kind with
  | .externalWriter _ => true
  | _ => false

def compileSubagentDagRequest (request : StartRequest) (policy : Policy) : Except String CompiledRequest := do
  failIf (request.tasks.length < 1 ∨ policy.maxTasks < request.tasks.length)
    s!"Subagent DAG requires 1-{policy.maxTasks} tasks"
  let maxTokens ← policyBudget policy
  let ids := request.tasks.map (·.id)
  failIf (¬ ids.Nodup) "Subagent DAG task ids must be unique"
  let allowed := (policy.allowedValidationCommandIds.getD []).foldl pushNew []
  let hasWriter := request.tasks.any isWriter
  let hasExternalWriter := request.tasks.any isExternalWriter
  let createCandidate := request.createCandidate.getD hasWriter
  failIf (hasExternalWriter = true ∧ hasWriter = true)
    "External writers cannot be mixed with isolated workspace writers in one DAG"
  failIf (hasExternalWriter = true ∧ createCandidate = true)
    "External writer DAGs cannot create candidates because live side effects are not rollbackable"
  let tasks ← compileTasks host policy allowed ids {} request.tasks
  failIf (createCandidate = true ∧ allowed ≠ [] ∧ missingValidation tasks ≠ [])
    ("Candidate writer tasks require at least one registered validation command: " ++
      ", ".intercalate (missingValidation tasks))
  assertAcyclic tasks
  let ownObjective := match request.tasks with
    | [task] => task.objective
    | tasks => s!"Coordinate {tasks.length} delegated tasks"
  let objective ← trimmedRequired (request.objective.getD ownObjective) "Subagent objective"
  return { objective, tasks, maxTokens, mergeEnabled := createCandidate, sealed := !(request.openGraph.getD false) }

def requestTaskFromCompiled (task : TaskContract) : TaskRequest where
  id := task.id
  objective := task.objective
  nonGoals := some task.nonGoals
  focusPaths := some task.readPaths
  acceptance := some task.acceptance
  dependsOn := some task.dependsOn
  maxAttempts := some task.maxAttempts
  kind := match task.kind with
    | .readOnly .reviewer => .reviewer
    | .readOnly _ => .analyst
    | .writer ownedPaths validationCommandIds => .writer ownedPaths (some validationCommandIds)
    | .externalWriter externalOwnedPaths => .externalWriter externalOwnedPaths

def compileSubagentDagExpansion (existing : CompiledRequest) (expansion : ExpandRequest) (policy : Policy) :
    Except String CompiledRequest := do
  failIf (existing.sealed = true) "Subagent DAG graph is sealed"
  if expansion.tasks = [] then
    failIf (expansion.sealGraph ≠ some true) "An empty expansion must seal the graph"
    return { existing with sealed := true }
  else
    let combined ← compileSubagentDagRequest host {
      objective := some existing.objective
      tasks := existing.tasks.map requestTaskFromCompiled ++ expansion.tasks
      createCandidate := some existing.mergeEnabled
      openGraph := some (!(expansion.sealGraph.getD false)) } policy
    let added := combined.tasks.drop existing.tasks.length
    return { existing with tasks := existing.tasks ++ added, sealed := expansion.sealGraph.getD false }

end

end DagRequest
end EasyPi.Subagent
