/-
# The in-memory storage

`InMemorySessionStorage` of `packages/agent/src/harness/session/memory.ts`.
Each operation validates against the state, then applies one mutation with
the next sequence number. `StorageOp` is an operation of the storage
interface with its arguments; `now` is what `Date.now()` returns.

In a state with the invariant an operation fails in its own checks or commits
its mutation: the checks of `applyMutation` cannot fail after them
(`runOp_eq`). So every operation keeps the invariant (`repInv_runOp`).
-/
import EasyPi.Session.Invariant

namespace EasyPi.Session

/-- An operation of `SessionStorage` that writes. -/
inductive StorageOp where
  | createLane (lane : String) (at_ : Option String)
  | moveLane (lane : String) (to_ : Option String)
  | appendEntry (entry : ProvisionedEntry) (lane : String) (now : ℕ)
  | appendRecord (record : NewRecord) (now : ℕ)
  | setName (name : Option String)
  | setLabel (id : String) (label : Option String)
  deriving DecidableEq

inductive StorageResult where
  | done
  | entry (entry : Entry)
  | record (record : LaneRecord)
  deriving DecidableEq

namespace SessionState

variable (s : SessionState)

def requireLane (lane : String) : Except SessionError (Option String) :=
  match s.lanes.get? lane with
  | none => .error ⟨.invalidLane, "Lane not found: " ++ lane⟩
  | some leafId => .ok leafId

def validateNewLane (lane : String) : Except SessionError Unit :=
  if s.lanes.has lane then .error ⟨.alreadyExists, "Lane already exists: " ++ lane⟩ else .ok ()

def validateTarget (targetId : Option String) : Except SessionError Unit :=
  match targetId with
  | none => .ok ()
  | some id =>
    if !s.entriesById.has id then .error ⟨.notFound, "Entry not found: " ++ id⟩ else .ok ()

def validateUnusedId (id : String) : Except SessionError Unit :=
  if id ∈ s.usedIds then .error ⟨.alreadyExists, "Session id already exists: " ++ id⟩ else .ok ()

end SessionState

namespace Memory

open SessionState

/-- A method of the state that only reads, called on the current state. -/
def onState {α : Type} (f : SessionState → Except SessionError α) : SessionM α := do
  match f (← get) with
  | .ok a => pure a
  | .error error => throw error

def createLane (lane : String) (at_ : Option String) : SessionM Unit := do
  onState (·.validateNewLane lane)
  onState (·.validateTarget at_)
  applyMutation (.lane (← get).nextSequence lane at_)

def moveLane (lane : String) (to_ : Option String) : SessionM Unit := do
  let _ ← onState (·.requireLane lane)
  onState (·.validateTarget to_)
  applyMutation (.lane (← get).nextSequence lane to_)

def appendEntry (newEntry : ProvisionedEntry) (lane : String) (now : ℕ) : SessionM Entry := do
  let parentId ← onState (·.requireLane lane)
  onState (·.validateUnusedId newEntry.id)
  let entry : Entry := ⟨newEntry, (← get).nextSequence, parentId, now⟩
  applyMutation (.entry (some lane) entry)
  return entry

/-- `appendRecord`. A lane has at most one open operation. -/
def appendRecord (newRecord : NewRecord) (now : ℕ) : SessionM LaneRecord := do
  let _ ← onState (·.requireLane newRecord.lane)
  onState (·.validateUnusedId newRecord.id)
  let openOperations ← onState (·.findOpenOperations newRecord.lane (some 1))
  if newRecord.data.type = .operationStarted then
    match openOperations.head? with
    | none => pure ()
    | some current => throw ⟨.storage, "Lane " ++ newRecord.lane ++ " already has an open operation " ++ current.id⟩
  let record : LaneRecord := ⟨newRecord, (← get).nextSequence, now⟩
  applyMutation (.record record)
  return record

def setName (name : Option String) : SessionM Unit := do
  applyMutation (.name (← get).nextSequence name)

def setLabel (id : String) (label : Option String) : SessionM Unit := do
  onState (·.validateTarget (some id))
  applyMutation (.label (← get).nextSequence id label)

def runOp : StorageOp → SessionM StorageResult
  | .createLane lane at_ => do createLane lane at_; return .done
  | .moveLane lane to_ => do moveLane lane to_; return .done
  | .appendEntry entry lane now => do return .entry (← appendEntry entry lane now)
  | .appendRecord record now => do return .record (← appendRecord record now)
  | .setName name => do setName name; return .done
  | .setLabel id label => do setLabel id label; return .done

/-! ### What an operation does -/

variable (s : SessionState)

/-- The error of `validateTarget`. -/
def targetError : Option String → Option SessionError
  | none => none
  | some id => if s.entriesById.has id then none else some ⟨.notFound, "Entry not found: " ++ id⟩

/-- The first check of an operation that fails. -/
def checkOp : StorageOp → Option SessionError
  | .createLane lane at_ =>
    if s.lanes.has lane then some ⟨.alreadyExists, "Lane already exists: " ++ lane⟩
    else targetError s at_
  | .moveLane lane to_ =>
    if s.lanes.has lane then targetError s to_ else some ⟨.invalidLane, "Lane not found: " ++ lane⟩
  | .appendEntry entry lane _ =>
    if !s.lanes.has lane then some ⟨.invalidLane, "Lane not found: " ++ lane⟩
    else if entry.id ∈ s.usedIds then
      some ⟨.alreadyExists, "Session id already exists: " ++ entry.id⟩
    else none
  | .appendRecord record _ =>
    if !s.lanes.has record.lane then some ⟨.invalidLane, "Lane not found: " ++ record.lane⟩
    else if record.id ∈ s.usedIds then
      some ⟨.alreadyExists, "Session id already exists: " ++ record.id⟩
    else if record.data.type = .operationStarted then
      (openOperations s.records record.lane).getLast?.map fun current =>
        ⟨.storage, "Lane " ++ record.lane ++ " already has an open operation " ++ current.id⟩
    else none
  | .setName _ => none
  | .setLabel id _ => targetError s (some id)

def opMutation : StorageOp → SessionMutation
  | .createLane lane at_ => .lane s.nextSequence lane at_
  | .moveLane lane to_ => .lane s.nextSequence lane to_
  | .appendEntry entry lane now =>
    .entry (some lane) ⟨entry, s.nextSequence, (s.lanes.get? lane).join, now⟩
  | .appendRecord record now => .record ⟨record, s.nextSequence, now⟩
  | .setName name => .name s.nextSequence name
  | .setLabel id label => .label s.nextSequence id label

/-- What an operation returns when it succeeds. -/
def opResult : StorageOp → StorageResult
  | .appendEntry entry lane now =>
    .entry ⟨entry, s.nextSequence, (s.lanes.get? lane).join, now⟩
  | .appendRecord record now => .record ⟨record, s.nextSequence, now⟩
  | _ => .done

variable {s : SessionState}

theorem targetError_eq_none {target : Option String} (h : targetError s target = none) :
    ∀ id, target = some id → s.entriesById.has id = true := by
  rintro id rfl
  simp only [targetError] at h
  split_ifs at h with hid
  exact hid

theorem checkMutation_lane {lane : String} {leafId : Option String}
    (h : targetError s leafId = none) : s.checkMutation (.lane s.nextSequence lane leafId) = none := by
  simp only [checkMutation, SessionMutation.seq, nextSequence, ne_eq, not_true_eq_false, if_false]
  exact Option.bind_eq_none_iff.mpr fun id hid => if_pos (targetError_eq_none h id hid)

theorem checkMutation_of_checkOp (h : s.RepInv) {op : StorageOp}
    (hop : checkOp s op = none) : s.checkMutation (opMutation s op) = none := by
  cases op with
  | createLane lane at_ | moveLane lane to_ =>
    simp only [checkOp] at hop
    split_ifs at hop
    exact checkMutation_lane hop
  | appendEntry entry lane now =>
    simp only [checkOp] at hop
    split_ifs at hop with hlane hid
    obtain ⟨leafId, hleaf⟩ := (OrdMap.has_iff _ _).mp (by simpa using hlane)
    simp only [opMutation, checkMutation, SessionMutation.seq, nextSequence, hleaf, if_neg hid]
    cases leafId with
    | none => simp [hleaf]
    | some p =>
      -- a lane's leaf is an entry, so the parent is present
      simp [hleaf, h.ids.has_iff.mpr (h.tree.leaf lane p hleaf)]
  | appendRecord record now =>
    simp only [checkOp] at hop
    split_ifs at hop with hlane hid hstd <;>
      simp only [opMutation, checkMutation, SessionMutation.seq, nextSequence, if_neg hid, if_neg hlane] <;> simp
  | setName name => simp [opMutation, checkMutation, SessionMutation.seq, nextSequence]
  | setLabel id label =>
    have htgt : targetError s (some id) = none := hop
    simp [opMutation, checkMutation, SessionMutation.seq, nextSequence, targetError_eq_none htgt id rfl]

section Run

variable {α β : Type} (s : SessionState)

theorem run_onState (f : SessionState → Except SessionError α) (g : α → SessionM β) :
    ExceptT.run (onState f >>= g) s = match f s with
      | .ok a => ExceptT.run (g a) s
      | .error error => (.error error, s) := by
  rw [run_bind, onState, run_get]
  cases f s <;> rfl

theorem run_applyMutation (m : SessionMutation) (g : Unit → SessionM β) :
    ExceptT.run (applyMutation m >>= g) s = match s.checkMutation m with
      | some message => (.error (invalidMutation message), s)
      | none => ExceptT.run (g ()) (s.commit m) := by
  rw [run_bind, applyMutation_run]
  cases s.checkMutation m <;> rfl

theorem validateTarget_eq (target : Option String) :
    s.validateTarget target = match targetError s target with
      | none => .ok ()
      | some error => .error error := by
  cases target with
  | none => rfl
  | some id =>
    simp only [validateTarget, targetError]
    cases s.entriesById.has id <;> rfl

theorem requireLane_eq (lane : String) : s.requireLane lane = if s.lanes.has lane then .ok (s.lanes.get? lane).join
      else .error ⟨.invalidLane, "Lane not found: " ++ lane⟩ := by
  unfold requireLane OrdMap.has
  cases s.lanes.get? lane <;> rfl

end Run

theorem findOpenOperations_one (h : s.RepInv) (lane : String) :
    s.findOpenOperations lane (some 1) = .ok ((openOperations s.records lane).reverse.take 1) := by
  rw [findOpenOperations_eq, h.open_.values]
  rfl

theorem head?_take_one_reverse {α : Type} (l : List α) : (l.reverse.take 1).head? = l.getLast? := by
  simp [List.head?_take]

theorem runOp_eq (h : s.RepInv) (op : StorageOp) :
    (runOp op).run s = match checkOp s op with
      | some error => (.error error, s)
      | none => (.ok (opResult s op), s.commit (opMutation s op)) := by
  have hm := @checkMutation_of_checkOp s h op
  cases op with
  | createLane lane at_ =>
    simp only [runOp, createLane, bind_assoc, run_onState, run_get, run_applyMutation, validateNewLane, validateTarget_eq]
    simp only [checkOp, opMutation] at hm ⊢
    cases hl : s.lanes.has lane
    · cases ht : targetError s at_ with
      | none => simp [hm (by simp [hl, ht]), opResult]; rfl
      | some error => simp
    · simp
  | moveLane lane to_ =>
    simp only [runOp, moveLane, bind_assoc, run_onState, run_get, run_applyMutation, requireLane_eq, validateTarget_eq]
    simp only [checkOp, opMutation] at hm ⊢
    cases hl : s.lanes.has lane
    · simp
    · cases ht : targetError s to_ with
      | none => simp [hm (by simp [hl, ht]), opResult]; rfl
      | some error => simp
  | appendEntry entry lane now =>
    simp only [runOp, appendEntry, bind_assoc, run_onState, run_get, run_applyMutation, requireLane_eq, validateUnusedId]
    simp only [checkOp, opMutation] at hm ⊢
    cases hl : s.lanes.has lane
    · simp
    · by_cases hid : entry.id ∈ s.usedIds
      · simp [hid]
      · simp [hm (by simp [hl, hid]), opResult, hid]; rfl
  | appendRecord record now =>
    simp only [runOp, appendRecord, bind_assoc, run_onState, requireLane_eq, validateUnusedId, findOpenOperations_one h]
    simp only [checkOp, opMutation] at hm ⊢
    cases hl : s.lanes.has record.lane
    · simp
    by_cases hid : record.id ∈ s.usedIds
    · simp [hid]
    by_cases hs : record.data.type = .operationStarted
    · simp only [if_pos hs, if_neg hid, head?_take_one_reverse, Bool.not_true] at hm ⊢
      cases ho : (openOperations s.records record.lane).getLast? with
      | none =>
        simp only [if_true, pure_bind, bind_assoc, run_get, run_applyMutation, hm (by simp [ho, hl]), opResult]
        rfl
      | some current => rfl
    · simp only [if_neg hs, if_neg hid, Bool.not_true] at hm ⊢
      simp only [if_true, pure_bind, bind_assoc, run_get, run_applyMutation, hm (by simp [hl]), opResult]
      rfl
  | setName name =>
    simp only [runOp, setName, bind_assoc, run_get, run_applyMutation]
    simp only [checkOp, opMutation] at hm ⊢
    simp [hm, opResult]
    rfl
  | setLabel id label =>
    simp only [runOp, setLabel, bind_assoc, run_onState, run_get, run_applyMutation, validateTarget_eq]
    simp only [checkOp, opMutation] at hm ⊢
    cases ht : targetError s (some id) with
    | none => simp [hm (by simp [ht]), opResult]; rfl
    | some error => simp

theorem repInv_runOp (h : s.RepInv) (op : StorageOp) : ((runOp op).run s).2.RepInv := by
  rw [runOp_eq h]
  cases hop : checkOp s op with
  | some error => exact h
  | none => exact h.commit (checkMutation_of_checkOp h hop)

end Memory
end EasyPi.Session
