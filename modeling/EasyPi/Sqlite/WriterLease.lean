/-
# Writer leases

`packages/session-backends/sqlite-node/src/sqlite/storage/writer-leases.ts`
and its callers in `repo.ts`: a storage owns its session while a row of
`writer_leases` has its owner id and fence. A row that has expired by the
clock of another process is taken over, a row that is given up is deleted.

Every method of a storage that writes runs in a transaction, so it is one
step; the storages, heartbeats and repairs of all processes are interleaved
step by step, each with its own clock reading. `log` records who acquired a
session and whose write transactions committed, in that order.
-/
import EasyPi.Lib.OrdMap
import Mathlib.Data.Int.Notation

namespace EasyPi.Sqlite

open List
namespace Lease

/-- A row of `writer_leases`, by its session. -/
structure WriterLeaseRow where
  ownerId : String
  fence : ℕ
  expiresAtMs : ℤ
  deriving DecidableEq

/-- `WriterLease`, the object a storage keeps. -/
abbrev WriterLease := WriterLeaseRow

abbrev Table := OrdMap String WriterLeaseRow

variable (db : Table)

/-- `acquireWriterLease`: inserts the row, or takes over an expired one. -/
def acquireWriterLease (sessionId ownerId : String) (now expiresAtMs : ℤ) : Table × Option WriterLease :=
  match db.get? sessionId with
  | none =>
    let row := ⟨ownerId, 1, expiresAtMs⟩
    (db.set sessionId row, some row)
  | some old =>
    if old.expiresAtMs ≤ now then
      let row := ⟨ownerId, old.fence + 1, expiresAtMs⟩
      (db.set sessionId row, some row)
    else (db, none)

/-- The row that `renewWriterLease` updates. -/
def renewable (sessionId : String) (lease : WriterLease) (now : ℤ) : Option WriterLeaseRow :=
  (db.get? sessionId).filter fun row =>
    row.ownerId = lease.ownerId ∧ row.fence = lease.fence ∧ now < row.expiresAtMs

/-- `renewWriterLease`: the table, the lease, and whether a row was updated. -/
def renewWriterLease (sessionId : String) (lease : WriterLease)
    (now expiresAtMs : ℤ) : Table × WriterLease × Bool :=
  match renewable db sessionId lease now with
  | some row =>
    (db.set sessionId { row with expiresAtMs }, { lease with expiresAtMs }, true)
  | none => (db, lease, false)

def releaseWriterLease (sessionId : String) (lease : WriterLease) : Table :=
  match db.get? sessionId with
  | some row =>
    if row.ownerId = lease.ownerId ∧ row.fence = lease.fence then db.erase sessionId else db
  | none => db

def deleteWriterLease (sessionId : String) : Table := db.erase sessionId

/-! ### Storages -/

/-- The ids `uuidv7` returns, all different. -/
structure OwnerIds where
  next : ℕ → String
  injective : Function.Injective next

/-- What `SqliteSessionStorage` keeps of its lease. -/
structure Storage where
  sessionId : String
  lease : WriterLease
  leaseError : Bool := false
  closing : Bool := false

inductive LogItem where
  | acquired (sessionId ownerId : String)
  | committed (sessionId ownerId : String)
  deriving DecidableEq

/-- The database and the storages of all processes. `owners` counts the owner ids drawn. -/
structure System where
  leases : Table := ∅
  storages : List Storage := []
  owners : ℕ := 0
  log : List LogItem := []

/-- A step of a process. Each has the reading of its clock and the time to
live of its leases; `ok` says whether what runs in the transaction beside the
lease statements succeeds. -/
inductive Event where
  | openSession (sessionId : String) (now ttlMs : ℤ) (ok : Bool)
  | write (storage : ℕ) (now ttlMs : ℤ) (ok : Bool)
  | heartbeat (storage : ℕ) (now ttlMs : ℤ)
  | close (storage : ℕ)
  | release (storage : ℕ)
  | repairBranchCache (sessionId : String) (now ttlMs : ℤ) (ok : Bool)
  | delete (sessionId : String) (now ttlMs : ℤ) (sessionExists ok : Bool)

section
variable (ids : OwnerIds)

/-- `claimWriterLease` in a transaction: the table and the lease, unless
another writer is active. The owner id is drawn either way. -/
def claim (s : System) (sessionId : String) (now ttlMs : ℤ) : System × Option (Table × WriterLease) :=
  let claimed := acquireWriterLease s.leases sessionId (ids.next s.owners) now (now + ttlMs)
  ({ s with owners := s.owners + 1 }, claimed.2.map fun lease => (claimed.1, lease))

/-- `claimStorage`. -/
def openSession (s : System) (sessionId : String) (now ttlMs : ℤ) (ok : Bool) : System :=
  match claim ids s sessionId now ttlMs with
  | (s, some (leases, lease)) =>
    if ok then { s with
      leases
      storages := s.storages ++ [⟨sessionId, lease, false, false⟩]
      log := s.log ++ [.acquired sessionId lease.ownerId] }
    else s
  | (s, none) => s

/-- A transaction that claims the session, works on it as `owner` and leaves no
lease behind: `repairBranchCache` and `delete`. -/
def workAlone (s : System) (sessionId : String) (now ttlMs : ℤ) (ok : Bool)
    (giveUp : Table → WriterLease → Table) : System :=
  match claim ids s sessionId now ttlMs with
  | (s, some (leases, lease)) =>
    if ok then { s with
      leases := giveUp leases lease
      log := s.log ++ [.acquired sessionId lease.ownerId, .committed sessionId lease.ownerId] }
    else s
  | (s, none) => s
end

/-- A write of `enqueueWrite` when its turn comes: the lease is renewed and the
operation runs in one transaction. -/
def write (s : System) (i : ℕ) (storage : Storage) (now ttlMs : ℤ) (ok : Bool) : System :=
  if storage.leaseError then s
  else
    match renewWriterLease s.leases storage.sessionId storage.lease now (now + ttlMs) with
    | (leases, lease, true) =>
      let s := { s with storages := s.storages.set i { storage with lease } }
      if ok then { s with
        leases
        log := s.log ++ [.committed storage.sessionId storage.lease.ownerId] }
      else s
    | (_, _, false) => { s with storages := s.storages.set i { storage with leaseError := true } }

/-- A heartbeat of `scheduleHeartbeat`. -/
def heartbeat (s : System) (i : ℕ) (storage : Storage) (now ttlMs : ℤ) : System :=
  if storage.closing || storage.leaseError then s
  else
    match renewWriterLease s.leases storage.sessionId storage.lease now (now + ttlMs) with
    | (leases, lease, true) =>
      { s with leases, storages := s.storages.set i { storage with lease } }
    | (_, _, false) => { s with storages := s.storages.set i { storage with leaseError := true } }

/-- The transaction of `finishRelease`. -/
def release (s : System) (storage : Storage) : System :=
  { s with leases := releaseWriterLease s.leases storage.sessionId storage.lease }

variable (ids : OwnerIds)

/-- A step. A write that was accepted before its storage is closed runs later. -/
def step (s : System) : Event → System
  | .openSession sessionId now ttlMs ok => openSession ids s sessionId now ttlMs ok
  | .write i now ttlMs ok => (s.storages[i]?).elim s fun storage => write s i storage now ttlMs ok
  | .heartbeat i now ttlMs => (s.storages[i]?).elim s fun storage => heartbeat s i storage now ttlMs
  | .close i => (s.storages[i]?).elim s fun storage =>
      { s with storages := s.storages.set i { storage with closing := true } }
  | .release i => (s.storages[i]?).elim s fun storage => release s storage
  | .repairBranchCache sessionId now ttlMs ok =>
    workAlone ids s sessionId now ttlMs ok fun db lease => releaseWriterLease db sessionId lease
  | .delete sessionId now ttlMs sessionExists ok =>
    if sessionExists then
      workAlone ids s sessionId now ttlMs ok fun db _ => deleteWriterLease db sessionId
    else { s with leases := deleteWriterLease s.leases sessionId }

/-- The system after the steps, from an empty database. -/
def run (events : List Event) : System := events.foldl (step ids) {}

/-- The lease of a storage passes `renewWriterLease` at some clock reading. -/
def CanRenew (s : System) (i : ℕ) (now : ℤ) : Prop :=
  ∃ storage, s.storages[i]? = some storage ∧
    ∀ expiresAtMs, (renewWriterLease s.leases storage.sessionId storage.lease now expiresAtMs).2.2 = true

/-- The owners that acquired the session, in order. -/
def ownersOf (log : List LogItem) (sessionId : String) : List String :=
  log.filterMap fun
    | .acquired session owner => if session = sessionId then some owner else none
    | .committed .. => none

def LogItem.newOwner? : LogItem → Option String
  | .acquired _ owner => some owner
  | .committed .. => none

/-- No commit of an owner comes after the session was acquired by a later one. -/
def Fenced (log : List LogItem) : Prop :=
  ∀ before sessionId owner after, log = before ++ .acquired sessionId owner :: after →
    ∀ earlier, .acquired sessionId earlier ∈ before → .committed sessionId earlier ∉ after

/-- A row belongs to the last owner of its session; owner ids are used once. -/
structure Inv (ids : OwnerIds) (s : System) : Prop where
  row : ∀ sessionId r, s.leases.get? sessionId = some r → (ownersOf s.log sessionId).getLast? = some r.ownerId
  owners : ∃ drawn : List ℕ, s.log.filterMap LogItem.newOwner? = drawn.map ids.next ∧
    drawn.Nodup ∧ ∀ n ∈ drawn, n < s.owners
  storages : (s.storages.map (·.lease.ownerId)).Nodup
  storage_log : ∀ storage ∈ s.storages, .acquired storage.sessionId storage.lease.ownerId ∈ s.log
  fenced : Fenced s.log

theorem Inv.nodup {ids : OwnerIds} {s : System} (h : Inv ids s) : (s.log.filterMap LogItem.newOwner?).Nodup := by
  obtain ⟨drawn, hlog, hnd, -⟩ := h.owners
  rw [hlog]
  exact hnd.map ids.injective

/-! ### The log -/

section
variable {log : List LogItem} {sessionId owner : String}

theorem ownersOf_append (log log' : List LogItem) (sessionId : String) :
    ownersOf (log ++ log') sessionId = ownersOf log sessionId ++ ownersOf log' sessionId :=
  filterMap_append

theorem mem_ownersOf : owner ∈ ownersOf log sessionId ↔ .acquired sessionId owner ∈ log := by
  unfold ownersOf
  rw [mem_filterMap]
  constructor
  · rintro ⟨item, hmem, hitem⟩
    cases item with
    | acquired session o =>
      by_cases hs : session = sessionId
      · obtain rfl := Option.some.inj ((if_pos hs).symm.trans hitem)
        exact hs ▸ hmem
      · cases (if_neg hs).symm.trans hitem
    | committed => cases hitem
  · exact fun hmem => ⟨_, hmem, if_pos rfl⟩

theorem Fenced.append_acquired (h : Fenced log) : Fenced (log ++ [.acquired sessionId owner]) := by
  intro before session o after heq earlier hear hcommit
  rcases eq_nil_or_concat after with rfl | ⟨after, item, rfl⟩
  · cases hcommit
  · rw [concat_eq_append, ← cons_append, ← append_assoc] at heq
    obtain ⟨rfl, hitem⟩ := append_inj' heq rfl
    rw [concat_eq_append, mem_append, ← hitem] at hcommit
    rcases hcommit with hcommit | hcommit
    · exact h _ _ _ _ rfl earlier hear hcommit
    · simp at hcommit

theorem Fenced.append_committed (h : Fenced log) (hnd : (log.filterMap LogItem.newOwner?).Nodup)
    (hlast : (ownersOf log sessionId).getLast? = some owner) : Fenced (log ++ [.committed sessionId owner]) := by
  intro before session o after heq earlier hear hcommit
  rcases eq_nil_or_concat after with rfl | ⟨after, item, rfl⟩
  · cases hcommit
  · rw [concat_eq_append, ← cons_append, ← append_assoc] at heq
    obtain ⟨rfl, hitem⟩ := append_inj' heq rfl
    rw [concat_eq_append, mem_append, ← hitem, mem_singleton] at hcommit
    rcases hcommit with hcommit | hcommit
    · exact h _ _ _ _ rfl earlier hear hcommit
    · obtain ⟨rfl, rfl⟩ := LogItem.committed.inj hcommit
      -- the last owner acquired the session in the later part, and owners acquire once
      rw [ownersOf_append, List.getLast?_append_of_ne_nil _ (by simp [ownersOf])] at hlast
      have hlat := mem_ownersOf.mp (mem_of_getLast? hlast)
      rw [filterMap_append, nodup_append] at hnd
      refine hnd.2.2 earlier ?_ earlier ?_ rfl
      · exact mem_filterMap.mpr ⟨_, hear, rfl⟩
      · exact mem_filterMap.mpr ⟨_, hlat, rfl⟩
end

/-! ### Statements of the table -/

section
variable {db : Table} {sessionId ownerId : String} {lease : WriterLease} {now expiresAtMs : ℤ}

theorem acquireWriterLease_some {db' : Table}
    (h : acquireWriterLease db sessionId ownerId now expiresAtMs = (db', some lease)) :
    lease.ownerId = ownerId ∧ db' = db.set sessionId lease := by
  unfold acquireWriterLease at h
  split at h
  · obtain ⟨rfl, hls⟩ := Prod.mk.inj h
    obtain rfl := Option.some.inj hls
    exact ⟨rfl, rfl⟩
  · split_ifs at h
    · obtain ⟨rfl, hls⟩ := Prod.mk.inj h
      obtain rfl := Option.some.inj hls
      exact ⟨rfl, rfl⟩
    · cases (Prod.mk.inj h).2

theorem renewWriterLease_true {db' : Table} {lease' : WriterLease}
    (h : renewWriterLease db sessionId lease now expiresAtMs = (db', lease', true)) :
    (∃ row, db.get? sessionId = some row ∧ row.ownerId = lease.ownerId ∧
      db' = db.set sessionId { row with expiresAtMs }) ∧ lease'.ownerId = lease.ownerId := by
  unfold renewWriterLease at h
  split at h
  · rename_i row hrow
    obtain ⟨hget, hfil⟩ := Option.filter_eq_some_iff.mp hrow
    obtain ⟨rfl, hrest⟩ := Prod.mk.inj h
    obtain ⟨rfl, -⟩ := Prod.mk.inj hrest
    exact ⟨⟨row, hget, (of_decide_eq_true hfil).1, rfl⟩, rfl⟩
  · simp at h

theorem releaseWriterLease_get? {row : WriterLeaseRow} {session : String}
    (h : (releaseWriterLease db sessionId lease).get? session = some row) : db.get? session = some row := by
  unfold releaseWriterLease at h
  split at h
  · split_ifs at h
    · rw [OrdMap.get?_erase] at h
      split_ifs at h
      exact h
    · exact h
  · exact h

theorem releaseWriterLease_of_ne (h : ∀ row, db.get? sessionId = some row → row.ownerId ≠ lease.ownerId) :
    releaseWriterLease db sessionId lease = db := by
  unfold releaseWriterLease
  split
  · rename_i row hrow
    exact if_neg fun hown => h row hrow hown.1
  · rfl
end

/-! ### Every step -/

section
variable {ids : OwnerIds} {s : System} {leases : Table} {storage : Storage}

section
variable (h : Inv ids s)
include h

theorem Inv.setLeases (hrow : ∀ sessionId r', leases.get? sessionId = some r' →
      ∃ r, s.leases.get? sessionId = some r ∧ r.ownerId = r'.ownerId) : Inv ids { s with leases } where
  row := by
    intro sessionId r' hr'
    obtain ⟨r, hr, howne⟩ := hrow sessionId r' hr'
    rw [← howne]
    exact h.row sessionId r hr
  owners := h.owners
  storages := h.storages
  storage_log := h.storage_log
  fenced := h.fenced

theorem Inv.setStorage {i : ℕ} {storage storage' : Storage}
    (hi : s.storages[i]? = some storage) (hses : storage'.sessionId = storage.sessionId)
    (howne : storage'.lease.ownerId = storage.lease.ownerId) :
    Inv ids { s with storages := s.storages.set i storage' } where
  row := h.row
  owners := h.owners
  storages := by
    obtain ⟨hlt, hget⟩ := List.getElem?_eq_some_iff.mp hi
    have hsame : (s.storages.map (·.lease.ownerId)).set i storage'.lease.ownerId = s.storages.map (·.lease.ownerId) := by
      rw [howne, ← hget]
      have hlt' : i < (s.storages.map (·.lease.ownerId)).length := by simpa using hlt
      have hself := set_getElem_self hlt'
      simpa using hself
    rw [map_set, hsame]
    exact h.storages
  storage_log := by
    intro x hx
    rcases mem_or_eq_of_mem_set hx with hx | rfl
    · exact h.storage_log x hx
    · rw [hses, howne]
      exact h.storage_log storage (mem_of_getElem? hi)
  fenced := h.fenced

theorem Inv.drawOwner : Inv ids { s with owners := s.owners + 1 } where
  row := h.row
  owners := by
    obtain ⟨drawn, hlog, hnd, hlt⟩ := h.owners
    exact ⟨drawn, hlog, hnd, fun n hn => Nat.lt_succ_of_lt (hlt n hn)⟩
  storages := h.storages
  storage_log := h.storage_log
  fenced := h.fenced

theorem Inv.commit {sessionId owner : String} (hlast : (ownersOf s.log sessionId).getLast? = some owner) :
    Inv ids { s with log := s.log ++ [.committed sessionId owner] } where
  row := by
    intro session r hr
    rw [ownersOf_append]
    simpa [ownersOf] using h.row session r hr
  owners := by
    obtain ⟨drawn, hlog, hnd, hlt⟩ := h.owners
    exact ⟨drawn, by rw [filterMap_append, hlog]; simp [LogItem.newOwner?], hnd, hlt⟩
  storages := h.storages
  storage_log := fun x hx => mem_append_left _ (h.storage_log x hx)
  fenced := h.fenced.append_committed h.nodup hlast

theorem Inv.acquired (sessionId : String) (leases : Table)
    (hrow : ∀ session r, leases.get? session = some r → (session = sessionId ∧ r.ownerId = ids.next s.owners) ∨
        session ≠ sessionId ∧ s.leases.get? session = some r) :
    Inv ids { s with
      leases
      owners := s.owners + 1
      log := s.log ++ [.acquired sessionId (ids.next s.owners)] } where
  row := by
    intro session r hr
    rw [ownersOf_append]
    rcases hrow session r hr with ⟨rfl, howne⟩ | ⟨hne, hold⟩
    · simp [ownersOf, howne]
    · simpa [ownersOf, Ne.symm hne] using h.row session r hold
  owners := by
    obtain ⟨drawn, hlog, hnd, hlt⟩ := h.owners
    refine ⟨drawn ++ [s.owners], by simp [hlog, LogItem.newOwner?], ?_, fun n hn => ?_⟩
    · refine nodup_append.mpr ⟨hnd, by simp, fun a ha b hb => ?_⟩
      rw [mem_singleton.mp hb]
      exact Nat.ne_of_lt (hlt a ha)
    · rcases mem_append.mp hn with hn | hn
      · exact Nat.lt_succ_of_lt (hlt n hn)
      · rw [mem_singleton.mp hn]
        exact Nat.lt_succ_self _
  storages := h.storages
  storage_log := fun x hx => mem_append_left _ (h.storage_log x hx)
  fenced := h.fenced.append_acquired

end

theorem claim_some {sessionId : String} {now ttlMs : ℤ} {s' : System}
    {lease : WriterLease} (hc : claim ids s sessionId now ttlMs = (s', some (leases, lease))) :
    s' = { s with owners := s.owners + 1 } ∧ lease.ownerId = ids.next s.owners ∧
      leases = s.leases.set sessionId lease := by
  obtain ⟨rfl, hls⟩ := Prod.mk.inj hc
  obtain ⟨lease', hacq, heq⟩ := Option.map_eq_some_iff.mp hls
  obtain ⟨rfl, rfl⟩ := Prod.mk.inj heq
  exact ⟨rfl, acquireWriterLease_some (Prod.ext rfl hacq)⟩

section
variable (h : Inv ids s)
include h

theorem Inv.next_ne {sessionId owner : String}
    (hmem : .acquired sessionId owner ∈ s.log) : owner ≠ ids.next s.owners := by
  obtain ⟨drawn, hlog, -, hlt⟩ := h.owners
  have hdra : owner ∈ drawn.map ids.next := by
    rw [← hlog]
    exact mem_filterMap.mpr ⟨_, hmem, rfl⟩
  obtain ⟨n, hn, rfl⟩ := mem_map.mp hdra
  exact fun heq => Nat.ne_of_lt (hlt n hn) (ids.injective heq)

theorem Inv.openSession (sessionId : String) (now ttlMs : ℤ) (ok : Bool) :
    Inv ids (openSession ids s sessionId now ttlMs ok) := by
  unfold Lease.openSession
  split
  · rename_i s' leases lease hc
    obtain ⟨rfl, howne, rfl⟩ := claim_some hc
    split_ifs
    · have hnew := h.acquired sessionId (s.leases.set sessionId lease) (by
        intro session r hr
        rw [OrdMap.get?_set] at hr
        split_ifs at hr with hs
        · exact .inl ⟨hs, by rw [← Option.some.inj hr, howne]⟩
        · exact .inr ⟨hs, hr⟩)
      rw [← howne] at hnew
      refine ⟨hnew.row, hnew.owners, ?_, fun x hx => ?_, hnew.fenced⟩
      · rw [map_append, nodup_append]
        refine ⟨h.storages, by simp, fun a ha b hb => ?_⟩
        obtain ⟨x, hx, rfl⟩ := mem_map.mp ha
        obtain rfl : b = lease.ownerId := by simpa using hb
        rw [howne]
        exact h.next_ne (h.storage_log x hx)
      · rcases mem_append.mp hx with hx | hx
        · exact hnew.storage_log x hx
        · rw [mem_singleton.mp hx]
          simp
    · exact h.drawOwner
  · rename_i s' hc
    obtain ⟨rfl, -⟩ := Prod.mk.inj hc
    exact h.drawOwner

theorem Inv.workAlone (sessionId : String) (now ttlMs : ℤ) (ok : Bool) {giveUp : Table → WriterLease → Table}
    (hgive : ∀ (db : Table) lease session, (giveUp (db.set sessionId lease) lease).get? session =
      if session = sessionId then none else db.get? session) :
    Inv ids (workAlone ids s sessionId now ttlMs ok giveUp) := by
  unfold Lease.workAlone
  split
  · rename_i s' leases lease hc
    obtain ⟨rfl, howne, rfl⟩ := claim_some hc
    split_ifs
    · have hnew := h.acquired sessionId (giveUp (s.leases.set sessionId lease) lease) (by
        intro session r hr
        rw [hgive] at hr
        split_ifs at hr with hs
        exact .inr ⟨hs, hr⟩)
      have hlast : (ownersOf (s.log ++ [.acquired sessionId (ids.next s.owners)])
          sessionId).getLast? = some (ids.next s.owners) := by
        simp [ownersOf]
      rw [howne]
      simpa using hnew.commit hlast
    · exact h.drawOwner
  · rename_i s' hc
    obtain ⟨rfl, -⟩ := Prod.mk.inj hc
    exact h.drawOwner

theorem Inv.renewed {now expiresAtMs : ℤ}
    {lease : WriterLease} (hren : renewWriterLease s.leases storage.sessionId storage.lease now
      expiresAtMs = (leases, lease, true)) :
    (∀ session r', leases.get? session = some r' → ∃ r, s.leases.get? session = some r ∧ r.ownerId = r'.ownerId) ∧
    (ownersOf s.log storage.sessionId).getLast? = some storage.lease.ownerId ∧ lease.ownerId = storage.lease.ownerId := by
  obtain ⟨⟨row, hget, howne, rfl⟩, hls⟩ := renewWriterLease_true hren
  refine ⟨fun session r' hr' => ?_, ?_, hls⟩
  · rw [OrdMap.get?_set] at hr'
    split_ifs at hr' with hs
    · subst hs
      exact ⟨row, hget, by rw [← Option.some.inj hr']⟩
    · exact ⟨r', hr', rfl⟩
  · rw [← howne]
    exact h.row _ row hget

theorem Inv.write {i : ℕ}
    (hi : s.storages[i]? = some storage) (now ttlMs : ℤ) (ok : Bool) : Inv ids (write s i storage now ttlMs ok) := by
  unfold Lease.write
  by_cases herr : storage.leaseError = true
  · rw [if_pos herr]
    exact h
  · rw [if_neg herr]
    split
    · rename_i leases lease hren
      obtain ⟨hrows, hlast, howne⟩ := h.renewed hren
      have hstg : Inv ids { s with storages := s.storages.set i { storage with lease } } := h.setStorage hi rfl howne
      cases ok with
      | true => exact (hstg.setLeases hrows).commit hlast
      | false => exact hstg
    · exact h.setStorage hi rfl rfl

theorem Inv.heartbeat {i : ℕ}
    (hi : s.storages[i]? = some storage) (now ttlMs : ℤ) : Inv ids (heartbeat s i storage now ttlMs) := by
  unfold Lease.heartbeat
  split_ifs
  · exact h
  · split
    · rename_i leases lease hren
      obtain ⟨hrows, -, howne⟩ := h.renewed hren
      have hstg : Inv ids { s with storages := s.storages.set i { storage with lease } } := h.setStorage hi rfl howne
      exact hstg.setLeases hrows
    · exact h.setStorage hi rfl rfl

theorem Inv.step (event : Event) : Inv ids (step ids s event) := by
  cases event with
  | openSession sessionId now ttlMs ok => exact h.openSession sessionId now ttlMs ok
  | write i now ttlMs ok =>
    rw [Lease.step]
    cases hi : s.storages[i]? with
    | none => exact h
    | some storage => exact h.write hi now ttlMs ok
  | heartbeat i now ttlMs =>
    rw [Lease.step]
    cases hi : s.storages[i]? with
    | none => exact h
    | some storage => exact h.heartbeat hi now ttlMs
  | close i =>
    rw [Lease.step]
    cases hi : s.storages[i]? with
    | none => exact h
    | some storage => exact h.setStorage hi rfl rfl
  | release i =>
    rw [Lease.step]
    cases hi : s.storages[i]? with
    | none => exact h
    | some storage =>
      exact h.setLeases fun session r hr => ⟨r, releaseWriterLease_get? hr, rfl⟩
  | repairBranchCache sessionId now ttlMs ok =>
    refine h.workAlone sessionId now ttlMs ok fun db lease session => ?_
    unfold releaseWriterLease
    by_cases hs : session = sessionId <;> simp [hs]
  | delete sessionId now ttlMs sessionExists ok =>
    rw [Lease.step]
    split_ifs
    · refine h.workAlone sessionId now ttlMs ok fun db lease session => ?_
      by_cases hs : session = sessionId <;> simp [deleteWriterLease, hs]
    · refine h.setLeases fun session r hr => ⟨r, ?_, rfl⟩
      rw [deleteWriterLease, OrdMap.get?_erase] at hr
      split_ifs at hr
      exact hr
end

end

theorem inv_new : Inv ids {} where
  row := by simp
  owners := ⟨[], rfl, by simp, by simp⟩
  storages := by simp
  storage_log := by simp
  fenced := by
    intro before sessionId owner after heq
    simp at heq

theorem Inv.run {ids : OwnerIds} (events : List Event) : ∀ {s : System}, Inv ids s →
    Inv ids (events.foldl (Lease.step ids) s) := by
  induction events with
  | nil => exact fun h => h
  | cons event events ih => exact fun h => ih (h.step event)

/-- **Fencing.** After any steps of any processes: at most one lease of a
session passes `renewWriterLease`, whatever the clocks read; no write of an
owner commits after the session was acquired by a later owner; and a release
by an owner other than that of the row leaves the table as it is. -/
theorem writer_lease_fencing (events : List Event) :
    let s := run ids events
    (∀ i j x y now now', s.storages[i]? = some x → s.storages[j]? = some y →
      x.sessionId = y.sessionId → CanRenew s i now → CanRenew s j now' → i = j) ∧ Fenced s.log ∧
    (∀ i x row, s.storages[i]? = some x → s.leases.get? x.sessionId = some row →
      row.ownerId ≠ x.lease.ownerId → step ids s (.release i) = s) ∧
    ∀ i x before owner after, s.storages[i]? = some x → s.log = before ++ .acquired x.sessionId owner :: after →
      .acquired x.sessionId x.lease.ownerId ∈ before → step ids s (.release i) = s := by
  have h : Inv ids (run ids events) := (inv_new ids).run events
  have hsta : ∀ i x, (run ids events).storages[i]? = some x →
      (∀ row, (run ids events).leases.get? x.sessionId = some row → row.ownerId ≠ x.lease.ownerId) →
      step ids (run ids events) (.release i) = run ids events := by
    intro i x hx hne
    rw [step, hx]
    simp only [Option.elim_some, release, releaseWriterLease_of_ne hne]
  refine ⟨fun i j x y now now' hx hy hses hi hj => ?_, h.fenced,
    fun i x row hx hrow hne => hsta i x hx fun row' hrow' => ?_,
    fun i x before owner after hx hlog hear => hsta i x hx fun row hrow heq => ?_⟩
  · -- both leases have the owner of the one row
    have howne : ∀ k z n, (run ids events).storages[k]? = some z → CanRenew (run ids events) k n →
        ∃ row, (run ids events).leases.get? z.sessionId = some row ∧ row.ownerId = z.lease.ownerId := by
      intro k z n hz hk
      obtain ⟨z', hz', hren⟩ := hk
      obtain rfl := Option.some.inj (hz.symm.trans hz')
      obtain ⟨⟨row, hget, hown, -⟩, -⟩ := renewWriterLease_true
        (Prod.ext rfl (Prod.ext rfl (hren 0)))
      exact ⟨row, hget, hown⟩
    obtain ⟨rx, hrx, hox⟩ := howne i x now hx hi
    obtain ⟨ry, hry, hoy⟩ := howne j y now' hy hj
    rw [hses, hry] at hrx
    obtain rfl := Option.some.inj hrx
    obtain ⟨hilt, hxi⟩ := List.getElem?_eq_some_iff.mp hx
    obtain ⟨hjlt, hyj⟩ := List.getElem?_eq_some_iff.mp hy
    have hnd := nodup_iff_injective_getElem.mp h.storages
    have hinj := @hnd ⟨i, by simpa using hilt⟩ ⟨j, by simpa using hjlt⟩ (by
      simp [hxi, hyj, ← hox, ← hoy])
    exact congrArg Fin.val hinj
  · rw [hrow] at hrow'
    rwa [← Option.some.inj hrow']
  · -- the row's owner acquired the session after the storage did
    have hlast := h.row _ row hrow
    have hnd := h.nodup
    rw [hlog, ownersOf_append, List.getLast?_append_of_ne_nil _ (by simp [ownersOf])] at hlast
    have hlat := mem_ownersOf.mp (mem_of_getLast? hlast)
    rw [hlog, filterMap_append, nodup_append] at hnd
    refine hnd.2.2 x.lease.ownerId ?_ row.ownerId ?_ heq.symm
    · exact mem_filterMap.mpr ⟨_, hear, rfl⟩
    · exact mem_filterMap.mpr ⟨_, hlat, rfl⟩

end Lease
end EasyPi.Sqlite
