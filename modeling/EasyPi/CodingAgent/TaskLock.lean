/-
# One task driver per session

`acquire` and `release` of `TaskRecoveryJournal`
(`packages/coding-agent/src/core/task-recovery.ts`) on a persisted session. Every call of the
file system is a step of its own; the steps of all journals come in any order, and a process
may crash before any of them. The claim directory makes a journal the only one that creates
a lock or takes one from a dead owner. A lock file is known by the acquisition that created
it, which nothing in the code reads.
-/
import Mathlib.Data.Nat.Notation
import Mathlib.Logic.Function.Basic

namespace EasyPi.CodingAgent
namespace TaskLock

/-- The next file-system call of a journal. Those from `existsSync` to `rmdirSync` are made
with the claim directory in place. -/
inductive DriverCall (Pid Token : Type*) where
  | idle
  | mkdirSync (token : Token)
  | existsSync (token : Token)
  | readFileSync (token : Token)
  | kill (token : Token) (owner : Pid)
  | unlinkSync (token : Token)
  | openSync (token : Token)
  | writeFileSync (token : Token)
  | rmdirSync
  | releaseExistsSync
  | releaseReadSync
  | releaseUnlinkSync

/-- The lock file: the acquisition that created it, and what has been written. -/
structure LockFile (Pid Token : Type*) where
  author : ℕ
  content : Option (Pid × Token)

/-- What a journal keeps in memory. `lock` is `lockPath` and `lockToken`. -/
structure Journal (Pid Token : Type*) where
  call : DriverCall Pid Token := .idle
  lock : Option Token := none
  ownsDriver : Bool := false
  acquisition : ℕ := 0

/-- The files, the processes that are alive, and their memory. `removals` are the lock files that
`release` has unlinked: who created the file, and which acquisition was released. -/
structure LockState (Id Pid Manager Token : Type*) where
  claim : Bool
  lock : Option (LockFile Pid Token)
  alive : Pid → Bool
  driverOwners : Manager → Bool := fun _ => false
  journal : Id → Journal Pid Token := fun _ => {}
  acquisitions : ℕ := 0
  removals : List (ℕ × ℕ) := []

/-- `acquire` is called with a new token, `release` is called, a journal makes its next call, or a
process crashes. -/
inductive LockAction (Id Pid Token : Type*) where
  | acquire (j : Id) (token : Token)
  | release (j : Id)
  | next (j : Id)
  | crash (p : Pid)

/-- The process and the session manager of each journal. -/
structure Owners (Id Pid Manager : Type*) where
  pid : Id → Pid
  manager : Id → Manager

namespace LockState

variable {Id Pid Manager Token : Type*} [DecidableEq Id] [DecidableEq Pid] [DecidableEq Manager]
  [DecidableEq Token] (o : Owners Id Pid Manager) (s : LockState Id Pid Manager Token) (j : Id)

def setJournal (m : Journal Pid Token) : LockState Id Pid Manager Token :=
  { s with journal := Function.update s.journal j m }

def goTo (call : DriverCall Pid Token) : LockState Id Pid Manager Token :=
  s.setJournal j { s.journal j with call := call }

/-- The start of `acquire`. -/
def acquire (token : Token) : LockState Id Pid Manager Token :=
  if (s.journal j).ownsDriver || s.driverOwners (o.manager j) then s
  else
    { s.setJournal j { s.journal j with call := .mkdirSync token, acquisition := s.acquisitions } with
      acquisitions := s.acquisitions + 1 }

/-- The end of `release`. -/
def forget : LockState Id Pid Manager Token :=
  { s.setJournal j { s.journal j with call := .idle, lock := none, ownsDriver := false } with
    driverOwners := if (s.journal j).ownsDriver then Function.update s.driverOwners (o.manager j) false
      else s.driverOwners }

/-- The start of `release`. -/
def release : LockState Id Pid Manager Token :=
  if (s.journal j).lock.isSome then s.goTo j .releaseExistsSync else s.forget o j

def next : LockState Id Pid Manager Token :=
  match (s.journal j).call with
  | .idle => s
  | .mkdirSync token =>
    if s.claim then s.goTo j .idle else { s.goTo j (.existsSync token) with claim := true }
  | .existsSync token => if s.lock.isSome then s.goTo j (.readFileSync token) else s.goTo j (.openSync token)
  | .readFileSync token =>
    -- A file that is gone, or empty, does not parse.
    match s.lock.bind (·.content) with
    | none => s.goTo j .rmdirSync
    | some (owner, _) => s.goTo j (.kill token owner)
  | .kill token owner =>
    if s.alive owner then s.goTo j .rmdirSync else s.goTo j (.unlinkSync token)
  | .unlinkSync token =>
    if s.lock.isSome then { s.goTo j (.openSync token) with lock := none } else s.goTo j .rmdirSync
  | .openSync token =>
    if s.lock.isSome then s.goTo j .rmdirSync
    else { s.goTo j (.writeFileSync token) with lock := some ⟨(s.journal j).acquisition, none⟩ }
  | .writeFileSync token =>
    -- The file is open: it is written even if its name is gone.
    { s.setJournal j { s.journal j with call := .rmdirSync, lock := some token, ownsDriver := true } with
      lock := s.lock.map fun f =>
        if f.author = (s.journal j).acquisition then { f with content := some (o.pid j, token) } else f
      driverOwners := Function.update s.driverOwners (o.manager j) true }
  | .rmdirSync => { s.goTo j .idle with claim := false }
  | .releaseExistsSync => if s.lock.isSome then s.goTo j .releaseReadSync else s.forget o j
  | .releaseReadSync =>
    match s.lock.bind (·.content) with
    | none => s.goTo j .idle
    | some (_, token) =>
      if some token = (s.journal j).lock then s.goTo j .releaseUnlinkSync else s.forget o j
  | .releaseUnlinkSync =>
    match s.lock with
    | none => s.goTo j .idle
    | some f =>
      { s.forget o j with
        lock := none, removals := s.removals ++ [(f.author, (s.journal j).acquisition)] }

def step : LockAction Id Pid Token → LockState Id Pid Manager Token
  | .acquire j token =>
    match s.alive (o.pid j), (s.journal j).call with
    | true, .idle => s.acquire o j token
    | _, _ => s
  | .release j =>
    match s.alive (o.pid j), (s.journal j).call with
    | true, .idle => s.release o j
    | _, _ => s
  | .next j => if s.alive (o.pid j) then s.next o j else s
  | .crash p => { s with alive := Function.update s.alive p false }

/-- The journal has been acquired and not yet released, and its process is alive. -/
def Drives : Prop :=
  s.alive (o.pid j) = true ∧ (s.journal j).ownsDriver = true

end LockState

/-- The call is made while the claim directory is in place. -/
@[simp] def DriverCall.InClaim {Pid Token : Type*} : DriverCall Pid Token → Prop
  | .existsSync _ | .readFileSync _ | .kill .. | .unlinkSync _ | .openSync _ | .writeFileSync _ | .rmdirSync => True
  | _ => False

/-- The call is made when the owner of an old lock is known to be dead, or there is no lock. -/
@[simp] def DriverCall.Vacant {Pid Token : Type*} : DriverCall Pid Token → Prop
  | .unlinkSync _ | .openSync _ | .writeFileSync _ => True
  | _ => False

@[simp] def DriverCall.Releasing {Pid Token : Type*} : DriverCall Pid Token → Prop
  | .releaseExistsSync | .releaseReadSync | .releaseUnlinkSync => True
  | _ => False

/-! ### The invariant -/

section

variable {Id Pid Manager Token : Type*} {o : Owners Id Pid Manager}

variable (o) in
/-- At most one journal is behind the claim. A journal that drives has its process and its token in
the lock file, which it has created; while a journal takes the lock from its owner, none drives. -/
structure LockInv (s : LockState Id Pid Manager Token) : Prop where
  claimed : ∀ j, (s.journal j).call.InClaim → s.claim = true
  one : ∀ j j', (s.journal j).call.InClaim → (s.journal j').call.InClaim → j = j'
  memory : ∀ j, (s.journal j).lock.isSome = (s.journal j).ownsDriver
  releasing : ∀ j, (s.journal j).call.Releasing → (s.journal j).ownsDriver = true
  owns : ∀ j, s.Drives o j → ∃ f token, s.lock = some f ∧ f.author = (s.journal j).acquisition ∧
    f.content = some (o.pid j, token)
  single : ∀ j j', s.Drives o j → s.Drives o j' → j = j'
  killing : ∀ j token p, (s.journal j).call = .kill token p → ∀ j', s.Drives o j' → o.pid j' = p
  vacant : ∀ j, (s.journal j).call.Vacant → ∀ j', ¬ s.Drives o j'
  writing : ∀ j token, (s.journal j).call = .writeFileSync token →
    ∃ f, s.lock = some f ∧ f.author = (s.journal j).acquisition
  removals : ∀ r ∈ s.removals, r.1 = r.2

theorem LockInv.init (claim : Bool) (lock : Option (LockFile Pid Token)) (alive : Pid → Bool) :
    LockInv o ({ claim := claim, lock := lock, alive := alive } : LockState Id Pid Manager Token) := by
  constructor <;> simp [LockState.Drives]

theorem LockInv.not_drives_of_none {s : LockState Id Pid Manager Token} (h : LockInv o s) (hnone : s.lock = none) (j' : Id) : ¬ s.Drives o j' := by
  intro hdrv
  obtain ⟨f, _, hf, -, -⟩ := h.owns j' hdrv
  rw [hnone] at hf
  cases hf

theorem LockInv.crash [DecidableEq Pid] {s : LockState Id Pid Manager Token} (h : LockInv o s) (p : Pid) :
    LockInv o { s with alive := Function.update s.alive p false } := by
  have hdrv : ∀ j', LockState.Drives o { s with alive := Function.update s.alive p false } j' → s.Drives o j' := by
    rintro j' ⟨hali, howns⟩
    refine ⟨?_, howns⟩
    by_cases heq : o.pid j' = p
    · simp [heq] at hali
    · simpa [heq] using hali
  exact ⟨h.claimed, h.one, h.memory, h.releasing, fun j' hj' => h.owns j' (hdrv j' hj'),
    fun j₁ j₂ h₁ h₂ => h.single j₁ j₂ (hdrv j₁ h₁) (hdrv j₂ h₂),
    fun j' t p hj' j₂ h₂ => h.killing j' t p hj' j₂ (hdrv j₂ h₂),
    fun j' hj' j₂ h₂ => h.vacant j' hj' j₂ (hdrv j₂ h₂), h.writing, h.removals⟩

end

section

variable {Id Pid Manager Token : Type*} [DecidableEq Id] {o : Owners Id Pid Manager}
  {s : LockState Id Pid Manager Token} {j : Id}

namespace LockInv

/-- A journal goes to its next call, with the claim and the lock file as it leaves them. -/
theorem goTo (h : LockInv o s) {call : DriverCall Pid Token} {claim : Bool} {lock : Option (LockFile Pid Token)}
    (hclai : call.InClaim → ((s.journal j).call.InClaim ∨ s.claim = false) ∧ claim = true)
    (hkeep : ∀ j', j' ≠ j → (s.journal j').call.InClaim → claim = true)
    (hrel : call.Releasing → (s.journal j).ownsDriver = true)
    (hlock : lock ≠ s.lock → (s.journal j).call.InClaim ∧ ∀ j', ¬ s.Drives o j')
    (hkil : ∀ token p, call = .kill token p → ∀ j', s.Drives o j' → o.pid j' = p)
    (hvac : call.Vacant → ∀ j', ¬ s.Drives o j')
    (hwri : ∀ token, call = .writeFileSync token → ∃ f, lock = some f ∧ f.author = (s.journal j).acquisition) :
    LockInv o { s.goTo j call with claim := claim, lock := lock } := by
  have hself : ((s.goTo j call).journal j) = { s.journal j with call := call } := by
    simp [LockState.goTo, LockState.setJournal]
  have hoth : ∀ j', j' ≠ j → (s.goTo j call).journal j' = s.journal j' := by
    intro j' hne
    simp [LockState.goTo, LockState.setJournal, hne]
  have hmem : ∀ j', ((s.goTo j call).journal j').lock = (s.journal j').lock ∧
      ((s.goTo j call).journal j').ownsDriver = (s.journal j').ownsDriver ∧
      ((s.goTo j call).journal j').acquisition = (s.journal j').acquisition := by
    intro j'
    by_cases heq : j' = j
    · rw [heq, hself]
      exact ⟨rfl, rfl, rfl⟩
    · rw [hoth j' heq]
      exact ⟨rfl, rfl, rfl⟩
  have hdrv : ∀ j', LockState.Drives o { s.goTo j call with claim := claim, lock := lock } j' ↔ s.Drives o j' := by
    intro j'
    unfold LockState.Drives
    simp only [(hmem j').2.1]
    rfl
  refine ⟨fun j' hj' => ?_, fun j₁ j₂ h₁ h₂ => ?_, fun j' => ?_, fun j' hj' => ?_, fun j' hj' => ?_,
    fun j₁ j₂ h₁ h₂ => ?_, fun j' token p hj' j₂ h₂ => ?_, fun j' hj' j₂ h₂ => ?_, fun j' token hj' => ?_, h.removals⟩
  · by_cases heq : j' = j
    · rw [heq, hself] at hj'
      exact (hclai hj').2
    · rw [hoth j' heq] at hj'
      exact hkeep j' heq hj'
  · -- nobody else is behind the claim when it is made
    have hnone : ∀ j', j' ≠ j → call.InClaim → ¬ (s.journal j').call.InClaim := by
      intro j' hne hcall hj'
      obtain hin | hfree := (hclai hcall).1
      · exact hne (h.one j' j hj' hin)
      · rw [h.claimed j' hj'] at hfree
        cases hfree
    by_cases he₁ : j₁ = j <;> by_cases he₂ : j₂ = j
    · rw [he₁, he₂]
    · subst he₁
      rw [hself] at h₁
      rw [hoth j₂ he₂] at h₂
      exact absurd h₂ (hnone j₂ he₂ h₁)
    · subst he₂
      rw [hself] at h₂
      rw [hoth j₁ he₁] at h₁
      exact absurd h₁ (hnone j₁ he₁ h₂)
    · rw [hoth j₁ he₁] at h₁
      rw [hoth j₂ he₂] at h₂
      exact h.one j₁ j₂ h₁ h₂
  · simp only [(hmem j').1, (hmem j').2.1]
    exact h.memory j'
  · simp only [(hmem j').2.1]
    by_cases heq : j' = j
    · rw [heq, hself] at hj'
      rw [heq]
      exact hrel hj'
    · rw [hoth j' heq] at hj'
      exact h.releasing j' hj'
  · rw [hdrv] at hj'
    simp only [(hmem j').2.2]
    have hsame : lock = s.lock := by
      by_contra hne
      exact (hlock hne).2 j' hj'
    rw [hsame]
    exact h.owns j' hj'
  · exact h.single j₁ j₂ ((hdrv j₁).mp h₁) ((hdrv j₂).mp h₂)
  · rw [hdrv] at h₂
    by_cases heq : j' = j
    · rw [heq, hself] at hj'
      exact hkil token p hj' j₂ h₂
    · rw [hoth j' heq] at hj'
      exact h.killing j' token p hj' j₂ h₂
  · rw [hdrv] at h₂
    by_cases heq : j' = j
    · rw [heq, hself] at hj'
      exact hvac hj' j₂ h₂
    · rw [hoth j' heq] at hj'
      exact h.vacant j' hj' j₂ h₂
  · simp only [(hmem j').2.2]
    by_cases heq : j' = j
    · rw [heq, hself] at hj'
      rw [heq]
      exact hwri token hj'
    · rw [hoth j' heq] at hj'
      have hsame : lock = s.lock := by
        by_contra hne
        refine heq (h.one j' j ?_ (hlock hne).1)
        rw [hj']
        trivial
      rw [hsame]
      exact h.writing j' token hj'

theorem goTo_plain (h : LockInv o s) {call : DriverCall Pid Token} (hcla : call.InClaim → (s.journal j).call.InClaim)
    (hrel : call.Releasing → (s.journal j).ownsDriver = true)
    (hkil : ∀ token p, call = .kill token p → ∀ j', s.Drives o j' → o.pid j' = p)
    (hvac : call.Vacant → (∀ token, call ≠ .writeFileSync token) ∧ ∀ j', ¬ s.Drives o j') :
    LockInv o (s.goTo j call) := by
  refine @goTo _ _ _ _ _ o s j h call s.claim s.lock (fun hcall => ⟨.inl (hcla hcall), ?_⟩)
    (fun j' _ hj' => h.claimed j' hj') hrel (fun hne => absurd rfl hne) hkil
    (fun hcall => (hvac hcall).2) (fun token hcall => ?_)
  · exact h.claimed j (hcla hcall)
  · rw [hcall] at hvac
    exact absurd rfl ((hvac trivial).1 token)

/-- A journal that does not drive is not in the way: it is between two calls, or about to make the claim. -/
theorem leave (h : LockInv o s) {s' : LockState Id Pid Manager Token}
    (hoth : ∀ j', j' ≠ j → s'.journal j' = s.journal j')
    (hcalls : (s'.journal j).call = .idle ∨ ∃ token, (s'.journal j).call = .mkdirSync token)
    (hmem : (s'.journal j).lock = none ∧ (s'.journal j).ownsDriver = false)
    (hali : s'.alive = s.alive) (hcla : s'.claim = s.claim) (hlock : s'.lock ≠ s.lock → s.Drives o j)
    (hrem : ∀ r ∈ s'.removals, r.1 = r.2) : LockInv o s' := by
  have hdrv : ∀ j', s'.Drives o j' → j' ≠ j ∧ s.Drives o j' := by
    rintro j' ⟨hlive, howns⟩
    rw [hali] at hlive
    by_cases heq : j' = j
    · rw [heq, hmem.2] at howns
      cases howns
    · rw [hoth j' heq] at howns
      exact ⟨heq, hlive, howns⟩
  have hcall : ∀ {C : DriverCall Pid Token → Prop} {j'}, ¬ C .idle → (∀ token, ¬ C (.mkdirSync token)) →
      C (s'.journal j').call → j' ≠ j ∧ C (s.journal j').call := by
    intro C j' hC hC' hj'
    by_cases heq : j' = j
    · rw [heq] at hj'
      rcases hcalls with hidle | ⟨token, hmkdir⟩
      · exact absurd (hidle ▸ hj') hC
      · exact absurd (hmkdir ▸ hj') (hC' token)
    · rw [hoth j' heq] at hj'
      exact ⟨heq, hj'⟩
  refine ⟨fun j' hj' => hcla.trans (h.claimed j' (hcall id (fun _ => id) hj').2),
    fun j₁ j₂ h₁ h₂ => h.one j₁ j₂ (hcall id (fun _ => id) h₁).2 (hcall id (fun _ => id) h₂).2, fun j' => ?_,
    fun j' hj' => ?_, fun j' hj' => ?_, fun j₁ j₂ h₁ h₂ => h.single j₁ j₂ (hdrv j₁ h₁).2 (hdrv j₂ h₂).2,
    fun j' t p hj' j₂ h₂ => ?_, fun j' hj' j₂ h₂ => ?_, fun j' t hj' => ?_, hrem⟩
  · by_cases heq : j' = j
    · rw [heq, hmem.1, hmem.2, Option.isSome_none]
    · rw [hoth j' heq]
      exact h.memory j'
  · obtain ⟨heq, hj'⟩ := hcall id (fun _ => id) hj'
    rw [hoth j' heq]
    exact h.releasing j' hj'
  · obtain ⟨heq, hj'⟩ := hdrv j' hj'
    have hsame : s'.lock = s.lock := by
      by_contra hne
      exact heq (h.single j' j hj' (hlock hne))
    rw [hoth j' heq, hsame]
    exact h.owns j' hj'
  · obtain ⟨-, hj'⟩ := hcall (C := fun c => c = .kill t p) (by simp) (by simp) hj'
    exact h.killing j' t p hj' j₂ (hdrv j₂ h₂).2
  · obtain ⟨-, hj'⟩ := hcall id (fun _ => id) hj'
    exact h.vacant j' hj' j₂ (hdrv j₂ h₂).2
  · obtain ⟨heq, hj'⟩ := hcall (C := fun c => c = .writeFileSync t) (by simp) (by simp) hj'
    have hsame : s'.lock = s.lock := by
      by_contra hne
      refine h.vacant j' ?_ j (hlock hne)
      rw [hj']
      trivial
    rw [hoth j' heq, hsame]
    exact h.writing j' t hj'

theorem acquire (h : LockInv o s) (token : Token) : LockInv o (s.acquire o j token) := by
  by_cases hbusy : ((s.journal j).ownsDriver || s.driverOwners (o.manager j)) = true
  · rw [LockState.acquire, if_pos hbusy]
    exact h
  have hfree : (s.journal j).ownsDriver = false := by
    simp only [Bool.or_eq_true, not_or, Bool.not_eq_true] at hbusy
    exact hbusy.1
  have hnone : (s.journal j).lock = none := Option.not_isSome_iff_eq_none.mp (by simp [h.memory j, hfree])
  rw [LockState.acquire, if_neg hbusy]
  refine h.leave (j := j) (fun j' hne => by simp [LockState.setJournal, hne]) (.inr ⟨token, ?_⟩) ?_ rfl rfl
    (fun hne => absurd rfl hne) h.removals
  · simp [LockState.setJournal]
  · simp [LockState.setJournal, hnone, hfree]

variable [DecidableEq Manager]

theorem forget (h : LockInv o s) {lock : Option (LockFile Pid Token)} {removals : List (ℕ × ℕ)}
    (hlock : lock ≠ s.lock → s.Drives o j)
    (hrem : ∀ r ∈ removals, r.1 = r.2) : LockInv o { s.forget o j with lock := lock, removals := removals } := by
  refine h.leave (j := j) (fun j' hne => by simp [LockState.forget, LockState.setJournal, hne]) (.inl ?_) ?_ rfl rfl
    hlock hrem
  all_goals simp [LockState.forget, LockState.setJournal]

variable [DecidableEq Token]

theorem write (h : LockInv o s) {token : Token} (hcall : (s.journal j).call = .writeFileSync token) :
    LockInv o (s.next o j) := by
  have hnone : ∀ j', ¬ s.Drives o j' := h.vacant j (by rw [hcall]; trivial)
  have hcla : (s.journal j).call.InClaim := by rw [hcall]; trivial
  obtain ⟨f, hf, haut⟩ := h.writing j token hcall
  have hself : (s.next o j).journal j =
      { s.journal j with call := .rmdirSync, lock := some token, ownsDriver := true } := by
    simp [LockState.next, hcall, LockState.setJournal]
  have hoth : ∀ j', j' ≠ j → (s.next o j).journal j' = s.journal j' := by
    intro j' hne
    simp [LockState.next, hcall, LockState.setJournal, hne]
  have hlock : (s.next o j).lock = some { f with content := some (o.pid j, token) } := by
    simp [LockState.next, hcall, hf, haut]
  have hsame : (s.next o j).claim = s.claim ∧ (s.next o j).alive = s.alive ∧ (s.next o j).removals = s.removals := by
    simp [LockState.next, hcall, LockState.setJournal]
  have hdrv : ∀ j', (s.next o j).Drives o j' → j' = j := by
    rintro j' ⟨hali, howns⟩
    by_contra hne
    rw [hoth j' hne] at howns
    rw [hsame.2.1] at hali
    exact hnone j' ⟨hali, howns⟩
  have hbeh : ∀ j', ((s.next o j).journal j').call.InClaim → j' = j := by
    intro j' hj'
    by_contra hne
    rw [hoth j' hne] at hj'
    exact hne (h.one j' j hj' hcla)
  refine ⟨fun j' hj' => ?_, fun j₁ j₂ h₁ h₂ => (hbeh j₁ h₁).trans (hbeh j₂ h₂).symm,
    fun j' => ?_, fun j' hj' => ?_, fun j' hj' => ?_,
    fun j₁ j₂ h₁ h₂ => (hdrv j₁ h₁).trans (hdrv j₂ h₂).symm, fun j' token p hj' => ?_,
    fun j' hj' => ?_, fun j' token hj' => ?_, ?_⟩
  · rw [hsame.1]
    exact h.claimed j hcla
  · by_cases heq : j' = j
    · rw [heq, hself]
      rfl
    · rw [hoth j' heq]
      exact h.memory j'
  · by_cases heq : j' = j
    · rw [heq, hself]
    · rw [hoth j' heq] at hj' ⊢
      exact h.releasing j' hj'
  · rw [hdrv j' hj', hself]
    exact ⟨_, token, hlock, haut, rfl⟩
  · rw [hbeh j' (by rw [hj']; trivial), hself] at hj'
    cases hj'
  · obtain rfl : j' = j := by
      by_contra hne
      rw [hoth j' hne] at hj'
      refine hne (h.one j' j ?_ hcla)
      revert hj'
      cases (s.journal j').call <;> simp [DriverCall.InClaim]
    rw [hself] at hj'
    exact hj'.elim
  · rw [hbeh j' (by rw [hj']; trivial), hself] at hj'
    cases hj'
  · rw [hsame.2.2]
    exact h.removals

/-- **One call of a live process.** -/
theorem next (h : LockInv o s) (hali : s.alive (o.pid j) = true) : LockInv o (s.next o j) := by
  cases hcall : (s.journal j).call with
  | idle =>
    simp only [LockState.next, hcall]
    exact h
  | mkdirSync token =>
    simp only [LockState.next, hcall]
    split
    · exact h.goTo_plain (by simp) (by simp) (by simp)
        (by simp)
    · rename_i hfree
      exact h.goTo (fun _ => ⟨.inr (by simpa using hfree), rfl⟩) (fun _ _ _ => rfl)
        (by simp) (fun hne => absurd rfl hne) (by simp)
        (by simp) (by simp)
  | existsSync token =>
    simp only [LockState.next, hcall]
    split
    · exact h.goTo_plain (by simp [hcall]) (by simp)
        (by simp) (by simp)
    · rename_i hlock
      exact h.goTo_plain (by simp [hcall]) (by simp)
        (by simp) (fun _ => ⟨by simp, h.not_drives_of_none (by simpa using hlock)⟩)
  | readFileSync token =>
    simp only [LockState.next, hcall]
    split
    · exact h.goTo_plain (by simp [hcall]) (by simp)
        (by simp) (by simp)
    · rename_i owner _ hcon
      refine h.goTo_plain (by simp [hcall]) (by simp) ?_
        (by simp)
      -- a journal that drives has its process in the file that was read
      intro _ p heq j' hdrv
      obtain ⟨-, rfl⟩ := DriverCall.kill.inj heq
      obtain ⟨f, _, hf, -, hown⟩ := h.owns j' hdrv
      rw [hf, Option.bind_some, hown] at hcon
      exact (Prod.mk.inj (Option.some.inj hcon)).1
  | kill token owner =>
    simp only [LockState.next, hcall]
    split
    · exact h.goTo_plain (by simp [hcall]) (by simp)
        (by simp) (by simp)
    · rename_i hdead
      refine h.goTo_plain (by simp [hcall]) (by simp)
        (by simp) (fun _ => ⟨by simp, fun j' hdrv => hdead ?_⟩)
      rw [← h.killing j token owner hcall j' hdrv]
      exact hdrv.1
  | unlinkSync token =>
    have hnone : ∀ j', ¬ s.Drives o j' := h.vacant j (by rw [hcall]; trivial)
    simp only [LockState.next, hcall]
    split
    · exact h.goTo (fun _ => ⟨.inl (by simp [hcall]),
        h.claimed j (by simp [hcall])⟩) (fun j' _ hj' => h.claimed j' hj')
        (by simp)
        (fun _ => ⟨by simp [hcall], hnone⟩) (by simp) (fun _ => hnone) (by simp)
    · exact h.goTo_plain (by simp [hcall]) (by simp)
        (by simp) (by simp)
  | openSync token =>
    have hnone : ∀ j', ¬ s.Drives o j' := h.vacant j (by rw [hcall]; trivial)
    simp only [LockState.next, hcall]
    split
    · exact h.goTo_plain (by simp [hcall]) (by simp)
        (by simp) (by simp)
    · exact h.goTo (fun _ => ⟨.inl (by simp [hcall]),
        h.claimed j (by simp [hcall])⟩) (fun j' _ hj' => h.claimed j' hj')
        (by simp)
        (fun _ => ⟨by simp [hcall], hnone⟩) (by simp) (fun _ => hnone)
        (fun _ _ => ⟨_, rfl, rfl⟩)
  | writeFileSync token => exact h.write hcall
  | rmdirSync =>
    simp only [LockState.next, hcall]
    refine h.goTo (by simp) (fun j' hne hj' => ?_)
      (by simp) (fun hne => absurd rfl hne) (by simp)
      (by simp) (by simp)
    exact absurd (h.one j' j hj' (by simp [hcall])) hne
  | releaseExistsSync =>
    have howns : (s.journal j).ownsDriver = true := h.releasing j (by simp [hcall])
    simp only [LockState.next, hcall]
    split
    · exact h.goTo_plain (by simp) (fun _ => howns) (by simp) (by simp)
    · exact h.forget (fun hne => absurd rfl hne) h.removals
  | releaseReadSync =>
    have howns : (s.journal j).ownsDriver = true := h.releasing j (by simp [hcall])
    simp only [LockState.next, hcall]
    split
    · exact h.goTo_plain (by simp) (by simp) (by simp)
        (by simp)
    · split
      · exact h.goTo_plain (by simp) (fun _ => howns) (by simp) (by simp)
      · exact h.forget (fun hne => absurd rfl hne) h.removals
  | releaseUnlinkSync =>
    have howns : (s.journal j).ownsDriver = true := h.releasing j (by simp [hcall])
    obtain ⟨f, _, hf, haut, -⟩ := h.owns j ⟨hali, howns⟩
    simp only [LockState.next, hcall, hf]
    refine h.forget (fun _ => ⟨hali, howns⟩) fun r hr => ?_
    obtain hr | hr := List.mem_append.mp hr
    · exact h.removals r hr
    · rw [List.mem_singleton.mp hr]
      exact haut

variable [DecidableEq Pid]

theorem step (h : LockInv o s) (a : LockAction Id Pid Token) : LockInv o (s.step o a) := by
  cases a with
  | acquire j token =>
    simp only [LockState.step]
    split
    · exact h.acquire token
    · exact h
  | release j =>
    simp only [LockState.step]
    split
    · unfold LockState.release
      split
      · rename_i hsome
        rw [h.memory j] at hsome
        exact h.goTo_plain (by simp) (fun _ => hsome) (by simp) (by simp)
      · exact h.forget (fun hne => absurd rfl hne) h.removals
    · exact h
  | next j =>
    simp only [LockState.step]
    split
    · rename_i hali
      exact h.next hali
    · exact h
  | crash p => exact h.crash p

end LockInv

/-- **At most one journal drives the session**, whatever the processes do and whenever they crash,
and `release` removes no lock file but its own. The first state may have an old lock file and an
old claim. -/
theorem one_driver (o : Owners Id Pid Manager) [DecidableEq Manager] [DecidableEq Pid]
    [DecidableEq Token] (claim : Bool) (lock : Option (LockFile Pid Token)) (alive : Pid → Bool)
    (actions : List (LockAction Id Pid Token)) :
    let s := actions.foldl (LockState.step o) { claim := claim, lock := lock, alive := alive }
    (∀ j j', s.Drives o j → s.Drives o j' → j = j') ∧ ∀ r ∈ s.removals, r.1 = r.2 := by
  have hinv : ∀ s : LockState Id Pid Manager Token, LockInv o s → LockInv o (actions.foldl (LockState.step o) s) := by
    induction actions with
    | nil => exact fun _ h => h
    | cons a actions ih => exact fun s h => ih _ (h.step a)
  have h := hinv _ (LockInv.init claim lock alive)
  exact ⟨h.single, h.removals⟩

end

end TaskLock
end EasyPi.CodingAgent
