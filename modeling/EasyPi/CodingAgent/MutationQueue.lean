/-
# The file mutation queue

`packages/coding-agent/src/core/tools/file-mutation-queue.ts`: calls of
`withFileMutationQueue` for one file run one after the other. A call
registers in the order of the calls (`registrationQueue`), and its
registration resolves the key of its path, takes the promise of the key as
its `currentQueue` and puts a promise of its own (`chainedQueue`) in its place. A call is
its number, and so is its promise. What runs between two `await`s is one step,
and the steps of all calls are interleaved.
-/
import Mathlib.Algebra.GroupWithZero.Nat
import Mathlib.Data.List.Induction
import EasyPi.Lib.OrdMap

namespace EasyPi.CodingAgent

open List
namespace MutationQueue

/-- How far a call is: before its registration runs, while its key is
resolved, before, in and after its `fn`; a call whose key is not resolved
is rejected. -/
inductive Phase (κ : Type) where
  | waiting
  | resolving
  | registered (key : κ) (currentQueue : Option ℕ)
  | running (key : κ) (currentQueue : Option ℕ)
  | finished (key : κ) (currentQueue : Option ℕ)
  | rejected
  deriving DecidableEq

namespace Phase

variable {κ : Type}

/-- What the registration found: the key and the promise to wait for; and
whether the call has finished. -/
def tag : Phase κ → Option (κ × Option ℕ × Bool)
  | .registered key queue | .running key queue => some (key, queue, false)
  | .finished key queue => some (key, queue, true)
  | _ => none

def isRegistered : Phase κ → Bool
  | .waiting | .resolving => false
  | _ => true

/-- `fn` has been called. -/
def hasRun : Phase κ → Bool
  | .running .. | .finished .. => true
  | _ => false

def isSettled : Phase κ → Bool
  | .finished .. | .rejected => true
  | _ => false

/-- The number of steps the call has still to take. -/
def remaining : Phase κ → ℕ
  | .waiting => 4
  | .resolving => 3
  | .registered .. => 2
  | .running .. => 1
  | .finished .. | .rejected => 0

end Phase

/-- The map of queues, and the calls with their paths, in the order they were
made. `ran` has the calls of `fn`, in order. -/
structure Queues (π κ : Type) where
  fileMutationQueues : OrdMap κ ℕ := ⟨[], by simp⟩
  calls : List (π × Phase κ) := []
  ran : List ℕ := []

/-- A step: a call is made, its registration begins, its key is resolved or
not, its `fn` begins, and ends with a result or an exception. -/
inductive Event (π : Type) where
  | call (path : π)
  | register (i : ℕ)
  | resolveKey (i : ℕ) (ok : Bool)
  | begin (i : ℕ)
  | finish (i : ℕ) (ok : Bool)

variable {π κ : Type}

namespace Queues

variable (s : Queues π κ)

def phase (i : ℕ) : Option (Phase κ) := (s.calls[i]?).map Prod.snd

def setPhase (i : ℕ) (path : π) (p : Phase κ) : Queues π κ := { s with calls := s.calls.set i (path, p) }

/-- The promise `chainedQueue` of a call is resolved: the one before it is, and
`releaseNext` was called. The number of calls bounds the chain. -/
def chainResolved (s : Queues π κ) : ℕ → ℕ → Bool
  | 0, _ => false
  | n + 1, i =>
    match s.phase i with
    | some (.finished _ currentQueue) => currentQueue.all (chainResolved s n)
    | _ => false

/-- `currentQueue` is resolved. -/
def isResolved (currentQueue : Option ℕ) : Bool := currentQueue.all (s.chainResolved s.calls.length)

/-- The registration before this one is over. -/
def isNext (i : ℕ) : Bool := i = 0 || (s.phase (i - 1)).any Phase.isRegistered

end Queues

/-- A step that is enabled. The key of a path does not change. -/
def step [DecidableEq κ] (keyOf : π → κ) (s : Queues π κ) : Event π → Option (Queues π κ)
  | .call path => some { s with calls := s.calls ++ [(path, .waiting)] }
  | .register i =>
    match s.calls[i]? with
    | some (path, .waiting) => if s.isNext i then some (s.setPhase i path .resolving) else none
    | _ => none
  | .resolveKey i ok =>
    match s.calls[i]? with
    | some (path, .resolving) =>
      if ok then
        let key := keyOf path
        some { s.setPhase i path (.registered key (s.fileMutationQueues.get? key)) with
          fileMutationQueues := s.fileMutationQueues.set key i }
      else some (s.setPhase i path .rejected)
    | _ => none
  | .begin i =>
    match s.calls[i]? with
    | some (path, .registered key currentQueue) =>
      if s.isResolved currentQueue then
        some { s.setPhase i path (.running key currentQueue) with ran := s.ran ++ [i] }
      else none
    | _ => none
  | .finish i _ =>
    match s.calls[i]? with
    | some (path, .running key currentQueue) =>
      some { s.setPhase i path (.finished key currentQueue) with
        fileMutationQueues :=
          if s.fileMutationQueues.get? key = some i then s.fileMutationQueues.erase key
          else s.fileMutationQueues }
    | _ => none

/-- The queues after the steps that are enabled, from none. -/
def run [DecidableEq κ] (keyOf : π → κ) (events : List (Event π)) : Queues π κ :=
  events.foldl (fun s event => (step keyOf s event).getD s) {}

def Queues.tag (s : Queues π κ) (i : ℕ) : Option (κ × Option ℕ × Bool) := (s.phase i).bind Phase.tag

variable (s : Queues π κ)

def HasKey (i : ℕ) (key : κ) : Prop := ∃ queue done, s.tag i = some (key, queue, done)

/-- The call is registered for the key and has not finished. -/
def Pending (i : ℕ) (key : κ) : Prop := ∃ queue, s.tag i = some (key, queue, false)

/-- Every call before `i` that is registered for the key has finished. -/
def Turn (i : ℕ) (key : κ) : Prop := ∀ j < i, ¬Pending s j key

/-- What the promise that a call waits for says: the last call before it that
is registered for the key. -/
def Follows (i : ℕ) (key : κ) : Option ℕ → Prop
  | none => Turn s i key
  | some j => j < i ∧ HasKey s j key ∧ ∀ m, j < m → m < i → ¬HasKey s m key

/-- Registrations follow the order of the calls; a call whose `fn` has begun
had its turn; the map has the last call of a key while it is not finished. -/
structure Inv [DecidableEq κ] (s : Queues π κ) : Prop where
  order : ∀ i j, i < j → ∀ q, s.phase j = some q → q ≠ .waiting → ∃ p, s.phase i = some p ∧ p.isRegistered = true
  turn : ∀ i p key queue done, s.phase i = some p → p.hasRun = true → p.tag = some (key, queue, done) → Turn s i key
  follows : ∀ i key queue done, s.tag i = some (key, queue, done) → Follows s i key queue
  map_some : ∀ key i, s.fileMutationQueues.get? key = some i → Pending s i key ∧ ∀ j, i < j → ¬HasKey s j key
  map_none : ∀ key, s.fileMutationQueues.get? key = none → ∀ i, ¬Pending s i key
  ran_nodup : s.ran.Nodup
  ran_iff : ∀ i, i ∈ s.ran ↔ ∃ p, s.phase i = some p ∧ p.hasRun = true

/-! ### One phase changes -/

section
variable {s : Queues π κ} {i : ℕ} {path : π} {old new : Phase κ}

theorem phase_of_call (h : s.calls[i]? = some (path, old)) : s.phase i = some old := by
  rw [Queues.phase, h]
  rfl

theorem phase_setPhase (h : s.calls[i]? = some (path, old)) (j : ℕ) :
    (s.setPhase i path new).phase j = if j = i then some new else s.phase j := by
  obtain ⟨hi, -⟩ := List.getElem?_eq_some_iff.mp h
  simp only [Queues.phase, Queues.setPhase, List.getElem?_set]
  by_cases hj : j = i
  · simp [hj, hi]
  · simp [hj, Ne.symm hj]

theorem finished_of_chainResolved {n : ℕ} (h : s.chainResolved n i = true) :
    ∃ key queue, s.phase i = some (.finished key queue) := by
  cases n with
  | zero => cases h
  | succ n =>
    rw [Queues.chainResolved] at h
    split at h
    · rename_i key queue hp
      exact ⟨key, queue, hp⟩
    · cases h

variable {p : Phase κ}

theorem tag_of_phase (h : s.phase i = some p) : s.tag i = p.tag := by
  rw [Queues.tag, h]
  rfl

variable {key : κ}

theorem pending_hasKey (h : Pending s i key) : HasKey s i key := by
  obtain ⟨queue, htag⟩ := h
  exact ⟨queue, false, htag⟩

variable {queue : Option ℕ}

theorem finished_of_tag (h : s.tag i = some (key, queue, true)) : s.phase i = some (.finished key queue) := by
  obtain ⟨p, hp, htag⟩ := Option.bind_eq_some_iff.mp h
  cases p <;> simp_all [Phase.tag]
end

section
variable [DecidableEq κ] {s : Queues π κ} {i : ℕ}

theorem Inv.chainResolved (h : Inv s) {n : ℕ} (hn : i < n)
    (hi : s.phase i = some (.finished key queue)) : s.chainResolved n i = true := by
  induction n generalizing i queue with
  | zero => omega
  | succ n ih =>
    rw [Queues.chainResolved, hi]
    cases queue with
    | none => rfl
    | some j =>
      obtain ⟨hj, ⟨q, done, htag⟩, -⟩ := h.follows i key (some j) true (tag_of_phase hi)
      have hturn := h.turn i _ key _ _ hi rfl rfl j hj
      cases done with
      | true => exact ih (by omega) (finished_of_tag htag)
      | false => exact absurd ⟨q, htag⟩ hturn

theorem Inv.turn_of_resolved (h : Inv s)
    (hi : s.phase i = some (.registered key queue)) (hq : s.isResolved queue = true) : Turn s i key := by
  have hf := h.follows i key queue false (tag_of_phase hi)
  cases queue with
  | none => exact hf
  | some j =>
    obtain ⟨hj, ⟨q', done, hkey⟩, hbet⟩ := hf
    obtain ⟨k, q, hp⟩ := finished_of_chainResolved (Option.all_some.symm.trans hq)
    rw [tag_of_phase hp] at hkey
    obtain ⟨rfl, -⟩ := Prod.mk.inj (Option.some.inj hkey)
    intro m hm hpend
    rcases Nat.lt_trichotomy m j with hmj | rfl | hmj
    · exact h.turn j _ k _ _ hp rfl rfl m hmj hpend
    · obtain ⟨q'', hq''⟩ := hpend
      rw [tag_of_phase hp] at hq''
      cases hq''
    · obtain ⟨q'', hq''⟩ := hpend
      exact hbet m hmj hm ⟨q'', false, hq''⟩

/-! ### Every step -/

variable {s' : Queues π κ}

theorem Inv.of_tag (h : Inv s) (htag : ∀ j, s'.tag j = s.tag j) (hmap : s'.fileMutationQueues = s.fileMutationQueues)
    (hord : ∀ i j, i < j → ∀ q, s'.phase j = some q → q ≠ .waiting → ∃ p, s'.phase i = some p ∧ p.isRegistered = true)
    (hturn : ∀ i p key queue done, s'.phase i = some p → p.hasRun = true → p.tag = some (key, queue, done) → Turn s i key)
    (hnd : s'.ran.Nodup) (hran : ∀ i, i ∈ s'.ran ↔ ∃ p, s'.phase i = some p ∧ p.hasRun = true) : Inv s' := by
  have hkey : HasKey s' = HasKey s := by
    funext j key
    simp only [HasKey, htag]
  have hpend : Pending s' = Pending s := by
    funext j key
    simp only [Pending, htag]
  have htns : Turn s' = Turn s := by
    funext j key
    simp only [Turn, hpend]
  have hfol : ∀ j key queue, Follows s' j key queue ↔ Follows s j key queue := by
    intro j key queue
    cases queue <;> simp only [Follows, htns, hkey]
  refine ⟨hord, ?_, ?_, ?_, ?_, hnd, hran⟩
  · rw [htns]
    exact hturn
  · intro j key queue done hj
    rw [hfol]
    exact h.follows j key queue done (htag j ▸ hj)
  · rw [hmap, hpend, hkey]
    exact h.map_some
  · rw [hmap, hpend]
    exact h.map_none

theorem Inv.call (h : Inv s) (path : π) : Inv { s with calls := s.calls ++ [(path, .waiting)] } := by
  have hph : ∀ j, Queues.phase { s with calls := s.calls ++ [(path, .waiting)] } j =
      if j = s.calls.length then some .waiting else s.phase j := by
    intro j
    unfold Queues.phase
    rcases Nat.lt_trichotomy j s.calls.length with hj | rfl | hj
    · rw [List.getElem?_append_left hj, if_neg (Nat.ne_of_lt hj)]
    · simp
    · rw [List.getElem?_eq_none (by simp; omega), if_neg (Nat.ne_of_gt hj), List.getElem?_eq_none (by omega)]
  have hout : s.phase s.calls.length = none := by simp [Queues.phase]
  refine h.of_tag (fun j => ?_) rfl ?_ ?_ h.ran_nodup fun j => ?_
  · unfold Queues.tag
    rw [hph]
    split_ifs with hj
    · rw [hj, hout]
      rfl
    · rfl
  · intro a b hab q hq hne
    rw [hph] at hq ⊢
    split_ifs at hq with hb
    · exact absurd (Option.some.inj hq).symm hne
    · obtain ⟨p, hp, hreg⟩ := h.order a b hab q hq hne
      refine ⟨p, ?_, hreg⟩
      rw [if_neg (fun ha => by rw [ha, hout] at hp; cases hp)]
      exact hp
  · intro j p key queue done hj hrun htag
    rw [hph] at hj
    split_ifs at hj with hlen
    · obtain rfl := Option.some.inj hj
      cases hrun
    · exact h.turn j p key queue done hj hrun htag
  · rw [h.ran_iff, hph]
    split_ifs with hj
    · rw [hj, hout]
      simp [Phase.hasRun]
    · rfl

variable {path : π} {old new : Phase κ}

section
variable (h : Inv s)
include h

/-- The phase of one call changes, and it is registered before and after, or
not registered for a key before and after. -/
theorem Inv.order_setPhase (hi : s.calls[i]? = some (path, old))
    (hreg : old.isRegistered = true → new.isRegistered = true)
    (hnext : new ≠ .waiting → ∀ j < i, ∃ p, s.phase j = some p ∧ p.isRegistered = true) :
    ∀ a b, a < b → ∀ q, (s.setPhase i path new).phase b = some q → q ≠ .waiting →
      ∃ p, (s.setPhase i path new).phase a = some p ∧ p.isRegistered = true := by
  intro a b hab q hq hne
  have hold : ∃ p, s.phase a = some p ∧ p.isRegistered = true := by
    rw [phase_setPhase hi] at hq
    split_ifs at hq with hb
    · obtain rfl := Option.some.inj hq
      exact hnext hne a (hb ▸ hab)
    · exact h.order a b hab q hq hne
  obtain ⟨p, hp, hpr⟩ := hold
  rw [phase_setPhase hi]
  split_ifs with ha
  · rw [ha, phase_of_call hi] at hp
    exact ⟨new, rfl, hreg (Option.some.inj hp ▸ hpr)⟩
  · exact ⟨p, hp, hpr⟩

theorem Inv.before (hi : s.phase i = some p) (hp : p ≠ .waiting) :
    ∀ j < i, ∃ q, s.phase j = some q ∧ q.isRegistered = true :=
  fun j hj => h.order j i hj p hi hp

theorem Inv.no_key_after (hi : s.phase i = some p)
    (hp : p.isRegistered = false) {j : ℕ} (hj : i < j) (key : κ) : ¬HasKey s j key := by
  rintro ⟨queue, done, htag⟩
  obtain ⟨q, hq, hqtag⟩ := Option.bind_eq_some_iff.mp htag
  obtain ⟨p', hp', hreg⟩ := h.order i j hj q hq (by rintro rfl; cases hqtag)
  rw [hi] at hp'
  rw [← Option.some.inj hp', hp] at hreg
  cases hreg

theorem Inv.setPhase (hi : s.calls[i]? = some (path, old)) (htag : new.tag = old.tag) (hrun : new.hasRun = old.hasRun)
    (hreg : old.isRegistered = true → new.isRegistered = true)
    (hnext : new ≠ .waiting → ∀ j < i, ∃ p, s.phase j = some p ∧ p.isRegistered = true) :
    Inv (s.setPhase i path new) := by
  have hph : ∀ j, (s.setPhase i path new).phase j = if j = i then some new else s.phase j := phase_setPhase hi
  refine h.of_tag (fun j => ?_) rfl (h.order_setPhase hi hreg hnext) ?_ h.ran_nodup fun j => ?_
  · unfold Queues.tag
    rw [hph]
    split_ifs with hj
    · rw [hj, phase_of_call hi]
      exact htag
    · rfl
  · intro j p key queue done hj hp hptag
    rw [hph] at hj
    split_ifs at hj with hji
    · obtain rfl := Option.some.inj hj
      rw [hji]
      exact h.turn i old key queue done (phase_of_call hi) (hrun ▸ hp) (htag ▸ hptag)
    · exact h.turn j p key queue done hj hp hptag
  · change j ∈ s.ran ↔ _
    rw [h.ran_iff, hph]
    split_ifs with hj
    · rw [hj, phase_of_call hi]
      simp [hrun]
    · rfl

theorem Inv.register (hi : s.calls[i]? = some (path, .waiting))
    (hnext : s.isNext i = true) : Inv (s.setPhase i path .resolving) := by
  refine h.setPhase hi rfl rfl (fun hw => by cases hw) fun _ j hj => ?_
  obtain hzero | ⟨p, hp, hreg⟩ : i = 0 ∨ ∃ p, s.phase (i - 1) = some p ∧ p.isRegistered = true := by
    simpa [Queues.isNext, Option.any_eq_true] using hnext
  · omega
  · rcases Nat.lt_or_ge j (i - 1) with hlt | hge
    · exact h.before hp (by rintro rfl; cases hreg) j hlt
    · obtain rfl : j = i - 1 := by omega
      exact ⟨p, hp, hreg⟩

/-- A call gets its key: it is the last of the key, behind the promise that
was in the map. -/
theorem Inv.resolveKey (key : κ) (hi : s.calls[i]? = some (path, .resolving)) :
    Inv { s.setPhase i path (.registered key (s.fileMutationQueues.get? key)) with
      fileMutationQueues := s.fileMutationQueues.set key i } := by
  set s' : Queues π κ :=
    { s.setPhase i path (.registered key (s.fileMutationQueues.get? key)) with
      fileMutationQueues := s.fileMutationQueues.set key i } with hs'
  have hph : ∀ j, s'.phase j = if j = i then some (.registered key (s.fileMutationQueues.get? key)) else s.phase j :=
    phase_setPhase hi
  have hiphase := phase_of_call hi
  have htag : ∀ j, s'.tag j = if j = i then some (key, s.fileMutationQueues.get? key, false) else s.tag j := by
    intro j
    unfold Queues.tag
    rw [hph]
    split_ifs <;> rfl
  have haft : ∀ j k, HasKey s j k → j < i := by
    intro j k hj
    rcases Nat.lt_trichotomy j i with hlt | rfl | hgt
    · exact hlt
    · obtain ⟨q, d, hqd⟩ := hj
      rw [tag_of_phase hiphase] at hqd
      cases hqd
    · exact absurd hj (h.no_key_after hiphase rfl hgt k)
  have hkey : ∀ j k, HasKey s' j k ↔ (j = i ∧ k = key) ∨ HasKey s j k := by
    intro j k
    by_cases hj : j = i
    · subst hj
      constructor
      · rintro ⟨q, d, hqd⟩
        rw [htag, if_pos rfl] at hqd
        exact .inl ⟨rfl, (Prod.mk.inj (Option.some.inj hqd)).1.symm⟩
      · rintro (⟨-, rfl⟩ | hk)
        · exact ⟨_, _, (htag j).trans (if_pos rfl)⟩
        · exact absurd (haft j k hk) (Nat.lt_irrefl j)
    · simp [HasKey, htag, hj]
  have hpend : ∀ j k, Pending s' j k ↔ (j = i ∧ k = key) ∨ Pending s j k := by
    intro j k
    by_cases hj : j = i
    · subst hj
      constructor
      · exact fun hp => .inl (((hkey j k).mp (pending_hasKey hp)).resolve_right
          fun hk => Nat.lt_irrefl j (haft j k hk))
      · rintro (⟨-, rfl⟩ | hp)
        · exact ⟨_, (htag j).trans (if_pos rfl)⟩
        · exact absurd (haft j k (pending_hasKey hp)) (Nat.lt_irrefl j)
    · simp [Pending, htag, hj]
  have hturn : ∀ j k, j ≤ i → Turn s j k → Turn s' j k := by
    intro j k hj ht m hm hp
    rcases (hpend m k).mp hp with ⟨rfl, -⟩ | hp
    · omega
    · exact ht m hm hp
  refine ⟨?_, ?_, ?_, ?_, ?_, h.ran_nodup, fun j => ?_⟩
  · exact h.order_setPhase hi (fun hr => by cases hr)
      fun _ => h.before hiphase (by rintro ⟨⟩)
  · intro j p k queue done hj hrun hptag
    rw [hph] at hj
    split_ifs at hj with hji
    · obtain rfl := Option.some.inj hj
      cases hrun
    · have hjkey : HasKey s j k := ⟨queue, done, (tag_of_phase hj).trans hptag⟩
      exact hturn j k (Nat.le_of_lt (haft j k hjkey)) (h.turn j p k queue done hj hrun hptag)
  · intro j k queue done hj
    rw [htag] at hj
    split_ifs at hj with hji
    · -- the new call follows the last call of the key that was registered
      obtain ⟨rfl, rfl, -⟩ : key = k ∧ s.fileMutationQueues.get? key = queue ∧ false = done := by
        simpa using hj
      subst hji
      cases hmap : s.fileMutationQueues.get? key with
      | none => exact hturn j key (Nat.le_refl j) fun m _ => h.map_none key hmap m
      | some m =>
        obtain ⟨hm, hlast⟩ := h.map_some key m hmap
        refine ⟨haft m key (pending_hasKey hm), (hkey m key).mpr
          (.inr (pending_hasKey hm)), fun n hmn hnj hn => ?_⟩
        rcases (hkey n key).mp hn with ⟨rfl, -⟩ | hn
        · omega
        · exact hlast n hmn hn
    · have hlt := haft j k ⟨queue, done, hj⟩
      have hf := h.follows j k queue done hj
      cases queue with
      | none => exact hturn j k (Nat.le_of_lt hlt) hf
      | some m =>
        refine ⟨hf.1, (hkey m k).mpr (.inr hf.2.1), fun n hmn hnj hn => ?_⟩
        rcases (hkey n k).mp hn with ⟨rfl, -⟩ | hn
        · omega
        · exact hf.2.2 n hmn hnj hn
  · intro k j hj
    rw [hs', OrdMap.get?_set] at hj
    split_ifs at hj with hk
    · obtain rfl := Option.some.inj hj
      refine ⟨(hpend i k).mpr (.inl ⟨rfl, hk⟩), fun m him hm => ?_⟩
      rcases (hkey m k).mp hm with ⟨rfl, -⟩ | hm
      · omega
      · exact absurd (haft m k hm) (by omega)
    · obtain ⟨hp, hlast⟩ := h.map_some k j hj
      refine ⟨(hpend j k).mpr (.inr hp), fun m hjm hm => ?_⟩
      rcases (hkey m k).mp hm with ⟨-, rfl⟩ | hm
      · exact hk rfl
      · exact hlast m hjm hm
  · intro k hnone j hj
    rw [hs', OrdMap.get?_set] at hnone
    split_ifs at hnone with hk
    rcases (hpend j k).mp hj with ⟨-, rfl⟩ | hj
    · exact hk rfl
    · exact h.map_none k hnone j hj
  · change j ∈ s.ran ↔ _
    rw [h.ran_iff, hph]
    split_ifs with hj
    · rw [hj, hiphase]
      simp [Phase.hasRun]
    · rfl

theorem Inv.begin (hi : s.calls[i]? = some (path, .registered key queue)) (hq : s.isResolved queue = true) :
    Inv { s.setPhase i path (.running key queue) with ran := s.ran ++ [i] } := by
  have hiphase := phase_of_call hi
  have hph : ∀ j, (s.setPhase i path (.running key queue)).phase j =
      if j = i then some (.running key queue) else s.phase j := phase_setPhase hi
  have hnew : i ∉ s.ran := by
    intro hmem
    obtain ⟨p, hp, hrun⟩ := (h.ran_iff i).mp hmem
    rw [hiphase] at hp
    obtain rfl := Option.some.inj hp
    cases hrun
  refine h.of_tag (fun j => ?_) rfl ?_ ?_ ?_ fun j => ?_
  · change (Queues.phase _ j).bind _ = _
    rw [show Queues.phase { s.setPhase i path (.running key queue) with ran := s.ran ++ [i] } j =
      (s.setPhase i path (.running key queue)).phase j from rfl, hph]
    split_ifs with hj
    · rw [hj, tag_of_phase hiphase]
      rfl
    · rfl
  · exact h.order_setPhase hi (fun _ => rfl) fun _ => h.before hiphase (by rintro ⟨⟩)
  · intro j p k q done hj hrun hptag
    rw [show Queues.phase { s.setPhase i path (.running key queue) with ran := s.ran ++ [i] } j =
      (s.setPhase i path (.running key queue)).phase j from rfl, hph] at hj
    split_ifs at hj with hji
    · obtain rfl := Option.some.inj hj
      obtain ⟨rfl, -⟩ := Prod.mk.inj (Option.some.inj hptag)
      exact hji ▸ h.turn_of_resolved hiphase hq
    · exact h.turn j p k q done hj hrun hptag
  · exact nodup_append.mpr ⟨h.ran_nodup, by simp, fun a ha b hb => by
      rw [mem_singleton.mp hb]
      rintro rfl
      exact hnew ha⟩
  · rw [show Queues.phase { s.setPhase i path (.running key queue) with ran := s.ran ++ [i] } j =
      (s.setPhase i path (.running key queue)).phase j from rfl, hph]
    change j ∈ s.ran ++ [i] ↔ _
    rw [mem_append, mem_singleton, h.ran_iff]
    split_ifs with hj
    · simp [hj, Phase.hasRun]
    · simp [hj]

/-- The call that ends is the first pending one of its key; its entry leaves the
map when no later call has put its own there. -/
theorem Inv.finish (hi : s.calls[i]? = some (path, .running key queue)) :
    Inv { s.setPhase i path (.finished key queue) with
      fileMutationQueues :=
        if s.fileMutationQueues.get? key = some i then s.fileMutationQueues.erase key
        else s.fileMutationQueues } := by
  set s' : Queues π κ := { s.setPhase i path (.finished key queue) with
    fileMutationQueues :=
      if s.fileMutationQueues.get? key = some i then s.fileMutationQueues.erase key
      else s.fileMutationQueues } with hs'
  have hiphase := phase_of_call hi
  have hitag : s.tag i = some (key, queue, false) := tag_of_phase hiphase
  have hiturn : Turn s i key := h.turn i _ key queue false hiphase rfl rfl
  have hph : ∀ j, s'.phase j = if j = i then some (.finished key queue) else s.phase j := phase_setPhase hi
  have htag : ∀ j, s'.tag j = if j = i then some (key, queue, true) else s.tag j := by
    intro j
    unfold Queues.tag
    rw [hph]
    split_ifs <;> rfl
  have hkey : HasKey s' = HasKey s := by
    funext j k
    by_cases hj : j = i
    · simp [HasKey, htag, hj, hitag]
    · simp [HasKey, htag, hj]
  have hpend : ∀ j k, Pending s' j k ↔ j ≠ i ∧ Pending s j k := by
    intro j k
    by_cases hj : j = i <;> simp [Pending, htag, hj]
  have hturn : ∀ j k, Turn s j k → Turn s' j k :=
    fun j k ht m hm hp => ht m hm ((hpend m k).mp hp).2
  refine ⟨?_, ?_, ?_, ?_, ?_, h.ran_nodup, fun j => ?_⟩
  · exact h.order_setPhase hi (fun _ => rfl) fun _ => h.before hiphase (by rintro ⟨⟩)
  · intro j p k q done hj hrun hptag
    rw [hph] at hj
    split_ifs at hj with hji
    · obtain rfl := Option.some.inj hj
      obtain ⟨rfl, -⟩ := Prod.mk.inj (Option.some.inj hptag)
      exact hturn j key (hji ▸ hiturn)
    · exact hturn j k (h.turn j p k q done hj hrun hptag)
  · intro j k q done hj
    obtain ⟨d, hd⟩ : ∃ d, s.tag j = some (k, q, d) := by
      rw [htag] at hj
      split_ifs at hj with hji
      · obtain ⟨rfl, rfl, -⟩ : key = k ∧ queue = q ∧ true = done := by simpa using hj
        exact ⟨false, hji ▸ hitag⟩
      · exact ⟨done, hj⟩
    have hf := h.follows j k q d hd
    cases q with
    | none => exact hturn j k hf
    | some m =>
      rw [Follows, hkey]
      exact hf
  · intro k j hj
    have hold : s.fileMutationQueues.get? k = some j ∧ j ≠ i := by
      rw [hs'] at hj
      split_ifs at hj with hown
      · rw [OrdMap.get?_erase] at hj
        split_ifs at hj with hk
        refine ⟨hj, ?_⟩
        rintro rfl
        obtain ⟨q, hq⟩ := (h.map_some k j hj).1
        rw [hitag] at hq
        exact hk (Prod.mk.inj (Option.some.inj hq)).1.symm
      · refine ⟨hj, ?_⟩
        rintro rfl
        obtain ⟨q, hq⟩ := (h.map_some k j hj).1
        rw [hitag] at hq
        obtain ⟨rfl, -⟩ := Prod.mk.inj (Option.some.inj hq)
        exact hown hj
    obtain ⟨hp, hlast⟩ := h.map_some k j hold.1
    rw [hkey]
    exact ⟨(hpend j k).mpr ⟨hold.2, hp⟩, hlast⟩
  · intro k hnone j hj
    obtain ⟨hji, hjp⟩ := (hpend j k).mp hj
    rw [hs'] at hnone
    split_ifs at hnone with hown
    · rw [OrdMap.get?_erase] at hnone
      split_ifs at hnone with hk
      · -- the call was the last of the key, and all before it have finished
        subst hk
        rcases Nat.lt_or_gt_of_ne hji with hlt | hgt
        · exact hiturn j hlt hjp
        · exact (h.map_some _ i hown).2 j hgt (pending_hasKey hjp)
      · exact h.map_none k hnone j hjp
    · exact h.map_none k hnone j hjp
  · change j ∈ s.ran ↔ _
    rw [h.ran_iff, hph]
    split_ifs with hj
    · rw [hj, hiphase]
      simp [Phase.hasRun]
    · rfl

end

variable {keyOf : π → κ} {event : Event π}

theorem step_cases (h : step keyOf s event = some s') :
    (∃ path, event = .call path ∧ s' = { s with calls := s.calls ++ [(path, .waiting)] }) ∨
    (∃ i path, event = .register i ∧ s.calls[i]? = some (path, .waiting) ∧ s.isNext i = true ∧
      s' = s.setPhase i path .resolving) ∨ (∃ i path, event = .resolveKey i true ∧ s.calls[i]? = some (path, .resolving) ∧
      s' = { s.setPhase i path (.registered (keyOf path) (s.fileMutationQueues.get? (keyOf path))) with
        fileMutationQueues := s.fileMutationQueues.set (keyOf path) i }) ∨
    (∃ i path, event = .resolveKey i false ∧ s.calls[i]? = some (path, .resolving) ∧ s' = s.setPhase i path .rejected) ∨
    (∃ i path key queue, event = .begin i ∧ s.calls[i]? = some (path, .registered key queue) ∧
      s.isResolved queue = true ∧ s' = { s.setPhase i path (.running key queue) with ran := s.ran ++ [i] }) ∨
    (∃ i ok path key queue, event = .finish i ok ∧ s.calls[i]? = some (path, .running key queue) ∧
      s' = { s.setPhase i path (.finished key queue) with
        fileMutationQueues :=
          if s.fileMutationQueues.get? key = some i then s.fileMutationQueues.erase key
          else s.fileMutationQueues }) := by
  cases event with
  | call path => exact .inl ⟨path, rfl, (Option.some.inj h).symm⟩
  | register i =>
    rw [step] at h
    split at h
    · rename_i path hi
      split_ifs at h with hnext
      exact .inr (.inl ⟨i, path, rfl, hi, hnext, (Option.some.inj h).symm⟩)
    · cases h
  | resolveKey i ok =>
    rw [step] at h
    split at h
    · rename_i path hi
      split_ifs at h with hok
      · subst hok
        exact .inr (.inr (.inl ⟨i, path, rfl, hi, (Option.some.inj h).symm⟩))
      · obtain rfl : ok = false := by simpa using hok
        exact .inr (.inr (.inr (.inl ⟨i, path, rfl, hi, (Option.some.inj h).symm⟩)))
    · cases h
  | begin i =>
    rw [step] at h
    split at h
    · rename_i path key queue hi
      split_ifs at h with hq
      exact .inr (.inr (.inr (.inr (.inl
        ⟨i, path, key, queue, rfl, hi, hq, (Option.some.inj h).symm⟩))))
    · cases h
  | finish i ok =>
    rw [step] at h
    split at h
    · rename_i path key queue hi
      exact .inr (.inr (.inr (.inr (.inr
        ⟨i, ok, path, key, queue, rfl, hi, (Option.some.inj h).symm⟩))))
    · cases h

theorem Inv.step (h : Inv s) (hstep : step keyOf s event = some s') : Inv s' := by
  obtain ⟨path, -, rfl⟩ | ⟨i, path, -, hi, hnext, rfl⟩ | ⟨i, path, -, hi, rfl⟩ |
    ⟨i, path, -, hi, rfl⟩ | ⟨i, path, key, queue, -, hi, hq, rfl⟩ |
    ⟨i, ok, path, key, queue, -, hi, rfl⟩ := step_cases hstep
  · exact h.call path
  · exact h.register hi hnext
  · exact h.resolveKey (keyOf path) hi
  · exact h.setPhase hi rfl rfl (fun hr => by cases hr)
      fun _ => h.before (phase_of_call hi) (by rintro ⟨⟩)
  · exact h.begin hi hq
  · exact h.finish hi

theorem inv_new : Inv ({} : Queues π κ) where
  order := by simp [Queues.phase]
  turn := by simp [Queues.phase]
  follows := by simp [Queues.tag, Queues.phase]
  map_some := fun _ _ h => by cases h
  map_none := by simp [Pending, Queues.tag, Queues.phase]
  ran_nodup := nodup_nil
  ran_iff := by simp [Queues.phase]

/-! ### Progress -/

def Event.caller : Event π → Option ℕ
  | .call _ => none
  | .register i | .resolveKey i _ | .begin i | .finish i _ => some i

/-- An earlier call that a call waits for: its registration is not over, or it
is pending for the key. -/
def Blocks (s : Queues π κ) (j i : ℕ) : Prop :=
  j < i ∧ ((s.phase i = some .waiting ∧ ∃ p, s.phase j = some p ∧ p.isRegistered = false) ∨
      ∃ key queue, s.phase i = some (.registered key queue) ∧ Pending s j key)

/-- The steps that all calls have still to take. -/
def Queues.remaining (s : Queues π κ) : ℕ := (s.calls.map fun c => c.2.remaining).sum

omit [DecidableEq κ] in
theorem unsettled_of_blocks {j : ℕ} (h : Blocks s j i) : ∃ p, s.phase j = some p ∧ p.isSettled = false := by
  obtain ⟨-, ⟨-, p, hp, hreg⟩ | ⟨key, queue, -, q, hq⟩⟩ := h
  · refine ⟨p, hp, ?_⟩
    cases p <;> first | rfl | cases hreg
  · obtain ⟨p, hp, htag⟩ := Option.bind_eq_some_iff.mp hq
    refine ⟨p, hp, ?_⟩
    cases p <;> first | rfl | simp [Phase.tag] at htag

theorem Inv.isResolved_of_turn (h : Inv s)
    (hi : s.phase i = some (.registered key queue)) (hturn : Turn s i key) : s.isResolved queue = true := by
  cases queue with
  | none => rfl
  | some j =>
    obtain ⟨hj, ⟨q, done, htag⟩, -⟩ := h.follows i key (some j) false (tag_of_phase hi)
    have hlen : i < s.calls.length := by
      obtain ⟨c, hc, -⟩ := Option.map_eq_some_iff.mp hi
      exact (List.getElem?_eq_some_iff.mp hc).1
    cases done with
    | true => exact h.chainResolved (Nat.lt_trans hj hlen) (finished_of_tag htag)
    | false => exact absurd ⟨q, htag⟩ (hturn j hj)

theorem Inv.enabled (h : Inv s) (keyOf : π → κ) (hi : s.phase i = some p)
    (hp : p.isSettled = false) (hfree : ∀ j, ¬Blocks s j i) :
    ∃ event : Event π, event.caller = some i ∧ (MutationQueue.step keyOf s event).isSome = true := by
  obtain ⟨⟨path, p'⟩, hc, rfl⟩ := Option.map_eq_some_iff.mp hi
  cases p' with
  | waiting =>
    refine ⟨.register i, rfl, ?_⟩
    have hnext : s.isNext i = true := by
      rcases Nat.eq_zero_or_pos i with rfl | hpos
      · rfl
      · have hlt : i - 1 < s.calls.length := by
          have := (List.getElem?_eq_some_iff.mp hc).1
          omega
        have hprev : s.phase (i - 1) = some (s.calls.get ⟨i - 1, hlt⟩).2 := by
          simp [Queues.phase, List.getElem?_eq_getElem hlt]
        rw [Queues.isNext, hprev, Option.any_some, Bool.or_eq_true]
        right
        by_contra hreg
        exact hfree (i - 1) ⟨by omega, .inl ⟨hi, _, hprev, by simpa using hreg⟩⟩
    simp [MutationQueue.step, hc, hnext]
  | resolving => exact ⟨.resolveKey i true, rfl, by simp [MutationQueue.step, hc]⟩
  | registered key queue =>
    refine ⟨.begin i, rfl, ?_⟩
    have hq := h.isResolved_of_turn hi fun j hj hpend =>
      hfree j ⟨hj, .inr ⟨key, queue, hi, hpend⟩⟩
    simp [MutationQueue.step, hc, hq]
  | running key queue => exact ⟨.finish i true, rfl, by simp [MutationQueue.step, hc]⟩
  | finished key queue => cases hp
  | rejected => cases hp

theorem Inv.settled_of_stuck (h : Inv s) (keyOf : π → κ) (hstu : ∀ event : Event π, event.caller.isSome = true →
      MutationQueue.step keyOf s event = none) : ∀ i p, s.phase i = some p → p.isSettled = true := by
  intro i
  induction i using Nat.strongRecOn with
  | ind i ih =>
    intro p hi
    by_contra hp
    obtain ⟨event, hcal, hsome⟩ := h.enabled keyOf hi (by simpa using hp) fun j hj => by
      obtain ⟨q, hq, huns⟩ := unsettled_of_blocks hj
      rw [ih j hj.1 q hq] at huns
      cases huns
    rw [hstu event (by rw [hcal]; rfl)] at hsome
    cases hsome

omit [DecidableEq κ] in
theorem sum_remaining_set {new : Phase κ} : ∀ {calls : List (π × Phase κ)} {i : ℕ}
    {old : Phase κ}, calls[i]? = some (path, old) → new.remaining < old.remaining →
    ((calls.set i (path, new)).map fun c => c.2.remaining).sum < (calls.map fun c => c.2.remaining).sum := by
  intro calls
  induction calls with
  | nil => simp
  | cons c calls ih =>
    intro i old hi hlt
    cases i with
    | zero =>
      obtain rfl : c = (path, old) := by simpa using hi
      simpa using hlt
    | succ i => simpa using ih hi hlt

theorem remaining_step
    (hstep : step keyOf s event = some s') (hcal : event.caller.isSome = true) : s'.remaining < s.remaining := by
  obtain ⟨path, rfl, -⟩ | ⟨i, path, -, hi, -, rfl⟩ | ⟨i, path, -, hi, rfl⟩ |
    ⟨i, path, -, hi, rfl⟩ | ⟨i, path, key, queue, -, hi, -, rfl⟩ |
    ⟨i, ok, path, key, queue, -, hi, rfl⟩ := step_cases hstep
  · cases hcal
  all_goals exact sum_remaining_set hi (by simp [Phase.remaining])

/-! ### Every run -/

/-- What a run keeps: the invariant, the key of every path, and that only a
failed resolution rejects a call. -/
structure History (keyOf : π → κ) (events : List (Event π)) (s : Queues π κ) : Prop where
  inv : Inv s
  keyed : ∀ (i : ℕ) path (p : Phase κ) key queue done, s.calls[i]? = some (path, p) →
    p.tag = some (key, queue, done) → key = keyOf path
  rejected : ∀ i, s.phase i = some .rejected → .resolveKey i false ∈ events

theorem History.setPhase {events : List (Event π)} (h : History keyOf events s) (hinv : Inv s')
    (hi : s.calls[i]? = some (path, old)) (hs' : s'.calls = s.calls.set i (path, new))
    (hkey : ∀ key queue done, new.tag = some (key, queue, done) → key = keyOf path)
    (hreje : new = .rejected → event = .resolveKey i false) : History keyOf (events ++ [event]) s' := by
  obtain ⟨hlen, -⟩ := List.getElem?_eq_some_iff.mp hi
  have hcls : ∀ j, s'.calls[j]? = if j = i then some (path, new) else s.calls[j]? := by
    intro j
    rw [hs', List.getElem?_set]
    by_cases hj : i = j
    · simp [← hj, hlen]
    · simp [hj, Ne.symm hj]
  refine ⟨hinv, fun j path' p key queue done hj htag => ?_, fun j hj => ?_⟩
  · rw [hcls] at hj
    split_ifs at hj with hji
    · obtain ⟨rfl, rfl⟩ := Prod.mk.inj (Option.some.inj hj)
      exact hkey key queue done htag
    · exact h.keyed j path' p key queue done hj htag
  · rw [Queues.phase, hcls] at hj
    rw [mem_append, mem_singleton]
    split_ifs at hj with hji
    · rw [hji]
      exact .inr (hreje (Option.some.inj hj)).symm
    · exact .inl (h.rejected j hj)

theorem History.step {events : List (Event π)} (h : History keyOf events s)
    (hstep : MutationQueue.step keyOf s event = some s') : History keyOf (events ++ [event]) s' := by
  have hinv := h.inv.step hstep
  obtain ⟨path, rfl, rfl⟩ | ⟨i, path, rfl, hi, -, rfl⟩ | ⟨i, path, rfl, hi, rfl⟩ |
    ⟨i, path, rfl, hi, rfl⟩ | ⟨i, path, key, queue, rfl, hi, -, rfl⟩ |
    ⟨i, ok, path, key, queue, rfl, hi, rfl⟩ := step_cases hstep
  · -- a new call is waiting: it has no key and is not rejected
    have hnew : ∀ {j : ℕ} {c : π × Phase κ}, (s.calls ++ [(path, Phase.waiting)])[j]? = some c →
        s.calls[j]? = some c ∨ c = (path, .waiting) := by
      intro j c hj
      rw [List.getElem?_append] at hj
      split_ifs at hj
      · exact .inl hj
      · exact .inr (mem_singleton.mp (mem_of_getElem? hj))
    refine ⟨hinv, fun j path' p key queue done hj htag => ?_, fun j hj => ?_⟩
    · rcases hnew hj with hj | hc
      · exact h.keyed j path' p key queue done hj htag
      · obtain ⟨-, rfl⟩ := Prod.mk.inj hc
        cases htag
    · obtain ⟨c, hc, hrej⟩ := Option.map_eq_some_iff.mp hj
      rcases hnew hc with hc | rfl
      · exact mem_append_left _ (h.rejected j (by rw [Queues.phase, hc]; exact congrArg some hrej))
      · cases hrej
  · exact h.setPhase hinv hi rfl (fun _ _ _ ht => by cases ht) fun hr => by cases hr
  · refine h.setPhase hinv hi rfl (fun key queue done ht => ?_) fun hr => by cases hr
    exact (Prod.mk.inj (Option.some.inj ht)).1.symm
  · exact h.setPhase hinv hi rfl (fun _ _ _ ht => by cases ht) fun _ => rfl
  · refine h.setPhase hinv hi rfl (fun k q done ht => ?_) fun hr => by cases hr
    exact h.keyed i path _ k q done hi ht
  · refine h.setPhase hinv hi rfl (fun k q done ht => ?_) fun hr => by cases hr
    obtain ⟨rfl, -⟩ := Prod.mk.inj (Option.some.inj ht)
    exact h.keyed i path _ key queue false hi rfl

theorem history_run (keyOf : π → κ) (events : List (Event π)) : History keyOf events (run keyOf events) := by
  induction events using List.reverseRecOn with
  | nil => exact ⟨inv_new, by simp [run], by simp [run, Queues.phase]⟩
  | append_singleton events event ih =>
    rw [run, foldl_append]
    change History keyOf _ ((MutationQueue.step keyOf (run keyOf events) event).getD _)
    cases hstep : MutationQueue.step keyOf (run keyOf events) event with
    | none => exact ⟨ih.inv, ih.keyed, fun i hi => mem_append_left _ (ih.rejected i hi)⟩
    | some s' => exact ih.step hstep

/-- **Mutations of one file are serial.** After any steps of any calls: one
`fn` at most runs for a key; a call whose `fn` has begun comes after the end
of all earlier calls of the key; a call waits only for earlier calls whose
registration is not over or that have not finished for its key, so that
rejected and failed calls block none, every step brings the calls nearer
to the end and no step is left only when all are settled; a call is rejected
only if its key is not resolved, and each call that finished ran `fn` once; and the map
has a key exactly while a call registered for it has not finished. -/
theorem mutation_queue_serial (keyOf : π → κ) (events : List (Event π)) :
    let s := run keyOf events
    (∀ key i j q q', s.phase i = some (.running key q) → s.phase j = some (.running key q') → i = j) ∧
    (∀ (i j : ℕ) path path' (p p' : Phase κ), i < j → s.calls[i]? = some (path, p) →
      s.calls[j]? = some (path', p') → keyOf path = keyOf path' → p'.hasRun = true → p.isSettled = true) ∧
    (∀ i p, s.phase i = some p → p.isSettled = false →
      (∀ j, ¬Blocks s j i) → ∃ event : Event π, event.caller = some i ∧ (step keyOf s event).isSome = true) ∧
    (∀ j i, Blocks s j i → j < i ∧ ∃ p, s.phase j = some p ∧ p.isSettled = false) ∧
    (∀ event s', event.caller.isSome = true → step keyOf s event = some s' → s'.remaining < s.remaining) ∧
    ((∀ event : Event π, event.caller.isSome = true → step keyOf s event = none) →
      ∀ i p, s.phase i = some p → p.isSettled = true) ∧
    (∀ i, s.phase i = some .rejected → .resolveKey i false ∈ events ∧ i ∉ s.ran) ∧
    (∀ i key q, s.phase i = some (.finished key q) → s.ran.count i = 1) ∧
    (∀ key, (s.fileMutationQueues.get? key).isSome = true ↔ ∃ i, Pending s i key) := by
  have h := history_run keyOf events
  intro s
  refine ⟨?_, ?_, fun i p hi hp hfree => h.inv.enabled keyOf hi hp hfree,
    fun j i hb => ⟨hb.1, unsettled_of_blocks hb⟩, fun event s' hcal hstep => remaining_step hstep hcal,
    fun hstu => h.inv.settled_of_stuck keyOf hstu, fun i hi => ⟨h.rejected i hi, ?_⟩, ?_, ?_⟩
  · intro key i j q q' hi hj
    have hlt : ∀ {a b qa qb}, s.phase a = some (.running key qa) → s.phase b = some (.running key qb) → ¬a < b := by
      intro a b qa qb ha hb hab
      exact h.inv.turn b _ key qb false hb rfl rfl a hab ⟨qa, tag_of_phase ha⟩
    exact Nat.le_antisymm (Nat.le_of_not_lt (hlt hj hi)) (Nat.le_of_not_lt (hlt hi hj))
  · intro i j path path' p p' hij hi hj hkey hrun
    obtain ⟨key, queue, done, htag⟩ : ∃ key queue done, p'.tag = some (key, queue, done) := by
      cases p' <;> first | exact ⟨_, _, _, rfl⟩ | cases hrun
    have hturn := h.inv.turn j p' key queue done (phase_of_call hj) hrun htag i hij
    obtain ⟨r, hr, hreg⟩ := h.inv.before (phase_of_call hj) (by rintro rfl; cases hrun) i hij
    obtain rfl : p = r := Option.some.inj ((phase_of_call hi).symm.trans hr)
    -- the earlier call is registered; for this key, so it is not pending
    have hpend : ∀ k q, p.tag = some (k, q, false) → False := by
      intro k q hp
      have hk := h.keyed i path p k q false hi hp
      rw [hkey, ← h.keyed j path' p' key queue done hj htag] at hk
      subst hk
      exact hturn ⟨q, (tag_of_phase hr).trans hp⟩
    cases p with
    | waiting => cases hreg
    | resolving => cases hreg
    | registered k q | running k q => exact (hpend k q rfl).elim
    | finished k q => rfl
    | rejected => rfl
  · intro hmem
    obtain ⟨p, hp, hrun⟩ := (h.inv.ran_iff i).mp hmem
    rw [hi] at hp
    obtain rfl := Option.some.inj hp
    cases hrun
  · intro i key q hi
    exact count_eq_one_of_mem h.inv.ran_nodup ((h.inv.ran_iff i).mpr ⟨_, hi, rfl⟩)
  · intro key
    constructor
    · intro hsome
      obtain ⟨i, hi⟩ := Option.isSome_iff_exists.mp hsome
      exact ⟨i, (h.inv.map_some key i hi).1⟩
    · rintro ⟨i, hi⟩
      by_contra hnone
      exact h.inv.map_none key (by simpa using hnone) i hi

-- The second call of a file waits for the first, which fails; another file does not wait.
example :
    let s := run (fun path : ℕ => path) [.call 7, .call 7, .call 9, .register 0, .resolveKey 0 true,
      .register 1, .resolveKey 1 true, .register 2, .resolveKey 2 true, .begin 0, .begin 1,
      .begin 2, .finish 0 false, .begin 1]
    s.ran = [0, 2, 1] ∧ s.fileMutationQueues.get? 7 = some 1 := by decide
end

end MutationQueue
end EasyPi.CodingAgent
