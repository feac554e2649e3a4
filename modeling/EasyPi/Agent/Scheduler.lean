/-
# The resource scheduler

`packages/agent/src/resource-scheduler.ts`: a bounded number of execution
slots, and for each resource key either shared leases or one exclusive lease.
The scheduler is one object of an event loop, so each of its methods runs as
one step. `Scheduler` also has what the caller holds: the leases handed out
with the flag of their closure, the settled promises of `acquire`, the
aborted signals and the listeners on them. Calls of `acquire` and signals are
numbers, a lease is its position in `leases`.

A signal is aborted before its listeners are called, and other listeners may
use the scheduler in between, so `abort` and the call of a listener
(`onAbort`) are different steps.
-/
import EasyPi.Lib.OrdMap
import Mathlib.Data.Int.Notation
import Mathlib.Data.List.Induction

namespace EasyPi.Agent
namespace Scheduling

/-- `ResourceAccessMode`. -/
inductive AccessMode where
  | shared | exclusive
  deriving DecidableEq, Repr

/-- `ResourceRequest`. -/
structure Request where
  key : Option String := none
  mode : Option AccessMode := none
  deriving DecidableEq

/-- `request.mode ?? "exclusive"`. -/
def Request.access (r : Request) : AccessMode := r.mode.getD .exclusive

/-- The key of a request. The empty key is none. -/
def Request.resource (r : Request) : Option String := r.key.filter (· ≠ "")

/-- `Waiter`, with the number of its `acquire`. -/
structure Waiter where
  id : ℕ
  request : Request
  signal : Option ℕ
  deriving DecidableEq

/-- A lease handed out to the call `owner`. -/
structure Lease where
  owner : ℕ
  request : Request
  released : Bool := false
  deriving DecidableEq

/-- The scheduler and what its callers hold. `settled` has the promises that
are resolved, each with its lease or with `undefined`. -/
structure Scheduler where
  activeCount : ℤ := 0
  activeKeys : OrdMap String (List AccessMode) := ∅
  waiters : List Waiter := []
  calls : ℕ := 0
  leases : List Lease := []
  settled : List (ℕ × Option ℕ) := []
  aborted : List ℕ := []
  listeners : List (ℕ × ℕ) := []
  deriving DecidableEq

namespace Scheduler

variable (s : Scheduler)

/-- `signal?.aborted`. -/
def isAborted (signal : Option ℕ) : Bool := signal.any fun x => decide (x ∈ s.aborted)

/-- `this.activeKeys.get(key) ?? []`. -/
def modes (key : String) : List AccessMode := (s.activeKeys.get? key).getD []

/-- `resolve` of a promise: the first call counts. -/
def resolve (id : ℕ) (outcome : Option ℕ) : Scheduler :=
  if id ∈ s.settled.map Prod.fst then s else { s with settled := s.settled ++ [(id, outcome)] }

def canStart (maxConcurrency : ℕ) (s : Scheduler) (request : Request) : Bool :=
  if (maxConcurrency : ℤ) ≤ s.activeCount then false
  else match request.resource with
    | none => true
    | some key =>
      (s.modes key).isEmpty || (request.access = .shared && (s.modes key).all (· = .shared))

def pushMode (request : Request) : OrdMap String (List AccessMode) :=
  match request.resource with
  | none => s.activeKeys
  | some key => s.activeKeys.set key (s.modes key ++ [request.access])

/-- `start`, and the promise of the call resolved with the lease. -/
def start (id : ℕ) (request : Request) : Scheduler :=
  resolve { s with
    activeCount := s.activeCount + 1
    activeKeys := s.pushMode request
    leases := s.leases ++ [⟨id, request, false⟩] } id (some s.leases.length)

def acquire (maxConcurrency : ℕ) (s : Scheduler) (request : Request) (signal : Option ℕ) : Scheduler :=
  let id := s.calls
  let s := { s with calls := s.calls + 1 }
  if s.isAborted signal then s.resolve id none
  else if s.canStart maxConcurrency request then s.start id request
  else { s with
    waiters := s.waiters ++ [⟨id, request, signal⟩]
    listeners := s.listeners ++ (signal.map fun x => (id, x)).toList }

/-- `removeEventListener` of the waiter `id`. -/
def removeListener (id : ℕ) : Scheduler := { s with listeners := s.listeners.filter fun l => l.1 ≠ id }

/-- The loop of `schedule`: `kept` are the waiters before the index, the
others follow. -/
def scheduleFrom (maxConcurrency : ℕ) : Scheduler → List Waiter → List Waiter → Scheduler
  | s, kept, [] => { s with waiters := kept }
  | s, kept, waiter :: rest =>
    if s.isAborted waiter.signal then
      scheduleFrom maxConcurrency (s.resolve waiter.id none) kept rest
    else if !s.canStart maxConcurrency waiter.request then
      scheduleFrom maxConcurrency s (kept ++ [waiter]) rest
    else
      scheduleFrom maxConcurrency ((s.removeListener waiter.id).start waiter.id waiter.request)
        kept rest

def schedule (maxConcurrency : ℕ) (s : Scheduler) : Scheduler := scheduleFrom maxConcurrency s [] s.waiters

/-- The modes after a request is released: the last one is popped. -/
def popMode (request : Request) : OrdMap String (List AccessMode) :=
  match request.resource with
  | none => s.activeKeys
  | some key =>
    let modes := (s.modes key).dropLast
    if modes.isEmpty then s.activeKeys.erase key else s.activeKeys.set key modes

/-- The bookkeeping of `release`, before `schedule`. -/
def free (i : ℕ) (lease : Lease) : Scheduler :=
  { s with
    activeCount := s.activeCount - 1
    activeKeys := s.popMode lease.request
    leases := s.leases.set i { lease with released := true } }

/-- `release` of a lease. -/
def release (maxConcurrency : ℕ) (s : Scheduler) (i : ℕ) : Scheduler :=
  match s.leases[i]? with
  | none => s
  | some lease => if lease.released then s else (s.free i lease).schedule maxConcurrency

/-- `abort` of a signal. Its listeners are called later. -/
def abort (signal : ℕ) : Scheduler := { s with aborted := s.aborted ++ [signal] }

/-- `waiter.onAbort`, while it is registered and its signal is aborted. -/
def onAbort (id : ℕ) : Scheduler :=
  if s.listeners.any fun l => l.1 = id && s.isAborted (some l.2) then
    ({ s.removeListener id with waiters := s.waiters.filter fun w => w.id ≠ id }).resolve id none
  else s

end Scheduler

open List List Scheduler

inductive Event where
  | acquire (request : Request) (signal : Option ℕ)
  | release (lease : ℕ)
  | abort (signal : ℕ)
  | onAbort (id : ℕ)

def step (maxConcurrency : ℕ) (s : Scheduler) : Event → Scheduler
  | .acquire request signal => s.acquire maxConcurrency request signal
  | .release lease => s.release maxConcurrency lease
  | .abort signal => s.abort signal
  | .onAbort id => s.onAbort id

/-- The scheduler after the steps, from a new one. -/
def run (maxConcurrency : ℕ) (events : List Event) : Scheduler := events.foldl (step maxConcurrency) {}

/-- The leases that are not released. -/
def Scheduler.granted (s : Scheduler) : List Lease := s.leases.filter fun l => !l.released

/-- The access of the granted leases of a key. -/
def Scheduler.held (s : Scheduler) (key : String) : List AccessMode :=
  (s.granted.filter fun l => l.request.resource = some key).map (·.request.access)

def Compatible (modes : List AccessMode) : Prop := (∀ m ∈ modes, m = .shared) ∨ modes = [.exclusive]

/-- No two settlements of one call, and the leases are those of the settled calls. -/
structure Settlements (s : Scheduler) : Prop where
  nodup : (s.settled.map Prod.fst).Nodup
  lt : ∀ p ∈ s.settled, p.1 < s.calls
  lease : ∀ i l, s.leases[i]? = some l → (l.owner, some i) ∈ s.settled
  owner : ∀ id i, (id, some i) ∈ s.settled → ∃ l, s.leases[i]? = some l ∧ l.owner = id

/-- The state of the scheduler while `waiting` are the calls in its queue. -/
structure Inv (maxConcurrency : ℕ) (s : Scheduler) (waiting : List Waiter) : Prop where
  count : s.activeCount = s.granted.length
  cap : s.activeCount ≤ maxConcurrency
  modes : ∀ key, s.activeKeys.get? key = if s.held key = [] then none else some (s.held key)
  compatible : ∀ key, Compatible (s.held key)
  settlements : Settlements s
  waiting_nodup : (waiting.map (·.id)).Nodup
  waiting_lt : ∀ w ∈ waiting, w.id < s.calls
  waiting_open : ∀ w ∈ waiting, w.id ∉ s.settled.map Prod.fst
  listening : ∀ l ∈ s.listeners, l.1 < s.calls

def Blocked (maxConcurrency : ℕ) (s : Scheduler) (waiting : List Waiter) : Prop :=
  ∀ w ∈ waiting, s.canStart maxConcurrency w.request = false

/-- What every step keeps. -/
def Steady (maxConcurrency : ℕ) (s : Scheduler) : Prop :=
  Inv maxConcurrency s s.waiters ∧ Blocked maxConcurrency s s.waiters

theorem Compatible.dropLast_eq {a b : List AccessMode} {m : AccessMode}
    (h : Compatible (a ++ m :: b)) : (a ++ m :: b).dropLast = a ++ b := by
  rcases h with h | h
  · -- all elements are equal, so it does not matter which one goes
    have hab : ∀ x ∈ a ++ b, x = .shared := fun x hx => h x (by
      rcases mem_append.mp hx with hx | hx <;> simp [hx])
    rw [eq_replicate_of_mem hab, eq_replicate_of_mem h]
    simp
  · obtain ⟨rfl, rfl, rfl⟩ : a = [] ∧ m = .exclusive ∧ b = [] := by
      cases a <;> simp_all
    rfl

theorem Compatible.of_append {a b : List AccessMode} {m : AccessMode}
    (h : Compatible (a ++ m :: b)) : Compatible (a ++ b) := by
  rcases h with h | h
  · exact .inl fun x hx => h x (by rcases mem_append.mp hx with hx | hx <;> simp [hx])
  · obtain ⟨rfl, -, rfl⟩ : a = [] ∧ m = .exclusive ∧ b = [] := by
      cases a <;> simp_all
    exact .inl (by simp)

section
variable {limit : ℕ} {s : Scheduler} {waiting : List Waiter}

variable (h : Inv limit s waiting)

include h in
theorem Inv.modes_eq (key : String) : s.modes key = s.held key := by
  unfold Scheduler.modes
  rw [h.modes]
  split_ifs with hnil
  · exact hnil.symm
  · rfl

include h in
theorem Inv.canStart_iff (r : Request) :
    s.canStart limit r = true ↔ s.activeCount < limit ∧ ∀ key, r.resource = some key →
        s.held key = [] ∨ (r.access = .shared ∧ ∀ m ∈ s.held key, m = .shared) := by
  unfold Scheduler.canStart
  split_ifs with hcap
  · simp only [false_iff, not_and]
    omega
  · have hlt : s.activeCount < limit := by omega
    cases hr : r.resource with
    | none => simp [hlt]
    | some key => simp [hlt, h.modes_eq]

/-! ### Starting -/

variable {id : ℕ}

theorem resolve_of_open {outcome : Option ℕ} (h : id ∉ s.settled.map Prod.fst) :
    s.resolve id outcome = { s with settled := s.settled ++ [(id, outcome)] } := if_neg h

theorem start_of_open (h : id ∉ s.settled.map Prod.fst) (r : Request) :
    s.start id r = { s with
      activeCount := s.activeCount + 1
      activeKeys := s.pushMode r
      leases := s.leases ++ [⟨id, r, false⟩]
      settled := s.settled ++ [(id, some s.leases.length)] } := if_neg h

theorem held_start (hid : id ∉ s.settled.map Prod.fst) (r : Request) (key : String) :
    (s.start id r).held key = if r.resource = some key then s.held key ++ [r.access] else s.held key := by
  rw [start_of_open hid]
  simp only [Scheduler.held, Scheduler.granted, filter_append, List.map_append]
  by_cases hr : r.resource = some key <;> simp [hr]

theorem Settlements.nodup_append (h : Settlements s) (outcome : Option ℕ)
    (hid : id ∉ s.settled.map Prod.fst) : ((s.settled ++ [(id, outcome)]).map Prod.fst).Nodup := by
  rw [List.map_append, List.nodup_append]
  refine ⟨h.nodup, by simp, fun a ha b hb => ?_⟩
  obtain rfl : b = id := by simpa using hb
  exact fun hab => hid (hab ▸ ha)

theorem Settlements.lt_append (h : Settlements s) (outcome : Option ℕ)
    (hlt : id < s.calls) : ∀ p ∈ s.settled ++ [(id, outcome)], p.1 < s.calls :=
  forall_mem_append.mpr ⟨h.lt, forall_mem_singleton.mpr hlt⟩

include h in
theorem Inv.start {r : Request} (hid : id ∉ s.settled.map Prod.fst) (hlt : id < s.calls)
    (hw : ∀ w ∈ waiting, w.id ≠ id) (hcan : s.canStart limit r = true) : Inv limit (s.start id r) waiting := by
  obtain ⟨hcap, hkey⟩ := (h.canStart_iff r).mp hcan
  have hheld := held_start (s := s) hid r
  rw [start_of_open hid] at hheld ⊢
  constructor
  · simp [Scheduler.granted, h.count]
  · exact Int.add_one_le_of_lt hcap
  · intro key
    rw [hheld]
    cases hr : r.resource with
    | none => simpa [Scheduler.pushMode, hr] using h.modes key
    | some k =>
      simp only [Scheduler.pushMode, hr, OrdMap.get?_set, h.modes_eq]
      by_cases hk : key = k
      · simp [hk]
      · simp [hk, Ne.symm hk, h.modes key]
  · intro key
    rw [hheld]
    split_ifs with hr
    · rcases hkey key hr with hnil | ⟨hsha, hall⟩
      · rw [hnil, nil_append]
        cases ha : r.access with
        | shared => exact .inl (by simp)
        | exclusive => exact .inr rfl
      · refine .inl fun m hm => ?_
        rcases mem_append.mp hm with hm | hm
        · exact hall m hm
        · rw [mem_singleton.mp hm, hsha]
    · exact h.compatible key
  · constructor
    · exact h.settlements.nodup_append _ hid
    · exact h.settlements.lt_append _ hlt
    · intro i l hl
      rcases Nat.lt_or_ge i s.leases.length with hi | hi
      · rw [List.getElem?_append_left hi] at hl
        exact mem_append_left _ (h.settlements.lease i l hl)
      · rw [List.getElem?_append_right hi] at hl
        obtain ⟨hi', rfl⟩ := List.getElem?_eq_some_iff.mp hl
        simp only [length_singleton] at hi'
        have : i = s.leases.length := by omega
        simp [this]
    · intro id' i hmem
      rcases mem_append.mp hmem with hmem | hmem
      · obtain ⟨l, hl, hown⟩ := h.settlements.owner id' i hmem
        exact ⟨l, by rw [List.getElem?_append_left (List.getElem?_eq_some_iff.mp hl).1, hl], hown⟩
      · obtain ⟨rfl, hi⟩ := Prod.mk.inj (mem_singleton.mp hmem)
        obtain rfl := Option.some.inj hi
        exact ⟨⟨id', r, false⟩, by simp, rfl⟩
  · exact h.waiting_nodup
  · exact h.waiting_lt
  · intro w hmem hs
    rw [List.map_append, mem_append] at hs
    rcases hs with hs | hs
    · exact h.waiting_open w hmem hs
    · exact hw w hmem (by simpa using hs)
  · exact h.listening

include h in
theorem canStart_of_start {r r' : Request} (hid : id ∉ s.settled.map Prod.fst) (hs : Inv limit (s.start id r) waiting)
    (hcan : (s.start id r).canStart limit r' = true) : s.canStart limit r' = true := by
  obtain ⟨hcap, hkey⟩ := (hs.canStart_iff r').mp hcan
  refine (h.canStart_iff r').mpr ⟨?_, fun key hr' => ?_⟩
  · rw [start_of_open hid] at hcap
    exact Int.lt_trans (Int.lt_succ _) hcap
  · have hk := hkey key hr'
    rw [held_start hid] at hk
    split_ifs at hk
    · rcases hk with hk | ⟨hsha, hall⟩
      · simp at hk
      · exact .inr ⟨hsha, fun m hm => hall m (mem_append_left _ hm)⟩
    · exact hk

/-! ### The queue -/

include h in
theorem Inv.congr {s' : Scheduler} (hcnt : s'.activeCount = s.activeCount) (hkeys : s'.activeKeys = s.activeKeys)
    (hlss : s'.leases = s.leases) (hstl : s'.settled = s.settled)
    (hcls : s'.calls = s.calls) (hlisten : s'.listeners ⊆ s.listeners) : Inv limit s' waiting := by
  obtain ⟨count, cap, modes, compatible, ⟨nodup, lt, lease, owner⟩, wnodup, wlt, wopen, listening⟩ := h
  have hheld : s'.held = s.held := by
    funext key
    simp only [Scheduler.held, Scheduler.granted, hlss]
  refine ⟨?_, hcnt ▸ cap, ?_, hheld ▸ compatible, ⟨?_, ?_, ?_, ?_⟩, wnodup, hcls ▸ wlt,
    hstl ▸ wopen, fun l hl => hcls ▸ listening l (hlisten hl)⟩
  · rw [hcnt, count, Scheduler.granted, Scheduler.granted, hlss]
  · rw [hkeys, hheld]
    exact modes
  · rw [hstl]
    exact nodup
  · rw [hstl, hcls]
    exact lt
  · rw [hlss, hstl]
    exact lease
  · rw [hlss, hstl]
    exact owner

theorem canStart_congr {s' : Scheduler} (hcnt : s'.activeCount = s.activeCount)
    (hkeys : s'.activeKeys = s.activeKeys) (r : Request) : s'.canStart limit r = s.canStart limit r := by
  simp only [Scheduler.canStart, Scheduler.modes, hcnt, hkeys]

include h in
theorem Inv.sublist {waiting' : List Waiter} (hsub : waiting'.Sublist waiting) : Inv limit s waiting' where
  count := h.count
  cap := h.cap
  modes := h.modes
  compatible := h.compatible
  settlements := h.settlements
  waiting_nodup := h.waiting_nodup.sublist (hsub.map _)
  waiting_lt := fun w hw => h.waiting_lt w (hsub.subset hw)
  waiting_open := fun w hw => h.waiting_open w (hsub.subset hw)
  listening := h.listening

theorem Inv.resolve_none (h : Inv limit s waiting) (hlt : id < s.calls)
    (hw : ∀ w ∈ waiting, w.id ≠ id) : Inv limit (s.resolve id none) waiting := by
  by_cases hid : id ∈ s.settled.map Prod.fst
  · rw [Scheduler.resolve, if_pos hid]
    exact h
  rw [resolve_of_open hid]
  refine ⟨h.count, h.cap, h.modes, h.compatible, ⟨?_, ?_, ?_, ?_⟩, h.waiting_nodup, h.waiting_lt, ?_, h.listening⟩
  · exact h.settlements.nodup_append _ hid
  · exact h.settlements.lt_append _ hlt
  · exact fun i l hl => mem_append_left _ (h.settlements.lease i l hl)
  · intro id' i hmem
    rcases mem_append.mp hmem with hmem | hmem
    · exact h.settlements.owner id' i hmem
    · cases (Prod.mk.inj (mem_singleton.mp hmem)).2
  · intro w hmem hs
    rw [List.map_append, mem_append] at hs
    rcases hs with hs | hs
    · exact h.waiting_open w hmem hs
    · exact hw w hmem (by simpa using hs)

theorem Blocked.resolve {outcome : Option ℕ} (h : Blocked limit s waiting) :
    Blocked limit (s.resolve id outcome) waiting := by
  intro w hw
  have hcnt : (s.resolve id outcome).activeCount = s.activeCount := by
    unfold Scheduler.resolve
    split_ifs <;> rfl
  have hkeys : (s.resolve id outcome).activeKeys = s.activeKeys := by
    unfold Scheduler.resolve
    split_ifs <;> rfl
  rw [canStart_congr hcnt hkeys]
  exact h w hw

theorem Inv.ne_of_middle {kept rest : List Waiter} {w : Waiter}
    (h : Inv limit s (kept ++ w :: rest)) : ∀ x ∈ kept ++ rest, x.id ≠ w.id := by
  have hnd := h.waiting_nodup
  rw [List.map_append, map_cons, nodup_middle, nodup_cons, ← List.map_append]
    at hnd
  exact fun x hx heq => hnd.1 (heq ▸ mem_map_of_mem hx)

/-- **The loop of `schedule` keeps the invariant and leaves no waiter that can start.** -/
theorem Inv.scheduleFrom (rest : List Waiter) : ∀ {s : Scheduler} {kept : List Waiter},
    Inv limit s (kept ++ rest) → Blocked limit s kept → Steady limit (s.scheduleFrom limit kept rest) := by
  induction rest with
  | nil =>
    intro s kept h hb
    rw [append_nil] at h
    exact ⟨h.congr rfl rfl rfl rfl rfl (List.Subset.refl _), fun w hw => hb w hw⟩
  | cons w rest ih =>
    intro s kept h hb
    have hne := h.ne_of_middle
    have hw : w ∈ kept ++ w :: rest := by simp
    have hrest : (kept ++ rest).Sublist (kept ++ w :: rest) := (sublist_cons_self w rest).append_left kept
    rw [Scheduler.scheduleFrom]
    split_ifs with habo hcan
    · exact ih ((h.sublist hrest).resolve_none (h.waiting_lt w hw) hne) hb.resolve
    · exact ih (by rwa [append_assoc]) (forall_mem_append.mpr ⟨hb, forall_mem_singleton.mpr (by simpa using hcan)⟩)
    · have h' : Inv limit (s.removeListener w.id) (kept ++ rest) :=
        (h.sublist hrest).congr rfl rfl rfl rfl rfl (filter_subset_self _)
      have hopen := h.waiting_open w hw
      have hsame : ∀ r, (s.removeListener w.id).canStart limit r = s.canStart limit r := fun _ => rfl
      have hpre := h'.start hopen (h.waiting_lt w hw) hne (by simpa [hsame] using hcan)
      refine ih hpre fun x hx => ?_
      -- what was blocked before is blocked after one more start
      by_contra hx'
      have hx'' := canStart_of_start h' hopen hpre (by simpa using hx')
      rw [hsame, hb x hx] at hx''
      cases hx''

/-! ### Releasing -/

include h in
/-- A lease is given back: its slot is free, and its mode is no longer recorded. -/
theorem Inv.free {i : ℕ} {l : Lease}
    (hl : s.leases[i]? = some l) (hr : l.released = false) : Inv limit (s.free i l) waiting := by
  obtain ⟨hi, hget⟩ := List.getElem?_eq_some_iff.mp hl
  -- the leases before and after the one released
  have hspl : s.leases = s.leases.take i ++ l :: s.leases.drop (i + 1) := by
    rw [← hget, getElem_cons_drop, take_append_drop]
  have hset : (s.free i l).leases = s.leases.take i ++ { l with released := true } :: s.leases.drop (i + 1) :=
    set_eq_take_append_cons_drop.trans (if_pos hi)
  have hgra : ∃ a b, s.granted = a ++ l :: b ∧ (s.free i l).granted = a ++ b := by
    refine ⟨(s.leases.take i).filter fun l => !l.released, (s.leases.drop (i + 1)).filter fun l => !l.released, ?_, ?_⟩
    · rw [Scheduler.granted]
      conv_lhs => rw [hspl]
      simp [hr]
    · rw [Scheduler.granted, hset]
      simp
  obtain ⟨a, b, hbef, haft⟩ := hgra
  have hheld : ∀ key, ∃ x y, (s.free i l).held key = x ++ y ∧ s.held key =
      if l.request.resource = some key then x ++ l.request.access :: y else x ++ y := by
    intro key
    refine ⟨((a.filter fun l => l.request.resource = some key).map (·.request.access)),
      ((b.filter fun l => l.request.resource = some key).map (·.request.access)), ?_, ?_⟩
    · simp [Scheduler.held, haft]
    · by_cases hk : l.request.resource = some key <;> simp [Scheduler.held, hbef, hk]
  have hls : ∀ (j : ℕ) (l' : Lease), (s.free i l).leases[j]? = some l' →
      ∃ l₀, s.leases[j]? = some l₀ ∧ l₀.owner = l'.owner := by
    intro j l' hj
    simp only [Scheduler.free, List.getElem?_set] at hj
    split_ifs at hj with hij
    · subst hij
      exact ⟨l, hl, by rw [← Option.some.inj hj]⟩
    · exact ⟨l', hj, rfl⟩
  constructor
  · change s.activeCount - 1 = _
    rw [haft, h.count, hbef]
    simp
    omega
  · exact Int.le_trans (Int.sub_le_self _ (by decide)) h.cap
  · intro key
    change (s.popMode l.request).get? key = _
    obtain ⟨x, y, hx, hy⟩ := hheld key
    rw [hx]
    cases hres : l.request.resource with
    | none =>
      rw [hres, if_neg (by simp)] at hy
      simp only [Scheduler.popMode, hres, h.modes, hy]
    | some k =>
      by_cases hk : key = k
      · subst hk
        rw [hres, if_pos rfl] at hy
        have hpop : (s.modes key).dropLast = x ++ y := by
          rw [h.modes_eq, hy]
          exact Compatible.dropLast_eq (hy ▸ h.compatible key)
        simp only [Scheduler.popMode, hres, hpop, List.isEmpty_iff]
        split_ifs with hnil
        · simp
        · simp
      · rw [hres, if_neg (by simp [Ne.symm hk])] at hy
        have hoth : (s.popMode l.request).get? key = s.activeKeys.get? key := by
          simp only [Scheduler.popMode, hres]
          split_ifs <;> simp [hk]
        rw [hoth, h.modes, hy]
  · intro key
    obtain ⟨x, y, hx, hy⟩ := hheld key
    rw [hx]
    have hc := h.compatible key
    rw [hy] at hc
    split_ifs at hc
    · exact hc.of_append
    · exact hc
  · refine ⟨h.settlements.nodup, h.settlements.lt, fun j l' hj => ?_, fun id j hmem => ?_⟩
    · obtain ⟨l₀, hl₀, hown⟩ := hls j l' hj
      rw [← hown]
      exact h.settlements.lease j l₀ hl₀
    · obtain ⟨l₀, hl₀, hown⟩ := h.settlements.owner id j hmem
      have hj : j < (s.free i l).leases.length := by
        simpa [Scheduler.free] using (List.getElem?_eq_some_iff.mp hl₀).1
      refine ⟨_, List.getElem?_eq_getElem hj, ?_⟩
      obtain ⟨l₁, hl₁, howner₁⟩ := hls j _ (List.getElem?_eq_getElem hj)
      rw [← howner₁, ← hown]
      exact congrArg Lease.owner (Option.some.inj (hl₁.symm.trans hl₀))
  · exact h.waiting_nodup
  · exact h.waiting_lt
  · exact h.waiting_open
  · exact h.listening

/-! ### Every step -/

theorem Steady.acquire (hs : Steady limit s) (r : Request) (signal : Option ℕ) :
    Steady limit (s.acquire limit r signal) := by
  obtain ⟨h, hb⟩ := hs
  -- the call has a new number
  set s₁ : Scheduler := { s with calls := s.calls + 1 } with hs₁
  have hopen : s.calls ∉ s₁.settled.map Prod.fst := by
    intro hmem
    obtain ⟨p, hp, heq⟩ := mem_map.mp hmem
    exact Nat.lt_irrefl _ (heq ▸ h.settlements.lt p hp)
  have hne : ∀ w ∈ s₁.waiters, w.id ≠ s.calls := fun w hw => Nat.ne_of_lt (h.waiting_lt w hw)
  have h₁ : Inv limit s₁ s₁.waiters :=
    ⟨h.count, h.cap, h.modes, h.compatible, ⟨h.settlements.nodup, fun p hp => Nat.lt_succ_of_lt (h.settlements.lt p hp),
        h.settlements.lease, h.settlements.owner⟩,
      h.waiting_nodup, fun w hw => Nat.lt_succ_of_lt (h.waiting_lt w hw), h.waiting_open,
      fun l hl => Nat.lt_succ_of_lt (h.listening l hl)⟩
  have hb₁ : Blocked limit s₁ s₁.waiters := hb
  unfold Scheduler.acquire
  simp only [← hs₁]
  split_ifs with habo hcan
  · rw [resolve_of_open hopen]
    have := h₁.resolve_none (Nat.lt_succ_self _) hne
    rw [resolve_of_open hopen] at this
    exact ⟨this, hb₁⟩
  · have hpre := h₁.start hopen (Nat.lt_succ_self _) hne hcan
    have hwai : (s₁.start s.calls r).waiters = s₁.waiters := by rw [start_of_open hopen]
    rw [Steady, hwai]
    refine ⟨hpre, fun w hw => ?_⟩
    by_contra hw'
    have := canStart_of_start h₁ hopen hpre (by simpa using hw')
    rw [hb₁ w hw] at this
    cases this
  · have hset := h₁.settlements
    refine ⟨⟨h₁.count, h₁.cap, h₁.modes, h₁.compatible,
      ⟨hset.nodup, hset.lt, hset.lease, hset.owner⟩, ?_, ?_, ?_, ?_⟩, ?_⟩
    · rw [List.map_append, List.nodup_append]
      refine ⟨h₁.waiting_nodup, by simp, fun a ha b hb => ?_⟩
      obtain ⟨w, hw, rfl⟩ := mem_map.mp ha
      obtain rfl : b = s.calls := by simpa using hb
      exact hne w hw
    · exact forall_mem_append.mpr ⟨h₁.waiting_lt, forall_mem_singleton.mpr (Nat.lt_succ_self _)⟩
    · exact forall_mem_append.mpr ⟨h₁.waiting_open, forall_mem_singleton.mpr hopen⟩
    · intro l hl
      rcases mem_append.mp hl with hl | hl
      · exact h₁.listening l hl
      · obtain ⟨x, -, rfl⟩ := Option.map_eq_some_iff.mp (Option.mem_toList.mp hl)
        exact Nat.lt_succ_self _
    · exact forall_mem_append.mpr ⟨hb₁, forall_mem_singleton.mpr (Bool.eq_false_iff.mpr hcan)⟩

theorem Steady.release (h : Steady limit s) (i : ℕ) : Steady limit (s.release limit i) := by
  unfold Scheduler.release
  split
  · exact h
  · rename_i l hl
    split_ifs with hr
    · exact h
    · have hfree : Inv limit (s.free i l) ([] ++ s.waiters) := h.1.free hl (by simpa using hr)
      exact Inv.scheduleFrom s.waiters hfree fun w hw => by cases hw

theorem Steady.onAbort (hs : Steady limit s) (id : ℕ) : Steady limit (s.onAbort id) := by
  obtain ⟨h, hb⟩ := hs
  unfold Scheduler.onAbort
  split_ifs with hany
  · obtain ⟨l, hmem, hl'⟩ := any_eq_true.mp hany
    obtain ⟨rfl, -⟩ : l.1 = id ∧ _ := by simpa using hl'
    set waiters := s.waiters.filter fun w => w.id ≠ l.1 with hwai
    set s₁ : Scheduler := { s.removeListener l.1 with waiters := waiters } with hs₁
    have hres : (s₁.resolve l.1 none).waiters = waiters := by
      unfold Scheduler.resolve
      split_ifs <;> rfl
    rw [Steady, hres]
    have h₁ : Inv limit s₁ waiters := (h.sublist filter_sublist).congr rfl rfl rfl rfl rfl (filter_subset_self _)
    have hne : ∀ w ∈ waiters, w.id ≠ l.1 := fun w hw => by simpa using (mem_filter.mp hw).2
    refine ⟨h₁.resolve_none (h.listening l hmem) hne, Blocked.resolve fun w hw => ?_⟩
    exact hb w (mem_filter.mp hw).1
  · exact ⟨h, hb⟩

theorem Steady.step (h : Steady limit s) (event : Event) : Steady limit (step limit s event) := by
  cases event with
  | acquire request signal => exact h.acquire request signal
  | release i => exact h.release i
  | abort signal => exact ⟨h.1.congr rfl rfl rfl rfl rfl (List.Subset.refl _), h.2⟩
  | onAbort id => exact h.onAbort id

end

theorem inv_new (limit : ℕ) : Inv limit {} [] where
  count := rfl
  cap := Int.natCast_nonneg _
  modes := fun _ => rfl
  compatible := fun _ => .inl (by simp [Scheduler.held, Scheduler.granted])
  settlements := ⟨by simp, by simp, by simp, by simp⟩
  waiting_nodup := by simp
  waiting_lt := by simp
  waiting_open := by simp
  listening := by simp

theorem Steady.run {limit : ℕ} (events : List Event) : ∀ {s : Scheduler},
    Steady limit s → Steady limit (events.foldl (Scheduling.step limit) s) := by
  induction events with
  | nil => exact id
  | cons event events ih => exact fun h => ih (h.step event)

/-! ### Signals -/

/-- The signals of the calls of `acquire`, in the order of the calls. -/
def signals (events : List Event) : List (Option ℕ) :=
  events.filterMap fun
    | .acquire _ signal => some signal
    | _ => none

section
variable {limit : ℕ} {s s' : Scheduler} {events before after : List Event} {id signal : ℕ}

/-- What becomes of the calls `waiting` in the queue: they stay there with their listeners or are settled, and a lease is
granted to none of them whose signal is aborted. -/
structure Served (waiting : List Waiter) (s s' : Scheduler) : Prop where
  calls : s'.calls = s.calls
  aborted : s'.aborted = s.aborted
  waiters : s'.waiters ⊆ waiting
  listeners : ∀ w ∈ s'.waiters, ∀ l ∈ s.listeners, l.1 = w.id → l ∈ s'.listeners
  settled : s.settled ⊆ s'.settled
  ends : ∀ w ∈ waiting, w.id ∈ s'.settled.map Prod.fst ∨ w.id ∈ s'.waiters.map (·.id)
  leases : ∀ l ∈ s'.leases, l.owner ∈ s.leases.map (·.owner) ∨
    ∃ w ∈ waiting, w.id = l.owner ∧ s.isAborted w.signal = false

theorem settled_subset_resolve (s : Scheduler) (id : ℕ) (outcome : Option ℕ) :
    s.settled ⊆ (s.resolve id outcome).settled ∧ id ∈ (s.resolve id outcome).settled.map Prod.fst := by
  unfold Scheduler.resolve
  split_ifs with hmem
  · exact ⟨List.Subset.refl _, hmem⟩
  · exact ⟨subset_append_left _ _, by simp⟩

theorem resolve_eq (s : Scheduler) (id : ℕ) (outcome : Option ℕ) :
    s.resolve id outcome = { s with settled := (s.resolve id outcome).settled } := by
  unfold Scheduler.resolve
  split_ifs <;> rfl

theorem Served.refl (s : Scheduler) : Served s.waiters s s :=
  ⟨rfl, rfl, List.Subset.refl _, fun _ _ _ hl _ => hl, List.Subset.refl _, fun _ hw => .inr (mem_map_of_mem hw),
    fun _ hl => .inl (mem_map_of_mem hl)⟩

/-- A waiter that leaves the queue is settled, and has a lease only if its signal is not aborted. -/
theorem Served.of_settled {kept rest : List Waiter} {w : Waiter} {s₁ : Scheduler} (h : Served (kept ++ rest) s₁ s')
    (hw : w.id ∉ (kept ++ rest).map (·.id)) (hcls : s₁.calls = s.calls) (habo : s₁.aborted = s.aborted)
    (hlisten : ∀ l ∈ s.listeners, l.1 ≠ w.id → l ∈ s₁.listeners)
    (hset : s.settled ⊆ s₁.settled ∧ w.id ∈ s₁.settled.map Prod.fst)
    (hlss : ∀ l ∈ s₁.leases, l ∈ s.leases ∨ w.id = l.owner ∧ s.isAborted w.signal = false) :
    Served (kept ++ w :: rest) s s' := by
  have hrest : kept ++ rest ⊆ kept ++ w :: rest := ((sublist_cons_self w rest).append_left kept).subset
  refine ⟨h.calls.trans hcls, h.aborted.trans habo, fun x hx => hrest (h.waiters hx), fun x hx l hl hown => ?_,
    fun p hp => h.settled (hset.1 hp), fun x hx => ?_, fun l hl => ?_⟩
  · have hne : l.1 ≠ w.id := fun heq => hw (heq ▸ hown ▸ mem_map_of_mem (h.waiters hx))
    exact h.listeners x hx l (hlisten l hl hne) hown
  · rcases mem_cons.mp (perm_middle.mem_iff.mp hx) with rfl | hx
    · exact .inl (map_subset _ h.settled hset.2)
    · exact h.ends x hx
  · rcases h.leases l hl with hold | ⟨x, hx, hown, hopen⟩
    · obtain ⟨l', hl', hown⟩ := mem_map.mp hold
      exact (hlss l' hl').imp (fun hl' => hown ▸ mem_map_of_mem hl') fun ⟨heq, hopen⟩ => ⟨w, by simp, heq.trans hown, hopen⟩
    · exact .inr ⟨x, hrest hx, hown, by rwa [Scheduler.isAborted, ← habo]⟩

theorem Served.scheduleFrom (rest : List Waiter) : ∀ {s : Scheduler} {kept : List Waiter},
    ((kept ++ rest).map (·.id)).Nodup → Served (kept ++ rest) s (s.scheduleFrom limit kept rest) := by
  induction rest with
  | nil =>
    intro s kept _
    rw [append_nil]
    exact ⟨rfl, rfl, List.Subset.refl _, fun _ _ _ hl _ => hl, List.Subset.refl _, fun w hw => .inr (mem_map_of_mem hw),
      fun l hl => .inl (mem_map_of_mem hl)⟩
  | cons w rest ih =>
    intro s kept hnodup
    obtain ⟨hw, hnodup'⟩ : w.id ∉ (kept ++ rest).map (·.id) ∧ ((kept ++ rest).map (·.id)).Nodup := by
      rwa [List.map_append, map_cons, nodup_middle, nodup_cons, ← List.map_append] at hnodup
    rw [Scheduler.scheduleFrom]
    split_ifs with habo hcan
    · have hset := settled_subset_resolve s w.id none
      have h := @ih (s.resolve w.id none) kept hnodup'
      rw [resolve_eq] at h ⊢
      exact h.of_settled hw rfl rfl (fun _ hl _ => hl) hset fun _ hl => .inl hl
    · have happ : kept ++ w :: rest = kept ++ [w] ++ rest := append_cons kept w rest
      rw [happ] at hnodup ⊢
      exact ih hnodup
    · have hset := settled_subset_resolve { s.removeListener w.id with
        activeCount := s.activeCount + 1
        activeKeys := (s.removeListener w.id).pushMode w.request
        leases := s.leases ++ [⟨w.id, w.request, false⟩] } w.id (some s.leases.length)
      have h := @ih ((s.removeListener w.id).start w.id w.request) kept hnodup'
      rw [Scheduler.start, resolve_eq] at h ⊢
      refine h.of_settled hw rfl rfl (fun l hl hne => mem_filter.mpr ⟨hl, decide_eq_true hne⟩) hset ?_
      exact forall_mem_append.mpr ⟨fun _ hl => .inl hl, forall_mem_singleton.mpr (.inr ⟨rfl, by simpa using habo⟩)⟩

theorem Served.release (h : Inv limit s s.waiters) (i : ℕ) : Served s.waiters s (s.release limit i) := by
  unfold Scheduler.release
  split
  · exact .refl s
  · rename_i l hl
    split_ifs with hr
    · exact .refl s
    · have hfree := @Served.scheduleFrom limit s.waiters (s.free i l) [] h.waiting_nodup
      obtain ⟨hi, hget⟩ := List.getElem?_eq_some_iff.mp hl
      have howners : (s.free i l).leases.map (·.owner) = s.leases.map (·.owner) := by
        have howner : l.owner = (s.leases.map (·.owner)).get ⟨i, by simpa using hi⟩ := by simp [hget]
        rw [Scheduler.free, map_set, howner]
        exact set_getElem_self _
      exact ⟨hfree.calls, hfree.aborted, hfree.waiters, hfree.listeners, hfree.settled, hfree.ends, howners ▸ hfree.leases⟩

theorem Served.onAbort (s : Scheduler) (id : ℕ) : Served s.waiters s (s.onAbort id) := by
  unfold Scheduler.onAbort
  split_ifs with hany
  · obtain ⟨hset, hid⟩ := settled_subset_resolve
      { s.removeListener id with waiters := s.waiters.filter fun w => w.id ≠ id } id none
    rw [resolve_eq]
    refine ⟨rfl, rfl, filter_subset_self _, fun w hw l hl hown => ?_, hset, fun w hw => ?_, fun l hl => .inl (mem_map_of_mem hl)⟩
    · exact mem_filter.mpr ⟨hl, hown ▸ (mem_filter.mp hw).2⟩
    · by_cases hwid : w.id = id
      · exact .inl (hwid ▸ hid)
      · exact .inr (mem_map_of_mem (mem_filter.mpr ⟨hw, decide_eq_true hwid⟩))
  · exact .refl s

theorem signals_append (events after : List Event) : signals (events ++ after) = signals events ++ signals after :=
  filterMap_append

/-- The signals of the events are those that the scheduler knows, each waiting call listens to its own, and every call is
settled or waits. -/
structure Heard (events : List Event) (s : Scheduler) : Prop where
  calls : s.calls = (signals events).length
  aborted : ∀ signal, .abort signal ∈ events → signal ∈ s.aborted
  signal : ∀ w ∈ s.waiters, (signals events)[w.id]? = some w.signal
  listener : ∀ w ∈ s.waiters, ∀ signal, w.signal = some signal → (w.id, signal) ∈ s.listeners
  ends : ∀ id < s.calls, id ∈ s.settled.map Prod.fst ∨ id ∈ s.waiters.map (·.id)

theorem Heard.served (h : Heard events s) (hserved : Served s.waiters s s') {event : Event}
    (hsignals : signals [event] = []) (habort : ∀ signal, event ≠ .abort signal) : Heard (events ++ [event]) s' := by
  have heq : signals (events ++ [event]) = signals events := by rw [signals_append, hsignals, append_nil]
  refine ⟨?_, fun signal hmem => ?_, fun w hw => ?_, fun w hw signal hsig => ?_, fun id hid => ?_⟩
  · rw [hserved.calls, h.calls, heq]
  · rw [hserved.aborted]
    rcases mem_append.mp hmem with hmem | hmem
    · exact h.aborted signal hmem
    · exact absurd (mem_singleton.mp hmem).symm (habort signal)
  · rw [heq]
    exact h.signal w (hserved.waiters hw)
  · exact hserved.listeners w hw _ (h.listener w (hserved.waiters hw) signal hsig) rfl
  · rw [hserved.calls] at hid
    rcases h.ends id hid with hset | hwait
    · exact .inl (map_subset _ hserved.settled hset)
    · obtain ⟨w, hw, rfl⟩ := mem_map.mp hwait
      exact hserved.ends w hw

theorem Heard.step (h : Heard events s) (hinv : Inv limit s s.waiters) (event : Event) :
    Heard (events ++ [event]) (step limit s event) := by
  cases event with
  | release i => exact h.served (Served.release hinv i) rfl fun _ => nofun
  | onAbort id => exact h.served (Served.onAbort s id) rfl fun _ => nofun
  | abort x =>
    have heq : signals (events ++ [.abort x]) = signals events := by simp [signals]
    refine ⟨heq ▸ h.calls, fun signal hmem => ?_, heq ▸ h.signal, h.listener, h.ends⟩
    rcases mem_append.mp hmem with hmem | hmem
    · exact mem_append_left _ (h.aborted signal hmem)
    · exact mem_append_right _ (by simpa using hmem)
  | acquire request signal =>
    have heq : signals (events ++ [.acquire request signal]) = signals events ++ [signal] := by simp [signals]
    have hold : ∀ w ∈ s.waiters, (signals events ++ [signal])[w.id]? = some w.signal := fun w hw =>
      (getElem?_append_left (h.calls ▸ hinv.waiting_lt w hw)).trans (h.signal w hw)
    have hmem : ∀ x, .abort x ∈ events ++ [.acquire request signal] → x ∈ s.aborted := by simpa using h.aborted
    have hlt : ∀ id < s.calls + 1, id = s.calls ∨ id < s.calls := by omega
    change Heard _ (s.acquire limit request signal)
    unfold Scheduler.acquire
    dsimp only
    split_ifs with habo hcan
    · obtain ⟨hset, hid⟩ := settled_subset_resolve { s with calls := s.calls + 1 } s.calls none
      rw [resolve_eq]
      refine ⟨by simp [heq, h.calls], hmem, heq ▸ hold, h.listener, fun id hlt' => ?_⟩
      rcases hlt id hlt' with rfl | hlt'
      · exact .inl hid
      · exact (h.ends id hlt').imp_left (map_subset _ hset ·)
    · rw [Scheduler.start, resolve_eq]
      refine ⟨by simp [heq, h.calls], hmem, heq ▸ hold, h.listener, fun id hlt' => ?_⟩
      rcases hlt id hlt' with rfl | hlt'
      · exact .inl (settled_subset_resolve _ _ _).2
      · exact (h.ends id hlt').imp_left (map_subset _ (settled_subset_resolve _ _ _).1 ·)
    · refine ⟨by simp [heq, h.calls], hmem, ?_, ?_, fun id hlt' => ?_⟩
      · exact heq ▸ forall_mem_append.mpr ⟨hold, forall_mem_singleton.mpr (by simp [h.calls])⟩
      · refine forall_mem_append.mpr ⟨fun w hw x hx => mem_append_left _ (h.listener w hw x hx), ?_⟩
        exact forall_mem_singleton.mpr fun x hx => mem_append_right _ (by simp [show signal = some x from hx])
      · rw [List.map_append, mem_append]
        rcases hlt id hlt' with rfl | hlt'
        · exact .inr (.inr (by simp))
        · exact (h.ends id hlt').imp_right .inl

theorem run_append (before after : List Event) :
    run limit (before ++ after) = after.foldl (Scheduling.step limit) (run limit before) := foldl_append

theorem steady_run (limit : ℕ) (events : List Event) : Steady limit (run limit events) :=
  Steady.run events ⟨inv_new limit, fun _ hw => absurd hw not_mem_nil⟩

theorem heard_run (limit : ℕ) (events : List Event) : Heard events (run limit events) := by
  induction events using List.reverseRecOn with
  | nil => exact ⟨rfl, nofun, nofun, nofun, nofun⟩
  | append_singleton events event ih =>
    rw [run_append]
    exact ih.step (steady_run _ _).1 event

/-- **A step grants an aborted call nothing**, and does not put it into the queue. -/
theorem Heard.denied (h : Heard events s) (hinv : Inv limit s s.waiters) {event : Event} (habort : signal ∈ s.aborted)
    (hsignal : ∀ x, (signals (events ++ [event]))[id]? = some x → x = some signal) :
    ((∀ l ∈ s.leases, l.owner ≠ id) → ∀ l ∈ (Scheduling.step limit s event).leases, l.owner ≠ id) ∧
      (id ∉ s.waiters.map (·.id) → id ∉ (Scheduling.step limit s event).waiters.map (·.id)) := by
  have haborted : s.isAborted (some signal) = true := by simpa [Scheduler.isAborted] using habort
  have hserved : ∀ {s'}, Served s.waiters s s' → signals [event] = [] →
      ((∀ l ∈ s.leases, l.owner ≠ id) → ∀ l ∈ s'.leases, l.owner ≠ id) ∧
        (id ∉ s.waiters.map (·.id) → id ∉ s'.waiters.map (·.id)) := by
    intro s' hs hnone
    refine ⟨fun hno l hl hown => ?_, fun hno hmem => hno (map_subset _ hs.waiters hmem)⟩
    rcases hs.leases l hl with hold | ⟨w, hw, hwid, hopen⟩
    · obtain ⟨l', hl', howner⟩ := mem_map.mp hold
      exact hno l' hl' (howner.trans hown)
    · have hsig := h.signal w hw
      rw [signals_append, hnone, append_nil, ← hown, ← hwid] at hsignal
      rw [hsignal _ hsig, haborted] at hopen
      cases hopen
  cases event with
  | release i => exact hserved (Served.release hinv i) rfl
  | onAbort id => exact hserved (Served.onAbort s id) rfl
  | abort x => exact ⟨fun hno => hno, fun hno => hno⟩
  | acquire request x =>
    change (_ → ∀ l ∈ (s.acquire limit request x).leases, _) ∧ (_ → _ ∉ (s.acquire limit request x).waiters.map _)
    unfold Scheduler.acquire
    dsimp only
    have hnew : s.isAborted x = false → s.calls ≠ id := by
      rintro hopen rfl
      have hx := hsignal x (by simp [signals, h.calls])
      rw [hx, haborted] at hopen
      cases hopen
    split_ifs with habo hcan
    · rw [resolve_eq]
      exact ⟨fun hno => hno, fun hno => hno⟩
    · rw [Scheduler.start, resolve_eq]
      have hne := hnew (Bool.eq_false_iff.mpr habo)
      exact ⟨fun hno => forall_mem_append.mpr ⟨hno, forall_mem_singleton.mpr hne⟩, fun hno => hno⟩
    · refine ⟨fun hno => hno, fun hno hmem => ?_⟩
      rw [List.map_append, mem_append] at hmem
      rcases hmem with hmem | hmem
      · exact hno hmem
      · exact hnew (Bool.eq_false_iff.mpr habo) (mem_singleton.mp hmem).symm

theorem signals_before {x : Option ℕ} (after : List Event) (h : (signals before)[id]? = some x) :
    (signals (before ++ after))[id]? = some x := by
  rw [signals_append, getElem?_append_left (List.getElem?_eq_some_iff.mp h).1]
  exact h

/-- The listener of a call removes it from the queue. -/
theorem Heard.unqueued (h : Heard events s) (habort : signal ∈ s.aborted)
    (hsignal : ∀ x, (signals events)[id]? = some x → x = some signal) : id ∉ (s.onAbort id).waiters.map (·.id) := by
  intro hmem
  obtain ⟨w, hw, rfl⟩ := mem_map.mp hmem
  have hold := (Served.onAbort s w.id).waiters hw
  have hlistener := h.listener w hold signal (hsignal _ (h.signal w hold))
  have hany : (s.listeners.any fun l => l.1 = w.id && s.isAborted (some l.2)) = true :=
    any_eq_true.mpr ⟨_, hlistener, by simp [Scheduler.isAborted, habort]⟩
  rw [Scheduler.onAbort, if_pos hany, resolve_eq] at hw
  exact absurd (mem_filter.mp hw).2 (by simp)

/-- What a step preserves once the signal of a call is aborted, a run preserves. -/
theorem denied_run (limit : ℕ) (habort : .abort signal ∈ before)
    (hsignal : (signals (before ++ after))[id]? = some (some signal)) :
    ((∀ l ∈ (run limit before).leases, l.owner ≠ id) → ∀ l ∈ (run limit (before ++ after)).leases, l.owner ≠ id) ∧
    (id ∉ (run limit before).waiters.map (·.id) → id ∉ (run limit (before ++ after)).waiters.map (·.id)) := by
  replace hsignal : ∀ x, (signals (before ++ after))[id]? = some x → x = some signal := fun x hx =>
    (Option.some.inj (hsignal.symm.trans hx)).symm
  induction after using List.reverseRecOn with
  | nil =>
    rw [append_nil]
    exact ⟨fun hno => hno, fun hno => hno⟩
  | append_singleton after event ih =>
    rw [← append_assoc] at hsignal ⊢
    have hprefix : ∀ x, (signals (before ++ after))[id]? = some x → x = some signal := fun x hx =>
      hsignal x (signals_before [event] hx)
    have hmem := (heard_run limit (before ++ after)).aborted signal (mem_append_left _ habort)
    have hstep := (heard_run limit (before ++ after)).denied (steady_run _ _).1 hmem hsignal
    rw [run_append (before ++ after)]
    exact ⟨fun hno => hstep.1 ((ih hprefix).1 hno), fun hno => hstep.2 ((ih hprefix).2 hno)⟩

end

/-- **Safety and work conservation.** After any steps the counter is the
number of granted leases, within the cap; the granted leases of a key are all
shared or one exclusive, and are what `activeKeys` records; every call is
settled at most once, a call that got `undefined` has no lease, and a call
that waits has neither; no waiter can start; a second release has no effect.
A call whose signal is aborted before it has a lease never gets one: it is
settled with `undefined`, or its listener is registered and settles it. -/
theorem scheduler_safe (maxConcurrency : ℕ) (events : List Event) :
    let s := run maxConcurrency events
    (s.activeCount = s.granted.length ∧ s.activeCount ≤ maxConcurrency) ∧ (∀ key, key ≠ "" → Compatible (s.held key) ∧
        s.activeKeys.get? key = if s.held key = [] then none else some (s.held key)) ∧
    ((s.settled.map Prod.fst).Nodup ∧ (∀ id, (id, none) ∈ s.settled → ∀ l ∈ s.leases, l.owner ≠ id) ∧
      (∀ i l, s.leases[i]? = some l → (l.owner, some i) ∈ s.settled) ∧
      (∀ w ∈ s.waiters, w.id ∉ s.settled.map Prod.fst ∧ ∀ l ∈ s.leases, l.owner ≠ w.id) ∧
      ∀ before after id signal, events = before ++ after → (signals events)[id]? = some (some signal) →
        .abort signal ∈ before → (∀ l ∈ (run maxConcurrency before).leases, l.owner ≠ id) →
        (∀ l ∈ s.leases, l.owner ≠ id) ∧ ((id, none) ∈ s.settled ∨ (id, signal) ∈ s.listeners) ∧
          (.onAbort id ∈ after → (id, none) ∈ s.settled)) ∧
    (∀ w ∈ s.waiters, s.canStart maxConcurrency w.request = false) ∧
    (∀ i l, s.leases[i]? = some l → l.released = true → s.release maxConcurrency i = s) := by
  obtain ⟨h, hb⟩ := steady_run maxConcurrency events
  refine ⟨⟨h.count, h.cap⟩, fun key _ => ⟨h.compatible key, h.modes key⟩,
    ⟨h.settlements.nodup, fun id hid l hl hown => ?_, h.settlements.lease, fun w hw => ⟨?_, ?_⟩, ?_⟩, hb, fun i l hl hr => ?_⟩
  · obtain ⟨i, hi, hget⟩ := getElem_of_mem hl
    have hls := h.settlements.lease i l (List.getElem?_eq_some_iff.mpr ⟨hi, hget⟩)
    rw [hown] at hls
    cases inj_on_of_nodup_map h.settlements.nodup hid hls rfl
  · exact h.waiting_open w hw
  · intro l hl hown
    obtain ⟨i, hi, hget⟩ := getElem_of_mem hl
    have hls := h.settlements.lease i l (List.getElem?_eq_some_iff.mpr ⟨hi, hget⟩)
    exact h.waiting_open w hw (mem_map.mpr ⟨_, hls, hown⟩)
  · rintro before after id signal rfl hsignal habort hno
    obtain ⟨hnever, hunqueued⟩ := denied_run maxConcurrency habort hsignal
    have hheard := heard_run maxConcurrency (before ++ after)
    -- a call that does not wait is settled, and not with a lease
    have hsettled : id ∉ (run maxConcurrency (before ++ after)).waiters.map (·.id) →
        (id, none) ∈ (run maxConcurrency (before ++ after)).settled := by
      intro hwait
      have hid := (hheard.ends id (hheard.calls ▸ (List.getElem?_eq_some_iff.mp hsignal).1)).resolve_right hwait
      obtain ⟨⟨id', outcome⟩, hmem, rfl⟩ := mem_map.mp hid
      cases outcome with
      | none => exact hmem
      | some i =>
        obtain ⟨l, hl, hown⟩ := h.settlements.owner id' i hmem
        exact absurd hown (hnever hno l (mem_of_getElem? hl))
    refine ⟨hnever hno, ?_, fun hmem => hsettled ?_⟩
    · by_cases hwait : id ∈ (run maxConcurrency (before ++ after)).waiters.map (·.id)
      · obtain ⟨w, hw, rfl⟩ := mem_map.mp hwait
        exact .inr (hheard.listener w hw signal (Option.some.inj ((hheard.signal w hw).symm.trans hsignal)))
      · exact .inl (hsettled hwait)
    · obtain ⟨front, back, rfl⟩ := append_of_mem hmem
      have hevents : before ++ (front ++ .onAbort id :: back) = before ++ front ++ [.onAbort id] ++ back := by simp
      rw [hevents] at hsignal ⊢
      refine (denied_run _ (by simp [habort]) hsignal).2 ?_
      rw [run_append (before ++ front)]
      have hfront := heard_run maxConcurrency (before ++ front)
      refine hfront.unqueued (hfront.aborted signal (mem_append_left _ habort)) fun x hx => ?_
      rw [append_assoc] at hsignal
      exact Option.some.inj ((signals_before _ hx).symm.trans hsignal)
  · simp only [Scheduler.release, hl, hr, if_true]

theorem resolve_activeCount (s : Scheduler) (id : ℕ) (outcome : Option ℕ) :
    (s.resolve id outcome).activeCount = s.activeCount := by
  unfold Scheduler.resolve
  split_ifs <;> rfl

/-- `schedule` starts no more than it takes from the queue. -/
theorem scheduleFrom_count {limit : ℕ} (rest : List Waiter) : ∀ {s : Scheduler} {kept : List Waiter},
    let s' := s.scheduleFrom limit kept rest
    s'.activeCount + s'.waiters.length ≤ s.activeCount + (kept.length + rest.length : ℕ) := by
  induction rest with
  | nil => exact fun {s kept} => Int.le_refl _
  | cons w rest ih =>
    intro s kept
    dsimp only at ih ⊢
    rw [Scheduler.scheduleFrom, length_cons]
    split_ifs
    · have := @ih (s.resolve w.id none) kept
      rw [resolve_activeCount] at this
      omega
    · have := @ih s (kept ++ [w])
      rw [length_append, length_singleton] at this
      omega
    · have := @ih ((s.removeListener w.id).start w.id w.request) kept
      have hcnt : ((s.removeListener w.id).start w.id w.request).activeCount = s.activeCount + 1 :=
        resolve_activeCount _ _ _
      omega

/-- **Waiting ends.** While a call waits a lease is granted, and each lease that is given back leaves fewer granted
leases and waiting calls. -/
theorem waiting_ends (maxConcurrency : ℕ) (events : List Event) :
    let s := run (maxConcurrency + 1) events
    (s.waiters ≠ [] → s.granted ≠ []) ∧ ∀ i l, s.leases[i]? = some l → l.released = false →
      let s' := s.release (maxConcurrency + 1) i
      s'.granted.length + s'.waiters.length < s.granted.length + s.waiters.length := by
  intro s
  obtain ⟨h, hb⟩ : Steady (maxConcurrency + 1) s := steady_run _ events
  refine ⟨fun hwait hnone => ?_, fun i l hl hr => ?_⟩
  · obtain ⟨w, rest, hw⟩ := exists_cons_of_ne_nil hwait
    have hcap : s.activeCount < (maxConcurrency + 1 : ℕ) := by
      rw [h.count, hnone, length_nil]
      omega
    have hheld : ∀ key, s.held key = [] := by simp [Scheduler.held, hnone]
    have hcan := (h.canStart_iff w.request).mpr ⟨hcap, fun key _ => .inl (hheld key)⟩
    rw [hb w (hw ▸ mem_cons_self)] at hcan
    cases hcan
  · have hrelease : s.release (maxConcurrency + 1) i = (s.free i l).scheduleFrom (maxConcurrency + 1) [] s.waiters := by
      simp only [Scheduler.release, hl, hr]
      rfl
    have hafter := (Steady.release ⟨h, hb⟩ i).1.count
    have hle := @scheduleFrom_count (maxConcurrency + 1) s.waiters (s.free i l) []
    have hfree : (s.free i l).activeCount = s.granted.length - 1 := congrArg (· - 1) h.count
    rw [hrelease] at hafter ⊢
    rw [length_nil] at hle
    omega

-- Two shared leases run together; an exclusive one waits until both are given back.
example :
    let acquire mode := Event.acquire ⟨some "file", some mode⟩ none
    let s := run 4 [acquire .shared, acquire .shared, acquire .exclusive, .release 0, .release 1]
    s.held "file" = [.exclusive] ∧ s.waiters = [] := by decide

end Scheduling
end EasyPi.Agent
