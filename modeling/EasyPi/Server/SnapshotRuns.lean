/-
# No snapshot is lost

A connection is covered by a broadcast that finds it ready, or by the revision its
handshake compares at the end. What makes the two fit together is that a snapshot with
the current revision was read after every broadcast that has begun: a broadcast that
finds a ready connection takes a new revision. One that finds none does not, and a
handshake that has begun to read its session list by then never learns of it.
-/
import Mathlib.Data.List.Induction
import Mathlib.Data.List.Nodup
import EasyPi.Server.Snapshots

namespace EasyPi.Server

open List

theorem heldSnapshot_append (received : List Snapshot) (snap : Snapshot) :
    heldSnapshot (received ++ [snap]) = applyServerSnapshot (heldSnapshot received) snap := by
  simp [heldSnapshot]

variable {snap : Snapshot} {s' : Publisher}

theorem mem_of_heldSnapshot {received : List Snapshot}
    (h : heldSnapshot received = some snap) : snap ∈ received := by
  induction received using List.reverseRecOn with
  | nil => simp [heldSnapshot] at h
  | append_singleton received last ih =>
    rw [heldSnapshot_append] at h
    cases hheld : heldSnapshot received with
    | none =>
      rw [hheld] at h
      simp only [applyServerSnapshot, Option.some.injEq] at h
      simp [h]
    | some current =>
      rw [hheld] at h
      simp only [applyServerSnapshot] at h
      split at h
      · cases h
        exact mem_append_left _ (ih hheld)
      · cases h
        simp

/-- **The revisions a client accepts never decrease.** -/
theorem acceptedSnapshots_pairwise (held : Option Snapshot) (received : List Snapshot) :
    (acceptedSnapshots held received).Pairwise (·.revision ≤ ·.revision) ∧
      ∀ current ∈ held, ∀ snap ∈ acceptedSnapshots held received, current.revision ≤ snap.revision := by
  induction received generalizing held with
  | nil => simp [acceptedSnapshots]
  | cons snap received ih =>
    unfold acceptedSnapshots
    split
    · exact ih held
    · rename_i hnew
      obtain ⟨hpair, hle⟩ := ih (some snap)
      refine ⟨pairwise_cons.mpr ⟨hle snap rfl, hpair⟩, ?_⟩
      intro current hc later hlater
      have hfst : current.revision ≤ snap.revision := by
        rw [hc] at hnew
        simpa using hnew
      obtain rfl | hlater := mem_cons.mp hlater
      · exact hfst
      · exact Nat.le_trans hfst (hle snap rfl later hlater)

/-! ### The invariant -/

def Handshake.snapshot? : Handshake → Option Snapshot
  | .idle => none
  | .listing snapshot | .listed snapshot | .sendingHello snapshot | .relisting snapshot | .relisted snapshot => some snapshot

/-- The snapshots a connection has received or its handshake works on. -/
def Connection.snapshots (connection : Connection) : List Snapshot :=
  connection.received ++ connection.handshake.snapshot?.toList

/-- How far a connection has come and what it has received. -/
def Connection.WellFormed (connection : Connection) : Prop :=
  match connection.stage, connection.handshake with
  | .awaitingHello, handshake => handshake = .idle ∧ connection.received = []
  | .handshaking, .listing _ | .handshaking, .listed _ => connection.received = []
  | .handshaking, .sendingHello snapshot => connection.received = [snapshot]
  | .ready, .idle | .ready, .relisting _ | .ready, .relisted _ => True
  | .closed, _ => True
  | _, _ => False

/-- A connection that a broadcast may still serve: it has been ready. -/
def Connection.Served (connection : Connection) : Prop := connection.stage = .ready ∨ connection.stage = .closed

attribute [local simp] Connection.WellFormed Connection.Served Connection.snapshots Handshake.snapshot?

/-- Before a connection is ready, all it has is the snapshot of its handshake. -/
theorem Connection.WellFormed.of_mem {conn : Connection} (hwf : conn.WellFormed)
    (hnot : ¬ conn.Served) (hmem : snap ∈ conn.snapshots) :
    conn.stage = .handshaking ∧ snap ∈ conn.handshake.snapshot? := by
  obtain ⟨stage, handshake, received⟩ := conn
  cases stage with
  | awaitingHello =>
    obtain ⟨rfl, rfl⟩ := hwf
    simp at hmem
  | handshaking =>
    refine ⟨rfl, ?_⟩
    cases handshake with
    | listing σ | listed σ | sendingHello σ =>
      obtain rfl := hwf
      simpa [eq_comm] using hmem
    | idle | relisting _ | relisted _ => exact hwf.elim
  | ready | closed => simp at hnot

namespace Publisher

/-- A call of `broadcast` whose turn has come. -/
def Begun (s : Publisher) (t : ℕ) : Prop := t ∈ s.calls ∧ t ∉ s.queue

/-- A snapshot with the current revision was read after every broadcast that has begun. -/
structure Fine (s : Publisher) (snapshot : Snapshot) : Prop where
  revision : snapshot.revision ≤ s.revision
  readAt : snapshot.revision = s.revision → ∀ t, s.Begun t → t < snapshot.readAt

/-- A connection holds a snapshot with the current revision, or will get one. -/
def Current (s : Publisher) (c : ℕ) (connection : Connection) : Prop :=
  (∃ snapshot, (heldSnapshot connection.received = some snapshot ∨ connection.handshake.snapshot? = some snapshot) ∧
      snapshot.revision = s.revision) ∨
    ∃ broadcast ∈ s.broadcast, c ∈ broadcast.readyConnections

structure ConnectionInv (s : Publisher) (c : ℕ) (connection : Connection) : Prop where
  wellFormed : connection.WellFormed
  fine : connection.stage ≠ .closed → ∀ snapshot ∈ connection.snapshots, s.Fine snapshot
  current : connection.stage = .ready → s.Current c connection

structure PublisherInv (s : Publisher) : Prop where
  calls : ∀ t ∈ s.calls, t ≤ s.now
  queue : ∀ t ∈ s.queue, t ∈ s.calls
  nodup : s.queue.Nodup
  broadcast : ∀ broadcast ∈ s.broadcast, broadcast.revision = s.revision ∧
    ∀ snapshot ∈ broadcast.snapshot, snapshot.revision = s.revision ∧ s.Fine snapshot
  served : ∀ broadcast ∈ s.broadcast, ∀ c ∈ broadcast.readyConnections,
    ∃ connection, s.connections[c]? = some connection ∧ connection.Served
  connections : ∀ c connection, s.connections[c]? = some connection → s.ConnectionInv c connection

theorem PublisherInv.init : PublisherInv {} := by
  constructor <;> simp

variable {s : Publisher} {c : ℕ} {conn : Connection}

theorem ConnectionInv.keep (hi : s.ConnectionInv c conn) (hfine : ∀ σ, s.Fine σ → s'.Fine σ)
    (hcur : conn.stage = .ready → s.Current c conn → s'.Current c conn) : s'.ConnectionInv c conn :=
  ⟨hi.wellFormed, fun hopen σ hσ => hfine σ (hi.fine hopen σ hσ), fun hrdy => hcur hrdy (hi.current hrdy)⟩

theorem ConnectionInv.of_closed (hsta : conn.stage = .closed) : s.ConnectionInv c conn :=
  ⟨by simp [hsta], fun hopen => absurd hsta hopen, fun hrdy => by simp [hsta] at hrdy⟩

/-! ### Steps of one connection -/

section
variable (h : s.PublisherInv)
include h

/-- A step that only changes connections. -/
theorem PublisherInv.of_connections {connections : List Connection}
    (hser : ∀ (c : ℕ) (conn : Connection), s.connections[c]? = some conn →
      conn.Served → ∃ connection' : Connection, connections[c]? = some connection' ∧ connection'.Served)
    (hconn : ∀ (c : ℕ) conn, connections[c]? = some conn → s.ConnectionInv c conn) :
    PublisherInv { s with now := s.now + 1, connections } := by
  refine ⟨fun t ht => Nat.le_succ_of_le (h.calls t ht), h.queue, h.nodup, fun broadcast hb => ?_, fun broadcast hb c hc => ?_,
    fun c conn hc => (hconn c conn hc).keep (fun σ hσ => ⟨hσ.revision, hσ.readAt⟩) fun _ hcur => hcur⟩
  · obtain ⟨hr, hs⟩ := h.broadcast broadcast hb
    exact ⟨hr, fun snap hsnap => ⟨(hs snap hsnap).1, (hs snap hsnap).2.revision, (hs snap hsnap).2.readAt⟩⟩
  · obtain ⟨conn, hget, hserve⟩ := h.served broadcast hb c hc
    exact hser c conn hget hserve

theorem PublisherInv.tick : PublisherInv { s with now := s.now + 1 } :=
  h.of_connections (fun _ conn hc hs => ⟨conn, hc, hs⟩) h.connections

theorem PublisherInv.update {f : Connection → Connection} (hser : ∀ conn, conn.Served → (f conn).Served)
    (hf : ∀ conn, s.connections[c]? = some conn → s.ConnectionInv c (f conn)) :
    ({ s with now := s.now + 1 }.update c f).PublisherInv := by
  refine h.of_connections ?_ ?_
  · intro d conn hd hs
    simp only [List.getElem?_modify, hd, Option.map_eq_map, Option.map_some]
    by_cases hcd : c = d
    · exact ⟨_, rfl, by simpa [hcd] using hser conn hs⟩
    · exact ⟨_, rfl, by simpa [hcd] using hs⟩
  · intro d conn hd
    simp only [List.getElem?_modify] at hd
    obtain ⟨old, hold, rfl⟩ := Option.map_eq_some_iff.mp hd
    by_cases hcd : c = d
    · subst hcd
      rw [if_pos rfl]
      exact hf old hold
    · rw [if_neg hcd]
      exact h.connections d old hold

theorem PublisherInv.now_fine {revision : ℕ} (hr : revision ≤ s.revision) : s.Fine ⟨revision, s.now + 1⟩ :=
  ⟨hr, fun _ t ht => Nat.lt_succ_of_le (h.calls t ht.1)⟩

theorem PublisherInv.hello (c : ℕ) : ({ s with now := s.now + 1 }.hello c).PublisherInv := by
  refine h.update (fun conn hs => ?_) fun conn hc => ?_
  · obtain hs | hs := hs <;> simp [hs]
  have hi := h.connections c conn hc
  split
  · rename_i hsta
    have hwf := hi.wellFormed
    obtain ⟨-, hemp⟩ : conn.handshake = .idle ∧ conn.received = [] := by
      simpa [hsta] using hwf
    exact ⟨by simpa using hemp, fun _ => by simpa [hemp] using h.now_fine (Nat.le_refl _), by simp⟩
  · exact hi

theorem PublisherInv.listed (c : ℕ) : ({ s with now := s.now + 1 }.listed c).PublisherInv := by
  refine h.update (fun conn hs => ?_) fun conn hc => ?_
  · obtain ⟨stage, handshake, received⟩ := conn
    obtain rfl | rfl := hs <;> cases handshake <;> simp
  have hi := h.connections c conn hc
  obtain ⟨stage, handshake, received⟩ := conn
  have hwf := hi.wellFormed
  cases handshake with
  | listing snap | relisting snap =>
    exact ⟨by cases stage <;> first | exact hwf | simp at hwf, hi.fine, hi.current⟩
  | idle | listed _ | sendingHello _ | relisted _ => exact hi

end

theorem held_receive {received : List Snapshot} {revision : ℕ} (hle : ∀ σ ∈ received ++ [snap], σ.revision ≤ revision)
    (h : ∃ σ, (heldSnapshot received = some σ ∨ some snap = some σ) ∧ σ.revision = revision) :
    ∃ σ, heldSnapshot (received ++ [snap]) = some σ ∧ σ.revision = revision := by
  obtain ⟨σ, hσ, rfl⟩ := h
  have hs := hle snap (by simp)
  rw [heldSnapshot_append]
  cases hheld : heldSnapshot received with
  | none =>
    obtain rfl : snap = σ := by simpa [hheld] using hσ
    exact ⟨snap, rfl, rfl⟩
  | some current =>
    have hcur := hle current (mem_append_left _ (mem_of_heldSnapshot hheld))
    simp only [hheld, Option.some.injEq] at hσ
    simp only [applyServerSnapshot]
    split
    · refine ⟨current, rfl, ?_⟩
      obtain rfl | rfl := hσ
      · rfl
      · omega
    · refine ⟨snap, rfl, ?_⟩
      obtain rfl | rfl := hσ
      · omega
      · rfl

section
variable (h : s.PublisherInv)
include h

theorem PublisherInv.send (c : ℕ) : ({ s with now := s.now + 1 }.send c).PublisherInv := by
  refine h.update (fun conn hs => ?_) fun conn hc => ?_
  · obtain ⟨stage, handshake, received⟩ := conn
    obtain rfl | rfl := hs <;> cases handshake <;> simp [Connection.receive]
  have hi := h.connections c conn hc
  obtain ⟨stage, handshake, received⟩ := conn
  have hwf := hi.wellFormed
  cases handshake with
  | listed snap =>
    cases stage with
    | awaitingHello => simp at hwf
    | ready => exact hwf.elim
    | closed => exact .of_closed rfl
    | handshaking =>
      obtain rfl : received = [] := hwf
      exact ⟨rfl, fun _ => by simpa using hi.fine (by simp), by simp⟩
  | relisted snap =>
    cases stage with
    | awaitingHello => simp at hwf
    | handshaking => exact hwf.elim
    | closed => exact .of_closed rfl
    | ready =>
      have hfine := hi.fine (by simp)
      refine ⟨trivial, fun _ => by simpa [Connection.receive] using hfine, fun _ => (hi.current rfl).imp_left fun hcur => ?_⟩
      obtain ⟨σ, hheld, hrev⟩ := held_receive (fun σ hσ => (hfine σ hσ).revision) hcur
      exact ⟨σ, .inl hheld, hrev⟩
  | idle | listing _ | sendingHello _ | relisting _ => exact hi

theorem PublisherInv.helloSent (c : ℕ) : ({ s with now := s.now + 1 }.helloSent c).PublisherInv := by
  refine h.update (fun conn hs => ?_) fun conn hc => ?_
  · obtain ⟨stage, handshake, received⟩ := conn
    obtain rfl | rfl := hs <;> cases handshake <;> simp
  have hi := h.connections c conn hc
  obtain ⟨stage, handshake, received⟩ := conn
  have hwf := hi.wellFormed
  cases handshake with
  | sendingHello snap =>
    cases stage with
    | awaitingHello => simp at hwf
    | ready => exact hwf.elim
    | closed => exact .of_closed rfl
    | handshaking =>
      obtain rfl : received = [snap] := hwf
      have hfine : s.Fine snap := hi.fine (by simp) snap (by simp)
      simp only [if_true]
      by_cases hrev : snap.revision = s.revision
      · simp only [hrev, ne_eq, not_true_eq_false, if_false]
        exact ⟨trivial, fun _ => by simpa using hfine, fun _ => .inl ⟨snap, .inl rfl, hrev⟩⟩
      · simp only [hrev, ne_eq, not_false_eq_true, if_true]
        exact ⟨trivial, fun _ => by simpa using ⟨hfine, h.now_fine (Nat.le_refl _)⟩, fun _ => .inl ⟨_, .inr rfl, rfl⟩⟩
  | idle | listing _ | listed _ | relisting _ | relisted _ => exact hi

theorem PublisherInv.disconnect (c : ℕ) : ({ s with now := s.now + 1 }.disconnect c).PublisherInv :=
  h.update (fun _ _ => .inr rfl) fun _ _ => .of_closed rfl

theorem PublisherInv.connect :
    PublisherInv { s with now := s.now + 1, connections := s.connections ++ [({} : Connection)] } := by
  refine h.of_connections ?_ ?_
  · intro c conn hc hs
    exact ⟨conn, by rwa [List.getElem?_append_left (List.getElem?_eq_some_iff.mp hc).1], hs⟩
  · intro c conn hc
    obtain hlt | hge := Nat.lt_or_ge c s.connections.length
    · rw [List.getElem?_append_left hlt] at hc
      exact h.connections c conn hc
    · rw [List.getElem?_append_right hge] at hc
      obtain rfl : ({} : Connection) = conn := by
        have hmem := mem_of_getElem? hc
        simpa [eq_comm] using hmem
      exact ⟨⟨rfl, rfl⟩, by simp, by simp⟩

/-! ### Broadcasts -/

theorem PublisherInv.callBroadcast : ({ s with now := s.now + 1 }.callBroadcast).PublisherInv := by
  set s' := ({ s with now := s.now + 1 }.callBroadcast) with hs'
  have hnew : s.now + 1 ∉ s.calls := fun hmem => by
    have := h.calls _ hmem
    omega
  have hbeg : ∀ t, s'.Begun t → s.Begun t := by
    rintro t ⟨hc, hq⟩
    simp only [hs', Publisher.callBroadcast, mem_append, mem_singleton, not_or] at hc hq
    exact ⟨hc.resolve_right hq.2, hq.1⟩
  have hfine : ∀ snap, s.Fine snap → s'.Fine snap := fun snap hf =>
    ⟨hf.revision, fun heq t ht => hf.readAt heq t (hbeg t ht)⟩
  refine ⟨?_, ?_, ?_, ?_, h.served, fun c conn hc => (h.connections c conn hc).keep hfine fun _ hcur => hcur⟩
  · intro t ht
    simp only [hs', Publisher.callBroadcast, mem_append, mem_singleton] at ht
    obtain ht | rfl := ht
    · exact Nat.le_succ_of_le (h.calls t ht)
    · exact Nat.le_refl _
  · intro t ht
    simp only [hs', Publisher.callBroadcast, mem_append, mem_singleton] at ht ⊢
    exact ht.imp_left (h.queue t)
  · refine nodup_append.mpr ⟨h.nodup, nodup_singleton _, ?_⟩
    intro t ht t' ht'
    obtain rfl := mem_singleton.mp ht'
    rintro rfl
    exact hnew (h.queue _ ht)
  · intro broadcast hb
    obtain ⟨hr, hs⟩ := h.broadcast broadcast hb
    exact ⟨hr, fun snap hsnap => ⟨(hs snap hsnap).1, hfine _ (hs snap hsnap).2⟩⟩

end

theorem mem_readyConnections (hc : s.connections[c]? = some conn) : c ∈ s.readyConnections ↔ conn.stage = .ready := by
  have hlt : c < s.connections.length := (List.getElem?_eq_some_iff.mp hc).1
  have hget : s.connections[c] = conn := (List.getElem?_eq_some_iff.mp hc).2
  simp [readyConnections, hlt, hget]

/-- A broadcast that finds no ready connection finds no handshake either that began to read its
session list before the broadcast was called, and will not look for another one. -/
def NoneMissed (s : Publisher) : Prop :=
  s.broadcast = none → s.readyConnections = [] → ∀ t ∈ s.queue.head?,
    ∀ connection ∈ s.connections, connection.stage = .handshaking →
      ∀ snapshot ∈ connection.handshake.snapshot?, snapshot.revision = s.revision → t < snapshot.readAt

theorem PublisherInv.performBroadcast (h : s.PublisherInv) (hmiss : s.NoneMissed) :
    ({ s with now := s.now + 1 }.performBroadcast).PublisherInv := by
  unfold Publisher.performBroadcast
  split
  · rename_i calledAt queue hb hq
    have hb : s.broadcast = none := hb
    have hq : s.queue = calledAt :: queue := hq
    obtain ⟨hfst, hnd⟩ := nodup_cons.mp (hq ▸ h.nodup)
    have hque : ∀ t ∈ queue, t ∈ s.calls := fun t ht => h.queue t (by simp [hq, ht])
    have hcls : ∀ t ∈ s.calls, t ≤ s.now + 1 := fun t ht => Nat.le_succ_of_le (h.calls t ht)
    split
    · -- no conn is ready: the revision stays, and only handshakes can have missed the call
      rename_i hnone
      have hnone : s.readyConnections = [] := hnone
      have hfine : ∀ snap, s.Fine snap → (snap.revision = s.revision → calledAt < snap.readAt) →
          Fine { s with now := s.now + 1, queue } snap := by
        intro snap hf hlate
        refine ⟨hf.revision, fun heq t ht => ?_⟩
        by_cases htc : t = calledAt
        · exact htc ▸ hlate heq
        · exact hf.readAt heq t ⟨ht.1, by simpa [hq, htc] using ht.2⟩
      refine ⟨hcls, hque, hnd, by simp [hb], by simp [hb], fun c conn hc => ?_⟩
      have hi := h.connections c conn hc
      have hnotR : conn.stage ≠ .ready := fun hrdy => by
        have hc : s.connections[c]? = some conn := hc
        have hmem := (mem_readyConnections hc).mpr hrdy
        rw [hnone] at hmem
        cases hmem
      refine ⟨hi.wellFormed, fun hopen snap hs => hfine snap (hi.fine hopen snap hs) fun hrev => ?_,
        fun hrdy => absurd hrdy hnotR⟩
      obtain ⟨hsta, hmem⟩ := hi.wellFormed.of_mem (not_or.mpr ⟨hnotR, hopen⟩) hs
      exact hmiss hb hnone calledAt (by simp [hq]) conn (mem_of_getElem? hc) hsta snap hmem hrev
    · -- the broadcast takes a new revision, which no snap has yet
      refine ⟨hcls, hque, hnd, ?_, ?_, fun c conn hc => (h.connections c conn hc).keep (fun σ hf => ?_) ?_⟩
      · intro broadcast hbc
        obtain rfl := Option.mem_some.mp hbc
        exact ⟨rfl, by simp⟩
      · intro broadcast hbc c hc
        obtain rfl := Option.mem_some.mp hbc
        have hc : c ∈ s.readyConnections := hc
        have hlt : c < s.connections.length := by
          simp only [readyConnections, mem_filter, mem_range] at hc
          exact hc.1
        have hget : s.connections[c]? = some s.connections[c] := List.getElem?_eq_getElem hlt
        exact ⟨_, hget, .inl ((mem_readyConnections hget).mp hc)⟩
      · have hle := hf.revision
        refine ⟨Nat.le_succ_of_le hle, fun heq => ?_⟩
        have heq : σ.revision = s.revision + 1 := heq
        omega
      · exact fun hrdy _ => .inr ⟨_, rfl, (mem_readyConnections hc).mpr hrdy⟩
  · exact h.tick

/-- A step of the broadcast that changes no connection: those it leaves are gone. -/
theorem PublisherInv.of_broadcast (h : s.PublisherInv) {broadcast : Option Broadcast}
    (hnew : ∀ b ∈ broadcast, b.revision = s.revision ∧ (∀ snap ∈ b.snapshot, snap.revision = s.revision ∧ s.Fine snap) ∧
      ∃ old ∈ s.broadcast, b.readyConnections = old.readyConnections)
    (hleft : ∀ old ∈ s.broadcast, ∀ c ∈ old.readyConnections, (∃ b ∈ broadcast, c ∈ b.readyConnections) ∨
      ∀ conn ∈ s.connections[c]?, conn.stage = .closed) : PublisherInv { s with now := s.now + 1, broadcast } := by
  refine ⟨fun t ht => Nat.le_succ_of_le (h.calls t ht), h.queue, h.nodup, fun b hb => ?_, fun b hb c hc => ?_,
    fun c conn hc => (h.connections c conn hc).keep (fun σ hσ => ⟨hσ.revision, hσ.readAt⟩) fun hrdy hcur => ?_⟩
  · obtain ⟨hrev, hsnap, -⟩ := hnew b hb
    exact ⟨hrev, fun σ hσ => ⟨(hsnap σ hσ).1, (hsnap σ hσ).2.revision, (hsnap σ hσ).2.readAt⟩⟩
  · obtain ⟨-, -, old, hold, heq⟩ := hnew b hb
    exact h.served old hold c (heq ▸ hc)
  · obtain hheld | ⟨old, hold, hmem⟩ := hcur
    · exact .inl hheld
    · refine .inr ((hleft old hold c hmem).resolve_right fun hclosed => ?_)
      have := hclosed conn hc
      simp [hrdy] at this

theorem PublisherInv.broadcastModels (h : s.PublisherInv) : ({ s with now := s.now + 1 }.broadcastModels).PublisherInv := by
  unfold Publisher.broadcastModels
  split
  · rename_i broadcast hb
    have hb : s.broadcast = some broadcast := hb
    have hrev := (h.broadcast broadcast hb).1
    split
    · refine h.of_broadcast (fun b hbn => ?_) fun old hold c hc => .inl ⟨_, rfl, ?_⟩
      · obtain rfl := Option.mem_some.mp hbn
        refine ⟨hrev, fun snap hs => ?_, broadcast, hb, rfl⟩
        obtain rfl := Option.mem_some.mp hs
        exact ⟨hrev, h.now_fine (Nat.le_of_eq hrev)⟩
      · rw [hb] at hold
        obtain rfl := Option.mem_some.mp hold
        exact hc
    · exact h.tick
  · exact h.tick

theorem PublisherInv.broadcastListed (h : s.PublisherInv) : ({ s with now := s.now + 1 }.broadcastListed).PublisherInv := by
  refine h.of_broadcast (fun b hb => ?_) fun old hold c hc => .inl ⟨_, Option.mem_map_of_mem _ hold, hc⟩
  obtain ⟨old, hold, rfl⟩ := Option.map_eq_some_iff.mp hb
  obtain ⟨hrev, hsnap⟩ := h.broadcast old hold
  exact ⟨hrev, hsnap, old, hold, rfl⟩

theorem served_receive (h : conn.Served) (snap : Snapshot) : (conn.receive snap).Served := by
  unfold Connection.receive
  split
  · exact h
  · exact h

theorem ConnectionInv.receive (hkeep : ∀ σ, s.Fine σ → s'.Fine σ) (hr : s'.revision = s.revision)
    (hfine : s.Fine snap) (hrev : snap.revision = s.revision)
    (hi : s.ConnectionInv c conn) (hser : conn.Served) : s'.ConnectionInv c (conn.receive snap) := by
  obtain hrdy | hclosed := hser
  · have hold := hi.fine (by simp [hrdy])
    have hwf := hi.wellFormed
    obtain ⟨stage, handshake, received⟩ := conn
    obtain rfl : stage = .ready := hrdy
    simp only [Connection.receive, reduceCtorEq, if_false]
    have hnew : ∀ σ ∈ received ++ [snap] ++ handshake.snapshot?.toList, s.Fine σ := fun σ hσ => by
      simp only [append_assoc, mem_append, mem_singleton] at hσ
      obtain hσ | rfl | hσ := hσ
      · exact hold σ (mem_append_left _ hσ)
      · exact hfine
      · exact hold σ (mem_append_right _ hσ)
    refine ⟨by cases handshake <;> exact hwf, fun _ σ hσ => hkeep σ (hnew σ hσ), fun _ => .inl ?_⟩
    obtain ⟨σ, hheld, hσ⟩ := held_receive (fun σ hσ => (hnew σ (mem_append_left _ hσ)).revision) ⟨snap, .inr rfl, hrev⟩
    exact ⟨σ, .inl hheld, hσ.trans hr.symm⟩
  · rw [Connection.receive, if_pos hclosed]
    exact .of_closed hclosed

theorem PublisherInv.broadcastSend (h : s.PublisherInv) : ({ s with now := s.now + 1 }.broadcastSend).PublisherInv := by
  unfold Publisher.broadcastSend
  split
  · rename_i calledAt revision c readyConnections snap hb
    have hb : s.broadcast = some ⟨calledAt, revision, c :: readyConnections, some snap, true⟩ := hb
    obtain ⟨hrevi, hsnap⟩ := h.broadcast _ hb
    obtain ⟨hrev, hfine⟩ := hsnap snap rfl
    have hser := h.served _ hb
    refine ⟨fun t ht => Nat.le_succ_of_le (h.calls t ht), h.queue, h.nodup, ?_, ?_, fun d conn hd => ?_⟩
    · intro broadcast hb'
      obtain rfl := Option.mem_some.mp hb'
      refine ⟨hrevi, fun σ hσ => ?_⟩
      obtain rfl := Option.mem_some.mp hσ
      exact ⟨hrev, hfine.revision, hfine.readAt⟩
    · intro broadcast hb' d hd
      obtain rfl := Option.mem_some.mp hb'
      obtain ⟨conn, hget, hs⟩ := hser d (mem_cons_of_mem c hd)
      simp only [Publisher.update, List.getElem?_modify, hget, Option.map_eq_map, Option.map_some]
      by_cases hcd : c = d
      · exact ⟨_, rfl, by simpa [hcd] using served_receive hs snap⟩
      · exact ⟨_, rfl, by simpa [hcd] using hs⟩
    · simp only [Publisher.update, List.getElem?_modify] at hd
      obtain ⟨old, hold, rfl⟩ := Option.map_eq_some_iff.mp hd
      have hold : s.connections[d]? = some old := hold
      have hi := h.connections d old hold
      by_cases hcd : c = d
      · subst hcd
        rw [if_pos rfl]
        obtain ⟨conn, hget, hs⟩ := hser c mem_cons_self
        obtain rfl : old = conn := by simpa [hold] using hget
        refine hi.receive (fun σ hσ => ?_) ?_ hfine hrev hs
        · exact ⟨hσ.revision, hσ.readAt⟩
        · rfl
      · rw [if_neg hcd]
        refine hi.keep (fun σ hσ => ⟨hσ.revision, hσ.readAt⟩) fun _ hcur => hcur.imp_right fun ⟨broadcast, hb', hmem⟩ => ?_
        rw [hb] at hb'
        obtain rfl := Option.mem_some.mp hb'
        exact ⟨_, rfl, (mem_cons.mp hmem).resolve_left fun heq => hcd heq.symm⟩
  · rename_i calledAt revision snap hb
    have hb : s.broadcast = some ⟨calledAt, revision, [], some snap, true⟩ := hb
    refine h.of_broadcast nofun fun old hold c hc => ?_
    rw [hb] at hold
    obtain rfl := Option.mem_some.mp hold
    cases hc
  · exact h.tick

/-- A broadcast whose lists cannot be read had only connections that are gone. -/
def NoneAbandoned (s : Publisher) : Prop :=
  ∀ broadcast ∈ s.broadcast, broadcast.listed = false → ∀ c ∈ broadcast.readyConnections,
    ∀ connection ∈ s.connections[c]?, connection.stage = .closed

theorem PublisherInv.broadcastFailed (h : s.PublisherInv) (hnone : s.NoneAbandoned) :
    ({ s with now := s.now + 1 }.broadcastFailed).PublisherInv := by
  unfold Publisher.broadcastFailed
  split_ifs with hany
  · refine h.of_broadcast nofun fun old hold c hc => .inr fun conn => hnone old hold ?_ c hc conn
    have hold : s.broadcast = some old := hold
    simpa [hold] using hany
  · exact h.tick

end Publisher
/-! ### Runs -/

/-- A step after which no connection has missed an update. -/
def PublisherStep.Sound (s : Publisher) : PublisherStep → Prop
  | .performBroadcast => s.NoneMissed
  | .broadcastFailed => s.NoneAbandoned
  | _ => True

instance PublisherStep.decidableSound (s : Publisher) (step : PublisherStep) : Decidable (step.Sound s) := by
  cases step <;> unfold PublisherStep.Sound Publisher.NoneMissed Publisher.NoneAbandoned <;>
    infer_instance

namespace Publisher

variable {s : Publisher}

theorem PublisherInv.step (h : s.PublisherInv) {step : PublisherStep} (hsound : step.Sound s) :
    (s.step step).PublisherInv := by
  cases step with
  | connect => exact h.connect
  | hello c => exact h.hello c
  | listed c => exact h.listed c
  | send c => exact h.send c
  | helloSent c => exact h.helloSent c
  | disconnect c => exact h.disconnect c
  | callBroadcast => exact h.callBroadcast
  | performBroadcast => exact h.performBroadcast hsound
  | broadcastModels => exact h.broadcastModels
  | broadcastListed => exact h.broadcastListed
  | broadcastSend => exact h.broadcastSend
  | broadcastFailed => exact h.broadcastFailed hsound

theorem PublisherInv.held_of_quiet (h : s.PublisherInv) (hqt : s.Quiet)
    {conn : Connection} (hmem : conn ∈ s.connections) (hrdy : conn.stage = .ready) {t : ℕ} (ht : t ∈ s.calls) :
    ∃ snap, heldSnapshot conn.received = some snap ∧ t < snap.readAt := by
  obtain ⟨hque, hbro, hidle⟩ := hqt
  obtain ⟨c, hc⟩ := mem_iff_getElem?.mp hmem
  have hi := h.connections c conn hc
  obtain ⟨snap, hheld | hpending, hrev⟩ | ⟨broadcast, hb, -⟩ := hi.current hrdy
  · have hmem := mem_append_left conn.handshake.snapshot?.toList (mem_of_heldSnapshot hheld)
    exact ⟨snap, hheld, (hi.fine (by simp [hrdy]) snap hmem).readAt hrev t ⟨ht, by simp [hque]⟩⟩
  · simp [hidle conn hmem] at hpending
  · rw [hbro] at hb
    cases hb

end Publisher

def runPublisher (steps : List PublisherStep) : Publisher := steps.foldl Publisher.step {}

/-- **No update is lost**, as long as a broadcast that finds no ready connection finds no handshake
either that began to read its list before the call, and a broadcast that fails has lost its connections:
when no step is pending, every ready connection has received, and its client holds, a snapshot
whose list was read after each call of `broadcast`. The revisions a client accepts never
decrease. -/
theorem no_update_lost (steps : List PublisherStep)
    (hsound : Along Publisher.step (fun s step => step.Sound s) {} steps) :
    ∀ connection ∈ (runPublisher steps).connections, ((runPublisher steps).Quiet → connection.stage = .ready →
        ∀ t ∈ (runPublisher steps).calls, (∃ snapshot ∈ connection.received, t < snapshot.readAt) ∧
          ∃ snapshot, heldSnapshot connection.received = some snapshot ∧ t < snapshot.readAt) ∧
      (acceptedSnapshots none connection.received).Pairwise (·.revision ≤ ·.revision) := by
  intro connection hmem
  have hinv : (runPublisher steps).PublisherInv := hsound.invariant (fun _ _ h hC => h.step hC) .init
  refine ⟨fun hqt hrdy t ht => ?_, (acceptedSnapshots_pairwise none connection.received).1⟩
  obtain ⟨snapshot, hheld, hlt⟩ := hinv.held_of_quiet hqt hmem hrdy ht
  exact ⟨⟨snapshot, mem_of_heldSnapshot hheld, hlt⟩, snapshot, hheld, hlt⟩

namespace Missed

/-- A broadcast falls between the list of a connection and its hello. -/
def overtaken : List PublisherStep :=
  [.connect, .connect, .hello 0, .listed 0, .send 0, .helloSent 0, .hello 1, .listed 1,
    .callBroadcast, .performBroadcast, .broadcastModels, .broadcastListed, .send 1, .helloSent 1, .broadcastSend,
    .broadcastSend, .listed 1, .send 1]

/-- The second connection missed the broadcast and got another snapshot for it. -/
theorem overtaken_catches_up : (runPublisher overtaken).Quiet ∧ (runPublisher overtaken).calls = [9] ∧
      (runPublisher overtaken).connections.map (fun c => (c.stage, c.received)) =
        [(.ready, [⟨0, 3⟩, ⟨1, 11⟩]), (.ready, [⟨0, 7⟩, ⟨1, 14⟩])] ∧
      ∀ connection ∈ (runPublisher overtaken).connections, connection.stage = .ready →
        ∃ snapshot, heldSnapshot connection.received = some snapshot ∧ 9 < snapshot.readAt := by
  have hqt : (runPublisher overtaken).Quiet := by
    unfold Publisher.Quiet
    decide
  refine ⟨hqt, by decide, by decide, fun connection hmem hrdy => ?_⟩
  have hlost := no_update_lost overtaken (by decide) connection hmem
  exact (hlost.1 hqt hrdy 9 (by decide)).2

/-- A broadcast while the only connection waits with the list it has read. -/
def unseen : List PublisherStep :=
  [.connect, .hello 0, .listed 0, .callBroadcast, .performBroadcast, .send 0, .helloSent 0]

/-- The connection is ready, no step is pending, and all it has was read before the broadcast. -/
theorem unseen_is_lost : (runPublisher unseen).Quiet ∧ (runPublisher unseen).calls = [4] ∧
      ∃ connection ∈ (runPublisher unseen).connections, connection.stage = .ready ∧
        ∀ snapshot ∈ connection.received, ¬ 4 < snapshot.readAt := by
  refine ⟨?_, by decide, by decide⟩
  unfold Publisher.Quiet
  decide

end Missed
end EasyPi.Server
