/-
# The life of a session

A connection that is recorded on a session is attached to the live session of that id, and
a session that is being disposed of has no connection and no operation. Both can fail at
one place: `attach` goes on with the session that `acquire` found some steps before, and
looks at the connection only. A runtime that `create` gives back is owned by nobody any
more when its disposal fails.
-/
import Mathlib.Data.List.Count
import EasyPi.Server.SessionOwners

namespace EasyPi.Server

open List

/-- The session is being disposed of, or could not be. -/
def LiveSession.Ending (live : LiveSession) : Prop := live.disposing ≠ .unset ∨ live.disposeFailed = true

instance LiveSession.decidableEnding (live : LiveSession) : Decidable live.Ending := inferInstanceAs (Decidable (_ ∨ _))

/-- A first disposal, while the server is not closing, is that of a session nobody needs. A runtime
that `create` gives back has never been a session. -/
def DisposeCall.Justified (call : DisposeCall) : Prop :=
  call.closing = false → call.retry = false → call.connections = [] ∧ call.operations = 0 ∧
    (call.refused = false → call.terminal = true ∨ call.idle = true)

namespace Manager

structure LiveInv (s : Manager) (l : ℕ) (live : LiveSession) : Prop where
  connected : ∀ c ∈ live.connections, s.liveSessions live.id = some l ∧ live.id ∈ (s.connections c).sessionIds
  unused : live.Ending → live.connections = [] ∧ (s.closing = false → live.operationCount = 0)
  counted : live.operationCount = s.flows.countP (·.isOperation l)
  scheduled : live.disposing = .scheduled → live.disposeFailed = false → s.closing = false →
    live.terminal = true ∨ s.isIdle l = true

structure SessionInv (s : Manager) : Prop where
  owned : s.Owned
  lives : ∀ l live, s.lives l = some live → s.LiveInv l live
  recorded : ∀ c, ∀ id ∈ (s.connections c).sessionIds, ∃ l live, s.liveSessions id = some l ∧
    s.lives l = some live ∧ c ∈ live.connections
  operations : ∀ l, s.lives l = none → s.flows.countP (·.isOperation l) = 0
  closed : ∀ c, (s.connections c).stage = .closed → (s.connections c).sessionIds = []
  absent : ∀ c, s.connectionCount ≤ c → (s.connections c).stage ≠ .ready ∧ (s.connections c).sessionIds = []
  disposals : ∀ call ∈ s.disposals, call.Justified

variable {s s' : Manager} {c l : ℕ} {live : LiveSession}

theorem SessionInv.init : SessionInv {} := ⟨.init, by simp, by simp, by simp, by simp, by simp, by simp⟩

/-! ### Frames -/

/-- The sessions and connections are the same. -/
structure SameSessions (s s' : Manager) : Prop where
  lives : s'.lives = s.lives
  liveSessions : s'.liveSessions = s.liveSessions
  connections : s'.connections = s.connections
  connectionCount : s'.connectionCount = s.connectionCount
  closing : s'.closing = false → s.closing = false
  idle : ∀ l live, s.lives l = some live → live.disposing = .scheduled →
    live.disposeFailed = false → live.terminal = false → s'.closing = false → s.isIdle l = true → s'.isIdle l = true
  counts : ∀ l, s'.flows.countP (·.isOperation l) = s.flows.countP (·.isOperation l)
  disposals : ∀ call ∈ s'.disposals, call ∈ s.disposals ∨ call.Justified

section
variable (h : s.SessionInv)
include h

theorem SessionInv.congr (hownd : s'.Owned) (ha : s.SameSessions s') : s'.SessionInv := by
  refine ⟨hownd, fun l live hl => ?_, ?_, ?_, ?_, ?_, fun call hcall =>
    (ha.disposals call hcall).elim (h.disposals call) id⟩
  · rw [ha.lives] at hl
    obtain ⟨hconn, hunu, hcnt, hsched⟩ := h.lives l live hl
    refine ⟨?_, fun hend => ⟨(hunu hend).1, fun hc => (hunu hend).2 (ha.closing hc)⟩,
      (ha.counts l).symm ▸ hcnt, fun hs hf hc => ?_⟩
    · rw [ha.liveSessions, ha.connections]
      exact hconn
    · cases hterm : live.terminal with
      | true => exact .inl rfl
      | false =>
        have hidle := (hsched hs hf (ha.closing hc)).resolve_left (by simp [hterm])
        exact .inr (ha.idle l live hl hs hf hterm hc hidle)
  · rw [ha.connections, ha.liveSessions, ha.lives]
    exact h.recorded
  · intro l hl
    rw [ha.counts]
    exact h.operations l (ha.lives ▸ hl)
  · rw [ha.connections]
    exact h.closed
  · rw [ha.connections, ha.connectionCount]
    exact h.absent

theorem SessionInv.setFlows {flows : List Flow}
    (hflo : ∀ l, flows.countP (·.isOperation l) = s.flows.countP (·.isOperation l)) : SessionInv { s with flows } :=
  h.congr (h.owned.congr ⟨rfl, rfl, rfl, rfl, fun _ => rfl, fun _ => rfl⟩)
    ⟨rfl, rfl, rfl, rfl, id, fun _ _ _ _ _ _ _ => id, hflo, fun _ => .inl⟩

theorem SessionInv.wait {flow : Flow} (hflow : ∀ l, flow.isOperation l = false) : (s.wait flow).SessionInv :=
  h.setFlows fun l => by simp [hflow l]

theorem SessionInv.erase (flow : Flow) (hflow : ∀ l, flow.isOperation l = false) :
    SessionInv { s with flows := s.flows.erase flow } :=
  h.setFlows fun l => by simp [countP_erase, hflow l]

theorem SessionInv.update (l : ℕ) {flows : List Flow}
    {f : LiveSession → LiveSession} (hid : ∀ live, (f live).id = live.id)
    (hconn : ∀ live, (f live).connections = live.connections)
    (hflo : ∀ l', l' ≠ l ∨ s.lives l = none → flows.countP (·.isOperation l') = s.flows.countP (·.isOperation l'))
    (hf : ∀ live, s.lives l = some live → s.LiveInv l live → LiveInv { s with flows } l (f live)) :
    SessionInv ({ s with flows }.updateLive l f) := by
  have hownd : Owned { s with flows } := h.owned.congr ⟨rfl, rfl, rfl, rfl, fun _ => rfl, fun _ => rfl⟩
  refine ⟨hownd.congr (.updateLive _ l hid), fun l' live' hl' => ?_, fun c id hrec => ?_, fun l' hl' => ?_, h.closed, h.absent,
    h.disposals⟩
  · simp only [Manager.updateLive, Function.update_apply] at hl'
    split at hl'
    · rename_i heq
      subst heq
      obtain ⟨live, hlive, rfl⟩ := Option.map_eq_some_iff.mp hl'
      obtain ⟨hc, hunu, hcnt, hsched⟩ := hf live hlive (h.lives l' live hlive)
      exact ⟨hc, hunu, hcnt, hsched⟩
    · rename_i hne
      obtain ⟨hc, hunu, hcnt, hsched⟩ := h.lives l' live' hl'
      exact ⟨hc, hunu, (hflo l' (.inl hne)).symm ▸ hcnt, hsched⟩
  · obtain ⟨l', live', hmap, hl', hmem⟩ := h.recorded c id hrec
    by_cases heq : l' = l
    · subst heq
      refine ⟨l', f live', hmap, ?_, by rw [hconn]; exact hmem⟩
      simp [Manager.updateLive, hl']
    · refine ⟨l', live', hmap, ?_, hmem⟩
      simpa [Manager.updateLive, heq] using hl'
  · simp only [Manager.updateLive, Function.update_apply] at hl'
    split at hl'
    · rename_i heq
      subst heq
      have hnone := Option.map_eq_none_iff.mp hl'
      exact (hflo l' (.inr hnone)).trans (h.operations l' hnone)
    · rename_i hne
      exact (hflo l' (.inl hne)).trans (h.operations l' hl')

theorem SessionInv.updateLive (l : ℕ) {f : LiveSession → LiveSession} (hid : ∀ live, (f live).id = live.id)
    (hconn : ∀ live, (f live).connections = live.connections)
    (hf : ∀ live, s.lives l = some live → s.LiveInv l live → s.LiveInv l (f live)) : (s.updateLive l f).SessionInv :=
  h.update l hid hconn (fun _ _ => rfl) hf

/-! ### Disposal -/

theorem SessionInv.dispose (l : ℕ) (hl : ∀ live, s.lives l = some live → live.disposing = .unset → live.connections = [] ∧
      (s.closing = false → live.operationCount = 0 ∧
        (live.disposeFailed = false → live.terminal = true ∨ s.isIdle l = true))) : (s.dispose l).SessionInv := by
  refine h.updateLive l (fun live => by split <;> rfl) (fun live => by split <;> rfl) ?_
  intro live hlive hi
  split
  · rename_i huns
    obtain ⟨hemp, hunu⟩ := hl live hlive huns
    exact ⟨hi.connected, fun _ => ⟨hemp, fun hc => (hunu hc).1⟩, hi.counted, fun _ hf hc => (hunu hc).2 hf⟩
  · exact hi

theorem SessionInv.maybeDispose (l : ℕ) : (s.maybeDispose l).SessionInv := by
  unfold Manager.maybeDispose
  split
  · exact h
  split
  · exact h
  · rename_i live hlive hchk
    refine h.dispose l fun live' hlive' _ => ?_
    obtain rfl : live = live' := by simpa [hlive] using hlive'
    simp only [Bool.or_eq_true, decide_eq_true_eq, not_or, Bool.and_eq_true, Bool.not_eq_true'] at hchk
    obtain ⟨⟨⟨⟨-, -⟩, hconn⟩, hops⟩, hidle⟩ := hchk
    refine ⟨by simpa using hconn, fun _ => ⟨by omega, fun _ => ?_⟩⟩
    cases hterm : live.terminal with
    | true => exact .inl rfl
    | false => exact .inr (by simpa [hterm] using hidle)

theorem SessionInv.foldl_maybeDispose (sessions : List ℕ) : (sessions.foldl Manager.maybeDispose s).SessionInv := by
  induction sessions generalizing s with
  | nil => exact h
  | cons l sessions ih => exact ih (h.maybeDispose l)

theorem SessionInv.startDispose (l : ℕ) : (s.startDispose l).SessionInv := by
  unfold Manager.startDispose
  split
  · exact h
  split
  · rename_i live hlive hsched
    have hi := h.lives l live hlive
    have hupd : (s.updateLive l fun live =>
        { live with disposing := .started, subscribed := false }).SessionInv := by
      refine h.updateLive l (fun _ => rfl) (fun _ => rfl) fun live' hlive' hi' => ?_
      obtain rfl : live = live' := by simpa [hlive] using hlive'
      exact ⟨hi.connected, fun _ => hi.unused (.inl (by simp [hsched])), hi.counted, by simp⟩
    refine hupd.congr (hupd.owned.congr ⟨rfl, rfl, rfl, rfl, fun _ => rfl, fun _ => rfl⟩)
      ⟨rfl, rfl, rfl, rfl, id, fun _ _ _ _ _ _ _ => id, fun _ => rfl, fun call hcall => ?_⟩
    obtain rfl | hcall := mem_cons.mp hcall
    · refine .inr fun hclo hret => ?_
      obtain ⟨hemp, hops⟩ := hi.unused (.inl (by simp [hsched]))
      exact ⟨hemp, hi.counted.symm.trans (hops hclo), fun _ => hi.scheduled hsched hret hclo⟩
    · exact .inl hcall
  · exact h

theorem SessionInv.disposeReturned (l : ℕ) (ok : Bool) : (s.disposeReturned l ok).SessionInv := by
  have hownd := h.owned.disposeReturned l ok
  revert hownd
  unfold Manager.disposeReturned
  split
  · exact fun _ => h
  rename_i live hlive
  split
  · rename_i hstd
    have hi := h.lives l live hlive
    have hunu := hi.unused (.inl (by simp [hstd]))
    split
    · dsimp only
      intro hownd
      have hupd : (s.updateLive l fun live =>
          { live with disposing := .fulfilled }).SessionInv := by
        refine h.updateLive l (fun _ => rfl) (fun _ => rfl) fun live' hlive' hi' => ?_
        obtain rfl : live = live' := by simpa [hlive] using hlive'
        exact ⟨hi.connected, fun _ => hunu, hi.counted, by simp⟩
      have hmark : ((s.updateLive l fun live => { live with disposing := .fulfilled }).updateRuntime l
          fun runtime => { runtime with disposed := true }).SessionInv := by
        refine hupd.congr (hupd.owned.markDisposed l) ⟨rfl, rfl, rfl, rfl, id, ?_, fun _ => rfl, fun _ => .inl⟩
        intro l' live' _ _ _ _ _ hidle
        simp only [isIdle, Manager.updateRuntime, Function.update_apply] at hidle ⊢
        split
        · rename_i heq
          subst heq
          cases hr : s.runtimes l' <;> simp_all [Manager.updateLive]
        · exact hidle
      -- the session that goes has no connection, so no connection is recorded on it
      have hgone : ∀ live', ((s.updateLive l fun live =>
          { live with disposing := .fulfilled }).updateRuntime l
            fun runtime => { runtime with disposed := true }).lives l = some live' → live'.connections = [] := by
        intro live' hl'
        have hl' : some { live with disposing := .fulfilled } = some live' := by
          simpa [Manager.updateRuntime, Manager.updateLive, hlive] using hl'
        obtain rfl := Option.some.inj hl'
        exact hunu.1
      revert hownd
      split
      · rename_i hreg
        intro hownd
        refine ⟨hownd, fun l' live' hl' => ?_, fun c id hrec => ?_, hmark.operations, hmark.closed,
          hmark.absent, hmark.disposals⟩
        · obtain ⟨hconn, hunu', hcnt, hsched⟩ := hmark.lives l' live' hl'
          refine ⟨fun c hc => ?_, hunu', hcnt, hsched⟩
          obtain ⟨hmap, hrec⟩ := hconn c hc
          refine ⟨?_, hrec⟩
          simp only [Function.update_apply]
          rw [if_neg]
          · exact hmap
          · intro heq
            rw [heq, hreg] at hmap
            obtain rfl : l = l' := by simpa using hmap
            rw [hgone live' hl'] at hc
            cases hc
        · obtain ⟨l', live', hmap, hl', hmem⟩ := hmark.recorded c id hrec
          refine ⟨l', live', ?_, hl', hmem⟩
          simp only [Function.update_apply]
          rw [if_neg]
          · exact hmap
          · rintro rfl
            rw [hreg] at hmap
            obtain rfl : l = l' := by simpa using hmap
            rw [hgone live' hl'] at hmem
            cases hmem
      · exact fun _ => hmark
    · intro _
      refine h.updateLive l (fun _ => rfl) (fun _ => rfl) fun live' hlive' hi' => ?_
      obtain rfl : live = live' := by simpa [hlive] using hlive'
      exact ⟨hi.connected, fun _ => hunu, hi.counted, by simp⟩
  · exact fun _ => h

end

/-! ### Connections -/

theorem foldl_deleteConnection (sessions : List ℕ) (s : Manager) (c : ℕ) :
    sessions.foldl (fun s l => s.deleteConnection c l) s = { s with lives := fun l => (s.lives l).map fun live =>
          if l ∈ sessions then { live with connections := live.connections.filter (· ≠ c) } else live } := by
  induction sessions generalizing s with
  | nil => simp
  | cons l sessions ih =>
    rw [foldl_cons, ih]
    simp only [deleteConnection, Manager.updateLive, Function.update_apply]
    congr 1
    funext l'
    by_cases hl : l' = l
    · subst hl
      by_cases hmem : l' ∈ sessions <;> cases s.lives l' <;> simp [hmem]
    · simp [hl]

section
variable (h : s.SessionInv)
include h

/-- A connection leaves some of its sessions. -/
theorem SessionInv.leave (c : ℕ) (sessions : List ℕ) {f : SessionConnection → SessionConnection}
    (hsta : (f (s.connections c)).stage = .closed → (f (s.connections c)).sessionIds = [])
    (hrdy : (f (s.connections c)).stage = .ready → (s.connections c).stage = .ready)
    (hsub : ∀ id ∈ (f (s.connections c)).sessionIds, id ∈ (s.connections c).sessionIds ∧
      ∀ l ∈ sessions, s.liveSessions id ≠ some l)
    (hleft : ∀ id ∈ (s.connections c).sessionIds, id ∈ (f (s.connections c)).sessionIds ∨
      ∀ l, s.liveSessions id = some l → l ∈ sessions) :
    (sessions.foldl (fun s l => s.deleteConnection c l) (s.updateConnection c f)).SessionInv := by
  rw [foldl_deleteConnection]
  have hids : ∀ d, ((s.updateConnection c f).connections d).sessionIds =
      if d = c then (f (s.connections c)).sessionIds else (s.connections d).sessionIds := by
    intro d
    simp only [Manager.updateConnection, Function.update_apply]
    split <;> rfl
  refine ⟨?_, fun l live' hl => ?_, fun d id hid => ?_, fun l hl => ?_, fun d hd => ?_, fun d hd => ?_, h.disposals⟩
  · refine h.owned.congr ⟨rfl, rfl, rfl, rfl, fun l => ?_, fun _ => rfl⟩
    simp only [Manager.updateConnection, Option.map_map]
    congr 1
    funext live
    simp only [Function.comp_apply]
    split <;> rfl
  · obtain ⟨live, hlive, rfl⟩ := Option.map_eq_some_iff.mp hl
    have hi := h.lives l live hlive
    have hkeep : ∀ d ∈ live.connections, (d = c → l ∉ sessions) →
        s.liveSessions live.id = some l ∧ live.id ∈ ((s.updateConnection c f).connections d).sessionIds := by
      intro d hd hout
      obtain ⟨hmap, hrec⟩ := hi.connected d hd
      refine ⟨hmap, ?_⟩
      rw [hids]
      split
      · rename_i heq
        subst heq
        exact (hleft live.id hrec).resolve_right fun hall => hout rfl (hall l hmap)
      · exact hrec
    split
    · refine ⟨fun d hd => ?_, fun hend => ?_, hi.counted, hi.scheduled⟩
      · obtain ⟨hd, hne⟩ := mem_filter.mp hd
        exact hkeep d hd fun heq => absurd heq (by simpa using hne)
      · obtain ⟨hemp, hops⟩ := hi.unused hend
        exact ⟨by simp [hemp], hops⟩
    · rename_i hout
      exact ⟨fun d hd => hkeep d hd fun _ => hout, hi.unused, hi.counted, hi.scheduled⟩
  · have hid : id ∈ ((s.updateConnection c f).connections d).sessionIds := hid
    rw [hids] at hid
    split at hid
    · rename_i heq
      subst heq
      obtain ⟨hold, hout⟩ := hsub id hid
      obtain ⟨l, live, hmap, hlive, hmem⟩ := h.recorded d id hold
      have hnot : l ∉ sessions := fun hl => hout l hl hmap
      refine ⟨l, live, hmap, ?_, hmem⟩
      simp [Manager.updateConnection, hlive, hnot]
    · rename_i hne
      obtain ⟨l, live, hmap, hlive, hmem⟩ := h.recorded d id hid
      refine ⟨l, _, hmap, by simp only [Manager.updateConnection, hlive]; rfl, ?_⟩
      split
      · exact mem_filter.mpr ⟨hmem, by simpa using hne⟩
      · exact hmem
  · exact h.operations l (Option.map_eq_none_iff.mp hl)
  · simp only [Manager.updateConnection, Function.update_apply] at hd ⊢
    split at hd
    · rename_i heq
      rw [if_pos heq]
      exact hsta hd
    · rename_i hne
      rw [if_neg hne]
      exact h.closed d hd
  · simp only [Manager.updateConnection, Function.update_apply]
    obtain ⟨hnot, hemp⟩ := h.absent d hd
    split
    · rename_i heq
      subst heq
      refine ⟨fun hr => hnot (hrdy hr), eq_nil_iff_forall_not_mem.mpr fun id hid => ?_⟩
      have hold := (hsub id hid).1
      rw [hemp] at hold
      cases hold
    · exact ⟨hnot, hemp⟩

theorem SessionInv.detach (c : ℕ) (id : String) : (s.detach c id).SessionInv := by
  unfold Manager.detach
  split
  · rename_i hmem
    dsimp only
    have hlea : ∀ sessions : List ℕ, (∀ l, l ∈ sessions ↔ s.liveSessions id = some l) →
        (sessions.foldl (fun s l => s.deleteConnection c l) (s.updateConnection c fun connection =>
          { connection with sessionIds := connection.sessionIds.filter (· ≠ id) })).SessionInv := by
      intro sessions hses
      refine h.leave c sessions (fun hc => ?_) (fun hr => hr) (fun id' hid' => ?_) fun id' hid' => ?_
      · simp [h.closed c hc]
      · obtain ⟨hold, hne⟩ := mem_filter.mp hid'
        refine ⟨hold, fun l hl hmap => ?_⟩
        obtain ⟨live, hlive, hid⟩ := h.owned.live id' l hmap
        obtain ⟨live', hlive', hid'⟩ := h.owned.live id l ((hses l).mp hl)
        obtain rfl : live = live' := by simpa [hlive] using hlive'
        exact absurd (hid.symm.trans hid') (by simpa using hne)
      · by_cases heq : id' = id
        · exact .inr fun l hl => (hses l).mpr (heq ▸ hl)
        · exact .inl (mem_filter.mpr ⟨hid', by simpa using heq⟩)
    split
    · rename_i hnone
      exact hlea [] fun l => by
        have hnone : s.liveSessions id = none := hnone
        simp [hnone]
    · rename_i l hsome
      have hi := hlea [l] fun l' => by
        have hsome : s.liveSessions id = some l := hsome
        simp [hsome, eq_comm]
      split
      · exact hi
      · split
        · exact SessionInv.wait hi fun _ => rfl
        · exact SessionInv.maybeDispose hi l
  · split
    · exact h
    · split
      · exact h.maybeDispose _
      · exact h

theorem SessionInv.disconnect (c : ℕ) : (s.disconnect c).SessionInv := by
  refine SessionInv.foldl_maybeDispose (h.leave c _ (fun _ => rfl) (fun hr => by cases hr)
    (fun id hid => by cases hid) fun id hid => .inr fun l hl => ?_) _
  exact mem_filterMap.mpr ⟨id, hid, hl⟩

theorem SessionInv.foldl_disconnect (connections : List ℕ) : (connections.foldl Manager.disconnect s).SessionInv := by
  induction connections generalizing s with
  | nil => exact h
  | cons c connections ih => exact ih (h.disconnect c)

/-- `attach`, to a session that is still the live one and stays. -/
theorem SessionInv.attach (c l : ℕ) (hl : (s.connections c).stage = .ready → (s.connections c).closed = false →
      ∀ live, s.lives l = some live → s.liveSessions live.id = some l ∧ ¬ live.Ending) : (s.attach c l).SessionInv := by
  unfold Manager.attach
  dsimp only
  split
  · exact h.maybeDispose l
  rename_i hgo
  obtain ⟨hrdy, hopen⟩ : (s.connections c).stage = .ready ∧ (s.connections c).closed = false := by
    simpa using hgo
  split
  · exact h
  rename_i live hlive
  obtain ⟨hmap, hstay⟩ := hl hrdy hopen live hlive
  have hi := h.lives l live hlive
  refine SessionInv.wait ?_ fun _ => rfl
  refine ⟨?_, fun l' live' hl' => ?_, fun d id hid => ?_, fun l' hl' => ?_, fun d hd => ?_, fun d hd => ?_, h.disposals⟩
  · exact (h.owned.congr (.updateConnection s c _)).congr (.updateLive _ l fun _ => rfl)
  · have hgrow : ∀ d, ∀ id ∈ (s.connections d).sessionIds,
        id ∈ (((s.updateConnection c fun connection => { connection with
          sessionIds := connection.sessionIds.insert live.id }).connections d).sessionIds) := by
      intro d id hid
      simp only [Manager.updateConnection, Function.update_apply]
      split
      · rename_i heq
        subst heq
        exact mem_insert_of_mem hid
      · exact hid
    simp only [Manager.updateLive, Function.update_apply] at hl'
    split at hl'
    · rename_i heq
      subst heq
      have hl' : some { live with connections := live.connections.insert c } = some live' := by
        simpa [Manager.updateConnection, hlive] using hl'
      obtain rfl := Option.some.inj hl'
      refine ⟨fun d hd => ⟨hmap, ?_⟩, fun hend => absurd hend hstay, hi.counted, hi.scheduled⟩
      obtain rfl | hd := mem_insert_iff.mp hd
      · simp [Manager.updateLive, Manager.updateConnection]
      · exact hgrow d live.id (hi.connected d hd).2
    · obtain ⟨hconn, hunu, hcnt, hsched⟩ := h.lives l' live' hl'
      exact ⟨fun d hd => ⟨(hconn d hd).1, hgrow d _ (hconn d hd).2⟩, hunu, hcnt, hsched⟩
  · have hnew : (Manager.updateLive (s.updateConnection c fun connection => { connection with
        sessionIds := connection.sessionIds.insert live.id }) l fun live => { live with
          connections := live.connections.insert c }).lives l =
        some { live with connections := live.connections.insert c } := by
      simp [Manager.updateLive, Manager.updateConnection, hlive]
    have hold : ∀ d id, id ∈ (s.connections d).sessionIds → ∃ l' live', s.liveSessions id = some l' ∧
        (Manager.updateLive (s.updateConnection c fun connection => { connection with
          sessionIds := connection.sessionIds.insert live.id }) l fun live => { live with
            connections := live.connections.insert c }).lives l' = some live' ∧ d ∈ live'.connections := by
      intro d id hid
      obtain ⟨l', live', hmap', hlive', hmem⟩ := h.recorded d id hid
      by_cases heq : l' = l
      · subst heq
        obtain rfl : live = live' := by simpa [hlive] using hlive'
        exact ⟨l', _, hmap', hnew, mem_insert_of_mem hmem⟩
      · exact ⟨l', live', hmap', by
          simpa [Manager.updateLive, Manager.updateConnection, heq] using hlive', hmem⟩
    simp only [Manager.updateLive, Manager.updateConnection, Function.update_apply] at hid
    split at hid
    · rename_i heq
      subst heq
      obtain rfl | hid := mem_insert_iff.mp hid
      · exact ⟨l, _, hmap, hnew, mem_insert_self⟩
      · exact hold d id hid
    · exact hold d id hid
  · simp only [Manager.updateLive, Function.update_apply] at hl'
    split at hl'
    · rename_i heq
      subst heq
      exact h.operations l' (Option.map_eq_none_iff.mp hl')
    · exact h.operations l' hl'
  · simp only [Manager.updateLive, Manager.updateConnection, Function.update_apply] at hd ⊢
    split at hd
    · rw [hrdy] at hd
      cases hd
    · rename_i hne
      rw [if_neg hne]
      exact h.closed d hd
  · simp only [Manager.updateLive, Manager.updateConnection, Function.update_apply]
    obtain ⟨hnot, hemp⟩ := h.absent d hd
    split
    · rename_i heq
      subst heq
      exact absurd hrdy hnot
    · exact ⟨hnot, hemp⟩

theorem SessionInv.updateConnection (c : ℕ) (count : ℕ)
    {f : SessionConnection → SessionConnection} (hcnt : s.connectionCount ≤ count)
    (hids : (f (s.connections c)).sessionIds = (s.connections c).sessionIds)
    (hsta : (f (s.connections c)).stage = .closed → (s.connections c).stage = .closed)
    (habs : count ≤ c → (f (s.connections c)).stage ≠ .ready) :
    SessionInv { s.updateConnection c f with connectionCount := count } := by
  have hsame : ∀ d, ((s.updateConnection c f).connections d).sessionIds = (s.connections d).sessionIds := by
    intro d
    simp only [Manager.updateConnection, Function.update_apply]
    split
    · rename_i heq
      subst heq
      exact hids
    · rfl
  refine ⟨?_, fun l live hl => ?_, fun d id hid => ?_, h.operations, fun d hd => ?_, fun d hd => ⟨?_, ?_⟩, h.disposals⟩
  · exact h.owned.congr ⟨rfl, rfl, rfl, rfl, fun _ => rfl, fun _ => rfl⟩
  · obtain ⟨hconn, hunu, hcntd, hsched⟩ := h.lives l live hl
    exact ⟨fun d hd => ⟨(hconn d hd).1, (hsame d).symm ▸ (hconn d hd).2⟩, hunu, hcntd, hsched⟩
  · exact h.recorded d id (hsame d ▸ hid)
  · refine (hsame d).trans (h.closed d ?_)
    simp only [Manager.updateConnection, Function.update_apply] at hd
    split at hd
    · rename_i heq
      subst heq
      exact hsta hd
    · exact hd
  · have hd : count ≤ d := hd
    simp only [Manager.updateConnection, Function.update_apply]
    split
    · rename_i heq
      subst heq
      exact habs hd
    · exact (h.absent d (Nat.le_trans hcnt hd)).1
  · exact (hsame d).trans (h.absent d (Nat.le_trans hcnt hd)).2

/-! ### Operations -/

theorem SessionInv.operate (c : ℕ) (id : String) : (s.operate c id).SessionInv := by
  unfold Manager.operate
  split
  · exact h
  rename_i l hreq
  have hnot : ∀ live, s.lives l = some live → ¬ live.Ending := by
    intro live hlive
    unfold requireAttached at hreq
    split at hreq
    · obtain ⟨-, hl⟩ := Option.filter_eq_some_iff.mp hreq
      simp only [hlive, Option.any_some, Bool.and_eq_true, decide_eq_true_eq, Bool.not_eq_true'] at hl
      rintro (hend | hend)
      · exact hend hl.1.2
      · simp [hl.2] at hend
    · cases hreq
  have hsome : s.lives l ≠ none := by
    unfold requireAttached at hreq
    split at hreq
    · obtain ⟨-, hl⟩ := Option.filter_eq_some_iff.mp hreq
      intro hnone
      simp [hnone] at hl
    · cases hreq
  refine @SessionInv.update s h l (.operating c l :: s.flows)
    (fun live => { live with operationCount := live.operationCount + 1 }) (fun _ => rfl)
    (fun _ => rfl) (fun l' hl' => ?_) fun live hlive hi => ?_
  · have hne : l' ≠ l := hl'.resolve_right hsome
    simp [Flow.isOperation, Ne.symm hne]
  · refine ⟨hi.connected, fun hend => absurd hend (hnot live hlive), ?_, hi.scheduled⟩
    simp [Flow.isOperation, hi.counted]

theorem SessionInv.endOperation {flow : Flow} (hmem : flow ∈ s.flows) (l : ℕ)
    (hflow : ∀ l', flow.isOperation l' = decide (l = l')) :
    (Manager.endOperation { s with flows := s.flows.erase flow } l).SessionInv := by
  refine SessionInv.maybeDispose ?_ l
  refine h.update l (fun _ => rfl) (fun _ => rfl) (fun l' hl' => ?_) fun live hlive hi => ?_
  · rw [countP_erase]
    obtain hne | hnone := hl'
    · simp [hflow, Ne.symm hne]
    · by_cases heq : l = l'
      · subst heq
        simp [h.operations l hnone]
      · simp [hflow, heq]
  · refine ⟨hi.connected, fun hend => ?_, ?_, hi.scheduled⟩
    · obtain ⟨hemp, hops⟩ := hi.unused hend
      exact ⟨hemp, fun hc => by simp [hops hc]⟩
    · have hcntd := hi.counted
      simp only [countP_erase, hflow, hmem, decide_true, and_self, if_true]
      omega

theorem SessionInv.operated {c l : ℕ} (hmem : .operating c l ∈ s.flows) :
    (Manager.wait { s with flows := s.flows.erase (.operating c l) } (.operated c l)).SessionInv := by
  refine h.setFlows fun l' => ?_
  have hperm := (perm_cons_erase hmem).countP_eq (·.isOperation l')
  rw [hperm, countP_cons, countP_cons]
  rfl

theorem SessionInv.runtimeError (l : ℕ) : (s.runtimeError l).SessionInv := by
  unfold Manager.runtimeError
  split
  · exact h
  split
  · refine SessionInv.wait ?_ fun _ => rfl
    refine h.updateLive l (fun _ => rfl) (fun _ => rfl) fun live hlive hi => ?_
    exact ⟨hi.connected, hi.unused, hi.counted, fun _ _ _ => .inl rfl⟩
  · exact h

theorem SessionInv.phase (r : ℕ) (idle : Bool) (hr : idle = false → s.closing = false → ∀ live, s.lives r = some live →
      live.disposing = .scheduled → live.disposeFailed = true ∨ live.terminal = true) :
    (s.updateRuntime r fun runtime => { runtime with idle }).SessionInv := by
  refine h.congr (h.owned.congr ⟨rfl, rfl, rfl, rfl, fun _ => rfl, fun r' => ?_⟩)
    ⟨rfl, rfl, rfl, rfl, id, fun l live hl hs hf ht hc hidle => ?_, fun _ => rfl, fun _ => .inl⟩
  · simp only [Manager.updateRuntime, Function.update_apply]
    split
    · rename_i heq
      subst heq
      cases s.runtimes r' <;> rfl
    · rfl
  · simp only [isIdle, Manager.updateRuntime, Function.update_apply] at hidle ⊢
    split
    · rename_i heq
      subst heq
      cases idle with
      | true => cases hr' : s.runtimes l <;> simp_all
      | false =>
        have := hr rfl hc live hl hs
        simp [hf, ht] at this
    · exact hidle

/-! ### Acquisition -/

theorem SessionInv.acquire (c : ℕ) (id : String) : (s.acquire c id).SessionInv := by
  have hownd := h.owned.acquire c id
  revert hownd
  unfold Manager.acquire
  split
  · rename_i l hmap
    split
    · exact fun _ => h
    rename_i live hlive
    split
    · rename_i hend
      refine fun _ => SessionInv.wait (h.dispose l fun live' hlive' huns => ?_) fun _ => rfl
      obtain rfl : live = live' := by simpa [hlive] using hlive'
      have hfail : live.disposeFailed = true := by simpa [huns] using hend
      obtain ⟨hemp, hops⟩ := (h.lives l live hlive).unused (.inr hfail)
      exact ⟨hemp, fun hc => ⟨hops hc, fun hf => by simp [hfail] at hf⟩⟩
    · split
      · exact fun _ => h
      · exact fun _ => h.wait fun _ => rfl
  · split
    · exact fun _ => h.wait fun _ => rfl
    · intro hownd
      refine h.congr hownd ⟨rfl, rfl, rfl, rfl, fun hc => hc, fun _ _ _ _ _ _ _ hidle => hidle,
        fun l => ?_, fun _ => .inl⟩
      simp [Manager.wait, Manager.setOpening, Flow.isOperation]

theorem SessionInv.accept {o r : ℕ} {opening : Opening}
    (ho : s.openings o = some opening) (hst : opening.state = .snapshot r) :
    SessionInv { s.setOpening o { opening with state := .settled (some r) } with
      lives := Function.update s.lives r (some { id := opening.id })
      liveSessions := Function.update s.liveSessions opening.id (some r) } := by
  have hhol : opening.state.Holds r := .inl hst
  obtain ⟨hnone, -⟩ := h.owned.held o opening r ho hhol
  obtain ⟨-, hfree⟩ := h.owned.unsettled o opening ho hhol.not_settled
  refine ⟨h.owned.accept ho hst, fun l live hl => ?_, fun c id hid => ?_, fun l hl => ?_, h.closed, h.absent, h.disposals⟩
  · simp only [Function.update_apply] at hl
    split at hl
    · rename_i heq
      subst heq
      obtain rfl : ({ id := opening.id } : LiveSession) = live := by simpa using hl
      refine ⟨by simp, fun hend => ⟨rfl, fun _ => rfl⟩, ?_, by simp⟩
      exact (h.operations l hnone).symm
    · obtain ⟨hconn, hunu, hcnt, hsched⟩ := h.lives l live hl
      refine ⟨fun c hc => ?_, hunu, hcnt, hsched⟩
      obtain ⟨hmap, hrec⟩ := hconn c hc
      refine ⟨?_, hrec⟩
      simp only [Function.update_apply]
      rw [if_neg]
      · exact hmap
      · intro heq
        simp [heq, hfree] at hmap
  · obtain ⟨l, live, hmap, hlive, hmem⟩ := h.recorded c id hid
    refine ⟨l, live, ?_, ?_, hmem⟩
    · simp only [Function.update_apply]
      rw [if_neg]
      · exact hmap
      · rintro rfl
        simp [hfree] at hmap
    · simp only [Function.update_apply]
      rw [if_neg]
      · exact hlive
      · rintro rfl
        simp [hnone] at hlive
  · simp only [Function.update_apply] at hl
    split at hl
    · cases hl
    · exact h.operations l hl

end

theorem justified_refused (r : ℕ) (closing idle : Bool) :
    DisposeCall.Justified ⟨r, closing, true, false, [], 0, false, idle⟩ :=
  fun _ _ => ⟨rfl, rfl, fun h => by cases h⟩

theorem SessionInv.openingReturned (h : s.SessionInv) (o : ℕ) (ok : Bool)
    (hok : ∀ opening ∈ s.openings o, ∀ r, opening.state = .refusing r → ok = true) :
    (s.openingReturned o ok).SessionInv := by
  have hownd := h.owned.openingReturned o ok hok
  revert hownd
  unfold Manager.openingReturned
  split
  · exact fun _ => h
  rename_i opening ho
  split
  · split
    · dsimp only
      have hidle : ∀ l live, s.lives l = some live → s.isIdle l = true →
          (Function.update s.runtimes s.next (some { id := opening.id }) l).any (·.idle) = true := by
        intro l live hl hidle
        rw [Function.update_of_ne]
        · exact hidle
        · rintro rfl
          simp [(h.owned.fresh s.next (Nat.le_refl _)).2.2] at hl
      split
      · refine fun hownd => h.congr hownd ⟨rfl, rfl, rfl, rfl, fun hc => hc,
          fun l live hl _ _ _ _ hi => hidle l live hl hi, fun _ => rfl, fun call hcall => ?_⟩
        obtain rfl | hcall := mem_cons.mp hcall
        · exact .inr (justified_refused _ _ _)
        · exact .inl hcall
      · exact fun hownd => h.congr hownd ⟨rfl, rfl, rfl, rfl, fun hc => hc,
          fun l live hl _ _ _ _ hi => hidle l live hl hi, fun _ => rfl, fun _ => .inl⟩
    · exact fun hownd => h.congr hownd ⟨rfl, rfl, rfl, rfl, fun hc => hc,
        fun _ _ _ _ _ _ _ hi => hi, fun _ => rfl, fun _ => .inl⟩
  · rename_i r hst
    split
    · exact fun _ => h.accept ho hst
    · refine fun hownd => h.congr hownd ⟨rfl, rfl, rfl, rfl, fun hc => hc,
        fun _ _ _ _ _ _ _ hi => hi, fun _ => rfl, fun call hcall => ?_⟩
      obtain rfl | hcall := mem_cons.mp hcall
      · exact .inr (justified_refused _ _ _)
      · exact .inl hcall
  · rename_i r hst
    obtain rfl := hok opening ho r hst
    rw [if_pos rfl]
    refine fun hownd => h.congr hownd ⟨rfl, rfl, rfl, rfl, fun hc => hc,
      fun l live _ _ _ _ _ hi => ?_, fun _ => rfl, fun _ => .inl⟩
    simp only [isIdle, Manager.updateRuntime, Manager.setOpening, Function.update_apply] at hi ⊢
    split
    · rename_i heq
      subst heq
      cases hr : s.runtimes l <;> simp_all
    · exact hi
  · exact fun _ => h

theorem SessionInv.forgetOpening (h : s.SessionInv) (id : String) {o : ℕ} {opening : Opening}
    (ho : s.openings o = some opening) (hs : opening.state.Settled) : (s.forgetOpening id o).SessionInv := by
  have hownd := h.owned.forgetOpening id ho hs
  revert hownd
  unfold Manager.forgetOpening
  split
  · exact fun hownd => h.congr hownd ⟨rfl, rfl, rfl, rfl, fun hc => hc,
      fun _ _ _ _ _ _ _ hi => hi, fun _ => rfl, fun _ => .inl⟩
  · exact fun _ => h

end Manager

/-! ### Runs -/

/-- `create` waits for the disposal of a runtime it gives back. -/
def OpeningState.isRefusing : OpeningState → Bool
  | .refusing _ => true
  | _ => false

/-- The disposal of a runtime that is given back succeeds; `attach` finds the session of `acquire`
still live and not being disposed of; and an idle runtime stays so until its disposal begins. -/
def SessionStep.Sound (s : Manager) : SessionStep → Prop
  | .openingReturned o ok => ok = false → ∀ opening ∈ s.openings o, opening.state.isRefusing = false
  | .resume (.acquired c l) _ => (s.connections c).stage = .ready →
    (s.connections c).closed = false → ∀ live ∈ s.lives l, s.liveSessions live.id = some l ∧ ¬ live.Ending
  | .phase r idle => idle = false → s.closing = false → ∀ live ∈ s.lives r,
    live.disposing = .scheduled → live.disposeFailed = true ∨ live.terminal = true
  | _ => True

instance SessionStep.decidableSound (s : Manager) (step : SessionStep) : Decidable (step.Sound s) := by
  unfold SessionStep.Sound
  split <;> infer_instance

namespace Manager

variable {s : Manager}

theorem SessionInv.resume (h : s.SessionInv) {flow : Flow} (hmem : flow ∈ s.flows) (ok : Bool)
    (hsound : SessionStep.Sound s (.resume flow ok)) :
    (Manager.resume { s with flows := s.flows.erase flow } flow ok).SessionInv := by
  cases flow with
  | awaitingDispose c id l failures =>
    have he := h.erase (.awaitingDispose c id l failures) fun _ => rfl
    simp only [Manager.resume]
    split
    · exact he
    split
    · exact SessionInv.acquire he c id
    split
    · exact he
    · exact SessionInv.wait he fun _ => rfl
  | awaitingOpening c id o owner =>
    have he := h.erase (.awaitingOpening c id o owner) fun _ => rfl
    simp only [Manager.resume]
    split
    · rename_i id' result ho
      have hfor : SessionInv (if owner = true then
          Manager.forgetOpening { s with flows := s.flows.erase (.awaitingOpening c id o owner) } id o
          else { s with flows := s.flows.erase (.awaitingOpening c id o owner) }) := by
        split
        · exact SessionInv.forgetOpening he id ho trivial
        · exact he
      cases result with
      | none => exact hfor
      | some l => exact SessionInv.wait hfor fun _ => rfl
    · exact SessionInv.wait he fun _ => rfl
  | acquired c l =>
    have he := h.erase (.acquired c l) fun _ => rfl
    exact SessionInv.attach he c l fun hr hc live hl => hsound hr hc live hl
  | attached c l => exact h.erase (.attached c l) fun _ => rfl
  | detached l =>
    have he := h.erase (.detached l) fun _ => rfl
    simp only [Manager.resume]
    split
    · exact SessionInv.maybeDispose he l
    · exact he
  | operating c l =>
    simp only [Manager.resume]
    split
    · exact h.operated hmem
    · exact h.endOperation hmem l fun _ => rfl
  | operated c l => exact h.endOperation hmem l fun _ => rfl
  | closingConnections l connections =>
    have he := h.erase (.closingConnections l connections) fun _ => rfl
    exact SessionInv.wait (SessionInv.foldl_disconnect he connections) fun _ => rfl
  | disconnecting l =>
    have he := h.erase (.disconnecting l) fun _ => rfl
    exact SessionInv.maybeDispose he l

theorem SessionInv.closeSession (h : s.SessionInv) (hclo : s.closing = true)
    (hgone : ∀ c < s.connectionCount, (s.connections c).stage = .closed) (l : ℕ) : (s.dispose l).SessionInv := by
  refine h.dispose l fun live hlive _ => ⟨?_, fun hc => by simp [hclo] at hc⟩
  refine eq_nil_iff_forall_not_mem.mpr fun c hc => ?_
  have hrec := ((h.lives l live hlive).connected c hc).2
  have hemp : (s.connections c).sessionIds = [] := by
    obtain hlt | hge := Nat.lt_or_ge c s.connectionCount
    · exact h.closed c (hgone c hlt)
    · exact (h.absent c hge).2
  rw [hemp] at hrec
  cases hrec

theorem SessionInv.step (h : s.SessionInv) {step : SessionStep} (hsound : step.Sound s) : (s.step step).SessionInv := by
  cases step with
  | connect =>
    simp only [Manager.step]
    split
    · exact h
    · exact h.updateConnection s.connectionCount _ (Nat.le_succ _) rfl (fun hc => by cases hc)
        fun hle => absurd hle (by omega)
  | connectionClosed c =>
    exact @SessionInv.updateConnection s h c s.connectionCount
      (fun connection => { connection with closed := true }) (Nat.le_refl _) rfl (fun hc => hc)
      fun hle => (h.absent c hle).1
  | disconnect c => exact h.disconnect c
  | acquire c id =>
    simp only [Manager.step]
    split
    · exact h.acquire c id
    · exact h
  | detach c id =>
    simp only [Manager.step]
    split
    · exact h.detach c id
    · exact h
  | operate c id =>
    simp only [Manager.step]
    split
    · exact h.operate c id
    · exact h
  | openingReturned o ok =>
    refine h.openingReturned o ok fun opening ho r hst => ?_
    cases ok with
    | true => rfl
    | false =>
      have := hsound rfl opening ho
      simp [hst, OpeningState.isRefusing] at this
  | resume flow ok =>
    simp only [Manager.step]
    split
    · rename_i hmem
      exact h.resume hmem ok hsound
    · exact h
  | runtimeEvent l =>
    simp only [Manager.step, Manager.runtimeEvent]
    split
    · exact h.maybeDispose l
    · exact h
  | runtimeError l => exact h.runtimeError l
  | phase r idle => exact h.phase r idle hsound
  | startDispose l => exact h.startDispose l
  | disposeReturned l ok => exact h.disposeReturned l ok
  | close =>
    exact h.congr (h.owned.congr ⟨rfl, rfl, rfl, rfl, fun _ => rfl, fun _ => rfl⟩)
      ⟨rfl, rfl, rfl, rfl, (fun hc => by cases hc), fun _ _ _ _ _ _ _ hi => hi, fun _ => rfl, fun _ => .inl⟩
  | closeSession id =>
    simp only [Manager.step]
    split
    · rename_i hcond
      simp only [Bool.and_eq_true, all_eq_true, mem_range, decide_eq_true_eq] at hcond
      split
      · exact h.closeSession hcond.1 hcond.2 _
      · exact h
    · exact h

end Manager

def runSessions (steps : List SessionStep) : Manager := steps.foldl Manager.step {}

/-- **The life of a session**, as long as `attach` finds the session that `acquire` returned still
live and staying, the disposal of a runtime that is given back succeeds, and an idle runtime stays
idle until its disposal begins: of each session at most one runtime is not disposed of; a runtime
is disposed of, while the server is not closing, only when its session has no connection and no
operation and is idle or terminal, or again after a failed disposal; and a connection is recorded
on live sessions only, none of which is being disposed of. -/
theorem session_lifecycle (steps : List SessionStep) (hsound : Along Manager.step (fun s step => step.Sound s) {} steps) :
    (∀ r r' runtime runtime', (runSessions steps).runtimes r = some runtime →
      (runSessions steps).runtimes r' = some runtime' → runtime.id = runtime'.id →
      runtime.disposed = false → runtime'.disposed = false → r = r') ∧
    (∀ call ∈ (runSessions steps).disposals, call.Justified) ∧
    (∀ c id, id ∈ ((runSessions steps).connections c).sessionIds →
      ∃ l live, (runSessions steps).liveSessions id = some l ∧
        (runSessions steps).lives l = some live ∧ c ∈ live.connections) ∧
    ∀ l live, (runSessions steps).lives l = some live → ∀ c ∈ live.connections,
      (runSessions steps).liveSessions live.id = some l ∧
        live.id ∈ ((runSessions steps).connections c).sessionIds ∧ live.disposing = .unset := by
  have hinv : (runSessions steps).SessionInv := hsound.invariant (fun _ _ h hC => h.step hC) .init
  refine ⟨fun r r' runtime runtime' hr hr' hid hd hd' => hinv.owned.unique hr hr' hid hd hd',
    hinv.disposals, hinv.recorded, fun l live hl c hc => ?_⟩
  have hi := hinv.lives l live hl
  obtain ⟨hmap, hrec⟩ := hi.connected c hc
  refine ⟨hmap, hrec, ?_⟩
  by_contra hend
  rw [(hi.unused (.inl hend)).1] at hc
  cases hc

namespace Pipelined

/-- A client creates a session and works in it, another attaches, and when both have left, the
session is disposed of and opened again. -/
def handedOver : List SessionStep :=
  [.connect, .connect, .acquire 0 "s", .openingReturned 0 true, .openingReturned 0 true,
    .resume (.awaitingOpening 0 "s" 0 true) true, .resume (.acquired 0 1) true,
    .resume (.attached 0 1) true, .operate 0 "s", .acquire 1 "s", .resume (.acquired 1 1) true,
    .detach 0 "s", .resume (.attached 1 1) true, .resume (.operating 0 1) true, .disconnect 1,
    .resume (.operated 0 1) true, .startDispose 1, .acquire 0 "s", .disposeReturned 1 true,
    .resume (.awaitingDispose 0 "s" 1 0) true, .openingReturned 2 true, .openingReturned 2 true,
    .resume (.awaitingOpening 0 "s" 2 true) true, .resume (.acquired 0 3) true, .resume (.attached 0 3) true]

/-- The second runtime is obtained when the first is disposed of. -/
theorem handedOver_once : ((runSessions handedOver).runtimes 1 = some ⟨"s", true, true⟩ ∧
      (runSessions handedOver).runtimes 3 = some ⟨"s", true, false⟩ ∧
      (runSessions handedOver).disposals = [⟨1, false, false, false, [], 0, false, true⟩] ∧
      ((runSessions handedOver).connections 0).sessionIds = ["s"]) ∧
    (∀ call ∈ (runSessions handedOver).disposals, call.Justified) ∧
    ∃ l live, (runSessions handedOver).liveSessions "s" = some l ∧
      (runSessions handedOver).lives l = some live ∧ 0 ∈ live.connections := by
  refine ⟨by decide +kernel, ?_⟩
  have hlife := session_lifecycle handedOver (by decide +kernel)
  exact ⟨hlife.2.1, hlife.2.2.1 0 "s" (by decide +kernel)⟩

/-- A client that is attached to a session asks for it again and leaves it, in one packet. -/
def attachDetach : List SessionStep :=
  [.connect, .acquire 0 "s", .openingReturned 0 true, .openingReturned 0 true,
    .resume (.awaitingOpening 0 "s" 0 true) true, .resume (.acquired 0 1) true,
    .resume (.attached 0 1) true, .acquire 0 "s", .detach 0 "s", .resume (.acquired 0 1) true, .startDispose 1]

/-- The service hands over a runtime of another session, its disposal fails, and the client asks
again. -/
def refusedTwice : List SessionStep :=
  [.connect, .acquire 0 "s", .openingReturned 0 true, .openingReturned 0 false,
    .openingReturned 0 false, .resume (.awaitingOpening 0 "s" 0 true) true, .acquire 0 "s", .openingReturned 2 true]

/-- The `attach` waits for its last snapshot and is about to succeed: the connection is recorded on
a session that is being disposed of, and the disposal has begun while it is attached. In the other
run two runtimes of one session are not disposed of. -/
theorem lifecycle_broken : (Flow.attached 0 1 ∈ (runSessions attachDetach).flows ∧
      ((runSessions attachDetach).connections 0).sessionIds = ["s"] ∧
      (∃ live, (runSessions attachDetach).lives 1 = some live ∧ 0 ∈ live.connections ∧ live.disposing = .started) ∧
      ∃ call ∈ (runSessions attachDetach).disposals, ¬ call.Justified) ∧
    (runSessions refusedTwice).runtimes 1 = some ⟨"s", true, false⟩ ∧
      (runSessions refusedTwice).runtimes 3 = some ⟨"s", true, false⟩ := by
  refine ⟨⟨by decide +kernel, by decide +kernel, ⟨_, rfl, by decide +kernel⟩, _,
    mem_cons_self, fun h => ?_⟩, by decide +kernel, by decide +kernel⟩
  have hemp := (h rfl rfl).1
  revert hemp
  decide +kernel

end Pipelined
end EasyPi.Server
