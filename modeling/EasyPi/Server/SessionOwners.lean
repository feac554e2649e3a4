/-
# Who owns a runtime

A runtime that is not disposed of belongs to the opening that has obtained it, or is the
live session of its id. There is one opening and one live session for an id, and an
opening that is not settled means that there is no live session.
-/
import EasyPi.Server.Sessions

namespace EasyPi.Server

/-- The opening has a runtime it has not passed on. -/
def OpeningState.Holds (state : OpeningState) (r : ℕ) : Prop := state = .snapshot r ∨ state = .refusing r

def OpeningState.Settled : OpeningState → Prop
  | .settled _ => True
  | _ => False

attribute [local simp] OpeningState.Settled

theorem OpeningState.Holds.not_settled {state : OpeningState} {r : ℕ} (h : state.Holds r) : ¬ state.Settled := by
  obtain rfl | rfl := h <;> exact id

namespace Manager

/-- Every runtime that is not disposed of has one owner. -/
structure Owned (s : Manager) : Prop where
  fresh : ∀ n, s.next ≤ n → s.runtimes n = none ∧ s.openings n = none ∧ s.lives n = none
  live : ∀ id l, s.liveSessions id = some l → ∃ live, s.lives l = some live ∧ live.id = id
  opening : ∀ id o, s.openingSessions id = some o → ∃ opening, s.openings o = some opening ∧ opening.id = id
  unsettled : ∀ o opening, s.openings o = some opening → ¬ opening.state.Settled →
    s.openingSessions opening.id = some o ∧ s.liveSessions opening.id = none
  held : ∀ o opening r, s.openings o = some opening → opening.state.Holds r →
    s.lives r = none ∧ ∃ runtime, s.runtimes r = some runtime ∧ runtime.id = opening.id
  owner : ∀ r runtime, s.runtimes r = some runtime → runtime.disposed = false →
    (∃ o opening, s.openings o = some opening ∧ opening.state.Holds r) ∨ s.liveSessions runtime.id = some r

variable {s s' : Manager}

theorem Owned.init : Owned {} := by
  constructor <;> simp

/-- **At most one runtime of a session is not disposed of.** -/
theorem Owned.unique (h : s.Owned) {r r' : ℕ} {runtime runtime' : SessionRuntime}
    (hr : s.runtimes r = some runtime) (hr' : s.runtimes r' = some runtime')
    (hid : runtime.id = runtime'.id) (hd : runtime.disposed = false) (hd' : runtime'.disposed = false) : r = r' := by
  have hopen : ∀ {r runtime o opening}, s.runtimes r = some runtime →
      s.openings o = some opening → opening.state.Holds r →
      s.openingSessions runtime.id = some o ∧ s.liveSessions runtime.id = none := by
    intro r runtime o opening hr ho hh
    obtain ⟨-, held, hheld, heq⟩ := h.held o opening r ho hh
    obtain rfl : runtime = held := by simpa [hr] using hheld
    rw [heq]
    exact h.unsettled o opening ho hh.not_settled
  obtain ⟨o, opening, ho, hh⟩ | hl := h.owner r runtime hr hd
  · obtain ⟨hreg, hnone⟩ := hopen hr ho hh
    obtain ⟨o', opening', ho', hh'⟩ | hl' := h.owner r' runtime' hr' hd'
    · obtain ⟨hreg', -⟩ := hopen hr' ho' hh'
      rw [← hid, hreg] at hreg'
      obtain rfl : o = o' := by simpa using hreg'
      obtain rfl : opening = opening' := by simpa [ho] using ho'
      obtain hs | hs := hh <;> obtain hs' | hs' := hh' <;> simp_all
    · rw [← hid, hnone] at hl'
      cases hl'
  · obtain ⟨o', opening', ho', hh'⟩ | hl' := h.owner r' runtime' hr' hd'
    · obtain ⟨-, hnone'⟩ := hopen hr' ho' hh'
      rw [hid, hnone'] at hl
      cases hl
    · rw [← hid, hl] at hl'
      simpa using hl'

/-! ### Steps that change no owner -/

/-- Two states with the same openings, the same sessions under the same ids, and the same
runtimes left to dispose of. -/
structure SameOwners (s s' : Manager) : Prop where
  next : s'.next = s.next
  openings : s'.openings = s.openings
  liveSessions : s'.liveSessions = s.liveSessions
  openingSessions : s'.openingSessions = s.openingSessions
  lives : ∀ l, (s'.lives l).map (·.id) = (s.lives l).map (·.id)
  runtimes : ∀ r, (s'.runtimes r).map (fun runtime => (runtime.id, runtime.disposed)) =
    (s.runtimes r).map fun runtime => (runtime.id, runtime.disposed)

theorem SameOwners.trans {t : Manager} (h : s.SameOwners s') (h' : s'.SameOwners t) : s.SameOwners t :=
  ⟨h'.next.trans h.next, h'.openings.trans h.openings, h'.liveSessions.trans h.liveSessions,
    h'.openingSessions.trans h.openingSessions, fun l => (h'.lives l).trans (h.lives l),
    fun r => (h'.runtimes r).trans (h.runtimes r)⟩

theorem SameOwners.lives_none (h : s.SameOwners s') (l : ℕ) : s'.lives l = none ↔ s.lives l = none := by
  have := h.lives l
  cases hl : s.lives l <;> cases hl' : s'.lives l <;> simp [hl, hl'] at this ⊢

theorem SameOwners.runtimes_none (h : s.SameOwners s') (r : ℕ) : s'.runtimes r = none ↔ s.runtimes r = none := by
  have := h.runtimes r
  cases hl : s.runtimes r <;> cases hl' : s'.runtimes r <;> simp [hl, hl'] at this ⊢

theorem Owned.congr (h : s.Owned) (ha : s.SameOwners s') : s'.Owned := by
  refine ⟨fun n hn => ?_, fun id l hl => ?_, fun id o ho => ?_, fun o opening ho hs => ?_,
    fun o opening r ho hh => ?_, fun r runtime hr hd => ?_⟩
  · rw [ha.next] at hn
    obtain ⟨hr, ho, hl⟩ := h.fresh n hn
    exact ⟨(ha.runtimes_none n).mpr hr, ha.openings ▸ ho, (ha.lives_none n).mpr hl⟩
  · rw [ha.liveSessions] at hl
    obtain ⟨live, hlive, rfl⟩ := h.live id l hl
    have := ha.lives l
    rw [hlive, Option.map_some, Option.map_eq_some_iff] at this
    exact this
  · rw [ha.openingSessions] at ho
    rw [ha.openings]
    exact h.opening id o ho
  · rw [ha.openings] at ho
    rw [ha.openingSessions, ha.liveSessions]
    exact h.unsettled o opening ho hs
  · rw [ha.openings] at ho
    obtain ⟨hl, runtime, hr, hid⟩ := h.held o opening r ho hh
    refine ⟨(ha.lives_none r).mpr hl, ?_⟩
    have := ha.runtimes r
    rw [hr, Option.map_some, Option.map_eq_some_iff] at this
    obtain ⟨runtime', hr', heq⟩ := this
    exact ⟨runtime', hr', (congrArg Prod.fst heq).trans hid⟩
  · rw [ha.openings, ha.liveSessions]
    have := (ha.runtimes r).symm
    rw [hr, Option.map_some, Option.map_eq_some_iff] at this
    obtain ⟨runtime', hr', heq⟩ := this
    obtain ⟨hid, hdis⟩ : runtime'.id = runtime.id ∧ runtime'.disposed = runtime.disposed := by
      simpa using heq
    rw [← hid]
    exact h.owner r runtime' hr' (hdis.trans hd)

theorem SameOwners.updateLive (s : Manager) (l : ℕ) {f : LiveSession → LiveSession}
    (hf : ∀ live, (f live).id = live.id) : s.SameOwners (s.updateLive l f) := by
  refine ⟨rfl, rfl, rfl, rfl, fun l' => ?_, fun _ => rfl⟩
  simp only [Manager.updateLive, Function.update_apply]
  split
  · rename_i heq
    subst heq
    cases s.lives l' <;> simp [hf]
  · rfl

theorem SameOwners.updateConnection (s : Manager) (c : ℕ)
    (f : SessionConnection → SessionConnection) : s.SameOwners (s.updateConnection c f) :=
  ⟨rfl, rfl, rfl, rfl, fun _ => rfl, fun _ => rfl⟩

theorem SameOwners.wait (s : Manager) (flow : Flow) : s.SameOwners (s.wait flow) :=
  ⟨rfl, rfl, rfl, rfl, fun _ => rfl, fun _ => rfl⟩

theorem SameOwners.dispose (s : Manager) (l : ℕ) : s.SameOwners (s.dispose l) :=
  .updateLive s l fun live => by split <;> rfl

/-! ### Openings and disposals -/

section
variable (h : s.Owned)
include h

theorem Owned.acquire (c : ℕ) (id : String) : (s.acquire c id).Owned := by
  unfold Manager.acquire
  split
  · split
    · exact h
    · split
      · exact h.congr ((SameOwners.dispose s _).trans (.wait _ _))
      · split
        · exact h
        · exact h.congr (.wait s _)
  · rename_i hlive
    split
    · exact h.congr (.wait s _)
    · -- a new opening, and there is neither an opening nor a live session of this id
      rename_i hope
      obtain ⟨-, hnext, -⟩ := h.fresh s.next (Nat.le_refl _)
      have hne : ∀ o opening, s.openings o = some opening → o ≠ s.next := by
        rintro o opening ho rfl
        simp [hnext] at ho
      have hoth : ∀ o opening, s.openings o = some opening → ¬ opening.state.Settled → opening.id ≠ id := by
        rintro o opening ho hs rfl
        simp [(h.unsettled o opening ho hs).1] at hope
      refine ⟨fun n hn => ?_, h.live, fun id' o ho => ?_, fun o opening ho hs => ?_,
        fun o opening r ho hh => ?_, fun r runtime hr hd => ?_⟩
      · have hn : s.next + 1 ≤ n := hn
        obtain ⟨hr, ho, hl⟩ := h.fresh n (by omega)
        refine ⟨hr, ?_, hl⟩
        simp only [Manager.wait, Manager.setOpening, Function.update_apply]
        rw [if_neg (by omega)]
        exact ho
      · simp only [Manager.wait, Manager.setOpening, Function.update_apply] at ho ⊢
        split at ho
        · rename_i heq
          obtain rfl : s.next = o := by simpa using ho
          exact ⟨_, if_pos rfl, heq.symm⟩
        · obtain ⟨opening, ho', hid⟩ := h.opening id' o ho
          exact ⟨opening, by rw [if_neg (hne o opening ho')]; exact ho', hid⟩
      · simp only [Manager.wait, Manager.setOpening, Function.update_apply] at ho ⊢
        split at ho
        · rename_i heq
          obtain rfl : ({ id := id } : Opening) = opening := by simpa using ho
          subst heq
          exact ⟨if_pos rfl, hlive⟩
        · rw [if_neg (hoth o opening ho hs)]
          exact h.unsettled o opening ho hs
      · simp only [Manager.wait, Manager.setOpening, Function.update_apply] at ho ⊢
        split at ho
        · obtain rfl : ({ id := id } : Opening) = opening := by simpa using ho
          obtain hh | hh := hh <;> cases hh
        · exact h.held o opening r ho hh
      · refine (h.owner r runtime hr hd).imp_left ?_
        rintro ⟨o, opening, ho, hh⟩
        refine ⟨o, opening, ?_, hh⟩
        simp only [Manager.wait, Manager.setOpening, Function.update_apply]
        rw [if_neg (hne o opening ho)]
        exact ho

theorem Owned.forgetOpening (id : String) {o : ℕ} {opening : Opening}
    (ho : s.openings o = some opening) (hs : opening.state.Settled) : (s.forgetOpening id o).Owned := by
  unfold Manager.forgetOpening
  split
  · rename_i hreg
    refine ⟨h.fresh, h.live, fun id' o' ho' => ?_, fun o' opening' ho' hs' => ?_, h.held, h.owner⟩
    · simp only [Function.update_apply] at ho'
      split at ho'
      · cases ho'
      · exact h.opening id' o' ho'
    · obtain ⟨hreg', hlive'⟩ := h.unsettled o' opening' ho' hs'
      refine ⟨?_, hlive'⟩
      simp only [Function.update_apply]
      rw [if_neg]
      · exact hreg'
      · intro heq
        rw [heq, hreg] at hreg'
        obtain rfl : o = o' := by simpa using hreg'
        obtain rfl : opening = opening' := by simpa [ho] using ho'
        exact hs' hs
  · exact h

theorem Owned.setOpening {o : ℕ} {opening opening' : Opening}
    (ho : s.openings o = some opening) (hid : opening'.id = opening.id) (hopen : ¬ opening.state.Settled)
    (hhol : ∀ r, opening'.state.Holds r → opening.state.Holds r)
    (hleft : ∀ r runtime, opening.state.Holds r → s.runtimes r = some runtime →
      runtime.disposed = false → opening'.state.Holds r) : (s.setOpening o opening').Owned := by
  refine ⟨fun n hn => ?_, h.live, fun id o' ho' => ?_, fun o' other ho' hs => ?_,
    fun o' other r ho' hh => ?_, fun r runtime hr hd => ?_⟩
  · obtain ⟨hr, ho', hl⟩ := h.fresh n hn
    refine ⟨hr, ?_, hl⟩
    simp only [Manager.setOpening, Function.update_apply]
    rw [if_neg]
    · exact ho'
    · rintro rfl
      simp [ho] at ho'
  · obtain ⟨other, ho'', hid'⟩ := h.opening id o' ho'
    simp only [Manager.setOpening, Function.update_apply]
    split
    · rename_i heq
      subst heq
      obtain rfl : opening = other := by simpa [ho] using ho''
      exact ⟨opening', rfl, hid.trans hid'⟩
    · exact ⟨other, ho'', hid'⟩
  · simp only [Manager.setOpening, Function.update_apply] at ho' ⊢
    split at ho'
    · rename_i heq
      subst heq
      obtain rfl : opening' = other := by simpa using ho'
      rw [hid]
      exact h.unsettled o' opening ho hopen
    · exact h.unsettled o' other ho' hs
  · simp only [Manager.setOpening, Function.update_apply] at ho' ⊢
    split at ho'
    · obtain rfl : opening' = other := by simpa using ho'
      rw [hid]
      exact h.held o opening r ho (hhol r hh)
    · exact h.held o' other r ho' hh
  · refine (h.owner r runtime hr hd).imp_left ?_
    rintro ⟨o', other, ho', hh⟩
    simp only [Manager.setOpening, Function.update_apply]
    by_cases heq : o' = o
    · subst heq
      obtain rfl : opening = other := by simpa [ho] using ho'
      exact ⟨o', opening', if_pos rfl, hleft r runtime hh hr hd⟩
    · exact ⟨o', other, by rw [if_neg heq]; exact ho', hh⟩

theorem Owned.markDisposed (r : ℕ) : (s.updateRuntime r fun runtime => { runtime with disposed := true }).Owned := by
  have hback : ∀ r' runtime', (s.updateRuntime r fun runtime =>
      { runtime with disposed := true }).runtimes r' = some runtime' → runtime'.disposed = false →
      s.runtimes r' = some runtime' := by
    intro r' runtime' hr' hd
    simp only [Manager.updateRuntime, Function.update_apply] at hr'
    split at hr'
    · obtain ⟨runtime, -, rfl⟩ := Option.map_eq_some_iff.mp hr'
      cases hd
    · exact hr'
  refine ⟨fun n hn => ?_, h.live, h.opening, h.unsettled, fun o opening r' ho hh => ?_,
    fun r' runtime' hr' hd => h.owner r' runtime' (hback r' runtime' hr' hd) hd⟩
  · obtain ⟨hr, ho, hl⟩ := h.fresh n hn
    refine ⟨?_, ho, hl⟩
    simp only [Manager.updateRuntime, Function.update_apply]
    split
    · rename_i heq
      rw [← heq, hr]
      rfl
    · exact hr
  · obtain ⟨hl, runtime, hr, hid⟩ := h.held o opening r' ho hh
    refine ⟨hl, ?_⟩
    simp only [Manager.updateRuntime, Function.update_apply]
    split
    · rename_i heq
      exact ⟨{ runtime with disposed := true }, by rw [← heq, hr]; rfl, hid⟩
    · exact ⟨runtime, hr, hid⟩

theorem Owned.obtain {o : ℕ} {opening : Opening} {state : OpeningState}
    (ho : s.openings o = some opening) (hst : opening.state = .acquiring) (hnew : ∀ r, state.Holds r ↔ r = s.next) :
    Owned ({ s with
      next := s.next + 1
      runtimes := Function.update s.runtimes s.next (some { id := opening.id }) }.setOpening o
        { opening with state }) := by
  obtain ⟨hnone, hnoneO, hnon⟩ := h.fresh s.next (Nat.le_refl _)
  have hopen : ¬ opening.state.Settled := by simp [hst]
  have hr : ∀ r runtime, s.runtimes r = some runtime → r ≠ s.next := by
    rintro r runtime hr rfl
    simp [hnone] at hr
  refine ⟨fun n hn => ?_, h.live, fun id o' ho' => ?_, fun o' other ho' hs => ?_,
    fun o' other r ho' hh => ?_, fun r runtime hrun hd => ?_⟩
  · have hn : s.next + 1 ≤ n := hn
    obtain ⟨hr, ho', hl⟩ := h.fresh n (by omega)
    have hne : n ≠ o := by
      rintro rfl
      simp [ho] at ho'
    simp only [Manager.setOpening, Function.update_apply, hne, if_false]
    exact ⟨by rw [if_neg (by omega)]; exact hr, ho', hl⟩
  · obtain ⟨other, ho'', hid⟩ := h.opening id o' ho'
    simp only [Manager.setOpening, Function.update_apply]
    split
    · rename_i heq
      subst heq
      obtain rfl : opening = other := by simpa [ho] using ho''
      exact ⟨_, rfl, hid⟩
    · exact ⟨other, ho'', hid⟩
  · simp only [Manager.setOpening, Function.update_apply] at ho' ⊢
    split at ho'
    · rename_i heq
      subst heq
      obtain rfl : { opening with state } = other := by simpa using ho'
      exact h.unsettled o' opening ho hopen
    · exact h.unsettled o' other ho' hs
  · simp only [Manager.setOpening, Function.update_apply] at ho' ⊢
    split at ho'
    · obtain rfl : { opening with state } = other := by simpa using ho'
      obtain rfl := (hnew r).mp hh
      exact ⟨hnon, _, if_pos rfl, rfl⟩
    · obtain ⟨hl, runtime, hrun, hid⟩ := h.held o' other r ho' hh
      exact ⟨hl, runtime, by rw [if_neg (hr r runtime hrun)]; exact hrun, hid⟩
  · simp only [Manager.setOpening, Function.update_apply] at hrun ⊢
    split at hrun
    · rename_i heq
      exact .inl ⟨o, _, if_pos rfl, (hnew r).mpr heq⟩
    · refine (h.owner r runtime hrun hd).imp_left ?_
      rintro ⟨o', other, ho', hh⟩
      refine ⟨o', other, ?_, hh⟩
      rw [if_neg]
      · exact ho'
      · rintro rfl
        obtain rfl : opening = other := by simpa [ho] using ho'
        rw [hst] at hh
        obtain hh | hh := hh <;> cases hh

/-- The runtime of an opening becomes the live session. -/
theorem Owned.accept {o r : ℕ} {opening : Opening}
    (ho : s.openings o = some opening) (hst : opening.state = .snapshot r) :
    Owned { s.setOpening o { opening with state := .settled (some r) } with
      lives := Function.update s.lives r (some { id := opening.id })
      liveSessions := Function.update s.liveSessions opening.id (some r) } := by
  have hhol : opening.state.Holds r := .inl hst
  obtain ⟨hnon, runtime, hrun, hid⟩ := h.held o opening r ho hhol
  obtain ⟨hreg, hlive⟩ := h.unsettled o opening ho hhol.not_settled
  have hoth : ∀ o' other, o' ≠ o → s.openings o' = some other → ¬ other.state.Settled → other.id ≠ opening.id := by
    intro o' other hne ho' hs heq
    have hreg' := (h.unsettled o' other ho' hs).1
    rw [heq, hreg] at hreg'
    exact hne (by simpa using hreg'.symm)
  refine ⟨fun n hn => ?_, fun id l hl => ?_, fun id o' ho' => ?_, fun o' other ho' hs => ?_,
    fun o' other r' ho' hh => ?_, fun r' runtime' hr' hd => ?_⟩
  · obtain ⟨hr, ho', hl⟩ := h.fresh n hn
    have hne : n ≠ o := by
      rintro rfl
      simp [ho] at ho'
    have hne' : n ≠ r := by
      rintro rfl
      simp [hrun] at hr
    simp only [Manager.setOpening, Function.update_apply, hne, hne', if_false]
    exact ⟨hr, ho', hl⟩
  · simp only [Function.update_apply] at hl ⊢
    split at hl
    · rename_i heq
      obtain rfl : r = l := by simpa using hl
      exact ⟨_, if_pos rfl, heq.symm⟩
    · obtain ⟨live, hget, hid'⟩ := h.live id l hl
      refine ⟨live, ?_, hid'⟩
      rw [if_neg]
      · exact hget
      · rintro rfl
        simp [hnon] at hget
  · obtain ⟨other, ho'', hid'⟩ := h.opening id o' ho'
    simp only [Manager.setOpening, Function.update_apply]
    split
    · rename_i heq
      subst heq
      obtain rfl : opening = other := by simpa [ho] using ho''
      exact ⟨_, rfl, hid'⟩
    · exact ⟨other, ho'', hid'⟩
  · simp only [Manager.setOpening, Function.update_apply] at ho' ⊢
    split at ho'
    · obtain rfl : { opening with state := .settled (some r) } = other := by simpa using ho'
      exact absurd trivial hs
    · rename_i hne
      rw [if_neg (hoth o' other hne ho' hs)]
      exact h.unsettled o' other ho' hs
  · simp only [Manager.setOpening, Function.update_apply] at ho' ⊢
    split at ho'
    · obtain rfl : { opening with state := .settled (some r) } = other := by simpa using ho'
      obtain hh | hh := hh <;> cases hh
    · rename_i hne
      obtain ⟨hl, runtime', hrun', hid'⟩ := h.held o' other r' ho' hh
      refine ⟨?_, runtime', hrun', hid'⟩
      rw [if_neg]
      · exact hl
      · rintro rfl
        obtain rfl : runtime = runtime' := by simpa [hrun] using hrun'
        exact hoth o' other hne ho' hh.not_settled (hid'.symm.trans hid)
  · simp only [Manager.setOpening, Function.update_apply]
    have hr' : s.runtimes r' = some runtime' := hr'
    by_cases hrr : r' = r
    · subst hrr
      obtain rfl : runtime = runtime' := Option.some.inj (hrun.symm.trans hr')
      exact .inr (if_pos hid)
    · obtain ⟨o', other, ho', hh⟩ | hl := h.owner r' runtime' hr' hd
      · refine .inl ⟨o', other, ?_, hh⟩
        rw [if_neg]
        · exact ho'
        · rintro rfl
          obtain rfl : opening = other := by simpa [ho] using ho'
          rw [hst] at hh
          obtain hh | hh := hh
          · exact hrr (by simpa using hh.symm)
          · cases hh
      · refine .inr ?_
        rw [if_neg]
        · exact hl
        · intro heq
          simp [heq, hlive] at hl

theorem Owned.refuse {o r : ℕ} {opening : Opening}
    (ho : s.openings o = some opening) (hst : opening.state = .snapshot r) : (s.refuse o opening.id r).Owned := by
  have hset : (s.setOpening o { id := opening.id, state := .refusing r }).Owned := by
    refine h.setOpening ho rfl (by simp [hst]) ?_ ?_
    · rintro r' (hh | hh)
      · cases hh
      · rw [hst]
        exact .inl (by simpa using hh)
    · rintro r' runtime hh - -
      rw [hst] at hh
      obtain hh | hh := hh
      · exact .inr (by simpa using hh)
      · cases hh
  exact hset.congr ⟨rfl, rfl, rfl, rfl, fun _ => rfl, fun _ => rfl⟩

theorem Owned.openingReturned (o : ℕ) (ok : Bool)
    (hok : ∀ opening ∈ s.openings o, ∀ r, opening.state = .refusing r → ok = true) : (s.openingReturned o ok).Owned := by
  unfold Manager.openingReturned
  split
  · exact h
  rename_i opening ho
  split
  · rename_i hst
    have hopen : ¬ opening.state.Settled := by simp [hst]
    split
    · dsimp only
      split
      · have hobt := @Owned.obtain s h o opening (.refusing s.next) ho hst
          (by simp [OpeningState.Holds, eq_comm])
        exact hobt.congr ⟨rfl, rfl, rfl, rfl, fun _ => rfl, fun _ => rfl⟩
      · exact h.obtain ho hst (by simp [OpeningState.Holds, eq_comm])
    · refine h.setOpening ho rfl hopen ?_ ?_
      · rintro r (hh | hh) <;> cases hh
      · rintro r runtime hh - -
        rw [hst] at hh
        obtain hh | hh := hh <;> cases hh
  · rename_i r hst
    split
    · exact h.accept ho hst
    · exact h.refuse ho hst
  · rename_i r hst
    obtain rfl := hok opening ho r hst
    have hmark := h.markDisposed r
    rw [if_pos rfl]
    refine hmark.setOpening ho rfl (by simp [hst]) ?_ ?_
    · rintro r' (hh | hh) <;> cases hh
    · intro r' runtime hh hrun hd
      rw [hst] at hh
      obtain rfl : r = r' := by
        obtain hh | hh := hh
        · cases hh
        · simpa using hh
      simp only [Manager.updateRuntime, Function.update_self, Option.map_eq_some_iff] at hrun
      obtain ⟨runtime', -, rfl⟩ := hrun
      cases hd
  · exact h

theorem Owned.forgetLive {id : String} {l : ℕ} (hl : s.liveSessions id = some l)
    (hd : ∀ runtime, s.runtimes l = some runtime → runtime.disposed = true) :
    Owned { s with liveSessions := Function.update s.liveSessions id none } := by
  refine ⟨h.fresh, fun id' l' hl' => ?_, h.opening, fun o opening ho hs => ?_, h.held, fun r runtime hr hdis => ?_⟩
  · simp only [Function.update_apply] at hl'
    split at hl'
    · cases hl'
    · exact h.live id' l' hl'
  · obtain ⟨hreg, hlive⟩ := h.unsettled o opening ho hs
    refine ⟨hreg, ?_⟩
    simp only [Function.update_apply]
    split
    · rfl
    · exact hlive
  · refine (h.owner r runtime hr hdis).imp_right fun hown => ?_
    simp only [Function.update_apply]
    rw [if_neg]
    · exact hown
    · intro heq
      rw [heq, hl] at hown
      obtain rfl : l = r := by simpa using hown
      rw [hd runtime hr] at hdis
      cases hdis

theorem Owned.disposeReturned (l : ℕ) (ok : Bool) : (s.disposeReturned l ok).Owned := by
  unfold Manager.disposeReturned
  split
  · exact h
  split
  · split
    · rename_i live hlive hstd hok
      dsimp only
      have hlive' := h.congr (SameOwners.updateLive s l
        (f := fun live => { live with disposing := .fulfilled }) fun _ => rfl)
      have hmark := hlive'.markDisposed l
      split
      · rename_i hreg
        refine hmark.forgetLive hreg fun runtime hr => ?_
        simp only [Manager.updateRuntime, Function.update_self, Option.map_eq_some_iff] at hr
        obtain ⟨runtime', -, rfl⟩ := hr
        rfl
      · exact hmark
    · exact h.congr (.updateLive s l fun _ => rfl)
  · exact h

end

end Manager
end EasyPi.Server
