/-
# Exclusive leases

An acquisition or a release that is under way when its session is invalidated goes on
later as if nothing had happened: it makes a handle of the new generation that nobody has
counted, or takes one from the count of the tokens that came after it. As long as that
does not happen, an exclusive lease is the only one. That a handle of an old generation
sends nothing holds in any case.
-/
import EasyPi.Client.LeaseInvariant

namespace EasyPi.Client

open List

/-- `acquireSession` is under way. -/
def Lease.acquiring (lease : Lease) : Bool :=
  match lease.phase with
  | .failed | .handle _ => false
  | _ => true

theorem Lease.outstanding_of_acquiring {lease : Lease} (h : lease.acquiring = true) : lease.outstanding = true := by
  unfold acquiring at h
  unfold outstanding
  split at h <;> simp_all

namespace PiClient

variable {s s' : PiClient} {t : ℕ} {lease : Lease}

/-! ### Acquisition -/

section
variable (h : s.LeaseInv) (ht : s.leases[t]? = some lease)
include h ht

theorem LeaseInv.not_releasing (hacq : lease.acquiring = true) : lease.releasing = none := by
  by_contra hr
  unfold Lease.acquiring at hacq
  obtain hp | ⟨hp, -⟩ := h.releasing lease (mem_of_getElem? ht) hr <;> simp [hp] at hacq

theorem LeaseInv.waitFor (hacq : lease.acquiring = true) {phase : LeasePhase}
    (hph : ({ lease with phase } : Lease).acquiring = true) : (s.setLease t { lease with phase }).LeaseInv := by
  refine h.setLease ht (fun id => ?_) rfl (h.bound lease (mem_of_getElem? ht)) fun hr => ?_
  · simp [counted, Lease.outstanding_of_acquiring hacq, Lease.outstanding_of_acquiring hph]
  · exact absurd (h.not_releasing ht hacq) hr

theorem LeaseInv.createSessionLease
    (hacq : lease.acquiring = true) (hcur : lease.generation = s.generations lease.sessionId) :
    (s.createSessionLease t lease).LeaseInv := by
  refine h.setLease ht (fun id => ?_) rfl (Nat.le_refl _) fun hr => ?_
  · by_cases hid : lease.sessionId = id
    · subst hid
      have hold : s.counted lease.sessionId lease = true :=
        counted_iff.mpr ⟨rfl, hcur, Lease.outstanding_of_acquiring hacq⟩
      rw [hold]
      exact counted_iff.mpr ⟨rfl, rfl, rfl⟩
    · simp [counted, hid]
  · exact absurd (h.not_releasing ht hacq) hr

theorem LeaseInv.failAcquisition (hacq : lease.acquiring = true)
    (hcur : lease.generation = s.generations lease.sessionId ∨ s.counts lease.sessionId = 0) :
    (s.failAcquisition t lease).LeaseInv := by
  have hrel := h.not_releasing ht hacq
  refine h.releaseLease ht (hcur.imp_left fun hc => ?_) rfl rfl
    (h.bound lease (mem_of_getElem? ht)) hrel
  exact counted_iff.mpr ⟨rfl, hc, Lease.outstanding_of_acquiring hacq⟩

theorem LeaseInv.attachIfNeeded (hacq : lease.acquiring = true) {reconciled : Bool}
    (hcur : reconciled = false → s.attached lease.sessionId = true →
      lease.generation = s.generations lease.sessionId) : (s.attachIfNeeded t lease reconciled).LeaseInv := by
  unfold PiClient.attachIfNeeded
  split
  · split
    · exact h.waitFor ht hacq rfl
    · have hi : (s.setLease t { lease with phase := .attaching s.nextRequest }).LeaseInv := h.waitFor ht hacq rfl
      exact hi.congr ⟨rfl, rfl, rfl, rfl⟩
  · rename_i hskip
    simp only [Bool.or_eq_true, Bool.not_eq_true', not_or, Bool.not_eq_true, Bool.not_eq_false]
      at hskip
    exact h.createSessionLease ht hacq (hcur hskip.1 hskip.2)

theorem LeaseInv.afterDetachment (hacq : lease.acquiring = true)
    (hcur : s.cleanupRequired lease.sessionId = false → s.attached lease.sessionId = true →
      lease.generation = s.generations lease.sessionId) : (s.afterDetachment t lease).LeaseInv := by
  unfold PiClient.afterDetachment
  split
  · split
    · exact h.waitFor ht hacq rfl
    · have hi : (s.setLease t { lease with phase := .reconciling s.nextRequest }).LeaseInv := h.waitFor ht hacq rfl
      exact hi.congr ⟨rfl, rfl, rfl, rfl⟩
  · rename_i hcle
    exact h.attachIfNeeded ht hacq fun _ hatt => hcur (by simpa using hcle) hatt

end

theorem reserve_eq {id : String} {mode : LeaseMode} {phase : LeasePhase}
    (h : s.reserveSessionLease id mode phase = some s') :
    s'.leases = s.leases ++ [{ sessionId := id, mode, generation := s.generations id, phase }] ∧
      s'.generations = s.generations ∧ s'.sent = s.sent := by
  unfold reserveSessionLease at h
  split at h
  · cases h
  · obtain rfl := Option.some.inj h
    exact ⟨rfl, rfl, rfl⟩

theorem LeaseInv.acquireSession (h : s.LeaseInv) (id : String) (mode : LeaseMode) :
    (s.acquireSession id mode).LeaseInv := by
  unfold PiClient.acquireSession
  split
  · exact h
  dsimp only
  split
  · exact h
  rename_i s' hr
  have hi := h.reserve hr rfl
  obtain ⟨hlss, hgen, -⟩ := reserve_eq hr
  have ht : s'.leases[s.leases.length]? =
      some { sessionId := id, mode, generation := s.generations id, phase := .reserved } := by
    simp [hlss]
  split
  · exact hi.waitFor ht rfl rfl
  · exact hi.afterDetachment ht rfl fun _ _ => by rw [hgen]

def completes (s : PiClient) (lease : Lease) : Bool :=
  match lease.phase with
  | .awaitingDetachment n => s.requests[n]? ≠ some .pending &&
    !s.cleanupRequired lease.sessionId && s.attached lease.sessionId
  | .attaching n => s.requests[n]? = some .resolved
  | _ => false

def fails (s : PiClient) (lease : Lease) : Bool :=
  match lease.phase with
  | .reconciling n => s.reconciliations lease.sessionId ≠ some n &&
    s.requests[n]? ≠ some .resolved
  | .attaching n => s.requests[n]? ≠ some .pending && s.requests[n]? ≠ some .resolved
  | _ => false

theorem LeaseInv.resumeAcquisition (h : s.LeaseInv) (t : ℕ) (hsound : ∀ lease, s.leases[t]? = some lease →
      lease.generation ≠ s.generations lease.sessionId →
      s.completes lease = false ∧ (s.fails lease = true → s.counts lease.sessionId = 0)) :
    (s.resumeAcquisition t).LeaseInv := by
  unfold PiClient.resumeAcquisition
  split
  · exact h
  rename_i lease ht
  have hcom : s.completes lease = true → lease.generation = s.generations lease.sessionId := by
    intro hc
    by_contra hne
    simp [(hsound lease ht hne).1] at hc
  have hfail : s.fails lease = true →
      lease.generation = s.generations lease.sessionId ∨ s.counts lease.sessionId = 0 := by
    intro hf
    by_cases hcur : lease.generation = s.generations lease.sessionId
    · exact .inl hcur
    · exact .inr ((hsound lease ht hcur).2 hf)
  have hacq : ∀ phase, lease.phase = phase → (∀ state, phase ≠ .handle state) → phase ≠ .failed →
      lease.acquiring = true := by
    intro phase hp hh hf
    unfold Lease.acquiring
    rw [hp]
    split <;> simp_all
  split
  · rename_i n hp
    split
    · exact h
    · rename_i hstl
      refine h.afterDetachment ht (hacq _ hp (by simp) (by simp)) fun hcle hatt => hcom ?_
      simp [completes, hp, hstl, hcle, hatt]
  · rename_i n hp
    have ha := hacq _ hp (by simp) (by simp)
    split
    · exact h
    rename_i hdone
    split
    · exact h.attachIfNeeded ht ha fun hr => by simp at hr
    · rename_i hres
      exact h.failAcquisition ht ha (hfail (by simp [fails, hp, hdone, hres]))
  · rename_i n hp
    have ha := hacq _ hp (by simp) (by simp)
    split
    · exact h
    rename_i hstl
    dsimp only
    split
    · rename_i hres
      have hcur := hcom (by simpa [completes, hp] using hres)
      exact (h.createSessionLease ht ha hcur).congr ⟨rfl, rfl, rfl, rfl⟩
    · rename_i hres
      have hcur := hfail (by simp [fails, hp, hstl, hres])
      exact (h.failAcquisition ht ha hcur).congr ⟨rfl, rfl, rfl, rfl⟩
  · exact h

/-! ### Handles -/

theorem refreshState_cases (s : PiClient) (lease : Lease) :
    s.refreshState lease = lease ∧ (lease.phase = .handle .active ∨ lease.phase = .handle .releasing →
        lease.generation = s.generations lease.sessionId) ∨
      s.refreshState lease = { lease with phase := .handle .invalidated } ∧
        lease.generation ≠ s.generations lease.sessionId := by
  unfold refreshState
  split
  · rename_i hc
    simp only [Bool.and_eq_true, decide_eq_true_eq] at hc
    exact .inr ⟨rfl, Ne.symm hc.2⟩
  · rename_i hc
    refine .inl ⟨rfl, fun hp => ?_⟩
    by_contra hne
    refine hc ?_
    simp only [Bool.and_eq_true, Bool.or_eq_true, decide_eq_true_eq]
    exact ⟨hp, Ne.symm hne⟩

theorem LeaseInv.refresh (h : s.LeaseInv) (ht : s.leases[t]? = some lease) :
    (s.setLease t (s.refreshState lease)).LeaseInv := by
  have hmem := mem_of_getElem? ht
  obtain ⟨heq, -⟩ | ⟨heq, hne⟩ := refreshState_cases s lease
  · rw [heq]
    exact h.setLease ht (fun _ => rfl) rfl (h.bound lease hmem) (h.releasing lease hmem)
  · rw [heq]
    refine h.setLease ht (fun id => ?_) rfl (h.bound lease hmem) fun _ => .inr ⟨rfl, ?_⟩
    · by_cases hid : lease.sessionId = id
      · subst hid
        simp [counted, hne]
      · simp [counted, hid]
    · exact Nat.lt_of_le_of_ne (h.bound lease hmem) hne

theorem counted_of_isActive (hact : s.isActive (s.refreshState lease) = true) :
    s.refreshState lease = lease ∧ lease.phase = .handle .active ∧ s.counted lease.sessionId lease = true := by
  have hph : (s.refreshState lease).phase = .handle .active := by
    simp only [isActive, Bool.and_eq_true, decide_eq_true_eq] at hact
    exact hact.1.2
  obtain ⟨heq, hcur⟩ | ⟨heq, -⟩ := refreshState_cases s lease
  · rw [heq] at hph
    exact ⟨heq, hph, counted_iff.mpr ⟨rfl, hcur (.inl hph), by simp [Lease.outstanding, hph]⟩⟩
  · rw [heq] at hph
    simp at hph

theorem setLease_self (ht : s.leases[t]? = some lease) : s.setLease t lease = s := by
  obtain ⟨hlt, hget⟩ := List.getElem?_eq_some_iff.mp ht
  simp [PiClient.setLease, ← hget]

section
variable (h : s.LeaseInv)
include h

theorem LeaseInv.handleRequest (t : ℕ) : (s.handleRequest t).LeaseInv := by
  unfold PiClient.handleRequest
  split
  · exact h
  rename_i lease ht
  dsimp only
  split
  · exact (h.refresh ht).congr ⟨rfl, rfl, rfl, rfl⟩
  · exact h.refresh ht

theorem LeaseInv.release (t : ℕ) (relinquishOnFailure : Bool) : (s.release t relinquishOnFailure).LeaseInv := by
  unfold PiClient.release
  split
  · exact h
  rename_i lease ht
  dsimp only
  split
  · rename_i hact
    have hact : s.isActive (s.refreshState lease) = true := hact
    obtain ⟨heq, hph, hcntd⟩ := counted_of_isActive hact
    rw [heq, setLease_self ht]
    have hbd := h.bound lease (mem_of_getElem? ht)
    split
    · have hset : (s.setLease t { lease with
          phase := .handle .releasing
          releasing := some (s.nextRequest, relinquishOnFailure) }).LeaseInv := by
        refine h.setLease ht (fun id => ?_) rfl hbd fun _ => .inl rfl
        simp [counted, Lease.outstanding, hph]
      exact hset.congr ⟨rfl, rfl, rfl, rfl⟩
    · refine h.releaseLease ht (.inl hcntd) rfl rfl hbd ?_
      by_contra hr
      obtain hp | ⟨hp, -⟩ := h.releasing lease (mem_of_getElem? ht) hr <;> simp [hph] at hp
  · exact h.refresh ht

theorem LeaseInv.releaseReturned (t : ℕ) (hsound : ∀ lease, s.leases[t]? = some lease →
      lease.generation ≠ s.generations lease.sessionId → ∀ n relinquishOnFailure,
      lease.releasing = some (n, relinquishOnFailure) → s.requests[n]? = some .resolved →
      s.counts lease.sessionId = 0) : (s.releaseReturned t).LeaseInv := by
  unfold PiClient.releaseReturned
  split
  · exact h
  rename_i lease ht
  split
  · exact h
  rename_i n relinquishOnFailure hrel
  split
  · exact h
  have hmem := mem_of_getElem? ht
  have hbd := h.bound lease hmem
  have hph := h.releasing lease hmem (by simp [hrel])
  have hcntd : lease.generation = s.generations lease.sessionId → s.counted lease.sessionId lease = true := by
    intro hcur
    obtain hp | ⟨-, hlt⟩ := hph
    · exact counted_iff.mpr ⟨rfl, hcur, by simp [Lease.outstanding, hp]⟩
    · omega
  dsimp only
  split
  · rename_i hres
    have hcur : s.counted lease.sessionId lease = true ∨ s.counts lease.sessionId = 0 := by
      by_cases hcur : lease.generation = s.generations lease.sessionId
      · exact .inl (hcntd hcur)
      · exact .inr (hsound lease ht hcur n _ hrel hres)
    have hi : ((s.releaseSessionLease lease.sessionId t).setLease t
        { lease with phase := .handle .released, releasing := none }).LeaseInv :=
      h.releaseLease ht hcur rfl rfl hbd rfl
    exact hi.congr ⟨rfl, rfl, rfl, rfl⟩
  · have href : ∀ d, PiClient.refreshState { s with detachments := d } lease = s.refreshState lease := fun _ => rfl
    rw [href]
    obtain ⟨heq, hcur⟩ | ⟨heq, hne⟩ := refreshState_cases s lease
    · rw [heq]
      split
      · -- it was already known to be invalidated
        rename_i hinv
        have hi : (s.setLease t { lease with releasing := none }).LeaseInv :=
          h.setLease ht (fun _ => rfl) rfl hbd (fun hr => absurd rfl hr)
        exact hi.congr ⟨rfl, rfl, rfl, rfl⟩
      · rename_i hinv
        have hp : lease.phase = .handle .releasing := hph.resolve_right fun hp => hinv hp.1
        have hc := hcntd (hcur (.inr hp))
        split
        · have hi : ((s.releaseSessionLease lease.sessionId t).setLease t
              { lease with phase := .handle .released, releasing := none }).LeaseInv :=
            h.releaseLease ht (.inl hc) rfl rfl hbd rfl
          exact hi.congr ⟨rfl, rfl, rfl, rfl⟩
        · have hi : (s.setLease t { lease with
              phase := .handle .active, releasing := none }).LeaseInv := by
            refine h.setLease ht (fun id => ?_) rfl hbd (fun hr => absurd rfl hr)
            simp [counted, Lease.outstanding, hp]
          exact hi.congr ⟨rfl, rfl, rfl, rfl⟩
    · rw [heq, if_pos rfl]
      have hi : (s.setLease t { lease with
          phase := .handle .invalidated, releasing := none }).LeaseInv := by
        refine h.setLease ht (fun id => ?_) rfl hbd (fun hr => absurd rfl hr)
        by_cases hid : lease.sessionId = id
        · subst hid
          simp [counted, hne]
        · simp [counted, hid]
      exact hi.congr ⟨rfl, rfl, rfl, rfl⟩

theorem LeaseInv.created (n : ℕ) (id : String) : (s.created n id).LeaseInv := by
  unfold PiClient.created
  split
  · dsimp only
    have hi : LeaseInv { s with creations := s.creations.filter (· ≠ n) } := h.congr ⟨rfl, rfl, rfl, rfl⟩
    split
    · cases hr : PiClient.reserveSessionLease { s with creations := s.creations.filter (· ≠ n) } id
        .exclusive (.handle .active) with
      | none => exact hi
      | some s' => exact hi.reserve hr rfl
    · exact hi
  · exact h

/-! ### Invalidation -/

theorem LeaseInv.invalidateSession (id : String) : (s.invalidateSessionLeases id).LeaseInv := by
  refine h.invalidate (fun id' => id' = id) (fun id' => ?_) (fun id' => ?_) (fun id' => ?_)
    rfl
  · by_cases heq : id' = id
    · subst heq
      exact .inr ⟨by simp [invalidateSessionLeases], rfl⟩
    · exact .inl ⟨by simp [invalidateSessionLeases, heq], heq⟩
  · exact ⟨fun heq => by simp [invalidateSessionLeases, heq], fun hne => by simp [invalidateSessionLeases, hne]⟩
  · exact ⟨fun heq => by simp [invalidateSessionLeases, heq], fun hne => by simp [invalidateSessionLeases, hne]⟩

theorem LeaseInv.invalidateAll : s.invalidateAllSessionLeases.LeaseInv := by
  refine h.invalidate (fun id => 0 < s.counts id) (fun id => ?_) (fun id => ?_) (fun id => ?_) rfl
  · by_cases hpos : 0 < s.counts id
    · exact .inr ⟨if_pos hpos, hpos⟩
    · exact .inl ⟨if_neg hpos, hpos⟩
  · refine ⟨fun _ => rfl, fun hzero => ?_⟩
    simp only [invalidateAllSessionLeases]
    omega
  · exact ⟨fun hpos => if_pos hpos, fun hzero => if_neg hzero⟩

theorem LeaseInv.disconnect : s.disconnect.LeaseInv := by
  have hi : LeaseInv { s with connected := false, attached := fun _ => false } := h.congr ⟨rfl, rfl, rfl, rfl⟩
  exact hi.invalidateAll.congr ⟨rfl, rfl, rfl, rfl⟩

theorem LeaseInv.dispose : s.dispose.LeaseInv := by
  unfold PiClient.dispose
  split
  · exact h
  · have hi : (PiClient.rejectPendingRequests { s with disposed := true }).LeaseInv := h.congr ⟨rfl, rfl, rfl, rfl⟩
    exact hi.disconnect.invalidateAll

end

theorem sameLeases_applySessionSnapshot (s : PiClient) (snapshot : Option (String × Bool)) :
    s.SameLeases (s.applySessionSnapshot snapshot) := by
  unfold applySessionSnapshot
  split <;> exact ⟨rfl, rfl, rfl, rfl⟩

theorem LeaseInv.response (h : s.LeaseInv) (n : ℕ) (ok : Bool) (snapshot : Option (String × Bool)) :
    (s.response n ok snapshot).LeaseInv := by
  unfold PiClient.response
  split
  · split
    · have ha := sameLeases_applySessionSnapshot s snapshot
      exact h.congr ⟨ha.counts, ha.exclusive, ha.generations, ha.leases⟩
    · exact h.congr ⟨rfl, rfl, rfl, rfl⟩
  · exact h

theorem LeaseInv.reconciled (h : s.LeaseInv) (id : String) : (s.reconciled id).LeaseInv := by
  unfold PiClient.reconciled
  split
  · exact h
  · split
    · exact h
    · exact h.congr ⟨rfl, rfl, rfl, rfl⟩

end PiClient

/-- An acquisition whose session has been invalidated since it began does not succeed, and neither
it nor a release ends with the count of the session's new tokens. -/
def ClientStep.Sound (s : PiClient) : ClientStep → Prop
  | .resumeAcquisition t => ∀ lease ∈ s.leases[t]?, lease.generation ≠ s.generations lease.sessionId →
      s.completes lease = false ∧ (s.fails lease = true → s.counts lease.sessionId = 0)
  | .releaseReturned t => ∀ lease ∈ s.leases[t]?,
    lease.generation ≠ s.generations lease.sessionId → ∀ detach ∈ lease.releasing,
      s.requests[detach.1]? = some .resolved → s.counts lease.sessionId = 0
  | _ => True

instance ClientStep.decidableSound (s : PiClient) (step : ClientStep) : Decidable (step.Sound s) := by
  cases step <;> unfold ClientStep.Sound <;> infer_instance

namespace PiClient

variable {s s' : PiClient} {t : ℕ} {lease : Lease}

theorem LeaseInv.step (h : s.LeaseInv) {step : ClientStep} (hsound : step.Sound s) : (s.step step).LeaseInv := by
  cases step with
  | connect =>
    simp only [PiClient.step]
    split
    · exact h
    · exact h.congr ⟨rfl, rfl, rfl, rfl⟩
  | disconnect => exact h.disconnect
  | dispose => exact h.dispose
  | createSession => exact h.congr ⟨rfl, rfl, rfl, rfl⟩
  | created n id => exact h.created n id
  | acquireSession id mode => exact h.acquireSession id mode
  | resumeAcquisition t => exact h.resumeAcquisition t hsound
  | reconciled id => exact h.reconciled id
  | handleRequest t => exact h.handleRequest t
  | release t relinquishOnFailure => exact h.release t relinquishOnFailure
  | releaseReturned t =>
    exact h.releaseReturned t fun lease ht hne n _ hrel => hsound lease ht hne _ hrel
  | response n ok snapshot => exact h.response n ok snapshot
  | sessionSnapshot id attached => exact h.congr (sameLeases_applySessionSnapshot s (some (id, attached)))
  | sessionRemoved id => exact (h.invalidateSession id).congr ⟨rfl, rfl, rfl, rfl⟩

/-! ### Handles of an old generation -/

/-- A handle whose session has been invalidated. -/
def Stale (s : PiClient) (t : ℕ) : Prop :=
  ∃ lease state, s.leases[t]? = some lease ∧ lease.phase = .handle state ∧
    lease.generation < s.generations lease.sessionId

/-- A step at one token only. -/
structure OnlyToken (t : ℕ) (s s' : PiClient) : Prop where
  generations : s'.generations = s.generations
  sent : ∀ {t'}, t' ≠ t → s'.sent.count t' = s.sent.count t'
  leases : ∀ t' ≠ t, t' < s.leases.length → s'.leases[t']? = s.leases[t']?

theorem OnlyToken.refl (t : ℕ) (s : PiClient) : OnlyToken t s s := ⟨rfl, fun _ => rfl, fun _ _ _ => rfl⟩

theorem OnlyToken.trans {s'' : PiClient} (h : OnlyToken t s s')
    (hlen : ∀ t' < s.leases.length, t' < s'.leases.length) (h' : OnlyToken t s' s'') : OnlyToken t s s'' :=
  ⟨h'.generations.trans h.generations, fun hne => (h'.sent hne).trans (h.sent hne),
    fun t' hne hlt => (h'.leases t' hne (hlen t' hlt)).trans (h.leases t' hne hlt)⟩

theorem onlyToken_setLease (s : PiClient) (t : ℕ) (new : Lease) : OnlyToken t s (s.setLease t new) :=
  ⟨rfl, fun _ => rfl, fun t' hne _ => by simp [PiClient.setLease, List.getElem?_set_ne (Ne.symm hne)]⟩

theorem OnlyToken.stale {t' : ℕ} (h : OnlyToken t' s s') (hne : t ≠ t') (hs : s.Stale t) :
    s'.Stale t ∧ s'.sent.count t = s.sent.count t := by
  obtain ⟨lease, state, ht, hp, hlt⟩ := hs
  refine ⟨⟨lease, state, ?_, hp, ?_⟩, h.sent hne⟩
  · rw [h.leases t hne (List.getElem?_eq_some_iff.mp ht).1]
    exact ht
  · rw [h.generations]
    exact hlt

theorem onlyToken_attachIfNeeded (s : PiClient) (t : ℕ) (lease : Lease) (reconciled : Bool) :
    OnlyToken t s (s.attachIfNeeded t lease reconciled) := by
  unfold attachIfNeeded
  split
  · split
    · exact onlyToken_setLease s t _
    · exact ⟨rfl, fun _ => rfl, (onlyToken_setLease s t _).leases⟩
  · exact onlyToken_setLease s t _

theorem onlyToken_afterDetachment (s : PiClient) (t : ℕ) (lease : Lease) : OnlyToken t s (s.afterDetachment t lease) := by
  unfold afterDetachment
  split
  · split
    · exact onlyToken_setLease s t _
    · exact ⟨rfl, fun _ => rfl, (onlyToken_setLease s t _).leases⟩
  · exact onlyToken_attachIfNeeded s t lease false

theorem onlyToken_failAcquisition (s : PiClient) (t : ℕ) (lease : Lease) : OnlyToken t s (s.failAcquisition t lease) :=
  ⟨rfl, fun _ => rfl, (onlyToken_setLease s t _).leases⟩

theorem onlyToken_resumeAcquisition (s : PiClient) (t : ℕ) : OnlyToken t s (s.resumeAcquisition t) := by
  unfold resumeAcquisition
  split
  · exact .refl t s
  rename_i lease ht
  split
  · split
    · exact .refl t s
    · exact onlyToken_afterDetachment s t lease
  · split
    · exact .refl t s
    · split
      · exact onlyToken_attachIfNeeded s t lease true
      · exact onlyToken_failAcquisition s t lease
  · split
    · exact .refl t s
    · dsimp only
      split <;> exact ⟨rfl, fun _ => rfl, (onlyToken_setLease s t _).leases⟩
  · exact .refl t s

theorem Stale.of_handle (hs : s.Stale t) (hgen : ∀ id, s.generations id ≤ s'.generations id)
    (hsent : s'.sent.count t = s.sent.count t)
    (hls : ∀ lease state, s.leases[t]? = some lease → lease.phase = .handle state →
      ∃ lease' state', s'.leases[t]? = some lease' ∧ lease'.phase = .handle state' ∧
        lease'.generation = lease.generation ∧ lease'.sessionId = lease.sessionId) :
    s'.Stale t ∧ s'.sent.count t = s.sent.count t := by
  obtain ⟨lease, state, ht, hp, hlt⟩ := hs
  obtain ⟨lease', state', ht', hp', hg, hid⟩ := hls lease state ht hp
  refine ⟨⟨lease', state', ht', hp', ?_⟩, hsent⟩
  rw [hg, hid]
  exact Nat.lt_of_lt_of_le hlt (hgen _)

theorem Stale.of_leases (hs : s.Stale t) (hgen : ∀ id, s.generations id ≤ s'.generations id)
    (hsent : s'.sent = s.sent) (hlss : s'.leases = s.leases) : s'.Stale t ∧ s'.sent.count t = s.sent.count t :=
  hs.of_handle hgen (by rw [hsent]) fun lease state ht hp =>
    ⟨lease, state, by rw [hlss]; exact ht, hp, rfl, rfl⟩

theorem Stale.setLease (hs : s.Stale t) {t' : ℕ} (ht' : s.leases[t']? = some lease)
    {new : Lease} {state : LeaseState} (hlss : s'.leases = s.leases.set t' new)
    (hgen : s'.generations = s.generations) (hsent : s'.sent = s.sent)
    (hp : new.phase = .handle state) (hg : new.generation = lease.generation)
    (hid : new.sessionId = lease.sessionId) : s'.Stale t ∧ s'.sent.count t = s.sent.count t := by
  refine hs.of_handle (fun id => Nat.le_of_eq (by rw [hgen])) (by rw [hsent])
    fun found state' ht hp' => ?_
  by_cases heq : t = t'
  · subst heq
    obtain rfl : lease = found := by simpa [ht'] using ht
    refine ⟨new, state, ?_, hp, hg, hid⟩
    rw [hlss, List.getElem?_set_self (List.getElem?_eq_some_iff.mp ht).1]
  · refine ⟨found, state', ?_, hp', rfl, rfl⟩
    rw [hlss, List.getElem?_set_ne (Ne.symm heq)]
    exact ht

theorem Stale.resumeAcquisition (hs : s.Stale t) (t' : ℕ) :
    (s.resumeAcquisition t').Stale t ∧ (s.resumeAcquisition t').sent.count t = s.sent.count t := by
  by_cases heq : t = t'
  · subst heq
    obtain ⟨lease, state, ht, hp, hlt⟩ := hs
    have hsame : s.resumeAcquisition t = s := by simp [PiClient.resumeAcquisition, ht, hp]
    rw [hsame]
    exact ⟨⟨lease, state, ht, hp, hlt⟩, rfl⟩
  · exact (onlyToken_resumeAcquisition s t').stale heq hs

theorem onlyToken_handleRequest (s : PiClient) (t : ℕ) : OnlyToken t s (s.handleRequest t) := by
  unfold handleRequest
  split
  · exact .refl t s
  dsimp only
  split
  · exact ⟨rfl, fun hne => by simp [Ne.symm hne, PiClient.setLease], (onlyToken_setLease s t _).leases⟩
  · exact onlyToken_setLease s t _

theorem onlyToken_release (s : PiClient) (t : ℕ) (relinquishOnFailure : Bool) :
    OnlyToken t s (s.release t relinquishOnFailure) := by
  unfold release
  split
  · exact .refl t s
  dsimp only
  split
  · split
    · refine ⟨rfl, fun hne => by simp [Ne.symm hne, PiClient.setLease], fun t' hne hlt => ?_⟩
      simp [PiClient.setLease, request, List.getElem?_set_ne (Ne.symm hne)]
    · refine ⟨rfl, fun _ => rfl, fun t' hne hlt => ?_⟩
      simp [PiClient.setLease, releaseSessionLease, List.getElem?_set_ne (Ne.symm hne)]
  · exact onlyToken_setLease s t _

theorem onlyToken_releaseReturned (s : PiClient) (t : ℕ) : OnlyToken t s (s.releaseReturned t) := by
  unfold releaseReturned
  split
  · exact .refl t s
  rename_i lease ht
  split
  · exact .refl t s
  rename_i n relinquishOnFailure hrel
  split
  · exact .refl t s
  dsimp only
  generalize (if s.detachments lease.sessionId = some n then
    Function.update s.detachments lease.sessionId none else s.detachments) = detachments
  split
  · exact ⟨rfl, fun _ => rfl, (onlyToken_setLease s t _).leases⟩
  · split
    · exact ⟨rfl, fun _ => rfl, (onlyToken_setLease s t _).leases⟩
    · split <;> exact ⟨rfl, fun _ => rfl, (onlyToken_setLease s t _).leases⟩

theorem onlyToken_acquireSession (s : PiClient) (id : String) (mode : LeaseMode) :
    OnlyToken s.leases.length s (s.acquireSession id mode) := by
  unfold acquireSession
  split
  · exact .refl _ s
  dsimp only
  split
  · exact .refl _ s
  rename_i s' hr
  obtain ⟨hlss, hgen, hsent⟩ := reserve_eq hr
  have hrese : OnlyToken s.leases.length s s' := by
    refine ⟨hgen, fun _ => by rw [hsent], fun t' hne hlt => ?_⟩
    rw [hlss, List.getElem?_append_left hlt]
  have hlen : ∀ t' < s.leases.length, t' < s'.leases.length := fun t' hlt => by
    simp [hlss]
    omega
  split
  · exact hrese.trans hlen (onlyToken_setLease s' _ _)
  · exact hrese.trans hlen (onlyToken_afterDetachment s' _ _)

section
variable (hs : s.Stale t)
include hs

theorem Stale.not_active (ht : s.leases[t]? = some lease) :
    s.isActive (s.refreshState lease) = false ∧ ∃ state, (s.refreshState lease).phase = .handle state ∧
      (s.refreshState lease).generation = lease.generation ∧ (s.refreshState lease).sessionId = lease.sessionId := by
  obtain ⟨found, state, ht', hp, hlt⟩ := hs
  obtain rfl : lease = found := by simpa [ht] using ht'
  constructor
  · rw [← Bool.not_eq_true]
    intro hact
    obtain ⟨-, hgen, -⟩ := counted_iff.mp (counted_of_isActive hact).2.2
    omega
  · obtain ⟨heq, -⟩ | ⟨heq, -⟩ := refreshState_cases s lease
    · exact ⟨state, by rw [heq]; exact hp, by rw [heq], by rw [heq]⟩
    · exact ⟨.invalidated, by rw [heq], by rw [heq], by rw [heq]⟩

theorem Stale.refresh (ht : s.leases[t]? = some lease) : (s.setLease t (s.refreshState lease)).Stale t ∧
      (s.setLease t (s.refreshState lease)).sent.count t = s.sent.count t := by
  obtain ⟨-, state, hp, hg, hid⟩ := hs.not_active ht
  exact hs.setLease ht rfl rfl rfl hp hg hid

theorem Stale.handleRequest (t' : ℕ) :
    (s.handleRequest t').Stale t ∧ (s.handleRequest t').sent.count t = s.sent.count t := by
  by_cases heq : t = t'
  · subst heq
    have ⟨lease, state, ht, hp, hlt⟩ := hs
    have href := hs.refresh ht
    have hnot : (s.setLease t (s.refreshState lease)).isActive (s.refreshState lease) = false := (hs.not_active ht).1
    simpa [PiClient.handleRequest, ht, hnot] using href
  · exact (onlyToken_handleRequest s t').stale heq hs

theorem Stale.release (t' : ℕ) (relinquishOnFailure : Bool) :
    (s.release t' relinquishOnFailure).Stale t ∧ (s.release t' relinquishOnFailure).sent.count t = s.sent.count t := by
  by_cases heq : t = t'
  · subst heq
    have ⟨lease, state, ht, hp, hlt⟩ := hs
    have href := hs.refresh ht
    have hnot : (s.setLease t (s.refreshState lease)).isActive (s.refreshState lease) = false := (hs.not_active ht).1
    simpa [PiClient.release, ht, hnot] using href
  · exact (onlyToken_release s t' relinquishOnFailure).stale heq hs

theorem Stale.releaseReturned (t' : ℕ) :
    (s.releaseReturned t').Stale t ∧ (s.releaseReturned t').sent.count t = s.sent.count t := by
  by_cases heq : t = t'
  · subst heq
    have ⟨lease, state, ht, _⟩ := hs
    obtain ⟨-, -, -, hg, hid⟩ := hs.not_active ht
    have hsame : s.Stale t ∧ s.sent.count t = s.sent.count t := ⟨hs, rfl⟩
    unfold PiClient.releaseReturned
    rw [ht]
    dsimp only
    split
    · exact hsame
    rename_i n relinquishOnFailure hrel
    split
    · exact hsame
    generalize (if s.detachments lease.sessionId = some n then
      Function.update s.detachments lease.sessionId none else s.detachments) = detachments
    split
    · exact hs.setLease ht rfl rfl rfl rfl rfl rfl
    · split
      · rename_i hinv
        exact hs.setLease ht rfl rfl rfl hinv hg hid
      · split <;> exact hs.setLease ht rfl rfl rfl rfl hg hid
  · exact (onlyToken_releaseReturned s t').stale heq hs

end

theorem le_invalidateAll (s : PiClient) (id : String) :
    s.generations id ≤ s.invalidateAllSessionLeases.generations id := by
  simp only [invalidateAllSessionLeases]
  split <;> omega

/-- **A handle of an old generation sends nothing, and stays one.** -/
theorem Stale.step (hs : s.Stale t) (step : ClientStep) :
    (s.step step).Stale t ∧ (s.step step).sent.count t = s.sent.count t := by
  have hlt : ∀ lease state, s.leases[t]? = some lease → lease.phase = .handle state →
      t < s.leases.length := fun lease _ ht _ => (List.getElem?_eq_some_iff.mp ht).1
  cases step with
  | connect =>
    simp only [PiClient.step]
    split
    · exact ⟨hs, rfl⟩
    · exact hs.of_leases (fun _ => Nat.le_refl _) rfl rfl
  | disconnect => exact hs.of_leases (le_invalidateAll s) rfl rfl
  | dispose =>
    simp only [PiClient.step, PiClient.dispose]
    split
    · exact ⟨hs, rfl⟩
    · exact hs.of_leases (fun id => Nat.le_trans (le_invalidateAll s id) (le_invalidateAll _ id)) rfl rfl
  | createSession => exact hs.of_leases (fun _ => Nat.le_refl _) rfl rfl
  | created n id =>
    simp only [PiClient.step, PiClient.created]
    split
    · split
      · cases hr : PiClient.reserveSessionLease { s with creations := s.creations.filter (· ≠ n) } id
          .exclusive (.handle .active) with
        | none => exact hs.of_leases (fun _ => Nat.le_refl _) rfl rfl
        | some s' =>
          obtain ⟨hlss, hgen, hsent⟩ := reserve_eq hr
          refine hs.of_handle (fun id => Nat.le_of_eq (by simp [hgen])) (by simp [hsent])
            fun lease state ht hp => ⟨lease, state, ?_, hp, rfl, rfl⟩
          simp only [Option.getD_some, hlss]
          rw [List.getElem?_append_left (hlt lease state ht hp)]
          exact ht
      · exact hs.of_leases (fun _ => Nat.le_refl _) rfl rfl
    · exact ⟨hs, rfl⟩
  | acquireSession id mode =>
    have ⟨lease, state, ht, hp, _⟩ := hs
    exact (onlyToken_acquireSession s id mode).stale (Nat.ne_of_lt (hlt lease state ht hp)) hs
  | resumeAcquisition t' => exact hs.resumeAcquisition t'
  | reconciled id =>
    simp only [PiClient.step, PiClient.reconciled]
    split
    · exact ⟨hs, rfl⟩
    · split
      · exact ⟨hs, rfl⟩
      · exact hs.of_leases (fun _ => Nat.le_refl _) rfl rfl
  | handleRequest t' => exact hs.handleRequest t'
  | release t' relinquishOnFailure => exact hs.release t' relinquishOnFailure
  | releaseReturned t' => exact hs.releaseReturned t'
  | response n ok snapshot =>
    have ha := sameLeases_applySessionSnapshot s snapshot
    simp only [PiClient.step, PiClient.response]
    split
    · split
      · exact hs.of_leases (fun id => Nat.le_of_eq (congrFun ha.generations id).symm)
          (by cases snapshot <;> rfl) ha.leases
      · exact hs.of_leases (fun _ => Nat.le_refl _) rfl rfl
    · exact ⟨hs, rfl⟩
  | sessionSnapshot id attached => exact hs.of_leases (fun _ => Nat.le_refl _) rfl rfl
  | sessionRemoved id =>
    refine hs.of_leases (fun id' => ?_) rfl rfl
    simp only [PiClient.step, invalidateSessionLeases, Function.update_apply]
    split
    · rename_i heq
      rw [heq]
      omega
    · exact Nat.le_refl _

theorem Stale.run (hs : s.Stale t) (steps : List ClientStep) :
    (steps.foldl PiClient.step s).sent.count t = s.sent.count t := by
  induction steps generalizing s with
  | nil => rfl
  | cons step steps ih =>
    obtain ⟨hsta, hsent⟩ := hs.step step
    exact (ih hsta).trans hsent

end PiClient

def runClient (steps : List ClientStep) : PiClient := steps.foldl PiClient.step {}

/-- **Exclusive leases are exclusive**, as long as no acquisition and no release that was under way
when its session was invalidated goes on to make a handle or to take from the count of newer
tokens: two active leases of a session of which one is exclusive are the same, the count of a
session is the number of its outstanding tokens of the current generation, and a handle whose
generation has been invalidated sends no command in any run that follows. -/
theorem leases_exclusive (steps : List ClientStep) (hsound : Along PiClient.step (fun s step => step.Sound s) {} steps) :
    (∀ (t t' : ℕ) (lease lease' : Lease), (runClient steps).leases[t]? = some lease →
      (runClient steps).leases[t']? = some lease' → lease.sessionId = lease'.sessionId →
      lease.phase = .handle .active → lease'.phase = .handle .active →
      lease.generation = (runClient steps).generations lease.sessionId →
      lease'.generation = (runClient steps).generations lease'.sessionId → lease.mode = .exclusive → t' = t) ∧
    (∀ id, (runClient steps).counts id = (runClient steps).leases.countP ((runClient steps).counted id)) ∧
    ∀ (t : ℕ) (lease : Lease) (state : LeaseState), (runClient steps).leases[t]? = some lease →
      lease.phase = .handle state → lease.generation ≠ (runClient steps).generations lease.sessionId →
      ∀ later : List ClientStep, (runClient (steps ++ later)).sent.count t = (runClient steps).sent.count t := by
  have hinv : (runClient steps).LeaseInv := hsound.invariant (fun _ _ h hC => h.step hC) .init
  refine ⟨?_, hinv.count, fun t lease state ht hp hne later => ?_⟩
  · intro t t' lease lease' ht ht' hid hp hp' hg hg' hm
    refine hinv.alone lease.sessionId t t' lease lease' ht ht' ?_ ?_ hm
    · exact PiClient.counted_iff.mpr ⟨rfl, hg, by simp [Lease.outstanding, hp]⟩
    · exact PiClient.counted_iff.mpr ⟨hid.symm, hid ▸ hg', by simp [Lease.outstanding, hp']⟩
  · have hsta : (runClient steps).Stale t := by
      have hle := hinv.bound lease (mem_of_getElem? ht)
      exact ⟨lease, state, ht, hp, Nat.lt_of_le_of_ne hle hne⟩
    have hrun := hsta.run later
    rwa [runClient, runClient, foldl_append]

namespace InFlight

/-- A session is acquired, used and released by two handles, and removed. -/
def sharedTwice : List ClientStep :=
  [.connect, .acquireSession "s" .shared, .acquireSession "s" .exclusive,
    .response 0 true (some ("s", true)), .resumeAcquisition 0, .acquireSession "s" .shared,
    .handleRequest 1, .response 1 true none, .release 0 false, .sessionRemoved "s", .handleRequest 1]

/-- The second handle has sent one command and will send no other. -/
theorem sharedTwice_counts : ((runClient sharedTwice).leases.map (fun lease => (lease.phase, lease.generation)) =
        [(.handle .released, 0), (.handle .invalidated, 0)] ∧
      (runClient sharedTwice).generations "s" = 1 ∧ (runClient sharedTwice).sent = [1]) ∧
    (runClient sharedTwice).counts "s" = (runClient sharedTwice).leases.countP ((runClient sharedTwice).counted "s") ∧
    (runClient (sharedTwice ++ [.connect, .handleRequest 1, .release 1 true])).sent.count 1 =
      (runClient sharedTwice).sent.count 1 := by
  refine ⟨by decide +kernel, ?_⟩
  have h := leases_exclusive sharedTwice (by decide +kernel)
  exact ⟨h.2.1 "s", h.2.2 1 ⟨"s", .shared, 0, .handle .invalidated, none⟩ .invalidated
    (by decide +kernel) rfl (by decide +kernel) _⟩

/-- The session is removed while it is being acquired, and then acquired once more. -/
def removedMeanwhile : List ClientStep :=
  [.connect, .acquireSession "s" .exclusive, .sessionRemoved "s", .acquireSession "s" .exclusive,
    .response 0 true (some ("s", true)), .resumeAcquisition 0, .resumeAcquisition 1]

/-- There are two active exclusive leases, and the count is one. -/
theorem removedMeanwhile_two_leases : (runClient removedMeanwhile).leases =
      [⟨"s", .exclusive, 1, .handle .active, none⟩, ⟨"s", .exclusive, 1, .handle .active, none⟩] ∧
    (runClient removedMeanwhile).generations "s" = 1 ∧ (runClient removedMeanwhile).counts "s" = 1 ∧
    (runClient removedMeanwhile).leases.countP ((runClient removedMeanwhile).counted "s") = 2 := by
  decide +kernel

end InFlight
end EasyPi.Client
