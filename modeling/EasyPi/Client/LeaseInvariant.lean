/-
# What the lease counts say

A session's count is the number of its outstanding tokens of the current generation, and
an exclusive token is the only one. Reserving and releasing keep that as long as a token
that is released or becomes a handle is one of the current generation, for invalidation
has set the count to zero for all the others.
-/
import EasyPi.Client.Leases

namespace EasyPi.Client

open List

def Lease.outstanding (lease : Lease) : Bool :=
  match lease.phase with
  | .failed => false
  | .handle state => state = .active || state = .releasing
  | _ => true

namespace PiClient

/-- The lease is an outstanding token of the current generation of a session. -/
def counted (s : PiClient) (id : String) (lease : Lease) : Bool :=
  lease.sessionId = id && lease.generation = s.generations id && lease.outstanding

/-- The counts and the exclusive leases are those of the outstanding tokens. -/
structure LeaseInv (s : PiClient) : Prop where
  bound : ∀ lease ∈ s.leases, lease.generation ≤ s.generations lease.sessionId
  count : ∀ id, s.counts id = s.leases.countP (s.counted id)
  token : ∀ id t, s.exclusive id = some t →
    ∃ lease, s.leases[t]? = some lease ∧ s.counted id lease = true ∧ lease.mode = .exclusive
  alone : ∀ (id : String) (t t' : ℕ) (lease lease' : Lease), s.leases[t]? = some lease → s.leases[t']? = some lease' →
    s.counted id lease = true → s.counted id lease' = true → lease.mode = .exclusive → t' = t
  registered : ∀ (id : String) (t : ℕ) (lease : Lease), s.leases[t]? = some lease → s.counted id lease = true →
    lease.mode = .exclusive → s.exclusive id = some t
  releasing : ∀ lease ∈ s.leases, lease.releasing ≠ none → lease.phase = .handle .releasing ∨
    lease.phase = .handle .invalidated ∧ lease.generation < s.generations lease.sessionId

variable {s s' : PiClient} {id : String} {t : ℕ} {lease new : Lease}

theorem LeaseInv.init : LeaseInv {} := by
  constructor <;> simp

theorem counted_iff : s.counted id lease = true ↔ lease.sessionId = id ∧
    lease.generation = s.generations id ∧ lease.outstanding = true := by
  simp [counted, and_assoc]

/-- Two states with the same leases and counts. -/
structure SameLeases (s s' : PiClient) : Prop where
  counts : s'.counts = s.counts
  exclusive : s'.exclusive = s.exclusive
  generations : s'.generations = s.generations
  leases : s'.leases = s.leases

theorem LeaseInv.congr (h : s.LeaseInv) (ha : s.SameLeases s') : s'.LeaseInv := by
  have hcntd : ∀ id, s'.counted id = s.counted id := by
    intro id
    funext lease
    simp [counted, ha.generations]
  obtain ⟨hbd, hcnt, htok, halo, hreg, hrel⟩ := h
  refine ⟨?_, ?_, ?_, ?_, ?_, ?_⟩
  · rw [ha.leases, ha.generations]
    exact hbd
  · simpa only [ha.counts, ha.leases, hcntd] using hcnt
  · simpa only [ha.exclusive, ha.leases, hcntd] using htok
  · simpa only [ha.leases, hcntd] using halo
  · simpa only [ha.exclusive, ha.leases, hcntd] using hreg
  · rw [ha.leases, ha.generations]
    exact hrel

/-! ### One lease changes -/

theorem getElem?_set_cases {leases : List Lease} {t t' : ℕ} {found : Lease}
    (h : (leases.set t new)[t']? = some found) : t' = t ∧ found = new ∨ t' ≠ t ∧ leases[t']? = some found := by
  by_cases heq : t' = t
  · subst heq
    rw [List.getElem?_set_self'] at h
    obtain ⟨-, -, rfl⟩ := Option.map_eq_some_iff.mp h
    exact .inl ⟨rfl, rfl⟩
  · rw [List.getElem?_set_ne (Ne.symm heq)] at h
    exact .inr ⟨heq, h⟩

theorem mem_set_cases {leases : List Lease} {found : Lease} (h : found ∈ leases.set t new) :
    found = new ∨ found ∈ leases :=
  (mem_or_eq_of_mem_set h).symm

theorem LeaseInv.setLease (h : s.LeaseInv) (ht : s.leases[t]? = some lease)
    (hcntd : ∀ id, s.counted id new = s.counted id lease) (hmode : new.mode = lease.mode)
    (hbd : new.generation ≤ s.generations new.sessionId) (hrel : new.releasing ≠ none → new.phase = .handle .releasing ∨
      new.phase = .handle .invalidated ∧ new.generation < s.generations new.sessionId) : (s.setLease t new).LeaseInv := by
  obtain ⟨hlt, hget⟩ := List.getElem?_eq_some_iff.mp ht
  have hback : ∀ {id : String} {t' : ℕ} {found : Lease}, (s.leases.set t new)[t']? = some found →
      s.counted id found = true → ∃ old, s.leases[t']? = some old ∧ s.counted id old = true ∧ found.mode = old.mode := by
    intro id t' found hf hc
    obtain ⟨rfl, rfl⟩ | ⟨-, hf⟩ := getElem?_set_cases hf
    · exact ⟨lease, ht, (hcntd id) ▸ hc, hmode⟩
    · exact ⟨found, hf, hc, rfl⟩
  refine ⟨fun found hf => ?_, fun id => ?_, fun id t' hx => ?_, ?_, ?_, fun found hf => ?_⟩
  · obtain rfl | hf := mem_set_cases hf
    · exact hbd
    · exact h.bound found hf
  · have hset : (s.leases.set t new).countP (s.counted id) = s.leases.countP (s.counted id) := by
      rw [countP_set hlt, hget, hcntd id]
      have hpos : s.counted id lease = true → 0 < s.leases.countP (s.counted id) := fun hc =>
        countP_pos_iff.mpr ⟨lease, mem_of_getElem? ht, hc⟩
      split
      · rename_i hc
        have := hpos hc
        omega
      · rfl
    exact (h.count id).trans hset.symm
  · obtain ⟨old, hold, hc, hm⟩ := h.token id t' hx
    by_cases heq : t' = t
    · subst heq
      obtain rfl : lease = old := by simpa [ht] using hold
      refine ⟨new, ?_, (hcntd id).trans hc, hmode.trans hm⟩
      simp [PiClient.setLease, hlt]
    · refine ⟨old, ?_, hc, hm⟩
      simpa [PiClient.setLease, List.getElem?_set_ne (Ne.symm heq)] using hold
  · intro id t₁ t₂ lease₁ lease₂ h₁ h₂ hc₁ hc₂ hm
    obtain ⟨old₁, ho₁, hco₁, hmo₁⟩ := hback h₁ hc₁
    obtain ⟨old₂, ho₂, hco₂, -⟩ := hback h₂ hc₂
    exact h.alone id t₁ t₂ old₁ old₂ ho₁ ho₂ hco₁ hco₂ (hmo₁ ▸ hm)
  · intro id t₁ lease₁ h₁ hc₁ hm
    obtain ⟨old₁, ho₁, hco₁, hmo₁⟩ := hback h₁ hc₁
    exact h.registered id t₁ old₁ ho₁ hco₁ (hmo₁ ▸ hm)
  · obtain rfl | hf := mem_set_cases hf
    · exact hrel
    · exact h.releasing found hf

/-- A token is released, if it is of the current generation or there is none that is. -/
theorem LeaseInv.releaseLease (h : s.LeaseInv) (ht : s.leases[t]? = some lease)
    (hcur : s.counted lease.sessionId lease = true ∨ s.counts lease.sessionId = 0)
    (hid : new.sessionId = lease.sessionId) (hout : new.outstanding = false)
    (hbd : new.generation ≤ s.generations new.sessionId) (hrel : new.releasing = none) :
    ((s.releaseSessionLease lease.sessionId t).setLease t new).LeaseInv := by
  obtain ⟨hlt, hget⟩ := List.getElem?_eq_some_iff.mp ht
  have hnew : ∀ id, s.counted id new = false := fun id => by simp [counted, hout]
  have hoth : ∀ id, id ≠ lease.sessionId → s.counted id lease = false := by
    intro id hne
    simp [counted, Ne.symm hne]
  have hset : ∀ id, (s.leases.set t new).countP (s.counted id) =
      s.leases.countP (s.counted id) - if s.counted id lease = true then 1 else 0 := by
    intro id
    rw [countP_set hlt, hget, hnew id]
    simp
  have hfind : ∀ {id : String} {t' : ℕ} {found : Lease}, (s.leases.set t new)[t']? = some found →
      s.counted id found = true → t' ≠ t ∧ s.leases[t']? = some found := by
    intro id t' found hf hc
    obtain ⟨-, rfl⟩ | hf := getElem?_set_cases hf
    · simp [hnew id] at hc
    · exact hf
  refine ⟨fun found hf => ?_, fun id => ?_, fun id t' hx => ?_, ?_, ?_, fun found hf hr => ?_⟩
  · obtain rfl | hf := mem_set_cases hf
    · exact hbd
    · exact h.bound found hf
  · simp only [PiClient.setLease, releaseSessionLease, Function.update_apply]
    refine Eq.trans ?_ (hset id).symm
    split
    · rename_i heq
      subst heq
      rw [h.count]
      split
      · rfl
      · rename_i hnot
        have hzero := hcur.resolve_left hnot
        rw [h.count] at hzero
        omega
    · rename_i hne
      rw [h.count, hoth id hne]
      rfl
  · have hx' : s.exclusive id = some t' ∧ t' ≠ t := by
      simp only [PiClient.setLease, releaseSessionLease] at hx
      split at hx
      · rename_i hown
        simp only [Function.update_apply] at hx
        split at hx
        · cases hx
        · rename_i hne
          refine ⟨hx, ?_⟩
          rintro rfl
          obtain ⟨old, hold, hc, -⟩ := h.token id t' hx
          obtain rfl : lease = old := by simpa [ht] using hold
          simp [hoth id hne] at hc
      · rename_i hown
        refine ⟨hx, ?_⟩
        rintro rfl
        obtain ⟨old, hold, hc, -⟩ := h.token id t' hx
        obtain rfl : lease = old := by simpa [ht] using hold
        exact hown ((counted_iff.mp hc).1 ▸ hx)
    obtain ⟨old, hold, hc, hm⟩ := h.token id t' hx'.1
    refine ⟨old, ?_, hc, hm⟩
    simpa [PiClient.setLease, releaseSessionLease, List.getElem?_set_ne (Ne.symm hx'.2)] using hold
  · intro id t₁ t₂ lease₁ lease₂ h₁ h₂ hc₁ hc₂ hm
    obtain ⟨-, ho₁⟩ := hfind h₁ hc₁
    obtain ⟨-, ho₂⟩ := hfind h₂ hc₂
    exact h.alone id t₁ t₂ lease₁ lease₂ ho₁ ho₂ hc₁ hc₂ hm
  · intro id t₁ lease₁ h₁ hc₁ hm
    obtain ⟨hne, ho₁⟩ := hfind h₁ hc₁
    have hx := h.registered id t₁ lease₁ ho₁ hc₁ hm
    simp only [PiClient.setLease, releaseSessionLease]
    split
    · rename_i hown
      simp only [Function.update_apply]
      split
      · rename_i heq
        rw [heq, hown] at hx
        exact absurd (by simpa using hx.symm) hne
      · exact hx
    · exact hx
  · obtain rfl | hf := mem_set_cases hf
    · exact absurd hrel hr
    · exact h.releasing found hf hr

/-! ### Reserving -/

theorem LeaseInv.reserve (h : s.LeaseInv) {mode : LeaseMode} {phase : LeasePhase}
    (hr : s.reserveSessionLease id mode phase = some s')
    (hph : ({ sessionId := id, mode, generation := s.generations id, phase } : Lease).outstanding =
      true) : s'.LeaseInv := by
  unfold reserveSessionLease at hr
  split at hr
  · cases hr
  rename_i hfree
  obtain rfl := Option.some.inj hr
  set new : Lease := { sessionId := id, mode, generation := s.generations id, phase } with hnewdef
  have hnew : ∀ id', s.counted id' new = decide (id = id') := by
    intro id'
    by_cases heq : id = id'
    · subst heq
      rw [decide_eq_true rfl]
      exact counted_iff.mpr ⟨rfl, rfl, hph⟩
    · simp [counted, heq, hnewdef]
  have hcas : ∀ {t : ℕ} {found : Lease}, (s.leases ++ [new])[t]? = some found →
      s.leases[t]? = some found ∨ t = s.leases.length ∧ found = new := by
    intro t found hf
    obtain hlt | hge := Nat.lt_or_ge t s.leases.length
    · rw [List.getElem?_append_left hlt] at hf
      exact .inl hf
    · rw [List.getElem?_append_right hge] at hf
      obtain ⟨hlt, hval⟩ := List.getElem?_eq_some_iff.mp hf
      simp only [length_singleton] at hlt
      refine .inr ⟨by omega, ?_⟩
      simpa using hval.symm
  -- neither an exclusive token nor, for an exclusive one, any other
  have hexcl : mode = .exclusive → s.counts id = 0 := by
    rintro rfl
    simpa using hfree
  have hsha : mode = .shared → s.exclusive id = none := by
    rintro rfl
    simpa using hfree
  have hnone : ∀ {t : ℕ} {found : Lease}, s.leases[t]? = some found → s.counted id found = true → 0 < s.counts id := by
    intro t found hf hc
    rw [h.count]
    exact countP_pos_iff.mpr ⟨found, mem_of_getElem? hf, hc⟩
  refine ⟨fun found hf => ?_, fun id' => ?_, fun id' t hx => ?_, ?_, ?_, fun found hf hrel => ?_⟩
  · obtain hf | hf := mem_append.mp hf
    · exact h.bound found hf
    · have heq := mem_singleton.mp hf
      subst heq
      exact Nat.le_refl _
  · have hcnt : (s.leases ++ [new]).countP (s.counted id') =
        s.leases.countP (s.counted id') + if id = id' then 1 else 0 := by
      rw [countP_append, countP_singleton, hnew id']
      simp
    refine Eq.trans ?_ hcnt.symm
    simp only [Function.update_apply]
    by_cases heq : id' = id
    · subst heq
      simp [h.count]
    · simp [heq, Ne.symm heq, h.count]
  · simp only at hx
    have hold : ∀ t, s.exclusive id' = some t → ∃ lease, (s.leases ++ [new])[t]? = some lease ∧
        s.counted id' lease = true ∧ lease.mode = .exclusive := by
      intro t hx
      obtain ⟨lease, hl, hc, hm⟩ := h.token id' t hx
      refine ⟨lease, ?_, hc, hm⟩
      rw [List.getElem?_append_left (List.getElem?_eq_some_iff.mp hl).1]
      exact hl
    split at hx
    · rename_i hmode
      simp only [Function.update_apply] at hx
      split at hx
      · rename_i heq
        obtain rfl : s.leases.length = t := by simpa using hx
        exact ⟨new, by simp, (hnew id').trans (by simp [heq]), hmode⟩
      · exact hold t hx
    · exact hold t hx
  · intro id' t₁ t₂ lease₁ lease₂ h₁ h₂ hc₁ hc₂ hm
    have hc₁ : s.counted id' lease₁ = true := hc₁
    have hc₂ : s.counted id' lease₂ = true := hc₂
    obtain h₁ | ⟨rfl, rfl⟩ := hcas h₁
    · obtain h₂ | ⟨rfl, rfl⟩ := hcas h₂
      · exact h.alone id' t₁ t₂ lease₁ lease₂ h₁ h₂ hc₁ hc₂ hm
      · obtain rfl : id = id' := by simpa [hnew] using hc₂
        have hx := h.registered id t₁ lease₁ h₁ hc₁ hm
        cases hmode : mode with
        | shared =>
          rw [hsha hmode] at hx
          cases hx
        | exclusive =>
          have := hnone h₁ hc₁
          rw [hexcl hmode] at this
          cases this
    · obtain rfl : id = id' := by simpa [hnew] using hc₁
      obtain h₂ | ⟨rfl, rfl⟩ := hcas h₂
      · have := hnone h₂ hc₂
        rw [hexcl hm] at this
        cases this
      · rfl
  · intro id' t₁ lease₁ h₁ hc₁ hm
    have hc₁ : s.counted id' lease₁ = true := hc₁
    simp only
    obtain ho₁ | ⟨rfl, rfl⟩ := hcas h₁
    · have hx := h.registered id' t₁ lease₁ ho₁ hc₁ hm
      split
      · rename_i hmode
        simp only [Function.update_apply]
        split
        · rename_i heq
          subst heq
          have := hnone ho₁ hc₁
          rw [hexcl hmode] at this
          cases this
        · exact hx
      · exact hx
    · obtain rfl : id = id' := by simpa [hnew] using hc₁
      have hmode : mode = .exclusive := hm
      rw [if_pos hmode]
      simp
  · obtain hf | hf := mem_append.mp hf
    · exact h.releasing found hf hrel
    · rw [mem_singleton.mp hf] at hrel
      exact absurd rfl hrel

/-! ### Invalidation -/

theorem LeaseInv.invalidate (h : s.LeaseInv) (stale : String → Prop)
    (hgen : ∀ id, s'.generations id = s.generations id ∧ ¬ stale id ∨ s'.generations id = s.generations id + 1 ∧ stale id)
    (hcnt : ∀ id, (stale id → s'.counts id = 0) ∧ (¬ stale id → s'.counts id = s.counts id))
    (hexcl : ∀ id, (stale id → s'.exclusive id = none) ∧ (¬ stale id → s'.exclusive id = s.exclusive id))
    (hlss : s'.leases = s.leases) : s'.LeaseInv := by
  have hsame : ∀ {id lease}, ¬ stale id → s'.counted id lease = s.counted id lease := by
    intro id lease hns
    have hg : s'.generations id = s.generations id := ((hgen id).resolve_right fun hs => hns hs.2).1
    simp [counted, hg]
  have hfal : ∀ {id lease}, stale id → lease ∈ s.leases → s'.counted id lease = false := by
    intro id lease hs hl
    have hg : s'.generations id = s.generations id + 1 := ((hgen id).resolve_left fun hn => hn.2 hs).1
    rw [← Bool.not_eq_true, counted_iff]
    rintro ⟨rfl, hgen', -⟩
    have := h.bound lease hl
    omega
  have hle : ∀ id, s.generations id ≤ s'.generations id := fun id => by
    obtain ⟨hg, -⟩ | ⟨hg, -⟩ := hgen id <;> omega
  have hlive : ∀ {id : String} {t : ℕ} {lease : Lease}, s.leases[t]? = some lease → s'.counted id lease = true →
      ¬ stale id ∧ s.counted id lease = true := by
    intro id t lease hl hc
    have hns : ¬ stale id := fun hs => by
      simp [hfal hs (mem_of_getElem? hl)] at hc
    exact ⟨hns, (hsame hns).symm.trans hc⟩
  refine ⟨fun lease hl => ?_, fun id => ?_, fun id t hx => ?_, ?_, ?_, fun lease hl hr => ?_⟩
  · exact Nat.le_trans (h.bound lease (hlss ▸ hl)) (hle _)
  · rw [hlss]
    by_cases hs : stale id
    · rw [(hcnt id).1 hs]
      refine (countP_eq_zero.mpr fun lease hl => ?_).symm
      simp [hfal hs hl]
    · rw [(hcnt id).2 hs, h.count]
      exact countP_congr fun lease _ => by rw [hsame hs]
  · have hns : ¬ stale id := fun hs => by
      rw [(hexcl id).1 hs] at hx
      cases hx
    obtain ⟨lease, hl, hc, hm⟩ := h.token id t ((hexcl id).2 hns ▸ hx)
    exact ⟨lease, hlss ▸ hl, (hsame hns).trans hc, hm⟩
  · intro id t₁ t₂ lease₁ lease₂ h₁ h₂ hc₁ hc₂ hm
    rw [hlss] at h₁ h₂
    exact h.alone id t₁ t₂ lease₁ lease₂ h₁ h₂ (hlive h₁ hc₁).2 (hlive h₂ hc₂).2 hm
  · intro id t₁ lease₁ h₁ hc₁ hm
    rw [hlss] at h₁
    obtain ⟨hns, hc⟩ := hlive h₁ hc₁
    rw [(hexcl id).2 hns]
    exact h.registered id t₁ lease₁ h₁ hc hm
  · refine (h.releasing lease (hlss ▸ hl) hr).imp_right fun hi => ⟨hi.1, ?_⟩
    exact Nat.lt_of_lt_of_le hi.2 (hle _)

end PiClient
end EasyPi.Client
