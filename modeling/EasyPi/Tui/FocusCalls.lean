/-
# What the calls keep

Every call of the interface keeps focus off removed overlays, as long as the handle
of a removed overlay does not show it again and no overlay is removed that a blocked
restore resumes with: `setHidden` does not look whether its overlay is in the stack,
as `focus` does, and removing an overlay repairs what other overlays were shown over
but not the target of a restore.
-/
import Mathlib.Data.List.Nodup
import EasyPi.Tui.FocusInvariant

namespace EasyPi.Tui

open List

variable {κ : Type} {focusable : κ → Bool} {s : Focus κ} {env : Surroundings κ}

namespace Focus

def Fresh (s : Focus κ) (component : κ) : Prop :=
  (∀ entry ∈ s.entries, entry.component ≠ component ∧ entry.preFocus ≠ some component) ∧
    s.focusedComponent ≠ some component ∧ s.overlayFocusRestore.target? ≠ some component ∧
    s.overlayFocusRestore.blockedBy? ≠ some component

attribute [local simp] FocusRestore.overlay?

theorem Fresh.componentOf_ne {component : κ} (h : s.Fresh component) (i : ℕ) : s.componentOf i ≠ some component := by
  intro hi
  obtain ⟨entry, he, hc⟩ := componentOf_eq_some.mp hi
  exact (h.1 entry (mem_of_getElem? he)).1 hc

variable {entry : OverlayEntry κ} {i : ℕ}

theorem FocusInv.mem_stack (h : s.FocusInv focusable)
    (he : s.entries[i]? = some entry) (hf : s.focusedComponent = some entry.component) : i ∈ s.overlayStack := by
  by_contra hi
  exact h.focus _ hf ⟨i, componentOf_eq_some.mpr ⟨entry, he, rfl⟩, hi⟩

theorem Sane.preFocus_not_removed (h : s.Sane focusable) (hi : i ∈ s.overlayStack)
    (he : s.entries[i]? = some entry) : ∀ c ∈ entry.preFocus, ¬ s.Removed c :=
  fun c hc => (h.preFocus i hi entry he c hc).1

/-! ### Restore states -/

theorem clearFor_eq (i : ℕ) : ∃ restore, s.clearOverlayFocusRestoreFor i =
    { s with overlayFocusRestore := restore } ∧ (restore = .inactive ∨
      (restore = s.overlayFocusRestore ∧ restore.overlay? ≠ some i)) := by
  unfold clearOverlayFocusRestoreFor
  split
  · exact ⟨.inactive, rfl, .inl rfl⟩
  · rename_i h
    exact ⟨s.overlayFocusRestore, rfl, .inr ⟨rfl, h⟩⟩

@[simp] theorem clearFor_entries (i : ℕ) : (s.clearOverlayFocusRestoreFor i).entries = s.entries := by
  unfold clearOverlayFocusRestoreFor
  split <;> rfl

theorem clearFor_removed (i : ℕ) (c : κ) : (s.clearOverlayFocusRestoreFor i).Removed c ↔ s.Removed c := by
  unfold clearOverlayFocusRestoreFor
  split <;> rfl

theorem Sane.inactive (h : s.Sane focusable) : ({ s with overlayFocusRestore := .inactive } : Focus κ).Sane focusable :=
  ⟨h.nodup, h.bound, h.components, h.preFocus, by simp,
    by simp [FocusRestore.target?], by simp [FocusRestore.blockedBy?], h.flags⟩

theorem FocusInv.inactive (h : s.FocusInv focusable) :
    ({ s with overlayFocusRestore := .inactive } : Focus κ).FocusInv focusable :=
  ⟨h.sane.inactive, h.focus⟩

theorem FocusInv.clearFor (h : s.FocusInv focusable) (i : ℕ) : (s.clearOverlayFocusRestoreFor i).FocusInv focusable := by
  unfold clearOverlayFocusRestoreFor
  split
  · exact h.inactive
  · exact h

theorem getElem?_set_entry (he : s.entries[i]? = some entry)
    (entry' : OverlayEntry κ) : (s.entries.set i entry')[i]? = some entry' := by
  rw [List.getElem?_set_self (List.getElem?_eq_some_iff.mp he).1]

theorem FocusInv.set_entry (h : s.FocusInv focusable) {entry b : OverlayEntry κ}
    (he : s.entries[i]? = some entry) (hc : b.component = entry.component)
    (hp : b.preFocus = entry.preFocus) (order : ℕ) :
    ({ s with entries := s.entries.set i b, focusOrderCounter := order } : Focus κ).FocusInv focusable := by
  have hsame : ∀ j : ℕ, (s.entries.set i b)[j]?.map
      (fun entry => (entry.component, entry.preFocus)) =
        s.entries[j]?.map fun entry => (entry.component, entry.preFocus) := by
    intro j
    rw [List.getElem?_set]
    by_cases hj : i = j
    · subst hj
      obtain ⟨hlt, -⟩ := List.getElem?_eq_some_iff.mp he
      rw [he]
      simp [hlt, hc, hp]
    · simp [hj]
  refine ⟨h.sane.of_entries hsame order, ?_⟩
  rintro c hf ⟨j, hj, hs⟩
  refine h.focus c hf ⟨j, ?_, hs⟩
  have := congrArg (Option.map Prod.fst) (hsame j)
  simp only [Option.map_map, Function.comp_def] at this
  rw [componentOf, ← this]
  exact hj

/-! ### Showing an overlay -/

/-- A new overlay on top of the stack. -/
theorem FocusInv.push (h : s.FocusInv focusable) (entry : OverlayEntry κ)
    (hf : s.Fresh entry.component) (hp : entry.preFocus = s.focusedComponent) (order : ℕ) :
    ({ s with
      entries := s.entries ++ [entry]
      overlayStack := s.overlayStack ++ [s.entries.length]
      focusOrderCounter := order } : Focus κ).FocusInv focusable := by
  set t : Focus κ := { s with
    entries := s.entries ++ [entry]
    overlayStack := s.overlayStack ++ [s.entries.length]
    focusOrderCounter := order } with ht
  have hcomp : ∀ i c, t.componentOf i = some c ↔
      s.componentOf i = some c ∨ (i = s.entries.length ∧ c = entry.component) := by
    intro i c
    simp only [componentOf, ht]
    obtain hi | rfl | hi := Nat.lt_trichotomy i s.entries.length
    · simp [List.getElem?_append_left hi, Nat.ne_of_lt hi]
    · simp [eq_comm]
    · rw [List.getElem?_eq_none (by simp; omega), List.getElem?_eq_none (by omega)]
      simp [Nat.ne_of_gt hi]
  have hrem : ∀ c, t.Removed c → s.Removed c := by
    rintro c ⟨i, hi, hs⟩
    simp only [ht, mem_append, mem_singleton, not_or] at hs
    obtain hi | ⟨rfl, -⟩ := (hcomp i c).mp hi
    · exact ⟨i, hi, hs.1⟩
    · exact absurd rfl hs.2
  have hbd : ∀ i c, s.componentOf i = some c → i < s.entries.length := by
    intro i c hi
    obtain ⟨entry, he, -⟩ := componentOf_eq_some.mp hi
    exact (List.getElem?_eq_some_iff.mp he).1
  refine ⟨⟨?_, ?_, ?_, ?_, ?_, ?_, ?_, h.sane.flags⟩, ?_⟩
  · refine nodup_append.mpr ⟨h.sane.nodup, nodup_singleton _, ?_⟩
    intro i hi j hj
    obtain rfl := mem_singleton.mp hj
    exact Nat.ne_of_lt (h.sane.bound i hi)
  · intro i hi
    simp only [ht, mem_append, mem_singleton, length_append, length_singleton] at hi ⊢
    obtain hi | rfl := hi
    · exact Nat.lt_succ_of_lt (h.sane.bound i hi)
    · exact Nat.lt_succ_self _
  · intro i j c hi hj
    obtain hi | ⟨rfl, rfl⟩ := (hcomp i c).mp hi <;> obtain hj | ⟨rfl, hc⟩ := (hcomp j _).mp hj
    · exact h.sane.components i j c hi hj
    · exact absurd (hc ▸ hi) (hf.componentOf_ne i)
    · exact absurd hj (hf.componentOf_ne j)
    · rfl
  · intro i hi old hold c hc
    simp only [ht, mem_append, mem_singleton] at hi hold
    obtain hi | rfl := hi
    · rw [List.getElem?_append_left (h.sane.bound i hi)] at hold
      obtain ⟨hr, hlt⟩ := h.sane.preFocus i hi old hold c hc
      refine ⟨fun hr' => hr (hrem c hr'), fun j hj => ?_⟩
      obtain hj | ⟨rfl, rfl⟩ := (hcomp j c).mp hj
      · exact hlt j hj
      · exact absurd hc (hf.1 old (mem_of_getElem? hold)).2
    · obtain rfl : entry = old := by simpa using hold
      rw [hp] at hc
      refine ⟨fun hr' => h.focus c hc (hrem c hr'), fun j hj => ?_⟩
      obtain hj | ⟨rfl, rfl⟩ := (hcomp j c).mp hj
      · exact hbd j c hj
      · exact absurd hc hf.2.1
  · intro i hi
    exact mem_append_left _ (h.sane.overlay i hi)
  · intro c hc hr
    exact h.sane.target c hc (hrem c hr)
  · intro c hc i hi
    obtain hi | ⟨-, rfl⟩ := (hcomp i c).mp hi
    · exact h.sane.blockedBy c hc i hi
    · exact hf.2.2.2 hc
  · intro c hc hr
    exact h.focus c hc (hrem c hr)

variable [DecidableEq κ]

theorem FocusInv.showOverlay (h : s.FocusInv focusable) {component : κ} (hf : s.Fresh component) (nonCapturing : Bool) :
    (s.showOverlay focusable env component nonCapturing).FocusInv focusable := by
  have hpush := h.push ⟨component, nonCapturing, s.focusedComponent, false,
    s.focusOrderCounter + 1⟩ hf rfl (s.focusOrderCounter + 1)
  unfold Focus.showOverlay
  simp only
  split
  · refine hpush.sane.setFocus fun c hc => ?_
    obtain rfl : component = c := by simpa using hc
    refine hpush.sane.not_removed (i := s.entries.length) (by simp) ?_
    simp [componentOf]
  · exact hpush

/-! ### Removing an overlay -/

def withoutOverlay (s : Focus κ) (i : ℕ) : Focus κ :=
  let t := (s.clearOverlayFocusRestoreFor i).retargetOverlayPreFocus i
  { t with overlayStack := t.overlayStack.erase i }

theorem withoutOverlay_eq (he : s.entries[i]? = some entry) :
    ∃ restore, s.withoutOverlay i = { s with
      entries := s.entries.mapIdx fun j old =>
        if j ∈ s.overlayStack ∧ j ≠ i ∧ old.preFocus = some entry.component then
          { old with preFocus := entry.preFocus }
        else old
      overlayStack := s.overlayStack.erase i
      overlayFocusRestore := restore } ∧
    (restore = .inactive ∨ (restore = s.overlayFocusRestore ∧ restore.overlay? ≠ some i)) := by
  obtain ⟨restore, hcle, hres⟩ := @clearFor_eq _ s i
  refine ⟨restore, ?_, hres⟩
  rw [withoutOverlay, hcle]
  simp [retargetOverlayPreFocus, he]

section Removing

variable {i : ℕ} {entry : OverlayEntry κ}

theorem componentOf_withoutOverlay (he : s.entries[i]? = some entry) (j : ℕ) :
    (s.withoutOverlay i).componentOf j = s.componentOf j := by
  obtain ⟨restore, hw, -⟩ := withoutOverlay_eq he
  rw [hw]
  simp only [componentOf, List.getElem?_mapIdx, Option.map_map]
  refine congrArg (Option.map · _) (funext fun old => ?_)
  simp only [Function.comp_apply]
  split <;> rfl

theorem removed_withoutOverlay (h : s.Sane focusable) (he : s.entries[i]? = some entry)
    {c : κ} (hr : (s.withoutOverlay i).Removed c) : s.Removed c ∨ c = entry.component := by
  obtain ⟨j, hj, hs⟩ := hr
  rw [componentOf_withoutOverlay he] at hj
  by_cases hji : j = i
  · subst hji
    obtain ⟨entry', he', rfl⟩ := componentOf_eq_some.mp hj
    rw [he] at he'
    cases he'
    exact .inr rfl
  · obtain ⟨restore, hw, -⟩ := withoutOverlay_eq he
    rw [hw] at hs
    refine .inl ⟨j, hj, fun hmem => hs ?_⟩
    exact (h.nodup.mem_erase_iff).mpr ⟨hji, hmem⟩

theorem Sane.preFocus_withoutOverlay (h : s.Sane focusable) (he : s.entries[i]? = some entry)
    (hi : i ∈ s.overlayStack) : ∀ c ∈ entry.preFocus, ¬ (s.withoutOverlay i).Removed c := by
  intro c hc hr
  obtain ⟨hkeep, hlt⟩ := h.preFocus i hi entry he c hc
  obtain hr | rfl := removed_withoutOverlay h he hr
  · exact hkeep hr
  · exact Nat.lt_irrefl i (hlt i (componentOf_eq_some.mpr ⟨entry, he, rfl⟩))

theorem Sane.withoutOverlay (h : s.Sane focusable) (he : s.entries[i]? = some entry)
    (hi : i ∈ s.overlayStack) (ht : s.overlayFocusRestore.overlay? ≠ some i →
      s.overlayFocusRestore.target? ≠ some entry.component) : (s.withoutOverlay i).Sane focusable := by
  have hcomp := @componentOf_withoutOverlay _ s _ i entry he
  have hrem := fun c => @removed_withoutOverlay _ focusable s _ i entry h he c
  have hpre := h.preFocus_withoutOverlay he hi
  have hci : s.componentOf i = some entry.component := componentOf_eq_some.mpr ⟨entry, he, rfl⟩
  obtain ⟨restore, hw, hres⟩ := withoutOverlay_eq he
  have hsta : ∀ j, j ∈ (s.withoutOverlay i).overlayStack ↔ j ≠ i ∧ j ∈ s.overlayStack := by
    intro j
    rw [hw]
    exact h.nodup.mem_erase_iff
  have hrest : (s.withoutOverlay i).overlayFocusRestore = restore := by rw [hw]
  refine ⟨?_, ?_, ?_, ?_, ?_, ?_, ?_, ?_⟩
  · rw [hw]
    exact h.nodup.erase i
  · intro j hj
    have hlt := h.bound j ((hsta j).mp hj).2
    rw [hw]
    simpa using hlt
  · intro j k c hj hk
    rw [hcomp] at hj hk
    exact h.components j k c hj hk
  · intro j hj new hnew c hc
    obtain ⟨hji, hmem⟩ := (hsta j).mp hj
    rw [hw] at hnew
    simp only [List.getElem?_mapIdx] at hnew
    obtain ⟨old, hold, rfl⟩ := Option.map_eq_some_iff.mp hnew
    simp only [hcomp]
    by_cases hshi : old.preFocus = some entry.component
    · -- shown over the removed overlay: it is now over what that one was shown over
      rw [if_pos ⟨hmem, hji, hshi⟩] at hc
      have hij : i < j := (h.preFocus j hmem old hold _ hshi).2 i hci
      refine ⟨hpre c hc, fun k hk => ?_⟩
      exact Nat.lt_trans ((h.preFocus i hi entry he c hc).2 k hk) hij
    · rw [if_neg fun hall => hshi hall.2.2] at hc
      obtain ⟨hkeep, hlt⟩ := h.preFocus j hmem old hold c hc
      refine ⟨fun hr => ?_, hlt⟩
      obtain hr | rfl := hrem c hr
      · exact hkeep hr
      · exact hshi hc
  · intro j hj
    rw [hrest] at hj
    obtain rfl | ⟨rfl, hne⟩ := hres
    · simp at hj
    · refine (hsta j).mpr ⟨?_, h.overlay j hj⟩
      rintro rfl
      exact hne hj
  · intro c hc hr
    rw [hrest] at hc
    obtain rfl | ⟨rfl, hne⟩ := hres
    · simp [FocusRestore.target?] at hc
    · obtain hr | rfl := hrem c hr
      · exact h.target c hc hr
      · exact ht hne hc
  · intro c hc j
    rw [hrest] at hc
    rw [hcomp]
    obtain rfl | ⟨rfl, -⟩ := hres
    · simp [FocusRestore.blockedBy?] at hc
    · exact h.blockedBy c hc j
  · intro c
    rw [hw]
    exact h.flags c

theorem FocusInv.removeOverlay (h : s.FocusInv focusable) (he : s.entries[i]? = some entry)
    (hi : i ∈ s.overlayStack) (ht : s.overlayFocusRestore.overlay? ≠ some i →
      s.overlayFocusRestore.target? ≠ some entry.component) :
    (s.removeOverlay focusable env i entry).FocusInv focusable := by
  have hsane := h.sane.withoutOverlay he hi ht
  have hpre := h.sane.preFocus_withoutOverlay he hi
  have hfoc : (s.withoutOverlay i).focusedComponent = s.focusedComponent := by
    obtain ⟨restore, hw, -⟩ := withoutOverlay_eq he
    rw [hw]
  change (if (s.withoutOverlay i).focusedComponent = some entry.component then
    (s.withoutOverlay i).setFocus focusable env ((s.withoutOverlay i).topmostOr env entry.preFocus)
    else s.withoutOverlay i).FocusInv focusable
  split
  · exact hsane.setFocus (hsane.topmostOr hpre)
  · rename_i hoth
    refine ⟨hsane, fun c hc hr => ?_⟩
    obtain hr | rfl := removed_withoutOverlay h.sane he hr
    · exact h.focus c (hfoc ▸ hc) hr
    · exact hoth hc

end Removing

/-- A removal leaves no restore that resumes with the overlay removed. -/
def Removable (s : Focus κ) (i : ℕ) : Prop :=
  i ∈ s.overlayStack → s.overlayFocusRestore.overlay? ≠ some i →
    ∀ c ∈ s.overlayFocusRestore.target?, s.componentOf i ≠ some c

theorem FocusInv.hide (h : s.FocusInv focusable) (hr : s.Removable i) : (s.hide focusable env i).FocusInv focusable := by
  unfold Focus.hide
  cases he : s.entries[i]? with
  | none => exact h
  | some entry =>
    simp only
    split
    · rename_i hi
      refine h.removeOverlay he hi fun ho ht => ?_
      exact hr hi ho _ ht (componentOf_eq_some.mpr ⟨entry, he, rfl⟩)
    · exact h

theorem FocusInv.hideOverlay (h : s.FocusInv focusable) (hr : ∀ i ∈ s.overlayStack.getLast?, s.Removable i) :
    (s.hideOverlay focusable env).FocusInv focusable := by
  unfold Focus.hideOverlay
  cases hl : s.overlayStack.getLast? with
  | none => exact h
  | some i => exact h.hide (hr i hl)

/-! ### The other calls -/

/-- `setHidden` shows no overlay that has left the stack. -/
def Showable (s : Focus κ) (env : Surroundings κ) (i : ℕ) (hidden : Bool) : Prop :=
  i ∉ s.overlayStack → hidden = false → ∀ entry ∈ s.entries[i]?, entry.hidden = true →
    entry.nonCapturing = true ∨ env.visible i = false

section
variable (h : s.FocusInv focusable)
include h

theorem FocusInv.setHidden {hidden : Bool}
    (hs : s.Showable env i hidden) : (s.setHidden focusable env i hidden).FocusInv focusable := by
  unfold Focus.setHidden
  cases he : s.entries[i]? with
  | none => exact h
  | some entry =>
    simp only
    split
    · exact h
    · rename_i hcha
      have he' := getElem?_set_entry he { entry with hidden }
      have hset := h.set_entry he (b := { entry with hidden }) rfl rfl s.focusOrderCounter
      cases hidden with
      | true =>
        have hcle := hset.clearFor i
        simp only [if_true]
        split
        · rename_i hf
          have hstay := congrArg (·[i]?) (@clearFor_entries κ { s with
            entries := s.entries.set i { entry with hidden := true } } i)
          replace he' := hstay.trans he'
          have hi := hcle.mem_stack he' hf
          have hpre := hcle.sane.preFocus_not_removed hi he'
          exact hcle.sane.setFocus (hcle.sane.topmostOr hpre)
        · exact hcle
      | false =>
        simp only [Bool.false_eq_true, if_false]
        split
        · rename_i hshow
          simp only [Bool.and_eq_true, Bool.not_eq_true', isOverlayVisible, he', Option.any_some,
            Bool.not_false, Bool.true_and] at hshow
          -- the overlay is in the stack, so its component is not removed
          have hi : i ∈ s.overlayStack := by
            by_contra hi
            obtain hn | hv := hs hi rfl entry he (by simpa using hcha)
            · simp [hn] at hshow
            · simp [hv] at hshow
          have hmove := hset.set_entry he' (b := { entry with
            hidden := false, focusOrder := s.focusOrderCounter + 1 }) rfl rfl
            (s.focusOrderCounter + 1)
          refine hmove.sane.setFocus fun c hc => hmove.sane.not_removed hi ?_
          refine componentOf_eq_some.mpr ⟨_, getElem?_set_entry he' _, ?_⟩
          simpa using hc
        · exact hset

theorem FocusInv.focusOverlay (i : ℕ) : (s.focusOverlay focusable env i).FocusInv focusable := by
  unfold Focus.focusOverlay
  cases he : s.entries[i]? with
  | none => exact h
  | some entry =>
    simp only
    split
    · rename_i hi
      have hset := h.set_entry he (b := { entry with focusOrder := s.focusOrderCounter + 1 })
        rfl rfl (s.focusOrderCounter + 1)
      refine hset.sane.setFocus fun c hc => hset.sane.not_removed hi.1 ?_
      refine componentOf_eq_some.mpr ⟨_, getElem?_set_entry he _, ?_⟩
      simpa using hc
    · exact h

theorem FocusInv.unfocus (i : ℕ) {options : Option (Option κ)}
    (ho : ∀ target ∈ options, ∀ c ∈ target, ¬ s.Removed c) : (s.unfocus focusable env i options).FocusInv focusable := by
  unfold Focus.unfocus
  cases he : s.entries[i]? with
  | none => exact h
  | some entry =>
    simp only
    split
    · exact h
    · have hcle := h.clearFor i
      split
      · rename_i blockedBy target hb
        -- the restore stays blocked for this overlay and has another target
        have hr : ∃ resume, s.overlayFocusRestore = .blocked i blockedBy resume := by
          unfold blockedFor at hb
          split at hb
          · rename_i hr
            split at hb
            · rename_i hi
              cases hb
              exact ⟨_, hi.1 ▸ hr⟩
            · cases hb
          · cases hb
        obtain ⟨resume, hr⟩ := hr
        refine ⟨⟨h.sane.nodup, h.sane.bound, h.sane.components, h.sane.preFocus, ?_, ?_, ?_, h.sane.flags⟩, h.focus⟩
        · simpa [hr] using h.sane.overlay
        · exact ho target rfl
        · intro c hc
          refine h.sane.blockedBy c ?_
          rw [hr]
          exact hc
      · exact h.inactive
      · rename_i target _
        refine hcle.sane.setFocus fun c hc hr => ho target rfl c hc ?_
        exact (clearFor_removed i c).mp hr
      · split
        · rename_i hf
          rw [← clearFor_entries i] at he
          have hf' : (s.clearOverlayFocusRestoreFor i).focusedComponent = some entry.component := by
            rw [← hf]
            unfold clearOverlayFocusRestoreFor
            split <;> rfl
          have hi := hcle.mem_stack he hf'
          refine hcle.sane.setFocus fun c hc => ?_
          obtain hc | ⟨-, hc⟩ := Option.or_eq_some_iff.mp hc
          · obtain ⟨top, htop, hc⟩ := Option.bind_eq_some_iff.mp hc
            have htop := (Option.filter_eq_some_iff.mp htop).1
            exact hcle.sane.not_removed (topmost_mem htop).1 hc
          · exact hcle.sane.preFocus_not_removed hi he c hc
        · exact hcle

/-! ### Input -/

theorem FocusInv.leaveInvisible : (s.leaveInvisible focusable env).FocusInv focusable := by
  unfold Focus.leaveInvisible
  cases hf : s.findOverlay s.focusedComponent with
  | none => exact h
  | some i =>
    obtain ⟨hi, -, hc⟩ := findOverlay_eq_some hf
    simp only
    split
    · exact h
    · split
      · rename_i top htop
        exact h.sane.setFocus fun c hc => h.sane.not_removed (topmost_mem htop).1 hc
      · refine h.sane.setFocusInternal (fun c hc => ?_) false
        obtain ⟨entry, he, hp⟩ := Option.bind_eq_some_iff.mp hc
        exact h.sane.preFocus_not_removed hi he c hp

theorem FocusInv.restorePending : (s.restorePending focusable env).FocusInv focusable := by
  unfold Focus.restorePending
  split
  · exact h
  · have hkept : ∀ overlay ∈ (s.getVisibleOverlayFocusRestore env).overlay?,
        ∀ c ∈ s.componentOf overlay, ¬ s.Removed c := by
      intro overlay ho c hc
      obtain hv | ⟨hv, -⟩ := @visibleRestore_eq κ s env
      · rw [hv] at ho
        simp at ho
      · rw [hv] at ho
        exact h.sane.not_removed (h.sane.overlay overlay ho) hc
    split
    · exact h
    · rename_i overlay hv
      exact h.sane.setFocus (hkept overlay (by rw [hv]; rfl))
    · rename_i overlay blockedBy resume hv
      split
      · exact h
      · split
        · exact h.sane.setFocus (hkept overlay (by rw [hv]; rfl))
        · rename_i target
          refine h.sane.inactive.setFocus fun c hc => h.sane.target c ?_
          obtain hv' | ⟨hv', -⟩ := @visibleRestore_eq κ s env
          · rw [hv'] at hv
            cases hv
          · rw [← hv', hv]
            exact hc

theorem FocusInv.handleTerminalInput : (s.handleTerminalInput focusable env).FocusInv focusable :=
  h.leaveInvisible.restorePending

end

end Focus
end EasyPi.Tui
