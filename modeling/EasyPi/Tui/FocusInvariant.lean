/-
# Where focus can be

Focus moves to a component that a call names, to the component of an overlay of
the stack, to what an overlay was shown over, or to the target a blocked restore
resumes with. The invariant says that none of these is the component of an overlay
that has left the stack. What an overlay was shown over only refers to overlays
made before it, so that removing overlays never makes the references go round.
-/
import EasyPi.Tui.Focus

namespace EasyPi.Tui

variable {κ : Type} {focusable : κ → Bool} {s : Focus κ} {env : Surroundings κ}

namespace Focus

/-- The component of an overlay that has left the stack. -/
def Removed (s : Focus κ) (component : κ) : Prop := ∃ i, s.componentOf i = some component ∧ i ∉ s.overlayStack

/-- The entries fit together, and nothing that focus can move to is removed. -/
structure Sane (focusable : κ → Bool) (s : Focus κ) : Prop where
  nodup : s.overlayStack.Nodup
  bound : ∀ i ∈ s.overlayStack, i < s.entries.length
  components : ∀ i j c, s.componentOf i = some c → s.componentOf j = some c → i = j
  preFocus : ∀ i ∈ s.overlayStack, ∀ entry, s.entries[i]? = some entry → ∀ c ∈ entry.preFocus,
    ¬ s.Removed c ∧ ∀ j, s.componentOf j = some c → j < i
  overlay : ∀ i ∈ s.overlayFocusRestore.overlay?, i ∈ s.overlayStack
  target : ∀ c ∈ s.overlayFocusRestore.target?, ¬ s.Removed c
  blockedBy : ∀ c ∈ s.overlayFocusRestore.blockedBy?, ∀ i, s.componentOf i ≠ some c
  flags : ∀ c, s.focused c = true ↔ s.focusedComponent = some c ∧ focusable c = true

/-- Focus is not on a removed overlay. -/
structure FocusInv (focusable : κ → Bool) (s : Focus κ) : Prop where
  sane : s.Sane focusable
  focus : ∀ c ∈ s.focusedComponent, ¬ s.Removed c

/-! ### Lookups -/

variable {i : ℕ}

attribute [local simp] FocusRestore.overlay? FocusRestore.target? FocusRestore.blockedBy?

theorem componentOf_eq_some {c : κ} :
    s.componentOf i = some c ↔ ∃ entry, s.entries[i]? = some entry ∧ entry.component = c := by
  simp [componentOf, Option.map_eq_some_iff]

theorem Sane.not_removed (h : s.Sane focusable) (hi : i ∈ s.overlayStack) {c : κ}
    (hc : s.componentOf i = some c) : ¬ s.Removed c := by
  rintro ⟨j, hj, hs⟩
  rw [h.components j i c hj hc] at hs
  exact hs hi

theorem visibleRestore_eq : s.getVisibleOverlayFocusRestore env = .inactive ∨
    (s.getVisibleOverlayFocusRestore env = s.overlayFocusRestore ∧
      ∃ i ∈ s.overlayStack, s.overlayFocusRestore.overlay? = some i ∧ s.isOverlayVisible env i) := by
  unfold getVisibleOverlayFocusRestore
  cases ho : s.overlayFocusRestore.overlay? with
  | none => exact .inl rfl
  | some overlay =>
    by_cases hc : overlay ∈ s.overlayStack ∧ s.isOverlayVisible env overlay
    · exact .inr ⟨by simp [hc], overlay, hc.1, rfl, hc.2⟩
    · exact .inl (by simp [hc])

theorem frontmost_mem {topmost : Option ℕ} {stack : List ℕ}
    (htop : ∀ i ∈ topmost, i ∈ s.overlayStack ∧ s.isOverlayVisible env i) (hsta : ∀ i ∈ stack, i ∈ s.overlayStack) :
    ∀ i ∈ stack.foldl (s.frontmost env) topmost, i ∈ s.overlayStack ∧ s.isOverlayVisible env i := by
  induction stack generalizing topmost with
  | nil => exact htop
  | cons j stack ih =>
    refine ih ?_ fun i hi => hsta i (List.mem_cons_of_mem j hi)
    intro i hi
    have hj := hsta j List.mem_cons_self
    unfold frontmost at hi
    split at hi
    · exact htop i hi
    · split at hi
      · exact htop i hi
      · rename_i hnot
        simp only [not_or, Bool.not_eq_false] at hnot
        split at hi
        · cases hi
          exact ⟨hj, hnot.2⟩
        · split at hi
          · cases hi
            exact ⟨hj, hnot.2⟩
          · exact htop i hi

theorem topmost_mem (h : s.getTopmostVisibleOverlay env = some i) : i ∈ s.overlayStack ∧ s.isOverlayVisible env i :=
  frontmost_mem (by simp) (fun _ hi => hi) i h

/-- What a move of the focus may leave behind. -/
structure Moves (s : Focus κ) (next : Option κ × FocusRestore κ) : Prop where
  focus : ∀ c ∈ next.1, ¬ s.Removed c
  overlay : ∀ i ∈ next.2.overlay?, i ∈ s.overlayStack
  target : ∀ c ∈ next.2.target?, ¬ s.Removed c
  blockedBy : ∀ c ∈ next.2.blockedBy?, ∀ i, s.componentOf i ≠ some c

theorem Sane.moves (h : s.Sane focusable) {component : Option κ}
    (hc : ∀ c ∈ component, ¬ s.Removed c) : s.Moves (component, s.overlayFocusRestore) :=
  ⟨hc, h.overlay, h.target, h.blockedBy⟩

theorem moves_inactive {component : Option κ} (hc : ∀ c ∈ component, ¬ s.Removed c) : s.Moves (component, .inactive) :=
  ⟨hc, by simp, by simp, by simp⟩

theorem Sane.moves_resolve (h : s.Sane focusable) {overlay : ℕ} {blockedBy : κ} {resume : Resume κ}
    (hr : s.overlayFocusRestore = .blocked overlay blockedBy resume) : s.Moves (s.resolveBlocked overlay resume) := by
  have ho : overlay ∈ s.overlayStack := h.overlay overlay (by rw [hr]; rfl)
  cases resume with
  | restoreOverlay => exact h.moves fun c hc => h.not_removed ho hc
  | focusTarget target =>
    refine moves_inactive fun c hc => h.target c ?_
    rw [hr]
    exact hc

theorem Sane.topmostOr (h : s.Sane focusable) {fallback : Option κ}
    (hf : ∀ c ∈ fallback, ¬ s.Removed c) : ∀ c ∈ s.topmostOr env fallback, ¬ s.Removed c := by
  intro c hc
  unfold Focus.topmostOr at hc
  cases ht : (s.getTopmostVisibleOverlay env).bind s.componentOf with
  | none =>
    rw [ht] at hc
    exact hf c hc
  | some top =>
    rw [ht] at hc
    obtain rfl : top = c := by simpa using hc
    obtain ⟨i, hi, hci⟩ := Option.bind_eq_some_iff.mp ht
    exact h.not_removed (topmost_mem hi).1 hci

theorem Sane.of_entries (h : s.Sane focusable) {entries : List (OverlayEntry κ)}
    (he : ∀ i : ℕ, entries[i]?.map (fun entry => (entry.component, entry.preFocus)) =
      s.entries[i]?.map fun entry => (entry.component, entry.preFocus)) (order : ℕ) :
    ({ s with entries, focusOrderCounter := order } : Focus κ).Sane focusable := by
  set t : Focus κ := { s with entries, focusOrderCounter := order } with ht
  have hcomp : ∀ i, t.componentOf i = s.componentOf i := by
    intro i
    have := congrArg (Option.map Prod.fst) (he i)
    simpa [componentOf, ht, Function.comp_def] using this
  have hrem : ∀ c, t.Removed c ↔ s.Removed c := by
    intro c
    simp only [Removed, hcomp]
    rfl
  refine ⟨h.nodup, ?_, ?_, ?_, h.overlay, ?_, ?_, h.flags⟩
  · intro i hi
    have hlt : i < s.entries.length := h.bound i hi
    have := he i
    rw [List.getElem?_eq_getElem hlt] at this
    by_contra hge
    rw [List.getElem?_eq_none (by simpa [ht] using hge)] at this
    simp at this
  · intro i j c hi hj
    exact h.components i j c (hcomp i ▸ hi) (hcomp j ▸ hj)
  · intro i hi entry hent c hc
    have := he i
    rw [show entries[i]? = some entry from hent] at this
    obtain ⟨old, hold, hpair⟩ := Option.map_eq_some_iff.mp this.symm
    simp only [Prod.mk.injEq] at hpair
    obtain ⟨hr, hlt⟩ := h.preFocus i hi old hold c (hpair.2 ▸ hc)
    exact ⟨fun hr' => hr ((hrem c).mp hr'), fun j hj => hlt j (hcomp j ▸ hj)⟩
  · intro c hc hr
    exact h.target c hc ((hrem c).mp hr)
  · intro c hc i hi
    exact h.blockedBy c hc i (hcomp i ▸ hi)

variable [DecidableEq κ]

theorem findOverlay_eq_some {component : Option κ} (h : s.findOverlay component = some i) :
    i ∈ s.overlayStack ∧ component.isSome ∧ s.componentOf i = component := by
  have hp := List.find?_some h
  simp only [Bool.and_eq_true, decide_eq_true_eq] at hp
  exact ⟨List.mem_of_find?_eq_some h, hp⟩

theorem findOverlay_eq_none {c : κ} (h : s.findOverlay (some c) = none) :
    ∀ i ∈ s.overlayStack, s.componentOf i ≠ some c := by
  intro i hi
  have hp := List.find?_eq_none.mp h i hi
  simpa using hp

theorem findVisibleOverlay_eq_some {component : Option κ} (h : s.findVisibleOverlay env component = some i) :
    i ∈ s.overlayStack ∧ s.componentOf i = component ∧ s.isOverlayVisible env i := by
  have hp := List.find?_some h
  simp only [Bool.and_eq_true, decide_eq_true_eq] at hp
  exact ⟨List.mem_of_find?_eq_some h, hp.1.2, hp.2⟩

theorem not_component {c : κ} (h : s.findOverlay (some c) = none) (hr : ¬ s.Removed c) :
    ∀ i, s.componentOf i ≠ some c := by
  intro i hi
  by_cases hs : i ∈ s.overlayStack
  · exact findOverlay_eq_none h i hs hi
  · exact hr ⟨i, hi, hs⟩

theorem setFocused_apply (focused : κ → Bool) (component : Option κ) (value : Bool) (c : κ) :
    setFocused focusable focused component value c = if component = some c ∧ focusable c then value else focused c := by
  unfold setFocused
  cases component with
  | none => simp
  | some d =>
    by_cases hcd : d = c
    · subst hcd
      by_cases hf : focusable d <;> simp [hf]
    · by_cases hf : focusable d
      · simp [hf, hcd, Function.update_of_ne (Ne.symm hcd)]
      · simp [hf, hcd]

/-! ### Moving the focus -/

theorem moves_blocked {overlay : ℕ} (ho : overlay ∈ s.overlayStack) {next : κ}
    (hf : s.findOverlay (some next) = none) (hr : ¬ s.Removed next) :
    s.Moves (some next, .blocked overlay next .restoreOverlay) := by
  refine ⟨by simpa using hr, ?_, by simp, ?_⟩
  · simpa using ho
  · simpa using not_component hf hr

theorem Sane.moves_redirect (h : s.Sane focusable) {component : Option κ}
    (hc : ∀ c ∈ component, ¬ s.Removed c) (clear : Bool) : s.Moves (s.redirectFocus env component clear) := by
  have hres := @visibleRestore_eq κ s env
  have hcle : s.Moves (none, if clear then .inactive else s.overlayFocusRestore) := by
    cases clear with
    | true => exact moves_inactive (by simp)
    | false => exact h.moves (by simp)
  cases component with
  | none =>
    cases hv : s.getVisibleOverlayFocusRestore env with
    | inactive | eligible overlay => simpa [redirectFocus, hv] using hcle
    | blocked overlay blockedBy resume =>
      obtain hi | ⟨hk, -⟩ := hres
      · rw [hv] at hi
        cases hi
      · simp only [redirectFocus, hv]
        split
        · exact h.moves_resolve (hk.symm.trans hv)
        · exact hcle
  | some next =>
    have hr : ¬ s.Removed next := hc next rfl
    have hkeep := h.moves hc
    simp only [redirectFocus]
    cases hf : s.findOverlay (some next) with
    | some i => simpa using hkeep
    | none =>
      simp only [Option.isSome_none, Bool.false_eq_true, if_false]
      cases hv : s.getVisibleOverlayFocusRestore env with
      | inactive => exact hkeep
      | eligible overlay =>
        obtain hi | ⟨hk, -⟩ := hres
        · rw [hv] at hi
          cases hi
        · have ho : overlay ∈ s.overlayStack := h.overlay overlay (by rw [← hk, hv]; rfl)
          simp only
          split
          · exact moves_blocked ho hf hr
          · exact hkeep
      | blocked overlay blockedBy resume =>
        obtain hi | ⟨hk, -⟩ := hres
        · rw [hv] at hi
          cases hi
        · have hb := hk.symm.trans hv
          have ho : overlay ∈ s.overlayStack := h.overlay overlay (by rw [hb]; rfl)
          simp only
          split
          · cases resume with
            | focusTarget target => exact h.moves_resolve hb
            | restoreOverlay =>
              simp only
              split
              · exact moves_blocked ho hf hr
              · exact h.moves_resolve hb
          · split
            · exact moves_blocked ho hf hr
            · exact hkeep

/-- **Moving the focus to a component that is not removed keeps it off removed overlays.** The
focus before the move may be on a removed one. -/
theorem Sane.setFocusInternal (h : s.Sane focusable) {component : Option κ}
    (hc : ∀ c ∈ component, ¬ s.Removed c) (clear : Bool) :
    (s.setFocusInternal focusable env component clear).FocusInv focusable := by
  have hm := @Sane.moves_redirect _ _ _ env _ h _ hc clear
  unfold Focus.setFocusInternal
  generalize s.redirectFocus env component clear = next at hm
  obtain ⟨nextFocus, restore⟩ := next
  refine ⟨⟨h.nodup, h.bound, h.components, h.preFocus, ?_, ?_, ?_, ?_⟩, hm.focus⟩
  · intro i hi
    simp only at hi
    split at hi
    · rename_i overlay ho
      obtain rfl : i = overlay := by simpa using hi.symm
      exact (findVisibleOverlay_eq_some ho).1
    · exact hm.overlay i hi
  · intro c hc
    simp only at hc
    split at hc
    · simp at hc
    · exact hm.target c hc
  · intro c hc
    simp only at hc
    split at hc
    · simp at hc
    · exact hm.blockedBy c hc
  · intro c
    have hflag := h.flags c
    simp only [setFocused_apply]
    by_cases hn : nextFocus = some c ∧ focusable c
    · simp [hn]
    · rw [if_neg hn]
      simp only [hn, iff_false, Bool.not_eq_true]
      split
      · rfl
      · rename_i hp
        rwa [Bool.eq_false_iff, ne_eq, hflag]

theorem Sane.setFocus (h : s.Sane focusable) {component : Option κ} (hc : ∀ c ∈ component, ¬ s.Removed c) :
    (s.setFocus focusable env component).FocusInv focusable :=
  h.setFocusInternal hc true

end Focus
end EasyPi.Tui
