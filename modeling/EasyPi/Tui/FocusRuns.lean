/-
# Focus along a run

The invariant holds in every state a run of the interface reaches. Input goes to no
invisible overlay when the one step from an invisible overlay to what it was shown
over does not lead to another one, and the target of a restore is not one either.
-/
import EasyPi.Tui.FocusCalls

namespace EasyPi.Tui

variable {κ : Type} {focusable : κ → Bool} {s : Focus κ} {env : Surroundings κ}

namespace Focus

/-! ### Input -/

theorem Sane.componentOf_isSome (h : s.Sane focusable) {i : ℕ} (hi : i ∈ s.overlayStack) :
    ∃ c, s.componentOf i = some c := by
  simp [componentOf, List.getElem?_eq_getElem (h.bound i hi)]

theorem Sane.visibleRestore (h : s.Sane focusable) {overlay : ℕ} (ho : s.overlayFocusRestore.overlay? = some overlay) :
    s.getVisibleOverlayFocusRestore env =
      if s.isOverlayVisible env overlay then s.overlayFocusRestore else .inactive := by
  simp [getVisibleOverlayFocusRestore, ho, h.overlay overlay ho]

/-- A component is in no overlay of the stack that is not visible. -/
def OnVisible (s : Focus κ) (env : Surroundings κ) (component : Option κ) : Prop :=
  ∀ i ∈ s.overlayStack, s.componentOf i = component → s.isOverlayVisible env i = true

theorem Sane.onVisible_overlay (h : s.Sane focusable) {i : ℕ} (hi : i ∈ s.overlayStack)
    (hv : s.isOverlayVisible env i) : s.OnVisible env (s.componentOf i) := by
  intro j hj hc
  obtain ⟨c, hic⟩ := h.componentOf_isSome hi
  rw [h.components j i c (hc.trans hic) hic]
  exact hv

variable [DecidableEq κ]

/-- Where focus is once it has left an overlay that is not visible. -/
def inputTarget (s : Focus κ) (env : Surroundings κ) : Option κ :=
  match s.findOverlay s.focusedComponent with
  | none => s.focusedComponent
  | some i =>
    if s.isOverlayVisible env i then s.focusedComponent
    else s.topmostOr env (s.entries[i]?.bind (·.preFocus))

/-- The step away from an invisible overlay does not lead to another one, and neither does the
target of the restore that would follow. -/
structure InputSound (s : Focus κ) (env : Surroundings κ) : Prop where
  leaves : s.OnVisible env (s.inputTarget env)
  resumes : ∀ overlay blockedBy target, s.overlayFocusRestore = .blocked overlay blockedBy (.focusTarget target) →
    s.isOverlayVisible env overlay → s.findOverlay (s.inputTarget env) = none →
    s.inputTarget env ≠ some blockedBy → s.OnVisible env target

theorem Sane.onVisible_none (h : s.Sane focusable) {comp : Option κ}
    (hf : s.findOverlay comp = none) : s.OnVisible env comp := by
  intro i hi hc
  obtain ⟨c, hic⟩ := h.componentOf_isSome hi
  rw [← hc, hic] at hf
  exact absurd hic (findOverlay_eq_none hf i hi)

theorem Sane.setFocus_overlay (h : s.Sane focusable) {i : ℕ} (hi : i ∈ s.overlayStack) :
    (s.setFocus focusable env (s.componentOf i)).focusedComponent = s.componentOf i := by
  obtain ⟨c, hc⟩ := h.componentOf_isSome hi
  have hf : (s.findOverlay (some c)).isSome := by
    by_contra hn
    exact findOverlay_eq_none (by simpa using hn) i hi hc
  simp [hc, Focus.setFocus, Focus.setFocusInternal, redirectFocus, hf]

theorem setFocus_inactive {comp : Option κ} (hr : s.overlayFocusRestore = .inactive) :
    (s.setFocus focusable env comp).focusedComponent = comp := by
  have hv : s.getVisibleOverlayFocusRestore env = .inactive := by
    simp [getVisibleOverlayFocusRestore, hr, FocusRestore.overlay?]
  cases comp with
  | none => simp [Focus.setFocus, Focus.setFocusInternal, redirectFocus, hv]
  | some c =>
    simp only [Focus.setFocus, Focus.setFocusInternal, redirectFocus, hv]
    split <;> rfl

theorem onVisible_setFocus {target comp : Option κ} :
    (s.setFocus focusable env target).OnVisible env comp ↔ s.OnVisible env comp :=
  Iff.rfl

/-- **The second part of input** leaves an invisible overlay with the focus only if it was there
already, or if the restore that is pending resumes with it. -/
theorem Sane.restorePending_onVisible (h : s.Sane focusable) : (s.restorePending focusable env).OnVisible env
        (s.restorePending focusable env).focusedComponent ↔
      s.OnVisible env s.focusedComponent ∧ ∀ overlay blockedBy target,
        s.overlayFocusRestore = .blocked overlay blockedBy (.focusTarget target) →
        s.isOverlayVisible env overlay → s.findOverlay s.focusedComponent = none →
        s.focusedComponent ≠ some blockedBy → s.OnVisible env target := by
  unfold Focus.restorePending
  cases hf : s.findOverlay s.focusedComponent with
  | some i => simp
  | none =>
    have hon : s.OnVisible env s.focusedComponent := h.onVisible_none hf
    have hto : ∀ overlay, s.overlayFocusRestore.overlay? = some overlay →
        s.isOverlayVisible env overlay → (s.setFocus focusable env (s.componentOf overlay)).OnVisible
          env (s.setFocus focusable env (s.componentOf overlay)).focusedComponent := by
      intro overlay ho hv
      have hi := h.overlay overlay ho
      rw [h.setFocus_overlay hi, onVisible_setFocus]
      exact h.onVisible_overlay hi hv
    simp only [Option.isSome_none, Bool.false_eq_true, if_false, hon, true_and, true_imp_iff]
    cases hr : s.overlayFocusRestore with
    | inactive =>
      have hv : s.getVisibleOverlayFocusRestore env = .inactive := by
        simp [getVisibleOverlayFocusRestore, hr, FocusRestore.overlay?]
      simpa [hv] using hon
    | eligible overlay =>
      have ho : s.overlayFocusRestore.overlay? = some overlay := by rw [hr]; rfl
      rw [h.visibleRestore ho, hr]
      by_cases hv : s.isOverlayVisible env overlay
      · simpa [hv] using hto overlay ho hv
      · simpa [hv] using hon
    | blocked overlay blockedBy resume =>
      have ho : s.overlayFocusRestore.overlay? = some overlay := by rw [hr]; rfl
      rw [h.visibleRestore ho, hr]
      by_cases hv : s.isOverlayVisible env overlay
      · simp only [hv, if_true]
        by_cases hb : s.focusedComponent = some blockedBy
        · simp only [hb, if_true]
          rw [hb] at hon
          refine iff_of_true hon ?_
          rintro _ _ target ⟨⟩ - hne
          exact absurd rfl hne
        · simp only [hb, if_false]
          cases resume with
          | restoreOverlay =>
            refine iff_of_true (hto overlay ho hv) ?_
            rintro _ _ target ⟨⟩
          | focusTarget target =>
            simp only [setFocus_inactive, onVisible_setFocus]
            constructor
            · rintro hon' _ _ _ ⟨⟩ - -
              exact hon'
            · intro hall
              exact hall overlay blockedBy target rfl hv hb
      · simp only [hv]
        refine iff_of_true hon ?_
        rintro _ _ target ⟨⟩ hv'
        exact absurd hv' hv

theorem Sane.redirect_invisible (h : s.Sane focusable) {i : ℕ}
    (hf : s.findOverlay s.focusedComponent = some i) (hv : ¬ s.isOverlayVisible env i)
    (comp : Option κ) : s.redirectFocus env comp false = (comp, s.overlayFocusRestore) := by
  obtain ⟨hi, -, hc⟩ := findOverlay_eq_some hf
  have hfv : s.findVisibleOverlay env s.focusedComponent = none := by
    cases hj : s.findVisibleOverlay env s.focusedComponent with
    | none => rfl
    | some j =>
      obtain ⟨hj, hcj, hvj⟩ := findVisibleOverlay_eq_some hj
      obtain ⟨c, hic⟩ := h.componentOf_isSome hi
      rw [h.components j i c (hcj.trans (hc.symm.trans hic)) hic] at hvj
      exact absurd hvj hv
  have hblo : ∀ overlay blockedBy resume, s.getVisibleOverlayFocusRestore env = .blocked overlay blockedBy resume →
      s.focusedComponent ≠ some blockedBy := by
    intro overlay blockedBy resume hr hb
    obtain hk | ⟨hk, -⟩ := @visibleRestore_eq κ s env
    · rw [hk] at hr
      cases hr
    · refine h.blockedBy blockedBy ?_ i (hc.trans hb)
      rw [← hk, hr]
      rfl
  unfold redirectFocus
  split
  · simp only [hfv, reduceCtorEq, decide_false, Bool.false_and, Bool.false_eq_true, if_false]
    split
    · rfl
    · split
      · rename_i hr
        rw [if_neg (hblo _ _ _ hr)]
      · rfl
      · rfl
  · rename_i hr
    rw [if_neg (hblo _ _ _ hr)]
    rfl
  · rfl

/-- **The first part of input** moves the focus to where it is due, and leaves the restore as it is
unless an overlay has the focus. -/
theorem FocusInv.leaveInvisible_eq (h : s.FocusInv focusable) :
    (s.leaveInvisible focusable env).focusedComponent = s.inputTarget env ∧
      ((s.leaveInvisible focusable env).overlayFocusRestore = s.overlayFocusRestore ∨
        (s.findOverlay (s.inputTarget env)).isSome) ∧ (s.leaveInvisible focusable env).entries = s.entries ∧
      (s.leaveInvisible focusable env).overlayStack = s.overlayStack := by
  unfold Focus.leaveInvisible inputTarget
  cases hf : s.findOverlay s.focusedComponent with
  | none => simp
  | some i =>
    obtain ⟨hi, hsome, hc⟩ := findOverlay_eq_some hf
    obtain ⟨c, hc'⟩ := Option.isSome_iff_exists.mp hsome
    simp only
    by_cases hv : s.isOverlayVisible env i
    · simp [hv]
    · simp only [hv, Bool.false_eq_true, if_false]
      cases htop : s.getTopmostVisibleOverlay env with
      | some top =>
        obtain ⟨hmem, -⟩ := topmost_mem htop
        obtain ⟨d, hd⟩ := h.sane.componentOf_isSome hmem
        have hto : s.topmostOr env (s.entries[i]?.bind (·.preFocus)) = s.componentOf top := by
          simp [topmostOr, htop, hd]
        refine ⟨?_, .inr ?_, rfl, rfl⟩
        · rw [hto]
          exact h.sane.setFocus_overlay hmem
        · rw [hto, hd]
          by_contra hn
          exact findOverlay_eq_none (by simpa using hn) top hmem hd
      | none =>
        have hto : s.topmostOr env (s.entries[i]?.bind (·.preFocus)) = s.entries[i]?.bind (·.preFocus) := by
          simp [topmostOr, htop]
        rw [hto]
        have hred := h.sane.redirect_invisible hf hv (s.entries[i]?.bind (·.preFocus))
        simp only [Focus.setFocusInternal, hred]
        refine ⟨trivial, ?_, trivial, trivial⟩
        split
        · rename_i j hj
          obtain ⟨hj, hcj, -⟩ := findVisibleOverlay_eq_some hj
          obtain ⟨d, hd⟩ := h.sane.componentOf_isSome hj
          refine .inr ?_
          rw [← hcj, hd]
          by_contra hn
          exact findOverlay_eq_none (by simpa using hn) j hj hd
        · exact .inl rfl

/-- **Input reaches an invisible overlay** exactly when the step away from one leads to another,
or when the restore that follows does. -/
theorem FocusInv.handleTerminalInput_onVisible (h : s.FocusInv focusable) :
    (s.handleTerminalInput focusable env).OnVisible env
      (s.handleTerminalInput focusable env).focusedComponent ↔ s.InputSound env := by
  obtain ⟨hfoc, hres, hents, hsta⟩ := @FocusInv.leaveInvisible_eq _ focusable s env _ h
  have hsame : ∀ comp, (s.leaveInvisible focusable env).OnVisible env comp ↔ s.OnVisible env comp := by
    intro comp
    simp only [OnVisible, componentOf, isOverlayVisible, hents, hsta]
  have hfind : ∀ comp, (s.leaveInvisible focusable env).findOverlay comp = s.findOverlay comp := by
    intro comp
    simp only [findOverlay, componentOf, hents, hsta]
    rfl
  have hvis : ∀ i, (s.leaveInvisible focusable env).isOverlayVisible env i = s.isOverlayVisible env i := by
    intro i
    simp only [isOverlayVisible, hents]
  rw [Focus.handleTerminalInput, h.leaveInvisible.sane.restorePending_onVisible]
  simp only [hfoc, hsame, hfind, hvis]
  obtain hkeep | hsome := hres
  · rw [hkeep]
    exact ⟨fun hall => ⟨hall.1, hall.2⟩, fun hall => ⟨hall.leaves, hall.resumes⟩⟩
  · have hne : s.findOverlay (s.inputTarget env) ≠ none := by
      intro hn
      simp [hn] at hsome
    exact ⟨fun hall => ⟨hall.1, fun _ _ _ _ _ hn => absurd hn hne⟩,
      fun hall => ⟨hall.leaves, fun _ _ _ _ _ hn => absurd hn hne⟩⟩

end Focus

/-! ### Runs -/

/-- What the callers promise: overlays are made of fresh components, and focus is sent to no
removed overlay. -/
def FocusOp.Allowed (s : Focus κ) : FocusOp κ → Prop
  | .showOverlay _ component _ => s.Fresh component
  | .unfocus _ _ options => ∀ target ∈ options, ∀ c ∈ target, ¬ s.Removed c
  | .setFocus _ component => ∀ c ∈ component, ¬ s.Removed c
  | .hide .. | .setHidden .. | .focus .. | .hideOverlay _ | .input _ => True

/-- The handle of a removed overlay does not show it again, and no overlay is removed that a
pending restore resumes with. -/
def FocusOp.Sound (s : Focus κ) : FocusOp κ → Prop
  | .hide _ i => s.Removable i
  | .hideOverlay _ => ∀ i ∈ s.overlayStack.getLast?, s.Removable i
  | .setHidden env i hidden => s.Showable env i hidden
  | .showOverlay .. | .focus .. | .unfocus .. | .setFocus .. | .input _ => True

theorem Focus.FocusInv.init : ({} : Focus κ).FocusInv focusable := by
  refine ⟨⟨List.nodup_nil, ?_, ?_, ?_, ?_, ?_, ?_, ?_⟩, ?_⟩ <;>
    simp [componentOf, FocusRestore.overlay?, FocusRestore.target?, FocusRestore.blockedBy?]

variable [DecidableEq κ]

instance (s : Focus κ) (c : κ) : Decidable (s.Removed c) :=
  decidable_of_iff (∃ i ∈ List.range s.entries.length, s.componentOf i = some c ∧
    i ∉ s.overlayStack) ⟨fun ⟨i, _, hi⟩ => ⟨i, hi⟩, fun ⟨i, hi⟩ => ⟨i, by
      obtain ⟨entry, he, -⟩ := Focus.componentOf_eq_some.mp hi.1
      exact List.mem_range.mpr (List.getElem?_eq_some_iff.mp he).1, hi⟩⟩

instance (s : Focus κ) : ∀ op : FocusOp κ, Decidable (op.Allowed s)
  | .showOverlay _ component _ => inferInstanceAs (Decidable ((∀ entry ∈ s.entries,
      entry.component ≠ component ∧ entry.preFocus ≠ some component) ∧ _ ∧ _ ∧ _))
  | .unfocus _ _ options =>
    inferInstanceAs (Decidable (∀ target ∈ options, ∀ c ∈ target, ¬ s.Removed c))
  | .setFocus _ component => inferInstanceAs (Decidable (∀ c ∈ component, ¬ s.Removed c))
  | .hide .. | .setHidden .. | .focus .. | .hideOverlay _ | .input _ => .isTrue trivial

instance (s : Focus κ) (i : ℕ) : Decidable (s.Removable i) :=
  inferInstanceAs (Decidable (i ∈ s.overlayStack → s.overlayFocusRestore.overlay? ≠ some i →
    ∀ c ∈ s.overlayFocusRestore.target?, s.componentOf i ≠ some c))

instance (s : Focus κ) : ∀ op : FocusOp κ, Decidable (op.Sound s)
  | .hide _ i => inferInstanceAs (Decidable (s.Removable i))
  | .hideOverlay _ => inferInstanceAs (Decidable (∀ i ∈ s.overlayStack.getLast?, s.Removable i))
  | .setHidden env i hidden => inferInstanceAs (Decidable (i ∉ s.overlayStack → hidden = false →
      ∀ entry ∈ s.entries[i]?, entry.hidden = true → entry.nonCapturing = true ∨ env.visible i = false))
  | .showOverlay .. | .focus .. | .unfocus .. | .setFocus .. | .input _ => .isTrue trivial

theorem Focus.FocusInv.step (h : s.FocusInv focusable) {op : FocusOp κ} (ha : op.Allowed s)
    (hs : op.Sound s) : (s.step focusable op).FocusInv focusable := by
  cases op with
  | showOverlay env comp nonCapturing => exact h.showOverlay ha nonCapturing
  | hide env i => exact h.hide hs
  | setHidden env i hidden => exact h.setHidden hs
  | focus env i => exact h.focusOverlay i
  | unfocus env i options => exact h.unfocus i ha
  | hideOverlay env => exact h.hideOverlay hs
  | setFocus env comp => exact h.sane.setFocus ha
  | input env => exact h.handleTerminalInput

/-- **Focus never dangles.** After every run whose calls are allowed and sound, focus is not on a
removed overlay, the component that has it is the only one told so, and input goes to no
invisible overlay unless the one step away from an invisible overlay leads to another. -/
theorem focus_never_dangles (focusable : κ → Bool) (ops : List (FocusOp κ))
    (h : Along (Focus.step focusable) (fun s op => op.Allowed s ∧ op.Sound s) {} ops) :
    let s := ops.foldl (Focus.step focusable) {}
    (∀ c ∈ s.focusedComponent, ¬ s.Removed c) ∧
      (∀ c ∈ s.focusedComponent, focusable c → ∀ d, s.focused d = true ↔ d = c) ∧
      ∀ env, s.InputSound env ↔ (s.handleTerminalInput focusable env).OnVisible env
        (s.handleTerminalInput focusable env).focusedComponent := by
  have hinv : (ops.foldl (Focus.step focusable) {}).FocusInv focusable :=
    Along.invariant (fun s op hs hop => hs.step hop.1 hop.2) Focus.FocusInv.init h
  refine ⟨hinv.focus, fun c hc hf d => ?_, fun env => hinv.handleTerminalInput_onVisible.symm⟩
  rw [hinv.sane.flags, hc, Option.some_inj]
  constructor
  · rintro ⟨rfl, -⟩
    rfl
  · rintro rfl
    exact ⟨rfl, hf⟩

namespace Reshown

/-- Every overlay is visible and every component mounted. -/
def everything : Surroundings ℕ := ⟨fun _ => true, fun _ => true⟩

/-- An overlay over a focused component, taken away and handled again by what is left of it. -/
def calls : List (FocusOp ℕ) :=
  [.setFocus everything (some 7), .showOverlay everything 0 false, .showOverlay everything 1 false,
    .hide everything 0, .unfocus everything 1 none, .input everything]

theorem calls_focus :
    let s := calls.foldl (Focus.step fun _ => true) {}
    s.focusedComponent = some 7 ∧ (∀ c ∈ s.focusedComponent, ¬ s.Removed c) ∧ (∀ d, s.focused d = true ↔ d = 7) ∧
      (s.handleTerminalInput (fun _ => true) everything).OnVisible everything
        (s.handleTerminalInput (fun _ => true) everything).focusedComponent := by
  have hrun : Along (Focus.step fun _ => true) (fun s op => op.Allowed s ∧ op.Sound s) {} calls := by
    decide
  have hfoc : (calls.foldl (Focus.step fun _ => true) {}).focusedComponent = some 7 := by
    decide
  obtain ⟨hgone, hfla, hinput⟩ := focus_never_dangles (fun _ => true) calls hrun
  refine ⟨hfoc, hgone, hfla 7 hfoc rfl, (hinput everything).mp ⟨?_, fun _ _ _ hres => ?_⟩⟩
  · unfold Focus.OnVisible
    decide
  · have hnone : (calls.foldl (Focus.step fun _ => true) {}).overlayFocusRestore = .inactive := rfl
    rw [hnone] at hres
    cases hres

/-- **The handle of a removed overlay brings it back to the focus** when it hides the overlay and
shows it again. -/
theorem reshown_has_focus :
    let ops : List (FocusOp ℕ) := [.showOverlay everything 0 false, .hide everything 0,
      .setHidden everything 0 true, .setHidden everything 0 false]
    let s := ops.foldl (Focus.step fun _ => true) {}
    Along (Focus.step fun _ => true) (fun s op => op.Allowed s) {} ops ∧ ∃ c ∈ s.focusedComponent, s.Removed c := by
  exact ⟨by decide, 0, by decide, by decide⟩

end Reshown

end EasyPi.Tui
