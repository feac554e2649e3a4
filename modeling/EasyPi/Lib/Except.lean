/-
# Computations that may fail

How a computation in `Except`, alone or over a state, splits at its binds: a
bind succeeds exactly when both parts do, and a list is mapped successfully
exactly when each element is. A failure drops the state, or keeps what was
written before it (`run_bind`). A computation that may also not return does so
when one of its parts does not (`run_bind_eq_some`). Proofs about do blocks use
these and do not unfold the monad.
-/
import Mathlib.Data.List.Forall2

namespace EasyPi

open List

section Except

variable {ε α β : Type}

theorem bind_ok_iff {x : Except ε α} {f : α → Except ε β} {b : β} : (x >>= f) = .ok b ↔ ∃ a, x = .ok a ∧ f a = .ok b := by
  cases x with
  | ok a =>
    constructor
    · exact fun h => ⟨a, rfl, h⟩
    · rintro ⟨_, ⟨⟩, h⟩
      exact h
  | error e =>
    constructor
    · intro h
      cases h
    · rintro ⟨_, ⟨⟩, _⟩

theorem pure_ok_iff {a b : α} : (pure a : Except ε α) = .ok b ↔ a = b := ⟨fun h => Except.ok.inj h, fun h => h ▸ rfl⟩

theorem except_ok_of_toBool {x : Except ε α} (h : x.toBool = true) : ∃ a, x = .ok a := by
  cases x with
  | ok a => exact ⟨a, rfl⟩
  | error e => exact Bool.noConfusion h

theorem ite_ok_iff {c : Prop} [Decidable c] {x y : Except ε α} {b : α} :
    (if c then x else y) = .ok b ↔ (c ∧ x = .ok b) ∨ (¬ c ∧ y = .ok b) := by
  by_cases h : c <;> simp [h]

/-- `if (bad) throw error`. -/
def failIf (bad : Prop) [Decidable bad] (error : ε) : Except ε Unit := if bad then .error error else .ok ()

theorem failIf_eq_ok {bad : Prop} [Decidable bad] {error : ε} {u : Unit} : failIf bad error = .ok u ↔ ¬ bad := by
  rw [failIf]
  by_cases h : bad <;> simp [h]

theorem failIf_bind {bad : Prop} [Decidable bad] {error : ε} (h : ¬ bad) (f : Unit → Except ε α) :
    (failIf bad error >>= f) = f () := by
  rw [failIf, if_neg h]
  rfl

theorem mapM_eq_ok {f : α → Except ε β} {l : List α} {r : List β} :
    l.mapM f = .ok r ↔ List.Forall₂ (fun a b => f a = .ok b) l r := by
  induction l generalizing r with
  | nil =>
    rw [mapM_nil, forall₂_nil_left_iff]
    exact ⟨fun h => (Except.ok.inj h).symm, fun h => h ▸ rfl⟩
  | cons a l ih =>
    rw [mapM_cons, forall₂_cons_left_iff, bind_ok_iff]
    constructor
    · rintro ⟨b, hb, h⟩
      obtain ⟨r, hr, h⟩ := bind_ok_iff.mp h
      exact ⟨b, r, hb, ih.mp hr, (Except.ok.inj h).symm⟩
    · rintro ⟨b, r, hb, hr, rfl⟩
      exact ⟨b, hb, bind_ok_iff.mpr ⟨r, ih.mpr hr, rfl⟩⟩

theorem except_forM_eq_ok {f : α → Except ε Unit} {l : List α} {u : Unit} : l.forM f = .ok u ↔ ∀ a ∈ l, f a = .ok u := by
  induction l with
  | nil => exact ⟨fun _ _ h => absurd h not_mem_nil, fun _ => rfl⟩
  | cons a l ih =>
    change (f a >>= fun _ => l.forM f) = .ok u ↔ _
    rw [bind_ok_iff, forall_mem_cons]
    constructor
    · rintro ⟨_, ha, hl⟩
      exact ⟨ha, ih.mp hl⟩
    · rintro ⟨ha, hl⟩
      exact ⟨_, ha, ih.mpr hl⟩

theorem foldlM_ok_of_mem {f : β → α → Except ε β} {l : List α} {b b' : β}
    (h : l.foldlM f b = .ok b') {a : α} (ha : a ∈ l) : ∃ c c', f c a = .ok c' := by
  induction l generalizing b with
  | nil => cases ha
  | cons x l ih =>
    rw [foldlM_cons, bind_ok_iff] at h
    obtain ⟨c, hc, h⟩ := h
    rcases mem_cons.mp ha with rfl | ha
    · exact ⟨b, c, hc⟩
    · exact ih h ha

end Except

section State

variable {σ ε α β : Type} {s s' : σ} {x : StateT σ (Except ε) α} {f : α → StateT σ (Except ε) β}

theorem run_bind_ok {a : α} (h : x.run s = .ok (a, s')) : (x >>= f).run s = (f a).run s' := by
  rw [StateT.run_bind, h]
  rfl

theorem run_bind_error {e : ε} (h : x.run s = .error e) : (x >>= f).run s = .error e := by
  rw [StateT.run_bind, h]
  rfl

theorem run_bind_eq_ok {b : β} :
    (x >>= f).run s = .ok (b, s') ↔ ∃ a s₁, x.run s = .ok (a, s₁) ∧ (f a).run s₁ = .ok (b, s') := by
  rw [StateT.run_bind]
  cases hx : x.run s with
  | error e => simp [bind, Except.bind]
  | ok p =>
    obtain ⟨a, s₁⟩ := p
    simp [bind, Except.bind]

theorem run_get_bind {f : σ → StateT σ (Except ε) β} : (get >>= f).run s = (f s).run s := rfl

theorem run_modify_bind {g : σ → σ} {f : Unit → StateT σ (Except ε) β} :
    (modify g >>= f).run s = (f ()).run (g s) := rfl

theorem forM_cons (f : α → StateT σ (Except ε) PUnit) (a : α) (as : List α) :
    (a :: as).forM f = f a >>= fun _ => as.forM f := rfl

theorem forM_map (f : β → StateT σ (Except ε) PUnit) (g : α → β) (l : List α) :
    (l.map g).forM f = l.forM fun c => f (g c) := by
  induction l with
  | nil => rfl
  | cons c l ih => rw [map_cons, forM_cons, forM_cons, ih]

end State

section Kept

variable {σ ε α β : Type} (s : σ)

theorem run_get (f : σ → ExceptT ε (StateM σ) α) : ExceptT.run (get >>= f) s = ExceptT.run (f s) s := rfl

theorem run_bind (x : ExceptT ε (StateM σ) α) (f : α → ExceptT ε (StateM σ) β) :
    ExceptT.run (x >>= f) s = match ExceptT.run x s with
      | (.ok a, s') => ExceptT.run (f a) s'
      | (.error error, s') => (.error error, s') := by
  change StateT.run (ExceptT.run (x >>= f)) s = match StateT.run (ExceptT.run x) s with
    | (.ok a, s') => ExceptT.run (f a) s'
    | (.error error, s') => (.error error, s')
  rw [ExceptT.run_bind, StateT.run_bind]
  rcases StateT.run (ExceptT.run x) s with ⟨_ | a, s'⟩ <;> rfl

theorem run_throw (e : ε) (f : α → ExceptT ε (StateM σ) β) :
    ExceptT.run ((throw e : ExceptT ε (StateM σ) α) >>= f) s = (.error e, s) := rfl

end Kept

section Returns

variable {ε α β : Type} {x : ExceptT ε Option α} {f : α → ExceptT ε Option β}

theorem run_bind_eq_some {out : Except ε β} : (x >>= f).run = some out ↔
    (∃ a, x.run = some (.ok a) ∧ (f a).run = some out) ∨ ∃ e, x.run = some (.error e) ∧ out = .error e := by
  rw [ExceptT.run_bind]
  cases hx : x.run with
  | none => simp
  | some result =>
    cases result with
    | ok a => simp
    | error e => simp [eq_comm]

theorem run_bind_of_ok {a : α} (h : x.run = some (.ok a)) : (x >>= f).run = (f a).run := by
  rw [ExceptT.run_bind, h]
  rfl

theorem run_lift_eq_some {o : Option α} {out : Except ε α} :
    (liftM o : ExceptT ε Option α).run = some out ↔ ∃ a, o = some a ∧ out = .ok a := by
  cases o with
  | none => simp [liftM, monadLift, MonadLift.monadLift, ExceptT.lift, ExceptT.run, ExceptT.mk]
  | some a =>
    simp [liftM, monadLift, MonadLift.monadLift, ExceptT.lift, ExceptT.run, ExceptT.mk, eq_comm]

end Returns

end EasyPi
