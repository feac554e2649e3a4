/-
# Asynchronous programs

A program of an event loop as a sequence of atomic actions: what runs between
two `await`s is one action, and other programs may act in between. An action
reads and writes the world, may use a reply of the environment, and waits
while it is not enabled. Programs that throw are `Async`, where an exception
is a result.

`wp` is the weakest precondition of a program among others: `Rules` say what
the others may do to the world (`rely`), what the program itself may do
(`guar`), and which invariant the world has. A precondition is kept by steps
of the program (`wp_step`) and by those of the others (`wp_rely`).
-/
import Mathlib.Data.Nat.Notation
import Mathlib.Data.List.Forall2

namespace EasyPi

/-- A program over a world `W` with replies `R`. -/
inductive Proc (W R : Type) (α : Type) : Type 1 where
  | pure (a : α)
  | act {β : Type} (f : W → R → Option (β × W)) (k : β → Proc W R α)

namespace Proc

variable {W R α β γ : Type}

protected def bind : Proc W R α → (α → Proc W R β) → Proc W R β
  | .pure a, g => g a
  | .act f k, g => .act f fun b => (k b).bind g

instance : Monad (Proc W R) where
  pure := .pure
  bind := Proc.bind

theorem act_bind (f : W → R → Option (γ × W)) (k : γ → Proc W R α) (g : α → Proc W R β) :
    (Proc.act f k >>= g) = .act f fun b => k b >>= g := rfl

theorem bind_assoc' (p : Proc W R α) (f : α → Proc W R β) (g : β → Proc W R γ) :
    (p >>= f) >>= g = p >>= fun a => f a >>= g := by
  induction p with
  | pure a => rfl
  | act e k ih =>
    simp only [act_bind, ih]

theorem bind_pure' (p : Proc W R α) : p >>= Pure.pure = p := by
  induction p with
  | pure a => rfl
  | act e k ih =>
    simp only [act_bind, ih]

instance : LawfulMonad (Proc W R) := .mk' (Proc W R) bind_pure' (fun _ _ => rfl) bind_assoc'

/-- One action of a program, with the reply of the environment. -/
def step (p : Proc W R α) (w : W) (r : R) : Option (Proc W R α × W) :=
  match p with
  | .pure _ => none
  | .act f k => (f w r).map fun (b, w') => (k b, w')

def stuck : Proc W R α := .act (fun _ _ => (none : Option (Empty × W))) fun e => nomatch e

/-- The results of programs that have all returned. -/
def results : List (Proc W R α) → Option (List α)
  | [] => some []
  | .pure a :: ps => (results ps).map (a :: ·)
  | .act .. :: _ => none

/-- Programs run together, one action of one of them at a time; `pick` reads
from a reply which one acts next. The fuel bounds the number of actions. -/
def interleave (pick : R → Option ℕ) : ℕ → List (Proc W R α) → Proc W R (List α)
  | 0, _ => stuck
  | fuel + 1, ps =>
    match results ps with
    | some as => .pure as
    | none => .act (fun w r => (pick r).map fun i => (i, w)) fun i =>
      match ps[i]? with
      | some (.act f k) => .act f fun b => interleave pick fuel (ps.set i (k b))
      | _ => stuck

/-! ### Preconditions -/

/-- What a program may count on and has to keep: the replies it gets, the
invariant of the world, what others do, and what it does itself. -/
structure Rules (W R : Type) where
  reply : R → Prop
  inv : W → Prop
  rely : W → W → Prop
  guar : W → W → Prop
  rely_refl : ∀ w, rely w w
  rely_trans : ∀ {w₁ w₂ w₃}, rely w₁ w₂ → rely w₂ w₃ → rely w₁ w₃

variable (e : Rules W R)

/-- From this world every action of the program is one it may take, whatever
the others do before, and a result has the postcondition. -/
def wp : Proc W R α → (α → W → Prop) → W → Prop
  | .pure a, Q, w => Q a w
  | .act f k, Q, w => ∀ w₁, e.rely w w₁ → e.inv w₁ → ∀ r, e.reply r →
      ∀ b w₂, f w₁ r = some (b, w₂) → e.guar w₁ w₂ ∧ (e.inv w₂ → wp (k b) Q w₂)

variable {e}

@[simp] theorem wp_pure (a : α) (Q : α → W → Prop) (w : W) : wp e (Pure.pure a : Proc W R α) Q w ↔ Q a w := Iff.rfl

theorem wp_bind (p : Proc W R α) (g : α → Proc W R β) (Q : β → W → Prop) (w : W) :
    wp e (p >>= g) Q w ↔ wp e p (fun a w => wp e (g a) Q w) w := by
  induction p generalizing w with
  | pure a => exact Iff.rfl
  | act f k ih =>
    rw [act_bind]
    simp only [wp, ih]

variable {p : Proc W R α}

theorem wp_mono {Q Q' : α → W → Prop} {w : W} (h : wp e p Q w) (hQ : ∀ a w, Q a w → Q' a w) : wp e p Q' w := by
  induction p generalizing w with
  | pure a => exact hQ a w h
  | act f k ih =>
    intro w₁ hr hi r hR b w₂ hf
    obtain ⟨hg, hk⟩ := h w₁ hr hi r hR b w₂ hf
    exact ⟨hg, fun hi₂ => ih b (hk hi₂)⟩

variable {Q : α → W → Prop}

theorem wp_rely {w w' : W} (h : wp e p Q w)
    (hQ : ∀ a w w', Q a w → e.rely w w' → Q a w') (hr : e.rely w w') : wp e p Q w' := by
  cases p with
  | pure a => exact hQ a w w' h hr
  | act f k => exact fun w₁ hr₁ => h w₁ (e.rely_trans hr hr₁)

theorem wp_step {p p' : Proc W R α} {w w' : W} {r : R} (h : wp e p Q w)
    (hi : e.inv w) (hR : e.reply r) (hs : p.step w r = some (p', w')) : e.guar w w' ∧ (e.inv w' → wp e p' Q w') := by
  cases p with
  | pure a => cases hs
  | act f k =>
    obtain ⟨⟨b, w₂⟩, hf, heq⟩ := Option.map_eq_some_iff.mp hs
    obtain ⟨rfl, rfl⟩ := Prod.mk.inj heq
    exact h w (e.rely_refl w) hi r hR b _ hf

theorem wp_stuck (Q : α → W → Prop) (w : W) : wp e (stuck : Proc W R α) Q w := by
  intro w₁ _ _ r _ b w₂ hf
  cases hf

theorem wp_weaken {e' : Rules W R} (hrep : ∀ r, e.reply r → e'.reply r)
    (hinv : ∀ w, e.inv w → e'.inv w) (hrely : ∀ w w', e.rely w w' → e'.rely w w')
    (hguar : ∀ w w', e.inv w → e'.guar w w' → e.guar w w') {w : W} (h : wp e' p Q w) : wp e p Q w := by
  induction p generalizing w with
  | pure a => exact h
  | act f k ih =>
    intro w₁ hr hi r hR b w₂ hf
    obtain ⟨hg, hk⟩ := h w₁ (hrely _ _ hr) (hinv _ hi) r (hrep r hR) b w₂ hf
    exact ⟨hguar _ _ hi hg, fun hi₂ => ih b (hk (hinv _ hi₂))⟩

theorem wp_frame {S : W → W → Prop} (htra : ∀ {w₁ w₂ w₃}, S w₁ w₂ → S w₂ w₃ → S w₁ w₃)
    (hrely : ∀ w w', e.rely w w' → S w w') (hguar : ∀ w w', e.guar w w' → S w w')
    {w₀ w : W} (hS : S w₀ w) (h : wp e p Q w) : wp e p (fun a w => Q a w ∧ S w₀ w) w := by
  induction p generalizing w with
  | pure a => exact ⟨h, hS⟩
  | act f k ih =>
    intro w₁ hr hi r hR b w₂ hf
    obtain ⟨hg, hk⟩ := h w₁ hr hi r hR b w₂ hf
    exact ⟨hg, fun hi₂ => ih b (htra hS (htra (hrely _ _ hr) (hguar _ _ hg))) (hk hi₂)⟩

/-! ### Programs side by side -/

theorem results_eq_some {ps : List (Proc W R α)} {as : List α} (h : results ps = some as) : ps = as.map Proc.pure := by
  induction ps generalizing as with
  | nil => cases h; rfl
  | cons p ps ih =>
    cases p with
    | pure a =>
      obtain ⟨bs, hbs, rfl⟩ := Option.map_eq_some_iff.mp h
      rw [ih hbs]
      rfl
    | act f k => cases h

theorem wp_interleave {pick : R → Option ℕ} (hg : ∀ w w', e.guar w w' → e.rely w w')
    (hrefl : ∀ w, e.guar w w) {Qs : List (α → W → Prop)}
    (hQ : ∀ Q ∈ Qs, ∀ a w w', Q a w → e.rely w w' → Q a w') (fuel : ℕ)
    {ps : List (Proc W R α)} {w : W} (h : List.Forall₂ (fun p Q => wp e p Q w) ps Qs) :
    wp e (interleave pick fuel ps) (fun as w => List.Forall₂ (fun a Q => Q a w) as Qs) w := by
  have hkeep : ∀ {ps : List (Proc W R α)} {w w' : W}, List.Forall₂ (fun p Q => wp e p Q w) ps Qs → e.rely w w' →
      List.Forall₂ (fun p Q => wp e p Q w') ps Qs := by
    intro ps w w' hps hr
    rw [List.forall₂_iff_get] at hps ⊢
    refine ⟨hps.1, fun i hi hi' => wp_rely (hps.2 i hi hi') ?_ hr⟩
    exact hQ _ (List.get_mem _ _)
  induction fuel generalizing ps w with
  | zero => exact wp_stuck _ _
  | succ fuel ih =>
    unfold interleave
    split
    · rename_i as hres
      rw [results_eq_some hres, List.forall₂_map_left_iff] at h
      exact h
    · intro w₁ hr₁ _ r _ i w₂ hpick
      obtain ⟨j, _, heq⟩ := Option.map_eq_some_iff.mp hpick
      obtain ⟨rfl, rfl⟩ := Prod.mk.inj heq
      refine ⟨hrefl _, fun _ => ?_⟩
      have hps := hkeep h hr₁
      beta_reduce
      split
      · rename_i γ f k hget
        intro w₃ hr₃ hi₃ r' hR b w₄ hf
        obtain ⟨hj, hget'⟩ := List.getElem?_eq_some_iff.mp hget
        rw [List.forall₂_iff_get] at hps
        have hjQ : j < Qs.length := hps.1 ▸ hj
        have hwp := hps.2 j hj hjQ
        rw [List.get_eq_getElem, hget'] at hwp
        obtain ⟨hguar, hk⟩ := hwp w₃ hr₃ hi₃ r' hR b w₄ hf
        refine ⟨hguar, fun hi₄ => ih ?_⟩
        -- The program that acted has moved on; the others have seen its step.
        have hoth := hkeep h (e.rely_trans hr₁ (e.rely_trans hr₃ (hg _ _ hguar)))
        rw [List.forall₂_iff_get] at hoth ⊢
        refine ⟨by rw [List.length_set]; exact hoth.1, fun i hi hi' => ?_⟩
        simp only [List.get_eq_getElem, List.getElem_set]
        split
        · rename_i hji
          subst hji
          exact hk hi₄
        · exact hoth.2 i (by rwa [List.length_set] at hi) hi'
      · exact wp_stuck _ _

end Proc

/-! ### Programs that throw -/

abbrev Async (W R ε : Type) := ExceptT ε (Proc W R)

namespace Async

open List Proc

variable {W R ε α β : Type}

def act (f : W → R → Option (Except ε α × W)) : Async W R ε α := ExceptT.mk (.act f Pure.pure)

/-- An action that only reads. -/
def read (f : W → α) : Async W R ε α := act fun w _ => some (.ok (f w), w)

/-- An action that only writes. -/
def modify (f : W → W) : Async W R ε Unit := act fun w _ => some (.ok (), f w)

def ask (f : R → Option (Except ε α)) : Async W R ε α := act fun w r => (f r).map fun a => (a, w)

def spent : Async W R ε α := ExceptT.mk stuck

/-- `try { body } finally { last }`, for a `last` that does not throw. -/
def finally_ (body : Async W R ε α) (last : Async W R ε Unit) : Async W R ε α :=
  ExceptT.mk do
    let result ← body.run
    let _ ← last.run
    return result

variable {e : Rules W R} {Q : Except ε α → W → Prop} {w : W}

/-- The postcondition of a first part: the second part's precondition, or the exception's. -/
def andThen (f : α → Async W R ε β) (Q : Except ε β → W → Prop) (e : Rules W R) :
    Except ε α → W → Prop
  | .ok a, w => wp e (f a).run Q w
  | .error err, w => Q (.error err) w

theorem wp_bind' {x : Async W R ε α} {f : α → Async W R ε β} {Q : Except ε β → W → Prop} :
    wp e (x >>= f).run Q w ↔ wp e x.run (andThen f Q e) w := by
  change wp e (ExceptT.run x >>= ExceptT.bindCont f) Q w ↔ _
  rw [Proc.wp_bind]
  have : (fun a w => wp e (ExceptT.bindCont f a) Q w) = andThen f Q e := by
    funext a w
    cases a <;> rfl
  rw [this]

/-- The postcondition of a body whose exceptions are caught. -/
def orElse (f : ε → Async W R ε α) (Q : Except ε α → W → Prop) (e : Rules W R) :
    Except ε α → W → Prop
  | .ok a, w => Q (.ok a) w
  | .error err, w => wp e (f err).run Q w

/-- What is done with the result of a body whose exceptions are caught. -/
def handle (f : ε → Async W R ε α) : Except ε α → Proc W R (Except ε α)
  | .ok a => Pure.pure (.ok a)
  | .error err => (f err).run

theorem run_tryCatch (x : Async W R ε α) (f : ε → Async W R ε α) :
    ExceptT.run (tryCatch x f) = ExceptT.run x >>= handle f := by
  change (ExceptT.run x >>= fun r => (match r with
    | .ok a => Pure.pure (Except.ok a)
    | .error err => f err : Proc W R (Except ε α))) = _
  congr 1

theorem run_lift_bind (p : Proc W R α) (f : α → Async W R ε β) :
    ExceptT.run ((ExceptT.lift p : Async W R ε α) >>= f) = p >>= fun a => (f a).run :=
  Proc.bind_assoc' p (fun a => Pure.pure (Except.ok a)) (ExceptT.bindCont f)

theorem wp_tryCatch {x : Async W R ε α} {f : ε → Async W R ε α} :
    wp e (ExceptT.run (tryCatch x f)) Q w ↔ wp e x.run (orElse f Q e) w := by
  rw [run_tryCatch, Proc.wp_bind]
  have : (fun r w => wp e (handle f r) Q w) = orElse f Q e := by
    funext r w
    cases r <;> rfl
  rw [this]

theorem wp_finally {body : Async W R ε α} {last : Async W R ε Unit} :
    wp e (finally_ body last).run Q w ↔ wp e body.run (fun r w => wp e last.run (fun _ w => Q r w) w) w := by
  change wp e (body.run >>= fun r => last.run >>= fun _ => Pure.pure r) Q w ↔ _
  rw [Proc.wp_bind]
  simp only [Proc.wp_bind, Proc.wp_pure]

theorem wp_read {f : W → α} (hg : ∀ w, e.inv w → e.guar w w) (h : ∀ w₁, e.rely w w₁ → e.inv w₁ → Q (.ok (f w₁)) w₁) :
    wp e (read f : Async W R ε α).run Q w := by
  intro w₁ hr hi r hR a w₂ hf
  obtain ⟨rfl, rfl⟩ := Prod.mk.inj (Option.some.inj hf)
  exact ⟨hg _ hi, fun _ => h _ hr hi⟩

theorem wp_modify {f : W → W} {Q : Except ε Unit → W → Prop}
    (h : ∀ w₁, e.rely w w₁ → e.inv w₁ → e.guar w₁ (f w₁) ∧ (e.inv (f w₁) → Q (.ok ()) (f w₁))) :
    wp e (modify f : Async W R ε Unit).run Q w := by
  intro w₁ hr hi r hR a w₂ hf
  obtain ⟨rfl, rfl⟩ := Prod.mk.inj (Option.some.inj hf)
  exact h _ hr hi

theorem wp_ask {f : R → Option (Except ε α)} (hg : ∀ w, e.inv w → e.guar w w)
    (h : ∀ w₁, e.rely w w₁ → e.inv w₁ → ∀ r, e.reply r → ∀ a, f r = some a → Q a w₁) : wp e (ask f).run Q w := by
  intro w₁ hr hi r hR a w₂ hf
  obtain ⟨a', ha', heq⟩ := Option.map_eq_some_iff.mp hf
  obtain ⟨rfl, rfl⟩ := Prod.mk.inj heq
  exact ⟨hg _ hi, fun _ => h _ hr hi r hR _ ha'⟩

theorem wp_lift : wp e (ExceptT.run (ExceptT.lift p : Async W R ε α)) Q w ↔ wp e p (fun a w => Q (.ok a) w) w := by
  change wp e (p >>= fun a => Pure.pure (Except.ok a)) Q w ↔ _
  rw [Proc.wp_bind]
  rfl

theorem wp_spent : wp e (spent : Async W R ε α).run Q w := wp_stuck _ _

/-- From this world the program keeps the rules, and a value it returns has the postcondition. -/
def Spec (e : Rules W R) (x : Async W R ε α) (V : α → W → Prop) (w : W) : Prop :=
  wp e (ExceptT.run x) (fun r w' => ∀ a, r = .ok a → V a w') w

section Spec
variable {x : Async W R ε α} {V V' : α → W → Prop}

theorem spec_pure {a : α} (h : V a w) : Spec e (Pure.pure a : Async W R ε α) V w := by
  rintro _ ⟨⟩
  exact h

theorem spec_throw (error : ε) : Spec e (throw error : Async W R ε α) V w := by
  rintro a ⟨⟩

theorem spec_spent : Spec e (spent : Async W R ε α) V w := wp_spent

theorem Spec.mono (h : Spec e x V w) (hV : ∀ a w', V a w' → V' a w') : Spec e x V' w :=
  wp_mono h fun _ _ hr a ha => hV a _ (hr a ha)

theorem spec_bind {f : α → Async W R ε β} {U : β → W → Prop}
    (h : Spec e x (fun a w' => Spec e (f a) U w') w) : Spec e (x >>= f) U w := by
  refine wp_bind'.mpr (wp_mono h ?_)
  rintro (error | a) w' ha
  · rintro b ⟨⟩
  · exact ha a rfl

theorem spec_tryCatch {f : ε → Async W R ε α} (h : Spec e x V w)
    (hf : ∀ error w', Spec e (f error) V w') : Spec e (tryCatch x f) V w := by
  refine wp_tryCatch.mpr (wp_mono h ?_)
  rintro (error | a) w' ha
  · exact hf error w'
  · exact ha

theorem spec_except {r : Except ε α} (h : ∀ a, r = .ok a → V a w) :
    Spec e (ExceptT.mk (Pure.pure r) : Async W R ε α) V w := h

end Spec

end Async
end EasyPi
