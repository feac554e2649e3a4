/-
# How often a program makes a call

The world of a program has a journal of the calls it has made. `Makes p V n` bounds the calls of a
kind that `p` makes on any path, whatever the world and the replies are, and says which values it
returns: the bounds of programs in turn and of programs side by side add up. A program that makes
none is quiet: among others it changes the journal by other calls only.
-/
import Mathlib.Algebra.BigOperators.Group.List.Basic
import Mathlib.Algebra.GroupWithZero.Nat
import EasyPi.Lib.Proc

namespace EasyPi
namespace Proc

variable {W R C : Type} (log : W → List C) (kind : C → Bool)

/-- The program makes at most `n` calls of the kind, and returns values of `V`. -/
def Makes {α : Type} : Proc W R α → (α → Prop) → ℕ → Prop
  | .pure a, V, _ => V a
  | .act f k, V, n => ∀ w r b w', f w r = some (b, w') →
      ∃ new m, log w' = log w ++ new ∧ new.countP kind + m ≤ n ∧ Makes (k b) V m

variable {log kind} {α β : Type} {p : Proc W R α} {V V' : α → Prop} {n m : ℕ}

theorem makes_pure {a : α} (h : V a) : Makes log kind (Pure.pure a : Proc W R α) V n := h

theorem Makes.mono (h : Makes log kind p V n) (hV : ∀ a, V a → V' a) (hn : n ≤ m) : Makes log kind p V' m := by
  induction p generalizing n m with
  | pure a => exact hV a h
  | act f k ih =>
    intro w r b w' hf
    obtain ⟨new, l, hlog, hle, hk⟩ := h w r b w' hf
    exact ⟨new, l, hlog, Nat.le_trans hle hn, ih b hk (Nat.le_refl l)⟩

theorem Makes.bind {g : α → Proc W R β} {U : β → Prop} (h : Makes log kind p V n)
    (hg : ∀ a, V a → Makes log kind (g a) U m) : Makes log kind (p >>= g) U (n + m) := by
  induction p generalizing n with
  | pure a => exact (hg a h).mono (fun _ => id) (Nat.le_add_left m n)
  | act f k ih =>
    intro w r b w' hf
    obtain ⟨new, l, hlog, hle, hk⟩ := h w r b w' hf
    exact ⟨new, l + m, hlog, by omega, ih b hk⟩

theorem makes_stuck : Makes log kind (stuck : Proc W R α) V n := by
  intro w r b w' hf
  cases hf

theorem Makes.step {p' : Proc W R α} {w w' : W} {r : R} (h : Makes log kind p V n) (hs : p.step w r = some (p', w')) :
    ∃ new m, log w' = log w ++ new ∧ new.countP kind + m ≤ n ∧ Makes log kind p' V m := by
  cases p with
  | pure a => cases hs
  | act f k =>
    obtain ⟨⟨b, w₂⟩, hf, heq⟩ := Option.map_eq_some_iff.mp hs
    obtain ⟨rfl, rfl⟩ := Prod.mk.inj heq
    exact h w r b _ hf

theorem sum_set_le {ns : List ℕ} {i : ℕ} (hi : i < ns.length) {l : ℕ} (hl : l + m ≤ ns[i]) :
    m + (ns.set i l).sum ≤ ns.sum := by
  induction ns generalizing i with
  | nil => cases hi
  | cons n ns ih =>
    cases i with
    | zero =>
      rw [List.getElem_cons_zero] at hl
      rw [List.set_cons_zero, List.sum_cons, List.sum_cons]
      omega
    | succ i =>
      rw [List.getElem_cons_succ] at hl
      have := ih (Nat.lt_of_succ_lt_succ hi) hl
      rw [List.set_cons_succ, List.sum_cons, List.sum_cons]
      omega

/-- Programs that may have started, each with its bound and its values. -/
def MakesAll (log : W → List C) (kind : C → Bool) (ps : List (Proc W R α)) (bounds : List ((α → Prop) × ℕ)) : Prop :=
  List.Forall₂ (fun p bound => Makes log kind p bound.1 bound.2) ps bounds

/-- **Programs side by side** make the calls of each of them together. -/
theorem makes_interleave {pick : R → Option ℕ} (fuel : ℕ) {ps : List (Proc W R α)}
    {bounds : List ((α → Prop) × ℕ)} (h : MakesAll log kind ps bounds) : Makes log kind (interleave pick fuel ps)
      (fun as => List.Forall₂ (fun a bound => bound.1 a) as bounds) (bounds.map Prod.snd).sum := by
  suffices hset : ∀ ns : List ℕ, ns.length = bounds.length →
      (∀ i (hi : i < ps.length) (hb : i < bounds.length) (hn : i < ns.length),
        Makes log kind ps[i] bounds[i].1 ns[i]) → ps.length = bounds.length → Makes log kind (interleave pick fuel ps)
        (fun as => List.Forall₂ (fun a bound => bound.1 a) as bounds) ns.sum by
    rw [MakesAll, List.forall₂_iff_get] at h
    refine hset _ (List.length_map _) (fun i hi hb hn => ?_) h.1
    rw [List.getElem_map]
    exact h.2 i hi hb
  clear h
  induction fuel generalizing ps with
  | zero => exact fun _ _ _ _ => makes_stuck
  | succ fuel ih =>
    intro ns hns h hps
    unfold interleave
    split
    · rename_i as hres
      obtain rfl := results_eq_some hres
      rw [List.length_map] at hps
      refine (List.forall₂_iff_get.mpr ⟨hps, fun i hi hb => ?_⟩ : List.Forall₂ _ as bounds)
      have hi' := h i (by rwa [List.length_map]) hb (by rwa [hns])
      rw [List.getElem_map] at hi'
      exact hi'
    · intro w r i w' hpick
      obtain ⟨j, -, heq⟩ := Option.map_eq_some_iff.mp hpick
      obtain ⟨rfl, rfl⟩ := Prod.mk.inj heq
      refine ⟨[], ns.sum, (List.append_nil _).symm, by simp, ?_⟩
      beta_reduce
      split
      · rename_i γ f k hget
        intro w₁ r₁ b w₂ hf
        obtain ⟨hj, hget'⟩ := List.getElem?_eq_some_iff.mp hget
        have hjb : j < bounds.length := hps ▸ hj
        have hjn : j < ns.length := hns ▸ hjb
        have hact := h j hj hjb hjn
        rw [hget'] at hact
        obtain ⟨new, l, hlog, hle, hk⟩ := hact w₁ r₁ b w₂ hf
        refine ⟨new, (ns.set j l).sum, hlog, sum_set_le hjn (by rw [Nat.add_comm]; exact hle),
          ih _ (by rw [List.length_set, hns]) (fun i hi hb hn => ?_) (by rw [List.length_set, hps])⟩
        simp only [List.getElem_set]
        split
        · rename_i hji
          subst hji
          exact hk
        · exact h i (by rwa [List.length_set] at hi) hb (by rwa [List.length_set] at hn)
      · exact makes_stuck

/-- **A quiet program among others** that do not make calls: it adds calls of other kinds only. -/
theorem Makes.wp_quiet {e : Rules W R} (h : Makes log kind p V 0) {w₀ w : W} {made : List C}
    (hrely : ∀ w w', e.rely w w' → log w' = log w)
    (hguar : ∀ w w' new, log w' = log w₀ ++ new → (∀ c ∈ new, kind c = false) → e.guar w w')
    (hlog : log w = log w₀ ++ made) (hmade : ∀ c ∈ made, kind c = false) :
    wp e p (fun a w' => V a ∧ ∃ new, log w' = log w₀ ++ new ∧ ∀ c ∈ new, kind c = false) w := by
  induction p generalizing w made with
  | pure a => exact ⟨h, made, hlog, hmade⟩
  | act f k ih =>
    intro w₁ hr hi r _ b w₂ hf
    obtain ⟨new, l, hnew, hle, hk⟩ := h w₁ r b w₂ hf
    obtain ⟨hcnt, rfl⟩ : new.countP kind = 0 ∧ l = 0 := by omega
    have hqt : ∀ c ∈ made ++ new, kind c = false := fun c hc =>
      (List.mem_append.mp hc).elim (hmade c) fun hc =>
        Bool.eq_false_iff.mpr (List.countP_eq_zero.mp hcnt c hc)
    have hlog₂ : log w₂ = log w₀ ++ (made ++ new) := by
      rw [hnew, hrely w w₁ hr, hlog, List.append_assoc]
    exact ⟨hguar w₁ w₂ _ hlog₂ hqt, fun _ => ih b hk hlog₂ hqt⟩

end Proc

/-! ### Programs that throw -/

namespace Async

open List List Proc

variable {W R C ε α β : Type} {log : W → List C} {kind : C → Bool}

/-- The values a program returns, if it does not throw. -/
def Returns {ε : Type} (V : α → Prop) (r : Except ε α) : Prop := ∀ a, r = .ok a → V a

/-- The program makes at most `n` calls of the kind, and returns values of `V` if it does not throw. -/
def Makes (log : W → List C) (kind : C → Bool) (x : Async W R ε α) (V : α → Prop) (n : ℕ) : Prop :=
  Proc.Makes log kind (ExceptT.run x) (Returns V) n

variable {x : Async W R ε α} {V V' : α → Prop} {U : β → Prop} {n m : ℕ}

theorem makes_pure {a : α} (h : V a) : Makes log kind (Pure.pure a : Async W R ε α) V n := by
  rintro _ ⟨⟩
  exact h

theorem makes_throw (error : ε) : Makes log kind (throw error : Async W R ε α) V n := by
  rintro a ⟨⟩

theorem makes_except {r : Except ε α} (h : ∀ a, r = .ok a → V a) :
    Makes log kind (ExceptT.mk (Pure.pure r) : Async W R ε α) V n := h

theorem Makes.mono (h : Makes log kind x V n) (hV : ∀ a, V a → V' a) (hn : n ≤ m) : Makes log kind x V' m :=
  Proc.Makes.mono h (fun _ hr a ha => hV a (hr a ha)) hn

theorem Makes.bind {f : α → Async W R ε β} (h : Makes log kind x V n)
    (hf : ∀ a, V a → Makes log kind (f a) U m) : Makes log kind (x >>= f) U (n + m) := by
  refine Proc.Makes.bind h fun r hr => ?_
  cases r with
  | ok a => exact hf a (hr a rfl)
  | error error => exact Proc.makes_pure (by rintro a ⟨⟩)

theorem Makes.quiet_bind {f : α → Async W R ε β} (h : Makes log kind x V 0)
    (hf : ∀ a, V a → Makes log kind (f a) U n) : Makes log kind (x >>= f) U n := by
  have hbind := Makes.bind h hf
  rwa [Nat.zero_add] at hbind

theorem makes_tryCatch {f : ε → Async W R ε α} (h : Makes log kind x V n)
    (hf : ∀ error, Makes log kind (f error) V m) : Makes log kind (tryCatch x f) V (n + m) := by
  change Proc.Makes log kind (ExceptT.run (tryCatch x f)) (Returns V) (n + m)
  rw [run_tryCatch]
  refine Proc.Makes.bind h fun r hr => ?_
  cases r with
  | ok a => exact Proc.makes_pure hr
  | error error => exact hf error

theorem makes_finally {last : Async W R ε Unit} {U : Unit → Prop} (h : Makes log kind x V n)
    (hlast : Makes log kind last U m) : Makes log kind (finally_ x last) V (n + m) := by
  refine Proc.Makes.bind h fun r hr => ?_
  have hbind : Proc.Makes log kind (last.run >>= fun _ => Pure.pure r) (Returns V) (m + 0) :=
    Proc.Makes.bind hlast fun _ _ => Proc.makes_pure hr
  exact hbind

theorem Makes.lift {p : Proc W R α} (h : Proc.Makes log kind p V n) :
    Makes log kind (ExceptT.lift p : Async W R ε α) V n := by
  have hbind : Proc.Makes log kind (p >>= fun a => Pure.pure (Except.ok a : Except ε α)) (Returns V) (n + 0) := by
    refine h.bind fun a ha => Proc.makes_pure ?_
    rintro _ ⟨⟩
    exact ha
  exact hbind

theorem makes_act {f : W → R → Option (Except ε α × W)} (new : List C)
    (h : ∀ w r a w', f w r = some (a, w') → log w' = log w ++ new) :
    Makes log kind (act f) (fun _ => True) (new.countP kind) := by
  intro w r a w' hf
  exact ⟨new, 0, h w r a w' hf, Nat.le_refl _, fun _ _ => trivial⟩

theorem makes_read {f : W → α} : Makes log kind (read f : Async W R ε α) (fun _ => True) n := by
  intro w r a w' hf
  obtain ⟨-, rfl⟩ := Prod.mk.inj (Option.some.inj hf)
  exact ⟨[], n, (List.append_nil _).symm, by simp, fun _ _ => trivial⟩

theorem makes_ask {f : R → Option (Except ε α)} : Makes log kind (ask f : Async W R ε α) (fun _ => True) n := by
  intro w r a w' hf
  obtain ⟨a', -, heq⟩ := Option.map_eq_some_iff.mp hf
  obtain ⟨-, rfl⟩ := Prod.mk.inj heq
  exact ⟨[], n, (List.append_nil _).symm, by simp, fun _ _ => trivial⟩

theorem makes_spent : Makes log kind (spent : Async W R ε α) V n := makes_stuck

/-- The rules of a program that keeps its journal good, among others that make no calls. -/
def journal {R : Type} (log : W → List C) (good : List C → Prop) : Rules W R where
  reply _ := True
  inv w := good (log w)
  rely w w' := log w' = log w
  guar _ w' := good (log w')
  rely_refl _ := rfl
  rely_trans h h' := h'.trans h

/-- A journal that has gone on with calls of other kinds. -/
def GoesOn (log : W → List C) (kind : C → Bool) (w w' : W) : Prop :=
  ∃ new, log w' = log w ++ new ∧ ∀ c ∈ new, kind c = false

/-- **A quiet part** of a program whose journal does not get bad by calls of other kinds. -/
theorem Makes.spec {good : List C → Prop} {w : W} (h : Makes log kind x V 0)
    (hgood : ∀ new, (∀ c ∈ new, kind c = false) → good (log w ++ new)) :
    Spec (journal log good) x (fun a w' => V a ∧ GoesOn log kind w w') w := by
  have hguar : ∀ (w₁ w₂ : W) new, log w₂ = log w ++ new → (∀ c ∈ new, kind c = false) → good (log w₂) := by
    intro w₁ w₂ new hnew hqt
    rw [hnew]
    exact hgood new hqt
  have hwp : wp (journal log good) (ExceptT.run x) (fun r w' => Returns V r ∧ GoesOn log kind w w') w :=
    Proc.Makes.wp_quiet h (fun _ _ hr => hr) hguar (List.append_nil (log w)).symm fun c hc => by cases hc
  refine wp_mono hwp ?_
  rintro r w' ⟨hr, hgoes⟩ a ha
  exact ⟨hr a ha, hgoes⟩

end Async
end EasyPi
