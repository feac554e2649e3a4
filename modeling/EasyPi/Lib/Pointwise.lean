/-
# Lists related element by element

What `List.Forall₂ R l₁ l₂` gives for members, for maps and for a second
relation. A table whose rows are updated in place is such a pair of lists.
-/
import Mathlib.Data.List.Forall2

namespace EasyPi.Pointwise

open List

variable {α β γ : Type*} {R : α → β → Prop} {S : β → γ → Prop} {l₁ : List α} {l₂ : List β} {l₃ : List γ}

theorem left (h : Forall₂ R l₁ l₂) {b : β} (hb : b ∈ l₂) : ∃ a ∈ l₁, R a b := by
  induction h with
  | nil => cases hb
  | @cons a b' l₁ l₂ hab _ ih =>
    rcases mem_cons.mp hb with rfl | hb
    · exact ⟨a, mem_cons_self, hab⟩
    · obtain ⟨a', ha', hr⟩ := ih hb
      exact ⟨a', mem_cons_of_mem _ ha', hr⟩

theorem at_index (h : Forall₂ R l₁ l₂) {i : ℕ} {a : α} {b : β} (ha : l₁[i]? = some a) (hb : l₂[i]? = some b) : R a b := by
  induction h generalizing i with
  | nil => cases ha
  | cons hrel _ ih =>
    cases i with
    | zero =>
      cases ha
      cases hb
      exact hrel
    | succ i => exact ih ha hb

theorem of_index (hlen : l₁.length = l₂.length)
    (h : ∀ (i : ℕ) (a : α) (b : β), l₁[i]? = some a → l₂[i]? = some b → R a b) : Forall₂ R l₁ l₂ :=
  forall₂_of_length_eq_of_get hlen fun i h₁ h₂ =>
    h i _ _ (List.getElem?_eq_getElem h₁) (List.getElem?_eq_getElem h₂)

theorem right (h : Forall₂ R l₁ l₂) {a : α} (ha : a ∈ l₁) : ∃ b ∈ l₂, R a b := left (R := flip R) h.flip ha

theorem comp (h : Forall₂ R l₁ l₂) (h' : Forall₂ S l₂ l₃) : Forall₂ (fun a c => ∃ b, R a b ∧ S b c) l₁ l₃ := by
  induction h generalizing l₃ with
  | nil =>
    cases h'
    exact .nil
  | cons hab _ ih =>
    cases h' with
    | cons hbc h' => exact .cons ⟨_, hab, hbc⟩ (ih h')

variable {T : α → β → Prop}

theorem and (h : Forall₂ R l₁ l₂) (h' : Forall₂ T l₁ l₂) : Forall₂ (fun a b => R a b ∧ T a b) l₁ l₂ := by
  induction h with
  | nil => exact .nil
  | cons hab _ ih =>
    cases h' with
    | cons hab' h' => exact .cons ⟨hab, hab'⟩ (ih h')

theorem imp_mem (h : Forall₂ R l₁ l₂) (H : ∀ a ∈ l₁, ∀ b, R a b → T a b) : Forall₂ T l₁ l₂ :=
  ((forall₂_and_left _ _).mpr ⟨H, h⟩).imp fun _ b hab => hab.1 b hab.2

theorem imp_mem_right (h : Forall₂ R l₁ l₂) (H : ∀ a, ∀ b ∈ l₂, R a b → T a b) : Forall₂ T l₁ l₂ :=
  (imp_mem (R := flip R) (T := flip T) h.flip fun b hb a hab => H a b hb hab).flip

theorem map_eq {δ : Type*} {f : α → δ} {g : β → δ} (h : Forall₂ R l₁ l₂)
    (H : ∀ a b, R a b → f a = g b) : l₁.map f = l₂.map g := by
  induction h with
  | nil => rfl
  | cons hab _ ih => rw [map_cons, map_cons, H _ _ hab, ih]

theorem ne_nil (h : Forall₂ R l₁ l₂) (hl : l₁ ≠ []) : l₂ ≠ [] := by
  cases h with
  | nil => exact absurd rfl hl
  | cons => exact cons_ne_nil _ _

theorem map_right {T : α → α → Prop} {f : α → α} (l : List α) (H : ∀ a ∈ l, T a (f a)) : Forall₂ T l (l.map f) := by
  rw [forall₂_map_right_iff, forall₂_same]
  exact H

theorem set {T : α → α → Prop} {l : List α} {i : ℕ} {a a' : α} (hrefl : ∀ x ∈ l, T x x)
    (hget : l[i]? = some a) (h : T a a') : Forall₂ T l (l.set i a') := by
  induction l generalizing i with
  | nil => exact .nil
  | cons x l ih =>
    cases i with
    | zero =>
      obtain rfl := Option.some.inj hget
      exact .cons h (forall₂_same.mpr fun y hy => hrefl y (mem_cons_of_mem _ hy))
    | succ i =>
      exact .cons (hrefl x mem_cons_self) (ih (fun y hy => hrefl y (mem_cons_of_mem _ hy)) hget)

end EasyPi.Pointwise
