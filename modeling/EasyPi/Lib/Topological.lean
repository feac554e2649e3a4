/-
# Topological orders

A list is in topological order for a relation when every element comes after all
that it depends on. A relation all of whose dependents are in such a list has no
cycle, whether or not the list repeats elements.

Key definition: `Topological`.
Key theorem: `Topological.acyclic`.
-/
import Mathlib.Logic.Relation
import Mathlib.Order.RelClasses

namespace EasyPi

variable {α : Type*} {r : α → α → Prop} {l : List α} {a b : α}

/-- Each element comes after what it depends on. -/
inductive Topological (r : α → α → Prop) : List α → Prop
  | nil : Topological r []
  | snoc {l : List α} {a : α} (ordered : Topological r l) (ready : ∀ b, r a b → b ∈ l) :
      Topological r (l ++ [a])

namespace Topological

theorem mem_of_rel (h : Topological r l) (ha : a ∈ l) (hr : r a b) : b ∈ l := by
  induction h with
  | nil => cases ha
  | snoc ordered ready ih =>
    rw [List.mem_append, List.mem_singleton] at ha
    rcases ha with ha | rfl
    · exact List.mem_append_left _ (ih ha)
    · exact List.mem_append_left _ (ready b hr)

theorem acc (h : Topological r l) (ha : a ∈ l) : Acc (flip r) a := by
  induction h generalizing a with
  | nil => cases ha
  | snoc ordered ready ih =>
    rw [List.mem_append, List.mem_singleton] at ha
    rcases ha with ha | rfl
    · exact ih ha
    · exact .intro _ fun b hb => ih (ready b hb)

theorem acyclic (h : Topological r l) (hall : ∀ a b, r a b → a ∈ l) (a : α) : ¬ Relation.TransGen r a a := by
  intro hcyc
  obtain ⟨b, hb, -⟩ := Relation.TransGen.head'_iff.mp hcyc
  have hacc : Acc (Relation.TransGen (flip r)) a := (h.acc (hall a b hb)).transGen
  have hflip : Relation.TransGen (flip r) a a := by
    rw [Relation.transGen_swap]
    exact hcyc
  induction hacc with
  | intro a _ ih => exact ih a hflip hcyc hb hflip

end Topological
end EasyPi
