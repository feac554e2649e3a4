/-
# Greedy orders

Candidates are picked one by one, and what has been picked decides what may be picked next. Picking
the first admitted candidate each time yields the order that comes lexicographically first among all
orders that may be picked. If the candidates depend on one another without a cycle, one of those that
are left depends on nothing that is left.
-/
import Mathlib.Data.Set.Finite.List
import Mathlib.Logic.Relation
import Mathlib.Order.WellFounded

namespace EasyPi

open List

variable {α : Type*} {may : List α → α → Prop}

/-- After `pre`, these may be picked in this order. -/
inductive Picks (may : List α → α → Prop) : List α → List α → Prop
  | nil {pre : List α} : Picks may pre []
  | cons {pre picks : List α} {a : α} (admitted : may pre a) (rest : Picks may (pre ++ [a]) picks) :
      Picks may pre (a :: picks)

/-- After `pre`, each of these is the first candidate that may be picked. -/
inductive FirstPicks (may : List α → α → Prop) [∀ pre, DecidablePred (may pre)] (candidates : List α) :
    List α → List α → Prop
  | nil {pre : List α} : FirstPicks may candidates pre []
  | cons {pre picks : List α} {a : α} (first : candidates.find? (may pre ·) = some a)
      (rest : FirstPicks may candidates (pre ++ [a]) picks) : FirstPicks may candidates pre (a :: picks)

/-- The second list does not come before the first. -/
def LexLE (a b : List ℕ) : Prop := ¬ List.Lex (· < ·) b a

theorem idxOf_le_of_find?_eq_some [DecidableEq α] {p : α → Bool} {l : List α} {a b : α}
    (h : l.find? p = some a) (hb : b ∈ l) (hp : p b = true) : l.idxOf a ≤ l.idxOf b := by
  induction l with
  | nil => cases hb
  | cons c l ih =>
    by_cases hc : p c = true
    · rw [List.find?_cons_of_pos hc, Option.some.injEq] at h
      rw [← h, idxOf_cons_self]
      exact Nat.zero_le _
    · rw [List.find?_cons_of_neg hc] at h
      have hca : c ≠ a := by
        rintro rfl
        exact hc (List.find?_some h)
      have hcb : c ≠ b := by
        rintro rfl
        exact hc hp
      rw [idxOf_cons_ne _ hca, idxOf_cons_ne _ hcb]
      exact Nat.succ_le_succ (ih h ((mem_cons.mp hb).resolve_left hcb.symm))

theorem FirstPicks.admitted [∀ pre, DecidablePred (may pre)] {candidates pre picks : List α}
    (h : FirstPicks may candidates pre picks) : Picks may pre picks := by
  induction h with
  | nil => exact .nil
  | cons first _ ih =>
    have hmay := List.find?_some first
    rw [decide_eq_true_eq] at hmay
    exact .cons hmay ih

theorem FirstPicks.subset [∀ pre, DecidablePred (may pre)] {candidates pre picks : List α}
    (h : FirstPicks may candidates pre picks) : picks ⊆ candidates := by
  induction h with
  | nil => exact nil_subset _
  | cons first _ ih => exact cons_subset.mpr ⟨mem_of_find?_eq_some first, ih⟩

/-- **The first picks come first**: by their positions among the candidates, they are
lexicographically least. -/
theorem FirstPicks.le [DecidableEq α] [∀ pre, DecidablePred (may pre)] {candidates pre picks other : List α}
    (h : FirstPicks may candidates pre picks) (hoth : Picks may pre other) (hsub : other ⊆ candidates)
    (hlen : picks.length ≤ other.length) : LexLE (picks.map (candidates.idxOf ·)) (other.map (candidates.idxOf ·)) := by
  induction h generalizing other with
  | nil => exact not_lex_nil
  | @cons pre picks a first _ ih =>
    cases hoth with
    | nil => exact absurd hlen (Nat.not_succ_le_zero _)
    | @cons _ other b admitted hoth =>
      obtain ⟨hb, hsub⟩ := cons_subset.mp hsub
      have hle := idxOf_le_of_find?_eq_some first hb (by rw [decide_eq_true_eq]; exact admitted)
      rw [LexLE, map_cons, map_cons, cons_lex_cons_iff]
      rintro (hlt | ⟨heq, hlex⟩)
      · exact absurd hlt (Nat.not_lt_of_le hle)
      · obtain rfl : b = a := (idxOf_inj hb).mp heq
        exact ih hoth hsub (Nat.le_of_succ_le_succ hlen) hlex

theorem exists_ready {r : α → α → Prop} {l done : List α} (hacy : ∀ a, ¬ Relation.TransGen r a a)
    (hkn : ∀ a ∈ l, ∀ b, r a b → b ∈ l) {a : α} (ha : a ∈ l) (hleft : a ∉ done) :
    ∃ a ∈ l, a ∉ done ∧ ∀ b, r a b → b ∈ done := by
  let before : {a // a ∈ l} → {a // a ∈ l} → Prop := fun a b => Relation.TransGen r b a
  have htra : IsTrans {a // a ∈ l} before := ⟨fun _ _ _ hab hbc => Relation.TransGen.trans hbc hab⟩
  have hirr : Std.Irrefl before := ⟨fun a => hacy a⟩
  have hfin : Finite {a // a ∈ l} := finite_toSet l
  have hwf : WellFounded before := Finite.wellFounded_of_trans_of_irrefl before
  obtain ⟨⟨m, hm⟩, hmleft, hmin⟩ := hwf.has_min {a | a.1 ∉ done} ⟨⟨a, ha⟩, hleft⟩
  refine ⟨m, hm, hmleft, fun b hb => ?_⟩
  by_contra hbleft
  exact hmin ⟨b, hkn m hm b hb⟩ hbleft (.single hb)

end EasyPi
