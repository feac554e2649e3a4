/-
# Lists in key order

Rows listed by a strictly increasing key: sorting them again changes nothing,
sorting them the other way reverses them, and cutting them at the first row
with a property is a comparison with that row's key. These are the facts that
relate a scan of a list to an ordered, bounded query over a table.
-/
import Mathlib.Data.List.Count
import Mathlib.Data.List.Flatten
import Mathlib.Data.List.Induction
import Mathlib.Data.List.Nodup
import Mathlib.Data.List.Pairwise
import Mathlib.Data.List.Sort
import Mathlib.Order.Basic

namespace EasyPi

open List

variable {α : Type*}

/-- The items up to the first one with `p`, that one included. -/
def takeUntil (p : α → Bool) : List α → List α
  | [] => []
  | x :: xs => if p x then [x] else x :: takeUntil p xs

variable {l : List α} {p : α → Bool}

theorem takeUntil_of_forall_not (h : ∀ x ∈ l, p x = false) : takeUntil p l = l := by
  induction l with
  | nil => rfl
  | cons x xs ih =>
    have hx : p x = false := h x (by simp)
    simp [takeUntil, hx, ih fun y hy => h y (by simp [hy])]

theorem prefix_takeUntil (p : α → Bool) (l : List α) : takeUntil p l <+: l := by
  induction l with
  | nil => exact prefix_rfl
  | cons x xs ih =>
    rw [takeUntil]
    split_ifs
    · exact ⟨xs, rfl⟩
    · exact (prefix_cons_inj x).mpr ih

theorem takeUntil_map {β : Type*} (p : β → Bool) (f : α → β) (l : List α) :
    takeUntil p (l.map f) = (takeUntil (fun a => p (f a)) l).map f := by
  induction l with
  | nil => rfl
  | cons a l ih =>
    rw [map_cons, takeUntil, takeUntil, ih]
    split_ifs <;> rfl

theorem filter_suffix (h : l.Pairwise fun a b => p a → p b) : l.filter p <:+ l := by
  induction l with
  | nil => exact suffix_rfl
  | cons x xs ih =>
    obtain ⟨hx, hxs⟩ := pairwise_cons.mp h
    by_cases hp : p x
    · have hall : (x :: xs).filter p = x :: xs := filter_eq_self.mpr fun b hb => by
        rcases mem_cons.mp hb with rfl | hb
        · exact hp
        · exact hx b hb hp
      exact ⟨[], by rw [nil_append, hall]⟩
    · rw [filter_cons_of_neg hp]
      exact (ih hxs).trans (suffix_cons x xs)

section Distinct

variable {κ : Type*} [DecidableEq κ] {key : α → κ} {l : List α} {a : α}

theorem filter_key_eq (h : (l.map key).Nodup) (ha : a ∈ l) : l.filter (fun b => key b = key a) = [a] := by
  classical
  have hiff : ∀ b ∈ l, decide (key b = key a) = decide (b = a) := fun b hb =>
    decide_eq_decide.mpr ⟨fun he => inj_on_of_nodup_map h hb ha he, fun he => he ▸ rfl⟩
  rw [filter_congr hiff, filter_eq, count_eq_one_of_mem h.of_map ha, replicate_one]

theorem find?_key_eq (h : (l.map key).Nodup) (ha : a ∈ l) : l.find? (fun b => key b = key a) = some a := by
  rw [← List.head?_filter, filter_key_eq h ha, List.head?_cons]

end Distinct

theorem mergeSort_eq_of_perm {le : α → α → Bool} (htra : ∀ a b c, le a b → le b c → le a c)
    (htot : ∀ a b, le a b || le b a) {l l' : List α} (hp : l.Perm l')
    (h : l'.Pairwise fun a b => le b a = false) : l.mergeSort le = l' := by
  have hle : l'.Pairwise fun a b => le a b = true := h.imp fun {a b} hab => by
    simpa [hab] using htot a b
  refine List.Perm.eq_of_pairwise (fun a b ha hb hab hba => ?_)
    (pairwise_mergeSort htra htot l) hle ((mergeSort_perm l le).trans hp)
  by_contra hne
  have : Std.Symm fun a b => le b a = false ∨ le a b = false := ⟨fun _ _ => Or.symm⟩
  have hsym : l'.Pairwise fun a b => le b a = false ∨ le a b = false := h.imp Or.inl
  have hlt := hsym.forall (hp.mem_iff.mp (mem_mergeSort.mp ha)) hb hne
  simp [hab, hba] at hlt

variable (key : α → ℕ)

theorem mergeSort_asc {l l' : List α} (hp : l.Perm l') (h : l'.Pairwise fun a b => key a < key b) :
    l.mergeSort (fun a b => key a ≤ key b) = l' :=
  mergeSort_eq_of_perm (by simp; omega) (by simp; omega) hp (h.imp fun hab => by simpa using hab)

theorem mergeSort_desc {l l' : List α} (hp : l.Perm l') (h : l'.Pairwise fun a b => key a < key b) :
    l.mergeSort (fun a b => key a ≥ key b) = l'.reverse :=
  mergeSort_eq_of_perm (by simp; omega) (by simp; omega) (hp.trans (reverse_perm l').symm)
    (pairwise_reverse.mpr (h.imp fun hab => by simpa using hab))

/-! ### Cutting at the first row -/

theorem filter_le_min (p : α → Bool) (h : l.Pairwise fun a b => key a < key b)
    (last : ℕ) (hlast : ∀ x ∈ l, key x ≤ last) :
    l.filter (fun x => key x ≤ ((l.filter p).map key).min?.getD last) = takeUntil p l := by
  induction l with
  | nil => rfl
  | cons x xs ih =>
    obtain ⟨hx, hxs⟩ := pairwise_cons.mp h
    by_cases hp : p x
    · have hmin : (((x :: xs).filter p).map key).min? = some (key x) := by
        rw [List.min?_eq_some_iff]
        refine ⟨by simp [hp], fun b hb => ?_⟩
        obtain ⟨y, hy, rfl⟩ := mem_map.mp hb
        rcases mem_cons.mp (mem_filter.mp hy).1 with rfl | hy
        · exact le_rfl
        · exact (hx y hy).le
      rw [hmin, Option.getD_some, filter_cons_of_pos (by simp), takeUntil, if_pos hp,
        filter_eq_nil_iff.mpr fun y hy => by simpa using hx y hy]
    · have hle : key x ≤ ((xs.filter p).map key).min?.getD last := by
        cases hmin : ((xs.filter p).map key).min? with
        | none => exact hlast x (by simp)
        | some m =>
          obtain ⟨y, hy, rfl⟩ := mem_map.mp (List.min?_mem hmin)
          exact (hx y (mem_filter.mp hy).1).le
      have hf : (x :: xs).filter p = xs.filter p := by simp [hp]
      rw [hf, filter_cons_of_pos (by simpa using hle), ih hxs fun y hy => hlast y (by simp [hy]), takeUntil, if_neg hp]

theorem filter_ge_max (p : α → Bool) (h : l.Pairwise fun a b => key a < key b) :
    (l.filter (fun x => key x ≥ ((l.filter p).map key).max?.getD 0)).reverse = takeUntil p l.reverse := by
  induction l using List.reverseRecOn with
  | nil => rfl
  | append_singleton xs x ih =>
    obtain ⟨hxs, -, hx⟩ := pairwise_append.mp h
    replace hx : ∀ y ∈ xs, key y < key x := fun y hy => hx y hy x (by simp)
    rw [reverse_append, reverse_singleton, singleton_append, takeUntil]
    by_cases hp : p x
    · have hmax : (((xs ++ [x]).filter p).map key).max? = some (key x) := by
        rw [List.max?_eq_some_iff]
        refine ⟨by simp [hp], fun b hb => ?_⟩
        obtain ⟨y, hy, rfl⟩ := mem_map.mp hb
        rcases mem_append.mp (mem_filter.mp hy).1 with hy | hy
        · exact (hx y hy).le
        · rw [mem_singleton.mp hy]
      rw [hmax, Option.getD_some, filter_append, filter_eq_nil_iff.mpr fun y hy => by simpa using hx y hy, if_pos hp]
      simp
    · have hge : key x ≥ ((xs.filter p).map key).max?.getD 0 := by
        cases hmax : ((xs.filter p).map key).max? with
        | none => exact Nat.zero_le _
        | some m =>
          obtain ⟨y, hy, rfl⟩ := mem_map.mp (List.max?_mem hmax)
          exact (hx y (mem_filter.mp hy).1).le
      have hf : (xs ++ [x]).filter p = xs.filter p := by simp [hp]
      rw [hf, filter_append, filter_cons_of_pos (by simpa using hge), filter_nil,
        reverse_append, reverse_singleton, singleton_append, ih hxs, if_neg hp]

/-! ### Merging the parts of a list -/

section Parts

theorem mem_take_filter {n : ℕ} {x : α} (hx : x ∈ l.take n) (hp : p x) : x ∈ (l.filter p).take n := by
  induction l generalizing n with
  | nil => simp at hx
  | cons y l ih =>
    cases n with
    | zero => simp at hx
    | succ n =>
      rw [take_succ_cons] at hx
      by_cases hy : p y
      · rw [filter_cons_of_pos hy, take_succ_cons]
        rcases mem_cons.mp hx with rfl | hx
        · simp
        · exact mem_cons_of_mem _ (ih hx)
      · rw [filter_cons_of_neg hy]
        rcases mem_cons.mp hx with rfl | hx
        · exact absurd hp hy
        · exact (take_prefix_take_left n.le_succ).subset (ih hx)

theorem take_eq_of_sublist {l l' : List α} (h : l'.Sublist l) (hl : l.Nodup) {n : ℕ}
    (hmem : ∀ x ∈ l.take n, x ∈ l') : l'.take n = l.take n := by
  induction h generalizing n with
  | slnil => rfl
  | @cons l' l a hsub ih =>
    cases n with
    | zero => rfl
    | succ n => exact absurd (hsub.subset (hmem a (by simp))) (nodup_cons.mp hl).1
  | @cons_cons l' l a hsub ih =>
    cases n with
    | zero => rfl
    | succ n =>
      rw [take_succ_cons, take_succ_cons, ih (nodup_cons.mp hl).2 fun x hx => ?_]
      have hne : x ≠ a := fun he => (nodup_cons.mp hl).1 (he ▸ mem_of_mem_take hx)
      exact (mem_cons.mp (hmem x (by simp [hx]))).resolve_left hne

variable {ι : Type*} [DecidableEq ι] (part : α → ι)

theorem flatMap_filter_perm (l : List α) {parts : List ι} (hpts : parts.Nodup) :
    (parts.flatMap fun i => l.filter fun x => part x = i).Perm (l.filter fun x => part x ∈ parts) := by
  induction parts with
  | nil => simp
  | cons i parts ih =>
    obtain ⟨hi, hpts⟩ := nodup_cons.mp hpts
    rw [flatMap_cons]
    refine ((ih hpts).append_left _).trans ?_
    have hspl := filter_append_perm (fun x => decide (part x = i)) (l.filter fun x => part x ∈ i :: parts)
    rw [filter_filter, filter_filter] at hspl
    refine List.Perm.trans (.of_eq ?_) hspl
    congr 1
    · exact filter_congr fun x _ => by simp; tauto
    · refine filter_congr fun x _ => ?_
      rw [Bool.eq_iff_iff]
      simp only [decide_eq_true_eq, Bool.and_eq_true, Bool.not_eq_true', decide_eq_false_iff_not, mem_cons]
      constructor
      · exact fun hx => ⟨fun he => hi (he ▸ hx), Or.inr hx⟩
      · exact fun hx => hx.2.resolve_left hx.1

theorem take_mergeSort_parts {key : α → ℕ} (h : l.Pairwise fun a b => key a < key b) {parts : List ι} (hpts : parts.Nodup)
    (hmem : ∀ x ∈ l, part x ∈ parts) (n : ℕ) : ((parts.flatMap fun i => (l.filter fun x => part x = i).take n).mergeSort
      fun a b => key a ≤ key b).take n = l.take n := by
  have hnd : l.Nodup := h.imp fun hab he => by rw [he] at hab; exact lt_irrefl _ hab
  have hsub : (parts.flatMap fun i => (l.filter fun x => part x = i).take n).Subperm l := by
    have hperm := flatMap_filter_perm part l hpts
    rw [filter_eq_self.mpr fun x hx => decide_eq_true (hmem x hx)] at hperm
    refine List.Subperm.trans (List.Sublist.subperm ?_) hperm.subperm
    exact List.Sublist.flatMap_right _ fun i _ => take_sublist _ _
  obtain ⟨l', hl', hlsub⟩ := hsub
  rw [mergeSort_asc key hl'.symm (h.sublist hlsub)]
  refine take_eq_of_sublist hlsub hnd fun x hx => hl'.mem_iff.mpr ?_
  exact mem_flatMap.mpr ⟨part x, hmem x (mem_of_mem_take hx), mem_take_filter hx (by simp)⟩

end Parts

end EasyPi
