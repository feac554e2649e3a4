/-
# Insertion-ordered maps

The map of JavaScript: a key is bound at most once, iteration follows the
order in which the keys were first set, setting a bound key keeps its place
and deleting it forgets the place. The map is its list of bindings together
with the proof that no key occurs twice.
-/
import Mathlib.Data.List.Nodup

namespace EasyPi

open List

/-- A finite map with its bindings in insertion order. -/
structure OrdMap (κ : Type*) (ν : Type*) where
  toList : List (κ × ν)
  nodup : (toList.map Prod.fst).Nodup

namespace OrdMap

variable {κ ν : Type*} [DecidableEq κ]

instance [DecidableEq ν] : DecidableEq (OrdMap κ ν) := fun a b =>
  decidable_of_iff (a.toList = b.toList) ⟨fun h => by cases a; cases b; simpa using h, fun h => h ▸ rfl⟩

instance : EmptyCollection (OrdMap κ ν) := ⟨⟨[], by simp⟩⟩

def single (k : κ) (v : ν) : OrdMap κ ν := ⟨[(k, v)], by simp⟩

def keys (m : OrdMap κ ν) : List κ := m.toList.map Prod.fst

def values (m : OrdMap κ ν) : List ν := m.toList.map Prod.snd

/-- `map.get(k)`. -/
def get? (m : OrdMap κ ν) (k : κ) : Option ν := m.toList.lookup k

/-- `map.has(k)`. -/
def has (m : OrdMap κ ν) (k : κ) : Bool := (m.get? k).isSome

/-- The bindings after `k` is set to `v`. -/
def setList (l : List (κ × ν)) (k : κ) (v : ν) : List (κ × ν) :=
  if k ∈ l.map Prod.fst then l.map fun p => if p.1 = k then (k, v) else p else l ++ [(k, v)]

theorem keys_setList (l : List (κ × ν)) (k : κ) (v : ν) :
    (setList l k v).map Prod.fst = if k ∈ l.map Prod.fst then l.map Prod.fst else l.map Prod.fst ++ [k] := by
  unfold setList
  split
  · rw [map_map]
    refine map_congr_left fun p _ => ?_
    by_cases h : p.1 = k <;> simp [h]
  · simp

variable {l : List (κ × ν)} {k : κ} {m : OrdMap κ ν}

theorem nodup_setList (hl : (l.map Prod.fst).Nodup) (k : κ) (v : ν) : ((setList l k v).map Prod.fst).Nodup := by
  rw [keys_setList]
  split
  · exact hl
  · rename_i h
    rw [nodup_append]
    refine ⟨hl, by simp, fun a ha b hb => ?_⟩
    rw [mem_singleton] at hb
    rintro rfl
    exact h (hb ▸ ha)

/-- `map.set(k, v)`. -/
def set (m : OrdMap κ ν) (k : κ) (v : ν) : OrdMap κ ν := ⟨setList m.toList k v, nodup_setList m.nodup k v⟩

/-- `map.delete(k)`. -/
def erase (m : OrdMap κ ν) (k : κ) : OrdMap κ ν :=
  ⟨m.toList.filter (fun p => p.1 ≠ k), m.nodup.sublist (filter_sublist.map _)⟩

/-! ### Lookups -/

@[simp] theorem get?_empty (k : κ) : (∅ : OrdMap κ ν).get? k = none := rfl

theorem lookup_map_update (l : List (κ × ν)) (k k' : κ) (v : ν) :
    (l.map fun p => if p.1 = k then (k, v) else p).lookup k' =
      if k' = k then (if k ∈ l.map Prod.fst then some v else none) else l.lookup k' := by
  induction l with
  | nil => simp
  | cons p l ih =>
    obtain ⟨a, b⟩ := p
    by_cases hak : a = k
    · subst hak
      by_cases hk : k' = a
      · simp [hk]
      · have hb : (k' == a) = false := by simpa using hk
        simp [List.lookup_cons, hb, ih, hk]
    · by_cases hk : k' = a
      · subst hk
        simp [hak]
      · have hb : (k' == a) = false := by simpa using hk
        simp only [map_cons, hak, if_false, List.lookup_cons, hb, ih, mem_cons, Ne.symm hak, false_or]

theorem lookup_append_single (l : List (κ × ν)) (k k' : κ) (v : ν) (h : k ∉ l.map Prod.fst) :
    (l ++ [(k, v)]).lookup k' = if k' = k then some v else l.lookup k' := by
  induction l with
  | nil =>
    by_cases hk : k' = k
    · simp [hk]
    · have hb : (k' == k) = false := by simpa using hk
      simp [List.lookup_cons, hb, hk]
  | cons p l ih =>
    obtain ⟨a, b⟩ := p
    simp only [map_cons, mem_cons, not_or] at h
    by_cases hk : k' = a
    · subst hk
      simp [Ne.symm h.1]
    · have hb : (k' == a) = false := by simpa using hk
      simp only [cons_append, List.lookup_cons, hb, ih h.2]

theorem lookup_setList (l : List (κ × ν)) (k k' : κ) (v : ν) :
    (setList l k v).lookup k' = if k' = k then some v else l.lookup k' := by
  unfold setList
  by_cases h : k ∈ l.map Prod.fst
  · simp only [if_pos h, lookup_map_update]
  · simp only [if_neg h, lookup_append_single _ _ _ _ h]

@[simp] theorem get?_set (m : OrdMap κ ν) (k k' : κ) (v : ν) :
    (m.set k v).get? k' = if k' = k then some v else m.get? k' :=
  lookup_setList m.toList k k' v

@[simp] theorem get?_erase (m : OrdMap κ ν) (k k' : κ) : (m.erase k).get? k' = if k' = k then none else m.get? k' := by
  unfold get? erase
  obtain ⟨l, hl⟩ := m
  simp only
  clear hl
  induction l with
  | nil => simp
  | cons p l ih =>
    obtain ⟨a, b⟩ := p
    by_cases hak : a = k
    · subst hak
      simp only [ne_eq, not_true_eq_false, decide_false, Bool.false_eq_true, not_false_eq_true, filter_cons_of_neg, ih]
      by_cases hk : k' = a
      · simp [hk]
      · have hb : (k' == a) = false := by simpa using hk
        simp [List.lookup_cons, hb, hk]
    · rw [filter_cons_of_pos (by simpa using hak)]
      by_cases hk : k' = a
      · subst hk
        simp [hak]
      · have hb : (k' == a) = false := by simpa using hk
        simp only [List.lookup_cons, hb, ih]

@[simp] theorem has_set (m : OrdMap κ ν) (k k' : κ) (v : ν) : (m.set k v).has k' = (decide (k' = k) || m.has k') := by
  by_cases h : k' = k <;> simp [has, h]

theorem mem_of_lookup {v : ν} (h : l.lookup k = some v) : (k, v) ∈ l := by
  obtain ⟨l₁, l₂, rfl, -⟩ := lookup_eq_some_iff.mp h
  simp

theorem lookup_of_mem (hl : (l.map Prod.fst).Nodup) {v : ν} (h : (k, v) ∈ l) : l.lookup k = some v := by
  induction l with
  | nil => simp at h
  | cons p l ih =>
    obtain ⟨a, b⟩ := p
    simp only [map_cons, nodup_cons] at hl
    by_cases hk : k = a
    · subst hk
      rcases mem_cons.mp h with h | h
      · simp [(Prod.mk.inj h).2]
      · exact absurd (mem_map.mpr ⟨_, h, rfl⟩) hl.1
    · have hb : (k == a) = false := by simpa using hk
      simp only [mem_cons, Prod.mk.injEq, hk, false_and, false_or] at h
      simp only [List.lookup_cons, hb, ih hl.2 h]

theorem lookup_eq_none_iff_notMem : l.lookup k = none ↔ k ∉ l.map Prod.fst := by
  simp only [lookup_eq_none_iff, bne_iff_ne, mem_map, not_exists, not_and]
  exact ⟨fun h p hp heq => h p hp heq.symm, fun h p hp heq => h p hp heq.symm⟩

theorem get?_eq_some_iff (m : OrdMap κ ν) (k : κ) (v : ν) : m.get? k = some v ↔ (k, v) ∈ m.toList :=
  ⟨mem_of_lookup, lookup_of_mem m.nodup⟩

theorem has_iff (m : OrdMap κ ν) (k : κ) : m.has k = true ↔ ∃ v, m.get? k = some v := Option.isSome_iff_exists

theorem has_iff_mem_keys (m : OrdMap κ ν) (k : κ) : m.has k = true ↔ k ∈ m.keys := by
  simp only [has, Option.isSome_iff_exists, get?_eq_some_iff, keys, mem_map, Prod.exists,
    exists_and_right, exists_eq_right]

theorem set_of_get? {v : ν} (h : m.get? k = some v) : m.set k v = m := by
  have hmem : (k, v) ∈ m.toList := mem_of_lookup h
  have hlist : setList m.toList k v = m.toList := by
    unfold setList
    rw [if_pos (mem_map_of_mem hmem)]
    refine (map_congr_left fun p hp => ?_).trans (map_id _)
    by_cases hk : p.1 = k
    · have hv : m.toList.lookup k = some p.2 := lookup_of_mem m.nodup (by rw [← hk]; exact hp)
      have : v = p.2 := Option.some.inj (h.symm.trans hv)
      rw [if_pos hk, this, ← hk]
      rfl
    · rw [if_neg hk]
      rfl
  cases m
  simp only [set, hlist]

theorem toList_set_of_get?_none (h : m.get? k = none) (v : ν) : (m.set k v).toList = m.toList ++ [(k, v)] := by
  have hk : k ∉ m.keys := fun hmem => by
    have := (has_iff_mem_keys m k).mpr hmem
    simp [has, h] at this
  simp only [set, setList]
  exact if_neg hk

omit [DecidableEq κ] in
theorem toList_injective {m m' : OrdMap κ ν} (h : m.toList = m'.toList) : m = m' := by
  cases m
  cases m'
  cases h
  rfl

theorem toList_foldl_set (h : (m.keys ++ l.map Prod.fst).Nodup) :
    (l.foldl (fun m p => m.set p.1 p.2) m).toList = m.toList ++ l := by
  induction l generalizing m with
  | nil => rw [append_nil, foldl_nil]
  | cons p l ih =>
    rw [map_cons, append_cons] at h
    have hp : m.get? p.1 = none := by
      refine lookup_eq_none_iff_notMem.mpr fun hmem => ?_
      exact (nodup_append.mp (nodup_append.mp h).1).2.2 p.1 hmem p.1 (by simp) rfl
    have hset := toList_set_of_get?_none hp p.2
    rw [foldl_cons, ih, hset, append_assoc, singleton_append]
    rw [keys, hset, map_append]
    exact h

theorem toList_erase (m : OrdMap κ ν) (k : κ) : (m.erase k).toList = m.toList.filter (fun p => p.1 ≠ k) := rfl

end OrdMap
end EasyPi
