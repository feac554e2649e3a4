/-
# Forests by parent links

Nodes in a list, each with an id, an optional parent id and a sequence
number. In a well-formed forest ids are distinct, nodes are listed by
increasing sequence number and a parent is present and older than its child.
Then every node has exactly one path from a root, and the path of an ancestor
is the part of the path up to the ancestor's number.
-/
import Mathlib.Algebra.Order.BigOperators.Group.List
import Mathlib.Algebra.Order.Group.Nat
import Mathlib.Data.List.Chain
import Mathlib.Data.List.Nodup
import Mathlib.Order.Basic

namespace EasyPi.Forest

open List

variable {α κ : Type*} (id : α → κ) (parent : α → Option κ) (seq : α → ℕ)

/-- Ids are distinct, numbers increase, parents are present and older. -/
structure WF (nodes : List α) : Prop where
  nodup : (nodes.map id).Nodup
  sorted : nodes.Pairwise (fun a b => seq a < seq b)
  parent_mem : ∀ a ∈ nodes, ∀ k, parent a = some k → ∃ p ∈ nodes, id p = k ∧ seq p < seq a

/-- The path from a root to a node, both included. -/
inductive RootPath (nodes : List α) : α → List α → Prop
  | root {a : α} (ha : a ∈ nodes) (hp : parent a = none) : RootPath nodes a [a]
  | child {p a : α} {path : List α} (h : RootPath nodes p path) (ha : a ∈ nodes)
      (hp : parent a = some (id p)) : RootPath nodes a (path ++ [a])

/-- No node has `a` as its parent. -/
def Childless (nodes : List α) (a : α) : Prop := ∀ c ∈ nodes, parent c ≠ some (id a)

variable {id parent seq} {nodes : List α} {a : α} {path : List α}

theorem WF.eq_of_id (h : WF id parent seq nodes) {a b : α} (ha : a ∈ nodes) (hb : b ∈ nodes)
    (hid : id a = id b) : a = b :=
  inj_on_of_nodup_map h.nodup ha hb hid

theorem WF.append (h : WF id parent seq nodes) (hid : ∀ b ∈ nodes, id b ≠ id a) (hseq : ∀ b ∈ nodes, seq b < seq a)
    (hpar : ∀ k, parent a = some k → ∃ p ∈ nodes, id p = k) : WF id parent seq (nodes ++ [a]) where
  nodup := by
    simp only [map_append, map_cons, map_nil]
    refine nodup_append.mpr ⟨h.nodup, by simp, fun k hk l hl => ?_⟩
    obtain ⟨b, hb, rfl⟩ := mem_map.mp hk
    rw [mem_singleton.mp hl]
    exact hid b hb
  sorted := by
    refine pairwise_append.mpr ⟨h.sorted, by simp, fun b hb c hc => ?_⟩
    rw [mem_singleton.mp hc]
    exact hseq b hb
  parent_mem b hb k hk := by
    rcases mem_append.mp hb with hb | hb
    · obtain ⟨p, hp, hpk, hlt⟩ := h.parent_mem b hb k hk
      exact ⟨p, mem_append_left _ hp, hpk, hlt⟩
    · rw [mem_singleton.mp hb] at hk ⊢
      obtain ⟨p, hp, hpk⟩ := hpar k hk
      exact ⟨p, mem_append_left _ hp, hpk, hseq p hp⟩

theorem WF.of_append (h : WF id parent seq (nodes ++ [a])) :
    WF id parent seq nodes ∧ (∀ b ∈ nodes, id b ≠ id a) ∧ ∀ k, parent a = some k → ∃ p ∈ nodes, id p = k := by
  have hlt : ∀ b ∈ nodes, seq b < seq a := fun b hb =>
    (pairwise_append.mp h.sorted).2.2 b hb a (by simp)
  have hnd : ((nodes.map id) ++ [id a]).Nodup := by simpa using h.nodup
  refine ⟨⟨(nodup_append.mp hnd).1, (pairwise_append.mp h.sorted).1, ?_⟩, ?_, ?_⟩
  · intro b hb k hk
    obtain ⟨p, hp, hpk, hpb⟩ := h.parent_mem b (mem_append_left _ hb) k hk
    rcases mem_append.mp hp with hp | hp
    · exact ⟨p, hp, hpk, hpb⟩
    · rw [mem_singleton.mp hp] at hpb
      exact absurd (hpb.trans (hlt b hb)) (lt_irrefl _)
  · exact fun b hb => (nodup_append.mp hnd).2.2 _ (mem_map_of_mem hb) _ (by simp)
  · intro k hk
    obtain ⟨p, hp, hpk, hpa⟩ := h.parent_mem a (by simp) k hk
    rcases mem_append.mp hp with hp | hp
    · exact ⟨p, hp, hpk⟩
    · rw [mem_singleton.mp hp] at hpa
      exact absurd hpa (lt_irrefl _)

/-! ### Paths -/

section
variable (h : RootPath id parent nodes a path)
include h

theorem RootPath.ne_nil : path ≠ [] := by
  cases h <;> simp

theorem RootPath.mem : a ∈ nodes := by
  cases h <;> assumption

theorem RootPath.self_mem : a ∈ path := by
  cases h <;> simp

theorem RootPath.subset : ∀ b ∈ path, b ∈ nodes := by
  induction h with
  | root ha _ => simpa using ha
  | child _ ha _ ih =>
    intro b hb
    rcases mem_append.mp hb with hb | hb
    · exact ih b hb
    · rwa [mem_singleton.mp hb]

end

theorem RootPath.mono {nodes' : List α} (hsub : ∀ b ∈ nodes, b ∈ nodes')
    (h : RootPath id parent nodes a path) : RootPath id parent nodes' a path := by
  induction h with
  | root ha hp => exact .root (hsub _ ha) hp
  | child _ ha hp ih => exact .child ih (hsub _ ha) hp

theorem RootPath.map {β : Type*} {id' : β → κ} {parent' : β → Option κ} (f : α → β)
    (hid : ∀ a, id' (f a) = id a) (hpar : ∀ a, parent' (f a) = parent a)
    (h : RootPath id parent nodes a path) : RootPath id' parent' (nodes.map f) (f a) (path.map f) := by
  induction h with
  | root ha hp => exact .root (mem_map_of_mem ha) ((hpar _).trans hp)
  | child _ ha hp ih =>
    rw [map_append]
    exact .child ih (mem_map_of_mem ha) (by rw [hpar, hid]; exact hp)

theorem WF.exists_path (h : WF id parent seq nodes) (ha : a ∈ nodes) : ∃ path, RootPath id parent nodes a path := by
  induction hn : seq a using Nat.strong_induction_on generalizing a with
  | _ n ih =>
    cases hp : parent a with
    | none => exact ⟨_, .root ha hp⟩
    | some k =>
      obtain ⟨p, hpm, hid, hlt⟩ := h.parent_mem a ha k hp
      obtain ⟨path, hpath⟩ := ih (seq p) (hn ▸ hlt) hpm rfl
      exact ⟨_, .child hpath ha (hid ▸ hp)⟩

section
variable (hwf : WF id parent seq nodes)
include hwf

variable (h : RootPath id parent nodes a path)

include h in
theorem RootPath.unique {path' : List α} (h' : RootPath id parent nodes a path') : path = path' := by
  induction h generalizing path' with
  | root ha hp =>
    cases h' with
    | root => rfl
    | child _ _ hp' => rw [hp] at hp'; cases hp'
  | child h ha hp ih =>
    cases h' with
    | root _ hp' => rw [hp] at hp'; cases hp'
    | child h' _ hp' =>
      have heq := hwf.eq_of_id h.mem h'.mem (Option.some.inj (hp.symm.trans hp'))
      subst heq
      rw [ih h']

include h in
theorem RootPath.seq_le : ∀ b ∈ path, seq b ≤ seq a := by
  induction h with
  | root => simp
  | @child p a path h ha hp ih =>
    obtain ⟨p', hp', hid, hlt⟩ := hwf.parent_mem a ha _ hp
    rw [hwf.eq_of_id hp' h.mem hid] at hlt
    intro b hb
    rcases mem_append.mp hb with hb | hb
    · exact ((ih b hb).trans_lt hlt).le
    · rw [mem_singleton.mp hb]

include h in
theorem RootPath.sorted : path.Pairwise (fun a b => seq a < seq b) := by
  induction h with
  | root => simp
  | @child p a path h ha hp ih =>
    obtain ⟨p', hp', hid, hlt⟩ := hwf.parent_mem a ha _ hp
    rw [hwf.eq_of_id hp' h.mem hid] at hlt
    refine pairwise_append.mpr ⟨ih, by simp, fun b hb c hc => ?_⟩
    rw [mem_singleton.mp hc]
    exact (h.seq_le hwf b hb).trans_lt hlt

end

variable (h : RootPath id parent nodes a path)

include h in
theorem RootPath.isChain : path.IsChain (fun p c => parent c = some (id p)) ∧ path.getLast? = some a := by
  induction h with
  | root => simp
  | child h ha hp ih =>
    refine ⟨isChain_append.mpr ⟨ih.1, by simp, fun x hx y hy => ?_⟩, by simp⟩
    rw [ih.2, Option.mem_some_iff] at hx
    simp only [List.head?_cons, Option.mem_some_iff] at hy
    rw [← hx, ← hy]
    exact hp

include h in
theorem RootPath.head_root : ∀ r ∈ path.head?, parent r = none := by
  induction h with
  | root ha hp => simpa using hp
  | child h ha hp ih => rwa [List.head?_append_of_ne_nil _ h.ne_nil]

section
variable (hwf : WF id parent seq nodes) (h : RootPath id parent nodes a path)
include hwf h

theorem RootPath.ancestor {b : α} (hb : b ∈ path) : RootPath id parent nodes b (path.filter (seq · ≤ seq b)) := by
  induction h with
  | root ha hp =>
    rw [mem_singleton.mp hb]
    simpa using RootPath.root ha hp
  | @child p a path h ha hp ih =>
    have hself := RootPath.child h ha hp
    rcases mem_append.mp hb with hb | hb
    · -- the last node is younger than `b`, so it is filtered out
      have hlt : seq b < seq a := (pairwise_append.mp (hself.sorted hwf)).2.2 b hb a (by simp)
      rw [filter_append, filter_cons_of_neg (by simpa using hlt), filter_nil, append_nil]
      exact ih hb
    · rw [mem_singleton.mp hb, filter_eq_self.mpr]
      · exact hself
      · simpa using hself.seq_le hwf

theorem RootPath.parent_mem {b q : α} (hb : b ∈ path) (hq : q ∈ nodes) (hp : parent b = some (id q)) : q ∈ path := by
  induction h with
  | root ha hroot =>
    rw [mem_singleton.mp hb, hroot] at hp
    cases hp
  | child h ha hp' ih =>
    refine mem_append_left _ ?_
    rcases mem_append.mp hb with hb | hb
    · exact ih hb
    · rw [mem_singleton.mp hb, hp'] at hp
      rw [← hwf.eq_of_id h.mem hq (Option.some.inj hp)]
      exact h.self_mem

theorem RootPath.wf : WF id parent seq path where
  nodup := by
    refine pairwise_map.mpr ((h.sorted hwf).imp_of_mem fun ha hb hlt hid => ?_)
    rw [hwf.eq_of_id (h.subset _ ha) (h.subset _ hb) hid] at hlt
    exact lt_irrefl _ hlt
  sorted := h.sorted hwf
  parent_mem b hb k hk := by
    obtain ⟨p, hp, hid, hlt⟩ := hwf.parent_mem b (h.subset b hb) k hk
    exact ⟨p, h.parent_mem hwf hb hp (hid ▸ hk), hid, hlt⟩

end

theorem WF.exists_tip (h : WF id parent seq nodes) (ha : a ∈ nodes) :
    ∃ tip path, Childless id parent nodes tip ∧ RootPath id parent nodes tip path ∧ a ∈ path := by
  -- a child is younger than `a`, and numbers are bounded by the last one
  obtain ⟨bound, hbd⟩ : ∃ bound, ∀ c ∈ nodes, seq c ≤ bound :=
    ⟨(nodes.map seq).sum, fun c hc => le_sum_of_mem (mem_map_of_mem hc)⟩
  induction hn : bound - seq a using Nat.strong_induction_on generalizing a with
  | _ n ih =>
    by_cases hc : Childless id parent nodes a
    · obtain ⟨path, hpath⟩ := h.exists_path ha
      exact ⟨a, path, hc, hpath, hpath.self_mem⟩
    · unfold Childless at hc
      push Not at hc
      obtain ⟨c, hcm, hcp⟩ := hc
      obtain ⟨p, hp, hid, hlt⟩ := h.parent_mem c hcm _ hcp
      rw [h.eq_of_id hp ha hid] at hlt
      have := hbd c hcm
      obtain ⟨tip, path, htip, hpath, hmem⟩ := ih (bound - seq c) (by omega) hcm rfl
      exact ⟨tip, path, htip, hpath, hpath.parent_mem h hmem ha hcp⟩

end EasyPi.Forest
