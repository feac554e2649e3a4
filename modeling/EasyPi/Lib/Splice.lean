/-
# Replacing ranges of a text

A patch is a range of a text and the text for its place. Patches on disjoint ranges can be applied
at once (`replaced`, in no order), from the first to the last (`splice`), or from the last to the
first (`applyLast`); the results are the same.
-/
import Mathlib.Data.List.Basic
import Mathlib.Data.List.TakeDrop

namespace EasyPi

open List

/-- A range of a text, and the text for its place. -/
structure Patch (α : Type*) where
  start : ℕ
  length : ℕ
  text : List α

namespace Patch

variable {α : Type*}

def stop (p : Patch α) : ℕ := p.start + p.length

/-- Each range ends before the next one starts. -/
def Ordered (ps : List (Patch α)) : Prop := ps.Pairwise fun a b => a.stop ≤ b.start

def Within (first last : ℕ) (ps : List (Patch α)) : Prop := ∀ p ∈ ps, first ≤ p.start ∧ p.stop ≤ last

theorem start_le_stop (p : Patch α) : p.start ≤ p.stop := Nat.le_add_right _ _

theorem Ordered.tail {p : Patch α} {ps : List (Patch α)} (h : Ordered (p :: ps)) : Ordered ps := (pairwise_cons.mp h).2

theorem Ordered.within_tail {p : Patch α} {ps : List (Patch α)} {first last : ℕ}
    (h : Ordered (p :: ps)) (hw : Within first last (p :: ps)) : Within p.stop last ps :=
  fun q hq => ⟨(pairwise_cons.mp h).1 q hq, (hw q (mem_cons_of_mem p hq)).2⟩

end Patch

variable {α : Type*} {pos first last : ℕ} {ps qs : List (Patch α)} {p : Patch α} {a b t : List α}

/-- One patch of a text that starts at `offset`. -/
def applyPatch (offset : ℕ) (p : Patch α) (t : List α) : List α :=
  t.take (p.start - offset) ++ p.text ++ t.drop (p.start - offset + p.length)

/-- The patches of a text that starts at `offset`, from the last to the first. -/
def applyLast (offset : ℕ) (ps : List (Patch α)) (t : List α) : List α := ps.foldr (applyPatch offset) t

/-- The patches of a text that starts at `pos`, from the first to the last. -/
def splice : ℕ → List (Patch α) → List α → List α
  | _, [], t => t
  | pos, p :: ps, t => t.take (p.start - pos) ++ p.text ++ splice p.stop ps (t.drop (p.stop - pos))

def textsAt (ps : List (Patch α)) (pos : ℕ) : List α := (ps.filter fun p => p.start = pos).flatMap Patch.text

/-- The offset is in a range that is replaced. -/
def covered (ps : List (Patch α)) (pos : ℕ) : Bool := ps.any fun p => p.start ≤ pos && pos < p.stop

/-- The patches of a text that starts at `pos`, all at once. -/
def replaced (ps : List (Patch α)) : ℕ → List α → List α
  | pos, [] => textsAt ps pos
  | pos, c :: t =>
    textsAt ps pos ++ ((if covered ps pos then [] else [c]) ++ replaced ps (pos + 1) t)

@[simp] theorem splice_nil (pos : ℕ) (t : List α) : splice pos [] t = t := by
  unfold splice
  rfl

theorem splice_cons (pos : ℕ) (p : Patch α) (ps : List (Patch α)) (t : List α) :
    splice pos (p :: ps) t = t.take (p.start - pos) ++ p.text ++ splice p.stop ps (t.drop (p.stop - pos)) := by
  rw [splice]

theorem splice_keep (h : ∀ q ∈ qs, pos + a.length ≤ q.start) :
    splice pos qs (a ++ b) = a ++ splice (pos + a.length) qs b := by
  cases qs with
  | nil => rw [splice_nil, splice_nil]
  | cons q qs =>
    have hpre := h q mem_cons_self
    have hstop := q.start_le_stop
    rw [splice_cons, splice_cons, take_append, drop_append, take_of_length_le (show a.length ≤ q.start - pos by omega),
      drop_of_length_le (show a.length ≤ q.stop - pos by omega), nil_append, Nat.sub_sub q.start, Nat.sub_sub q.stop]
    simp only [append_assoc]

/-- **Two parts of a text** are patched apart. -/
theorem splice_append (ho : Patch.Ordered ps) (hw : Patch.Within pos (pos + a.length) ps)
    (hq : ∀ q ∈ qs, pos + a.length ≤ q.start) :
    splice pos (ps ++ qs) (a ++ b) = splice pos ps a ++ splice (pos + a.length) qs b := by
  induction ps generalizing pos a with
  | nil => rw [nil_append, splice_nil, splice_keep hq]
  | cons p ps ih =>
    obtain ⟨hpre, hstop⟩ := hw p mem_cons_self
    have hle := p.start_le_stop
    have hlen : p.stop + (a.drop (p.stop - pos)).length = pos + a.length := by
      rw [length_drop]
      omega
    have hrest := @ih p.stop (a.drop (p.stop - pos)) ho.tail
      (by rw [hlen]; exact ho.within_tail hw) (by rw [hlen]; exact hq)
    rw [cons_append, splice_cons, splice_cons, take_append_of_le_length (show p.start - pos ≤ a.length by omega),
      drop_append_of_le_length (show p.stop - pos ≤ a.length by omega), hrest, hlen]
    simp only [append_assoc]

theorem applyLast_keep (hk : pos + a.length ≤ first) (hw : Patch.Within first last ps) :
    applyLast pos ps (a ++ b) = a ++ applyLast (pos + a.length) ps b := by
  induction ps with
  | nil => rfl
  | cons p ps ih =>
    have hpre := (hw p mem_cons_self).1
    change applyPatch pos p (applyLast pos ps (a ++ b)) =
      a ++ applyPatch (pos + a.length) p (applyLast (pos + a.length) ps b)
    rw [ih fun q hq => hw q (mem_cons_of_mem p hq), applyPatch, applyPatch, take_append,
      drop_append, take_of_length_le (show a.length ≤ p.start - pos by omega),
      drop_of_length_le (show a.length ≤ p.start - pos + p.length by omega), nil_append,
      Nat.sub_sub, show p.start - pos + p.length - a.length = p.start - (pos + a.length) + p.length by
        omega]
    simp only [append_assoc]

/-- **From the last to the first** is from the first to the last. -/
theorem applyLast_eq_splice (ho : Patch.Ordered ps) (hw : Patch.Within pos (pos + t.length) ps) :
    applyLast pos ps t = splice pos ps t := by
  induction ps generalizing pos t with
  | nil => exact (splice_nil pos t).symm
  | cons p ps ih =>
    obtain ⟨hpre, hstop⟩ := hw p mem_cons_self
    have hle := p.start_le_stop
    have hstop' : p.stop - pos = p.start - pos + p.length := by
      unfold Patch.stop
      omega
    have hlen : (t.take (p.stop - pos)).length = p.stop - pos := by
      rw [length_take]
      omega
    have hlast : p.stop + (t.drop (p.stop - pos)).length = pos + t.length := by
      rw [length_drop]
      omega
    have htail := ho.within_tail hw
    have hkeep : applyLast pos ps t = t.take (p.stop - pos) ++ splice p.stop ps (t.drop (p.stop - pos)) := by
      rw [← ih ho.tail (by rw [hlast]; exact htail)]
      have h := @applyLast_keep _ pos _ _ _ (t.take (p.stop - pos)) (t.drop (p.stop - pos)) (by rw [hlen]; omega) htail
      rwa [take_append_drop, hlen, Nat.add_sub_cancel' (Nat.le_trans hpre hle)] at h
    change applyPatch pos p (applyLast pos ps t) = _
    rw [hkeep, splice_cons, applyPatch, ← hstop', take_append_of_le_length (by rw [hlen]; omega), take_take,
      Nat.min_eq_left (by omega), drop_append_of_le_length (Nat.le_of_eq hlen.symm),
      drop_of_length_le (Nat.le_of_eq hlen), nil_append]

/-! ### All at once -/

theorem textsAt_cons (p : Patch α) (ps : List (Patch α)) (pos : ℕ) :
    textsAt (p :: ps) pos = (if p.start = pos then p.text else []) ++ textsAt ps pos := by
  unfold textsAt
  by_cases h : p.start = pos
  · rw [filter_cons_of_pos (by simpa using h), flatMap_cons, if_pos h]
  · rw [filter_cons_of_neg (by simpa using h), if_neg h, nil_append]

theorem textsAt_eq_nil (h : ∀ p ∈ ps, pos < p.start) : textsAt ps pos = [] := by
  unfold textsAt
  rw [filter_eq_nil_iff.mpr fun p hp => by simpa using (Nat.ne_of_lt (h p hp)).symm]
  rfl

theorem covered_cons (p : Patch α) (ps : List (Patch α)) (pos : ℕ) :
    covered (p :: ps) pos = (decide (p.start ≤ pos) && decide (pos < p.stop) || covered ps pos) :=
  any_cons

theorem covered_eq_false (h : ∀ p ∈ ps, pos < p.start) : covered ps pos = false := by
  unfold covered
  rw [any_eq_false]
  intro p hp hcov
  rw [Bool.and_eq_true_iff, decide_eq_true_eq] at hcov
  exact absurd hcov.1 (Nat.not_le_of_lt (h p hp))

theorem replaced_over (hleng : 0 < p.length) (hpos : p.stop ≤ pos) : replaced (p :: ps) pos t = replaced ps pos t := by
  have hpre : p.start < p.stop := Nat.lt_add_of_pos_right hleng
  have htex : ∀ pos, p.stop ≤ pos → textsAt (p :: ps) pos = textsAt ps pos := by
    intro pos hpos
    rw [textsAt_cons, if_neg (by omega), nil_append]
  induction t generalizing pos with
  | nil => exact htex pos hpos
  | cons c t ih =>
    have hcov : covered (p :: ps) pos = covered ps pos := by
      rw [covered_cons, decide_eq_false (Nat.not_lt_of_le hpos), Bool.and_false, Bool.false_or]
    rw [replaced, replaced, htex pos hpos, hcov, ih (Nat.le_succ_of_le hpos)]

theorem replaced_inside (hpre : p.start < pos) (hpos : pos ≤ p.stop)
    (hlast : p.stop ≤ pos + t.length) (hps : ∀ q ∈ ps, p.stop ≤ q.start) :
    replaced (p :: ps) pos t = replaced ps p.stop (t.drop (p.stop - pos)) := by
  have hleng : 0 < p.length := by
    unfold Patch.stop at hpos
    omega
  induction t generalizing pos with
  | nil =>
    obtain rfl : pos = p.stop := Nat.le_antisymm hpos hlast
    rw [replaced_over hleng (Nat.le_refl _), drop_nil]
  | cons c t ih =>
    rcases Nat.lt_or_eq_of_le hpos with hlt | rfl
    · have htex : textsAt (p :: ps) pos = [] := by
        rw [textsAt_cons, if_neg (by omega), nil_append, textsAt_eq_nil fun q hq => Nat.lt_of_lt_of_le hlt (hps q hq)]
      have hcov : covered (p :: ps) pos = true := by
        rw [covered_cons, decide_eq_true (Nat.le_of_lt hpre), decide_eq_true hlt]
        rfl
      rw [replaced, htex, hcov, if_pos rfl, nil_append, nil_append,
        ih (Nat.lt_succ_of_lt hpre) hlt (by rw [length_cons] at hlast; omega),
        show p.stop - pos = (p.stop - (pos + 1)) + 1 by omega, drop_succ_cons]
    · rw [replaced_over hleng (Nat.le_refl _), Nat.sub_self, drop_zero]

/-- **All at once** is from the first to the last. -/
theorem replaced_eq_splice (hne : ∀ p ∈ ps, 0 < p.length) (ho : Patch.Ordered ps)
    (hw : Patch.Within pos (pos + t.length) ps) : replaced ps pos t = splice pos ps t := by
  induction ps generalizing pos t with
  | nil =>
    rw [splice_nil]
    induction t generalizing pos with
    | nil => rfl
    | cons c t ih =>
      change c :: replaced [] (pos + 1) t = c :: t
      rw [ih fun p hp => absurd hp not_mem_nil]
  | cons p ps ih =>
    have hleng := hne p mem_cons_self
    have hlt : p.start < p.stop := Nat.lt_add_of_pos_right hleng
    have hps : ∀ q ∈ ps, p.stop ≤ q.start := (pairwise_cons.mp ho).1
    have hrest : ∀ (pos : ℕ) (t : List α), pos ≤ p.stop → p.stop ≤ pos + t.length →
        Patch.Within p.stop (pos + t.length) ps →
        replaced ps p.stop (t.drop (p.stop - pos)) = splice p.stop ps (t.drop (p.stop - pos)) := by
      intro pos t hpos hlast hwit
      refine ih (fun q hq => hne q (mem_cons_of_mem p hq)) ho.tail ?_
      rw [length_drop, show p.stop + (t.length - (p.stop - pos)) = pos + t.length by omega]
      exact hwit
    obtain ⟨hpre, hstop⟩ := hw p mem_cons_self
    induction t generalizing pos with
    | nil =>
      rw [length_nil] at hstop
      omega
    | cons c t iht =>
      rw [length_cons] at hstop
      rcases Nat.lt_or_eq_of_le hpre with hbef | rfl
      · -- the first patch starts later
        have hall : ∀ q ∈ p :: ps, pos < q.start := by
          intro q hq
          rcases mem_cons.mp hq with rfl | hq
          · exact hbef
          · have := hps q hq
            omega
        have hw' : Patch.Within (pos + 1) (pos + 1 + t.length) (p :: ps) := by
          intro q hq
          have := (hw q hq).2
          rw [length_cons] at this
          exact ⟨hall q hq, by omega⟩
        rw [replaced, textsAt_eq_nil hall, covered_eq_false hall, iht hw' hbef (by omega),
          splice_cons, splice_cons, show p.start - pos = (p.start - (pos + 1)) + 1 by omega,
          show p.stop - pos = (p.stop - (pos + 1)) + 1 by omega]
        rfl
      · -- its range starts here
        have htex : textsAt (p :: ps) p.start = p.text := by
          rw [textsAt_cons, if_pos rfl, textsAt_eq_nil fun q hq => Nat.lt_of_lt_of_le hlt (hps q hq), append_nil]
        have hcov : covered (p :: ps) p.start = true := by
          rw [covered_cons, decide_eq_true (Nat.le_refl _), decide_eq_true hlt]
          rfl
        have hwit := ho.within_tail hw
        rw [replaced, htex, hcov, if_pos rfl, nil_append,
          replaced_inside (Nat.lt_succ_self _) hlt (by omega) hps, splice_cons, Nat.sub_self,
          take_zero, nil_append, ← hrest p.start (c :: t) (Nat.le_of_lt hlt) hstop hwit,
          show p.stop - p.start = (p.stop - (p.start + 1)) + 1 by omega, drop_succ_cons]

/-- **The order of the patches** does not count, when no two start at the same offset. -/
theorem replaced_perm (h : ps.Perm qs) (hpre : ps.Pairwise fun a b => a.start ≠ b.start) :
    replaced ps pos t = replaced qs pos t := by
  have hcov : ∀ pos, covered ps pos = covered qs pos := fun pos => by
    unfold covered
    rw [Bool.eq_iff_iff, any_eq_true, any_eq_true]
    exact exists_congr fun p => and_congr_left fun _ => h.mem_iff
  have htex : ∀ pos, textsAt ps pos = textsAt qs pos := by
    intro pos
    have hfil := h.filter fun p => decide (p.start = pos)
    have hpairs := hpre.filter fun p => decide (p.start = pos)
    have hpairs' := (h.pairwise_iff fun h => Ne.symm h).mp hpre |>.filter fun p => decide (p.start = pos)
    unfold textsAt
    rw [hfil.eq_of_pairwise (fun a b ha hb hab _ => absurd ?_ hab) hpairs hpairs']
    rw [of_decide_eq_true (mem_filter.mp ha).2, of_decide_eq_true (mem_filter.mp hb).2]
  induction t generalizing pos with
  | nil => exact htex pos
  | cons c t ih => rw [replaced, replaced, htex, hcov, ih]

end EasyPi
