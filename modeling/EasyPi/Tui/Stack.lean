/-
# Stack space

`distribute` and `allocateStackSizes` (`packages/tui/src/components/stack.ts`). Every entry starts from its
basis, put between its limits; what is left over or lacking is handed out in rounds, by weight, to the entries
that can still take some. Quotients are exact, and a basis is a finite number.
-/
import Mathlib.Algebra.BigOperators.Group.List.Basic
import Mathlib.Algebra.Order.Group.Int
import Mathlib.Data.List.Forall2
import Mathlib.Data.Rat.Floor
import Mathlib.Tactic.Common

namespace EasyPi.Tui.Stack

open List

inductive Basis where
  | auto
  | size (value : ℚ)

def maxSafeInteger : ℕ := 2 ^ 53 - 1

/-- What sizes an entry: numbers as `addChild` leaves them, with `minSize` at most `maxSize`. -/
structure StackLayoutEntry where
  basis : Option Basis := none
  grow : Option ℕ := none
  shrink : Option ℕ := none
  minSize : Option ℕ := none
  maxSize : Option ℕ := none
  min_le_max : minSize.getD 0 ≤ maxSize.getD maxSafeInteger := by decide

inductive Mode where
  | grow
  | shrink

/-- How far a mode takes an entry: `maxSize` or `minSize`. -/
def limit : Mode → StackLayoutEntry → ℕ
  | .grow, entry => entry.maxSize.getD maxSafeInteger
  | .shrink, entry => entry.minSize.getD 0

def clampSize (size : ℚ) (entry : StackLayoutEntry) : ℕ :=
  let min' := limit .shrink entry
  let max' := max min' (limit .grow entry)
  max min' (min max' ⌊size⌋.toNat)

/-- An entry with its size so far. -/
abbrev Slot := StackLayoutEntry × ℕ

def factor : Mode → StackLayoutEntry → ℕ
  | .grow, entry => entry.grow.getD 0
  | .shrink, entry => entry.shrink.getD 1

def capacity : Mode → Slot → ℕ
  | .grow, (entry, size) => limit .grow entry - size
  | .shrink, (entry, size) => size - limit .shrink entry

def isCandidate (mode : Mode) (slot : Slot) : Bool := 0 < factor mode slot.1 && 0 < capacity mode slot

def weight : Mode → Slot → ℕ
  | .grow, (entry, _) => factor .grow entry
  | .shrink, (entry, size) => factor .shrink entry * max 1 size

/-- What an entry takes of what remains. -/
def delta (mode : Mode) (totalWeight : ℕ) (slot : Slot) (remaining : ℕ) : ℕ :=
  if isCandidate mode slot then
    let proposed := max 1 (remaining * weight mode slot / totalWeight)
    min remaining (min proposed (capacity mode slot))
  else 0

def adjust : Mode → Slot → ℕ → Slot
  | .grow, (entry, size), delta => (entry, size + delta)
  | .shrink, (entry, size), delta => (entry, size - delta)

/-- The loop of `distribute` over the candidates: the sizes, and what remains. The other entries are passed
over, and so are all once nothing remains. -/
def round (mode : Mode) (totalWeight : ℕ) : List Slot → ℕ → List Slot × ℕ
  | [], remaining => ([], remaining)
  | slot :: slots, remaining =>
    let taken := delta mode totalWeight slot remaining
    let next := round mode totalWeight slots (remaining - taken)
    (adjust mode slot taken :: next.1, next.2)

def candidates (mode : Mode) (slots : List Slot) : List Slot := slots.filter (isCandidate mode)

theorem round_le (mode : Mode) (totalWeight : ℕ) : ∀ (slots : List Slot) (remaining : ℕ),
    (round mode totalWeight slots remaining).2 ≤ remaining
  | [], _ => le_rfl
  | _ :: slots, _ => (round_le mode totalWeight slots _).trans (Nat.sub_le _ _)

def distribute (mode : Mode) (slots : List Slot) (remaining : ℕ) : List Slot :=
  if remaining = 0 then slots
  else if candidates mode slots = [] then slots
  else
    let totalWeight := ((candidates mode slots).map (weight mode)).sum
    let next := round mode totalWeight slots remaining
    if _h : next.2 = remaining then next.1 else distribute mode next.1 next.2
termination_by remaining
decreasing_by exact lt_of_le_of_ne (round_le _ _ _ _) _h

/-- The sizes before any space is handed out. -/
def initialSlots (entries : List StackLayoutEntry) (intrinsicSizes : List ℕ) : List Slot :=
  entries.mapIdx fun index entry =>
    (entry, clampSize (match entry.basis with
      | none | some .auto => intrinsicSizes[index]?.getD 0
      | some (.size value) => value) entry)

def total (slots : List Slot) : ℕ := (slots.map Prod.snd).sum

def contentSize (entries : List StackLayoutEntry) (availableSize gap : ℕ) : ℕ :=
  availableSize - (entries.length - 1) * gap

def allocateStackSizes (entries : List StackLayoutEntry) (intrinsicSizes : List ℕ)
    (availableSize : Option ℕ) (gap : ℕ) : List ℕ :=
  let slots := initialSlots entries intrinsicSizes
  match availableSize with
  | none => slots.map Prod.snd
  | some availableSize =>
    let content := contentSize entries availableSize gap
    if total slots < content then (distribute .grow slots (content - total slots)).map Prod.snd
    else if total slots > content then (distribute .shrink slots (total slots - content)).map Prod.snd
    else slots.map Prod.snd

/-! ### What the rounds come to -/

def InRange (slot : Slot) : Prop := limit .shrink slot.1 ≤ slot.2 ∧ slot.2 ≤ limit .grow slot.1

def sign : Mode → ℤ
  | .grow => 1
  | .shrink => -1

/-- A size within the limits that an entry comes to by only growing, or only shrinking, if it does so at all. -/
structure Moved (mode : Mode) (slot slot' : Slot) : Prop where
  entry : slot'.1 = slot.1
  fixed : factor mode slot.1 = 0 → slot'.2 = slot.2
  ahead : sign mode * slot.2 ≤ sign mode * slot'.2
  inRange : InRange slot'

section
variable {mode : Mode} {slot slot' : Slot} {base slots : List Slot} {remaining totalWeight taken content : ℕ}

theorem delta_le : delta mode totalWeight slot remaining ≤ min remaining (capacity mode slot) := by
  unfold delta
  split_ifs
  · simp only
    omega
  · exact Nat.zero_le _

theorem delta_pos (hc : isCandidate mode slot = true) (hr : remaining ≠ 0) :
    0 < delta mode totalWeight slot remaining := by
  have hcap := (Bool.and_eq_true_iff.mp hc).2
  rw [decide_eq_true_eq] at hcap
  rw [delta, if_pos hc]
  simp only
  omega

theorem eq_limit (hc : isCandidate mode slot = false) (hr : InRange slot) (hf : 0 < factor mode slot.1) :
    slot.2 = limit mode slot.1 := by
  simp only [isCandidate, hf, decide_true, Bool.true_and, decide_eq_false_iff_not] at hc
  unfold InRange at hr
  cases mode <;> simp only [capacity] at hc <;> omega

theorem adjust_size (h : taken ≤ capacity mode slot) :
    ((adjust mode slot taken).2 : ℤ) = slot.2 + sign mode * taken := by
  cases mode <;> simp only [adjust, capacity, sign] at h ⊢ <;> omega

theorem Moved.turn (h : Moved mode slot slot') :
    Moved mode slot (adjust mode slot' (delta mode totalWeight slot' remaining)) := by
  obtain ⟨he, hf, ha, hr⟩ := h
  have hle := @delta_le mode slot' remaining totalWeight
  have hzero : factor mode slot.1 = 0 → delta mode totalWeight slot' remaining = 0 := by
    intro h0
    simp [delta, isCandidate, he, h0]
  generalize delta mode totalWeight slot' remaining = taken at hle hzero
  have hsize := adjust_size (hle.trans (min_le_right _ _))
  unfold InRange at hr
  cases mode <;> simp only [capacity, sign] at hle ha hsize <;> refine ⟨he, ?_, ?_, ?_⟩ <;>
    simp only [adjust, InRange, sign] at hsize ⊢ <;> omega

theorem round_moved : ∀ {base slots : List Slot} (remaining : ℕ), Forall₂ (Moved mode) base slots →
    Forall₂ (Moved mode) base (round mode totalWeight slots remaining).1
  | _, _, _, .nil => .nil
  | _, _, _, .cons h hs => .cons h.turn (round_moved _ hs)

theorem round_total : ∀ (slots : List Slot) (remaining : ℕ),
    (total (round mode totalWeight slots remaining).1 : ℤ) +
      sign mode * (round mode totalWeight slots remaining).2 = total slots + sign mode * remaining
  | [], _ => rfl
  | slot :: slots, remaining => by
    have hle := @delta_le mode slot remaining totalWeight
    have ih := round_total slots (remaining - delta mode totalWeight slot remaining)
    have hsize := adjust_size (hle.trans (min_le_right _ _))
    rw [Nat.cast_sub (hle.trans (min_le_left _ _))] at ih
    simp only [round, total, map_cons, sum_cons, Nat.cast_add] at ih ⊢
    rw [hsize]
    linarith

/-- A round hands out something as long as there is a candidate. -/
theorem round_lt : ∀ {slots : List Slot} {remaining : ℕ}, remaining ≠ 0 → candidates mode slots ≠ [] →
    (round mode totalWeight slots remaining).2 < remaining
  | [], _, _, h => absurd rfl h
  | slot :: slots, remaining, hr, h => by
    have hle := round_le mode totalWeight slots (remaining - delta mode totalWeight slot remaining)
    show (round mode totalWeight slots (remaining - delta mode totalWeight slot remaining)).2 < remaining
    by_cases hc : isCandidate mode slot = true
    · have := @delta_pos mode slot remaining totalWeight hc hr
      omega
    · rw [candidates, filter_cons_of_neg hc] at h
      rw [delta, if_neg hc]
      exact round_lt hr h

/-- Everything is handed out, or no candidate is left. -/
theorem distribute_spec (slots : List Slot) (remaining : ℕ) (hm : Forall₂ (Moved mode) base slots)
    (ht : (content : ℤ) = total slots + sign mode * remaining) :
    Forall₂ (Moved mode) base (distribute mode slots remaining) ∧
      ∃ left : ℕ, (content : ℤ) = total (distribute mode slots remaining) + sign mode * left ∧
        (left = 0 ∨ candidates mode (distribute mode slots remaining) = []) := by
  fun_induction distribute mode slots remaining with
  | case1 slots => exact ⟨hm, 0, ht, .inl rfl⟩
  | case2 slots remaining hr hc => exact ⟨hm, remaining, ht, .inr hc⟩
  | case3 slots remaining hr hc totalWeight next h => exact absurd h (round_lt hr hc).ne
  | case4 slots remaining hr hc totalWeight next h ih =>
    exact ih (round_moved _ hm) (ht.trans (round_total _ _).symm)

theorem moved_entries : ∀ {base slots : List Slot}, Forall₂ (Moved mode) base slots →
    slots.map Prod.fst = base.map Prod.fst ∧ ∀ slot ∈ slots, InRange slot
  | _, _, .nil => ⟨rfl, fun _ h => absurd h not_mem_nil⟩
  | _, _, .cons h hs =>
    ⟨congrArg₂ cons h.entry (moved_entries hs).1, forall_mem_cons.mpr ⟨h.inRange, (moved_entries hs).2⟩⟩

theorem total_ahead : ∀ {base slots : List Slot}, Forall₂ (Moved mode) base slots →
    sign mode * total base ≤ sign mode * total slots
  | _, _, .nil => le_rfl
  | _, _, .cons h hs => by
    have ih := total_ahead hs
    have := h.ahead
    simp only [total, map_cons, sum_cons, Nat.cast_add, mul_add] at ih ⊢
    exact add_le_add this ih

/-- Where no candidate is left, nothing more could have been reached. -/
theorem total_max : ∀ {base slots sizes : List Slot}, Forall₂ (Moved mode) base slots →
    Forall₂ (Moved mode) base sizes → (∀ slot ∈ slots, isCandidate mode slot = false) →
    sign mode * total sizes ≤ sign mode * total slots
  | _, _, _, .nil, .nil, _ => le_rfl
  | slot :: _, _ :: _, _ :: _, .cons h hs, .cons h' hs', hc => by
    obtain ⟨hslot, hslots⟩ := forall_mem_cons.mp hc
    have ih := total_max hs hs' hslots
    simp only [total, map_cons, sum_cons, Nat.cast_add, mul_add] at ih ⊢
    refine add_le_add ?_ ih
    have hlimit := eq_limit hslot h.inRange
    have hr := h'.inRange
    unfold InRange at hr
    by_cases h0 : factor mode slot.1 = 0
    · rw [h.fixed h0, h'.fixed h0]
    · rw [hlimit (by rw [h.entry]; exact Nat.pos_of_ne_zero h0), h.entry, ← h'.entry]
      cases mode <;> simp only [sign] <;> omega

/-- The content is reached by only growing what can grow, or by only shrinking what can shrink. -/
def CanReach (base : List Slot) (content : ℕ) : Prop :=
  ∃ mode slots, Forall₂ (Moved mode) base slots ∧ total slots = content

/-- The sizes are between the limits of their entries and add up to the content where they can; where they
cannot, every entry that could help is at its limit. -/
structure Allocated (entries : List StackLayoutEntry) (base : List Slot) (content : ℕ) (slots : List Slot) :
    Prop where
  entries : slots.map Prod.fst = entries
  inRange : ∀ slot ∈ slots, InRange slot
  sum : CanReach base content → total slots = content
  full : ¬CanReach base content → ∃ mode, sign mode * total base < sign mode * content ∧
    ∀ slot ∈ slots, 0 < factor mode slot.1 → slot.2 = limit mode slot.1

theorem distribute_allocated {amount : ℕ} (hm : Forall₂ (Moved mode) base base)
    (ht : (content : ℤ) = total base + sign mode * amount) (hpos : 0 < amount) :
    Allocated (base.map Prod.fst) base content (distribute mode base amount) := by
  obtain ⟨hmoved, left, htotal, hleft⟩ := distribute_spec base amount hm ht
  generalize distribute mode base amount = slots at hmoved htotal hleft
  obtain ⟨hentries, hin⟩ := moved_entries hmoved
  have hreach : left = 0 → total slots = content := by
    rintro rfl
    rw [Nat.cast_zero, mul_zero, add_zero] at htotal
    exact_mod_cast htotal.symm
  have hnone : left ≠ 0 → ∀ slot ∈ slots, isCandidate mode slot = false := by
    intro h0 slot hs
    simpa using filter_eq_nil_iff.mp (hleft.resolve_left h0) slot hs
  refine ⟨hentries, hin, ?_, fun hno => ⟨mode, ?_, ?_⟩⟩
  · rintro ⟨mode', sizes, hsizes, hsum⟩
    by_contra hne
    have h0 : left ≠ 0 := fun h0 => hne (hreach h0)
    have hahead := total_ahead hsizes
    have hmax := fun h : mode' = mode => total_max hmoved (h ▸ hsizes) (hnone h0)
    rw [hsum] at hahead hmax
    cases mode <;> cases mode' <;> simp only [sign, reduceCtorEq, forall_const] at * <;> omega
  · cases mode <;> simp only [sign] at ht ⊢ <;> omega
  · have h0 : left ≠ 0 := fun h0 => hno ⟨mode, slots, hmoved, hreach h0⟩
    exact fun slot hs => eq_limit (hnone h0 slot hs) (hin slot hs)

end

theorem initialSlots_entries (entries : List StackLayoutEntry) (intrinsicSizes : List ℕ) :
    (initialSlots entries intrinsicSizes).map Prod.fst = entries := by
  apply ext_getElem <;> simp [initialSlots]

theorem initialSlots_inRange (entries : List StackLayoutEntry) (intrinsicSizes : List ℕ) :
    ∀ slot ∈ initialSlots entries intrinsicSizes, InRange slot := by
  intro slot hs
  obtain ⟨index, h, rfl⟩ := mem_mapIdx.mp hs
  have hle : limit .shrink entries[index] ≤ limit .grow entries[index] := entries[index].min_le_max
  simp only [InRange, clampSize]
  omega

example : (initialSlots [{ grow := some 1 }, { minSize := some 2, maxSize := some 4 }] [1, 9]).map Prod.snd = [1, 4] := by
  decide

/-- Whatever the weights, rounding leaves nothing over and overshoots nothing. -/
theorem allocateStackSizes_exact (entries : List StackLayoutEntry) (intrinsicSizes : List ℕ)
    (availableSize gap : ℕ) :
    ∃ slots, slots.map Prod.snd = allocateStackSizes entries intrinsicSizes (some availableSize) gap ∧
      Allocated entries (initialSlots entries intrinsicSizes) (contentSize entries availableSize gap) slots := by
  have hin := initialSlots_inRange entries intrinsicSizes
  have hrefl : ∀ mode, Forall₂ (Moved mode) (initialSlots entries intrinsicSizes)
      (initialSlots entries intrinsicSizes) := fun mode =>
    forall₂_same.mpr fun slot hs => ⟨rfl, fun _ => rfl, le_rfl, hin slot hs⟩
  have hentries := initialSlots_entries entries intrinsicSizes
  unfold allocateStackSizes
  simp only
  generalize initialSlots entries intrinsicSizes = base at *
  generalize contentSize entries availableSize gap = content
  subst hentries
  split_ifs with hlt hgt
  · exact ⟨_, rfl, distribute_allocated (hrefl .grow) (by simp only [sign]; omega) (Nat.sub_pos_of_lt hlt)⟩
  · exact ⟨_, rfl, distribute_allocated (hrefl .shrink) (by simp only [sign]; omega) (Nat.sub_pos_of_lt hgt)⟩
  · have heq : total base = content := by omega
    exact ⟨base, rfl, rfl, hin, fun _ => heq, fun hno => absurd ⟨.grow, base, hrefl .grow, heq⟩ hno⟩

end EasyPi.Tui.Stack
