/-
# The lines of a text

A text over any alphabet, cut at its line breaks. A line break at the end of the text starts no
further line, so that a text is its lines, joined by breaks, with or without a break at the end.
Lines can also keep their breaks (`endedLines`).
-/
import Mathlib.Data.List.Basic

namespace EasyPi

open List

variable {α : Type*} (nl : α)

/-- Lines with a break between any two of them. -/
def joinLines (lines : List (List α)) : List α := [nl].intercalate lines

@[simp] theorem joinLines_nil : joinLines nl ([] : List (List α)) = [] := rfl

@[simp] theorem joinLines_singleton (line : List α) : joinLines nl [line] = line := intercalate_singleton

theorem joinLines_cons (line : List α) {lines : List (List α)} (h : lines ≠ []) :
    joinLines nl (line :: lines) = line ++ nl :: joinLines nl lines := by
  obtain ⟨next, rest, rfl⟩ := exists_cons_of_ne_nil h
  rw [joinLines, intercalate_cons_cons, joinLines, append_assoc, singleton_append]

theorem joinLines_append {a b : List (List α)} (ha : a ≠ []) (hb : b ≠ []) :
    joinLines nl (a ++ b) = joinLines nl a ++ nl :: joinLines nl b := by
  induction a with
  | nil => exact absurd rfl ha
  | cons line a ih =>
    cases a with
    | nil => rw [singleton_append, joinLines_cons nl line hb, joinLines_singleton]
    | cons next a =>
      rw [cons_append, joinLines_cons nl line (by simp), ih (cons_ne_nil _ _),
        joinLines_cons nl line (cons_ne_nil _ _), append_assoc, cons_append]

theorem mem_joinLines {lines : List (List α)} {c : α} (h : c ∈ joinLines nl lines) :
    c = nl ∨ ∃ line ∈ lines, c ∈ line := by
  induction lines with
  | nil => exact absurd h not_mem_nil
  | cons line lines ih =>
    by_cases hnil : lines = []
    · rw [hnil, joinLines_singleton] at h
      exact .inr ⟨line, mem_cons_self .., h⟩
    · rw [joinLines_cons nl line hnil] at h
      rcases mem_append.mp h with hline | hrest
      · exact .inr ⟨line, mem_cons_self .., hline⟩
      rcases mem_cons.mp hrest with hbre | hlines
      · exact .inl hbre
      rcases ih hlines with hbre | ⟨other, hoth, hc⟩
      · exact .inl hbre
      · exact .inr ⟨other, mem_cons_of_mem _ hoth, hc⟩

variable [DecidableEq α]

def brokenAtEnd (t : List α) : Bool := t.getLast? == some nl

def linesOf (t : List α) : List (List α) :=
  if t = [] then [] else if brokenAtEnd nl t then (t.splitOn nl).dropLast else t.splitOn nl

@[simp] theorem linesOf_nil : linesOf nl ([] : List α) = [] := if_pos rfl

theorem brokenAtEnd_append {a b : List α} (hb : b ≠ []) : brokenAtEnd nl (a ++ b) = brokenAtEnd nl b := by
  rw [brokenAtEnd, brokenAtEnd, List.getLast?_append_of_ne_nil a hb]

@[simp] theorem brokenAtEnd_concat (a : List α) : brokenAtEnd nl (a ++ [nl]) = true := by
  simp [brokenAtEnd]

variable {t : List α}

theorem brokenAtEnd_iff : brokenAtEnd nl t = true ↔ ∃ a, t = a ++ [nl] := by
  rw [brokenAtEnd, beq_iff_eq, List.getLast?_eq_some_iff]

theorem brokenAtEnd_of_notMem (h : nl ∉ t) : brokenAtEnd nl t = false := by
  refine Bool.eq_false_iff.mpr fun hbro => ?_
  obtain ⟨a, rfl⟩ := (brokenAtEnd_iff nl).mp hbro
  simp at h

theorem linesOf_of_notMem (hne : t ≠ []) (h : nl ∉ t) : linesOf nl t = [t] := by
  rw [linesOf, if_neg hne, brokenAtEnd_of_notMem nl h, if_neg Bool.false_ne_true, splitOn_eq_singleton h]

theorem linesOf_append_cons (a b : List α) : linesOf nl (a ++ nl :: b) = a.splitOn nl ++ linesOf nl b := by
  have hspl : (a ++ nl :: b).splitOn nl = a.splitOn nl ++ b.splitOn nl := splitOn_append_cons_self a b
  rw [linesOf, if_neg (by simp), hspl]
  by_cases hb : b = []
  · subst hb
    rw [brokenAtEnd_concat, if_pos rfl, splitOn_nil, dropLast_concat, linesOf_nil, append_nil]
  · have hbro : brokenAtEnd nl (a ++ nl :: b) = brokenAtEnd nl b := by
      rw [← singleton_append, ← append_assoc]
      exact brokenAtEnd_append nl hb
    rw [hbro, linesOf, if_neg hb]
    split
    · exact dropLast_append_of_ne_nil (splitOn_ne_nil _ _)
    · rfl

theorem text_cases (t : List α) : t = [] ∨ t ≠ [] ∧ nl ∉ t ∨ ∃ line rest, nl ∉ line ∧ t = line ++ nl :: rest := by
  by_cases h : nl ∈ t
  · obtain ⟨line, rest, rfl, hline⟩ := eq_append_cons_of_mem h
    exact .inr (.inr ⟨line, rest, hline, rfl⟩)
  · by_cases hne : t = []
    · exact .inl hne
    · exact .inr (.inl ⟨hne, h⟩)

theorem linesOf_line_cons {line : List α} (hline : nl ∉ line) (rest : List α) :
    linesOf nl (line ++ nl :: rest) = line :: linesOf nl rest := by
  rw [linesOf_append_cons, splitOn_eq_singleton hline, singleton_append]

theorem text_induction {P : List α → Prop} (hnil : P []) (hlast : ∀ t, t ≠ [] → nl ∉ t → P t)
    (hline : ∀ line rest, nl ∉ line → P rest → P (line ++ nl :: rest)) (t : List α) : P t := by
  induction hn : t.length using Nat.strongRecOn generalizing t with
  | ind n ih =>
    rcases text_cases nl t with rfl | ⟨hne, h⟩ | ⟨line, rest, h, rfl⟩
    · exact hnil
    · exact hlast t hne h
    · refine hline line rest h (ih rest.length ?_ rest rfl)
      rw [← hn, length_append, length_cons]
      omega

theorem linesOf_eq_nil_iff : linesOf nl t = [] ↔ t = [] := by
  rcases text_cases nl t with rfl | ⟨hne, h⟩ | ⟨line, rest, h, rfl⟩
  · simp
  · simp [linesOf_of_notMem nl hne h, hne]
  · simp [linesOf_line_cons nl h]

/-- **A text is its joined lines**, and perhaps a break at the end. -/
theorem joinLines_linesOf (t : List α) : t = joinLines nl (linesOf nl t) ++ (if brokenAtEnd nl t then [nl] else []) := by
  induction t using text_induction nl with
  | hnil => rfl
  | hlast t hne h =>
    rw [linesOf_of_notMem nl hne h, joinLines_singleton, brokenAtEnd_of_notMem nl h,
      if_neg Bool.false_ne_true, append_nil]
  | hline line rest h ih =>
    rw [linesOf_line_cons nl h]
    by_cases hrest : rest = []
    · subst hrest
      rw [linesOf_nil, joinLines_singleton, brokenAtEnd_concat, if_pos rfl]
    · have hbro : brokenAtEnd nl (line ++ nl :: rest) = brokenAtEnd nl rest := by
        rw [← singleton_append, ← append_assoc]
        exact brokenAtEnd_append nl hrest
      rw [joinLines_cons nl line (mt (linesOf_eq_nil_iff nl).mp hrest), hbro, append_assoc, cons_append, ← ih]

theorem getLast?_splitOn (hne : t ≠ []) : (t.splitOn nl).getLast? = some [] ↔ brokenAtEnd nl t = true := by
  induction t using text_induction nl with
  | hnil => exact absurd rfl hne
  | hlast t _ h => simp [splitOn_eq_singleton h, brokenAtEnd_of_notMem nl h, hne]
  | hline line rest h ih =>
    have hspl : (line ++ nl :: rest).splitOn nl = line :: rest.splitOn nl := by
      rw [splitOn_append_cons_self, splitOn_eq_singleton h, singleton_append]
    rw [hspl, ← singleton_append, List.getLast?_append_of_ne_nil _ (splitOn_ne_nil _ _)]
    by_cases hrest : rest = []
    · subst hrest
      rw [brokenAtEnd_concat, splitOn_nil]
      exact ⟨fun _ => rfl, fun _ => rfl⟩
    · rw [ih hrest, ← singleton_append, ← append_assoc, brokenAtEnd_append nl hrest]

theorem linesOf_prefix (t : List α) : linesOf nl t <+: t.splitOn nl := by
  unfold linesOf
  split
  · exact nil_prefix
  · split
    · exact dropLast_prefix _
    · exact prefix_rfl

theorem linesOf_append_of_broken {a : List α} (h : brokenAtEnd nl a = true) (b : List α) :
    linesOf nl (a ++ b) = linesOf nl a ++ linesOf nl b := by
  obtain ⟨a, rfl⟩ := (brokenAtEnd_iff nl).mp h
  rw [append_assoc, singleton_append, linesOf_append_cons, linesOf_append_cons, linesOf_nil, append_nil]

/-- **The lines of parts** that all end with a break, but the last. -/
theorem linesOf_flatten {ts : List (List α)} (h : ∀ t ∈ ts.dropLast, brokenAtEnd nl t = true) :
    linesOf nl ts.flatten = ts.flatMap (linesOf nl) := by
  induction ts with
  | nil => rfl
  | cons t ts ih =>
    rw [flatten_cons, flatMap_cons]
    cases ts with
    | nil => rw [flatten_nil, append_nil, flatMap_nil, append_nil]
    | cons t' ts =>
      rw [dropLast_cons_cons] at h
      rw [linesOf_append_of_broken nl (h t mem_cons_self), ih fun t'' ht'' => h t'' (mem_cons_of_mem t ht'')]

theorem splitOn_append_of_notMem (a : List α) {b : List α} (hb : nl ∉ b) :
    (a ++ b).splitOn nl = (a.splitOn nl).dropLast ++ [(a.splitOn nl).getLastD [] ++ b] := by
  induction a using text_induction nl with
  | hnil => exact splitOn_eq_singleton hb
  | hlast a _ h =>
    have hmem : nl ∉ a ++ b := fun hmem => (mem_append.mp hmem).elim h hb
    rw [splitOn_eq_singleton h, splitOn_eq_singleton hmem]
    rfl
  | hline line rest h ih =>
    have hne := splitOn_ne_nil nl rest
    rw [append_assoc, cons_append, splitOn_append_cons_self, splitOn_append_cons_self, ih,
      splitOn_eq_singleton h, singleton_append, singleton_append, dropLast_cons_of_ne_nil hne,
      cons_append, getLastD_cons, getLastD_eq_getLast?, getLastD_eq_getLast?, List.getLast?_eq_some_getLast hne]
    rfl

/-- The lines of a text, each with its break. -/
def endedLines : List α → List (List α)
  | [] => []
  | c :: t =>
    if c = nl then [c] :: endedLines t
    else
      match endedLines t with
      | [] => [[c]]
      | line :: lines => (c :: line) :: lines

@[simp] theorem endedLines_nil : endedLines nl ([] : List α) = [] := rfl

theorem endedLines_of_notMem (hne : t ≠ []) (h : nl ∉ t) : endedLines nl t = [t] := by
  induction t with
  | nil => exact absurd rfl hne
  | cons c t ih =>
    have hc : c ≠ nl := fun hc => h (hc ▸ mem_cons_self)
    rw [endedLines, if_neg hc]
    by_cases ht : t = []
    · rw [ht, endedLines_nil]
    · rw [ih ht fun hmem => h (mem_cons_of_mem c hmem)]

theorem endedLines_line_cons {line : List α} (h : nl ∉ line) (rest : List α) :
    endedLines nl (line ++ nl :: rest) = (line ++ [nl]) :: endedLines nl rest := by
  induction line with
  | nil => rw [nil_append, endedLines, if_pos rfl, nil_append]
  | cons c line ih =>
    have hc : c ≠ nl := fun hc => h (hc ▸ mem_cons_self)
    rw [cons_append, endedLines, if_neg hc, ih fun hmem => h (mem_cons_of_mem c hmem)]
    rfl

/-- **A text is its lines with their breaks**. -/
@[simp] theorem flatten_endedLines (t : List α) : (endedLines nl t).flatten = t := by
  induction t using text_induction nl with
  | hnil => rfl
  | hlast t hne h => rw [endedLines_of_notMem nl hne h, flatten_singleton]
  | hline line rest h ih =>
    rw [endedLines_line_cons nl h, flatten_cons, ih, append_assoc, singleton_append]

end EasyPi
