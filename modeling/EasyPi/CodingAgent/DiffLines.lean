/-
# The lines of a diff have their numbers

The output of the loop over the parts is a block for each part (`emit`): every line of a change, and of
an unchanged part those lines that are close to one. When the parts are cut at line ends (`LineParts`),
the lines of the parts before are the lines of the file before, so the numbers shown are those of the
file.
-/
import Mathlib.Data.List.TakeWhile
import EasyPi.CodingAgent.DiffString

namespace EasyPi.CodingAgent

open List
namespace EditDiff

/-! ### What a diff shows -/

variable (other : PartKind)

/-- The parts of a file: all but those that are only in the other file. -/
def partsOf (parts : List Part) : List Part := parts.filter (·.kind ≠ other)

/-- The parts make up two files, and are cut at line ends. -/
structure LineParts (parts : List Part) (oldContent newContent : Text) : Prop where
  old : ((partsOf .added parts).map (·.value)).flatten = oldContent
  new : ((partsOf .removed parts).map (·.value)).flatten = newContent
  oldEnds : ∀ p ∈ (partsOf .added parts).dropLast, brokenAtEnd lf p.value = true
  newEnds : ∀ p ∈ (partsOf .removed parts).dropLast, brokenAtEnd lf p.value = true

/-- The lines of a file, each with the kind of its part. -/
def sideLines (parts : List Part) : List (PartKind × Text) :=
  (partsOf other parts).flatMap fun p => (linesOf lf p.value).map fun line => (p.kind, line)

/-- The lines of one kind, with their numbers in the file, from `first` on. -/
def linesIn (kind other : PartKind) (first : ℕ) (parts : List Part) : List (ℕ × Text) :=
  ((sideLines other parts).zipIdx first).filterMap fun ((k, line), n) =>
    if k = kind then some (n, line) else none

def DiffLine.added? : DiffLine → Option (ℕ × Text)
  | .added n line => some (n, line)
  | _ => none

def DiffLine.removed? : DiffLine → Option (ℕ × Text)
  | .removed n line => some (n, line)
  | _ => none

def DiffLine.context? : DiffLine → Option (ℕ × Text)
  | .context n line => some (n, line)
  | _ => none

/-- A line has the number and the text of a line of the file. -/
def DiffLine.Numbered (oldContent newContent : Text) : DiffLine → Prop
  | .added n line => 1 ≤ n ∧ (newContent.splitOn lf)[n - 1]? = some line
  | .removed n line => 1 ≤ n ∧ (oldContent.splitOn lf)[n - 1]? = some line
  | .context n line => 1 ≤ n ∧ (oldContent.splitOn lf)[n - 1]? = some line
  | .elided => True

/-- The part before is a change, or `last` if there is none. -/
def lastIsChange (last : Bool) (parts : List Part) : Bool := (parts.getLast?.map Part.isChange).getD last

/-- The line is unchanged, and one of the `contextLines` after a change or before one. -/
def CloseToChange (contextLines : ℕ) (last : Bool) (first : ℕ) (parts : List Part) (n : ℕ) (line : Text) : Prop :=
  ∃ before p after, parts = before ++ p :: after ∧ p.kind = .common ∧
    ∃ k, (linesOf lf p.value)[k]? = some line ∧ n = first + (sideLines .added before).length + k ∧
      ((lastIsChange last before = true ∧ k < contextLines) ∨
        (nextIsChange after = true ∧ (linesOf lf p.value).length ≤ k + contextLines))

/-- The number of the first changed line in the new file. -/
def firstChange (parts : List Part) : Option ℕ :=
  let unchanged := parts.takeWhile (!·.isChange)
  if unchanged.length = parts.length then none
  else some ((linesOf lf (unchanged.map (·.value)).flatten).length + 1)

/-- **What a diff with line numbers is for**. -/
structure ShowsDiff (contextLines : ℕ) (parts : List Part) (oldContent newContent : Text)
    (output : List DiffLine) : Prop where
  numbered : ∀ line ∈ output, line.Numbered oldContent newContent
  added : output.filterMap DiffLine.added? = linesIn .added .removed 1 parts
  removed : output.filterMap DiffLine.removed? = linesIn .removed .added 1 parts
  unchanged : (output.filterMap DiffLine.context?).Sublist (linesIn .common .added 1 parts)
  close : ∀ n line, .context n line ∈ output → CloseToChange contextLines false 1 parts n line

variable {parts : List Part} {part : Part} {oldContent newContent value : Text} {raw : List Text}
  {ctx first n : ℕ} {last next : Bool} {line : Text} {s : DiffState}

/-! ### Blocks -/

theorem rawLines_eq (value : Text) : rawLines value = linesOf lf value := by
  unfold rawLines linesOf
  dsimp only
  by_cases hnil : value = []
  · subst hnil
    rfl
  · rw [if_neg hnil]
    simp only [getLast?_splitOn lf hnil]

def numberedFrom (show1 : ℕ → Text → DiffLine) (n : ℕ) (raw : List Text) : List DiffLine :=
  (raw.zipIdx n).map fun (line, i) => show1 i line

attribute [local simp] numberedFrom

theorem foldl_showAdded (s : DiffState) (raw : List Text) : raw.foldl showAdded s =
    { s with
      output := s.output ++ numberedFrom .added s.newLineNum raw
      newLineNum := s.newLineNum + raw.length } := by
  induction raw generalizing s with
  | nil => simp
  | cons line raw ih =>
    rw [foldl_cons, ih]
    simp [showAdded, Nat.add_assoc, Nat.add_comm 1]

theorem foldl_showRemoved (s : DiffState) (raw : List Text) : raw.foldl showRemoved s =
    { s with
      output := s.output ++ numberedFrom .removed s.oldLineNum raw
      oldLineNum := s.oldLineNum + raw.length } := by
  induction raw generalizing s with
  | nil => simp
  | cons line raw ih =>
    rw [foldl_cons, ih]
    simp [showRemoved, Nat.add_assoc, Nat.add_comm 1]

theorem foldl_showContext (s : DiffState) (raw : List Text) : raw.foldl showContext s =
    { s with
      output := s.output ++ numberedFrom .context s.oldLineNum raw
      oldLineNum := s.oldLineNum + raw.length
      newLineNum := s.newLineNum + raw.length } := by
  induction raw generalizing s with
  | nil => simp
  | cons line raw ih =>
    rw [foldl_cons, ih]
    simp [showContext, Nat.add_assoc, Nat.add_comm 1]

def closeBlock (contextLines : ℕ) (last next : Bool) (o : ℕ) (raw : List Text) : List DiffLine :=
  if last && next then
    if raw.length ≤ contextLines * 2 then numberedFrom .context o raw
    else
      numberedFrom .context o (raw.take contextLines) ++ .elided ::
        numberedFrom .context (o + (raw.length - contextLines)) (raw.drop (raw.length - contextLines))
  else if last then
    numberedFrom .context o (raw.take contextLines) ++ if contextLines < raw.length then [.elided] else []
  else if next then
    (if contextLines < raw.length then [.elided] else []) ++
      numberedFrom .context (o + (raw.length - contextLines)) (raw.drop (raw.length - contextLines))
  else []

/-- **An unchanged part** moves both counters by its lines. -/
theorem showClose_eq (ctx : ℕ) (last next : Bool) (s : DiffState) (raw : List Text) :
    showClose ctx last next s raw =
      { s with
        output := s.output ++ closeBlock ctx last next s.oldLineNum raw
        oldLineNum := s.oldLineNum + raw.length
        newLineNum := s.newLineNum + raw.length } := by
  have htake : (raw.take ctx).length = min ctx raw.length := length_take
  have hdrop : (raw.drop (raw.length - ctx)).length = raw.length - (raw.length - ctx) := length_drop
  unfold showClose closeBlock
  split
  · split
    · rw [foldl_showContext]
    · rename_i hlong
      dsimp only
      rw [foldl_showContext, foldl_showContext]
      dsimp only [elide, skipLines]
      rw [htake, hdrop, append_assoc, append_assoc, singleton_append,
        show min ctx raw.length = ctx by omega]
      simp only [DiffState.mk.injEq, and_true]
      refine ⟨?_, by omega, by omega⟩
      rw [show s.oldLineNum + ctx + (raw.length - ctx -
        (raw.length - (raw.length - ctx))) = s.oldLineNum + (raw.length - ctx) by omega]
  · split
    · dsimp only
      rw [foldl_showContext, htake]
      by_cases hlong : ctx < raw.length
      · rw [if_pos (by omega), if_pos hlong]
        dsimp only [elide, skipLines]
        rw [append_assoc]
        simp only [DiffState.mk.injEq, true_and, and_true]
        exact ⟨by omega, by omega⟩
      · rw [if_neg (by omega), if_neg hlong, append_nil]
        simp only [DiffState.mk.injEq, true_and, and_true]
        exact ⟨by omega, by omega⟩
    · split
      · dsimp only
        by_cases hlong : ctx < raw.length
        · rw [if_pos (by omega), if_pos hlong, foldl_showContext]
          dsimp only [elide, skipLines]
          rw [append_assoc, hdrop]
          simp only [DiffState.mk.injEq, true_and, and_true]
          exact ⟨by omega, by omega⟩
        · rw [if_neg (by omega), if_neg hlong, foldl_showContext, hdrop, nil_append,
            show raw.length - ctx = 0 by omega]
          rfl
      · rw [append_nil]
        rfl

variable {show1 : ℕ → Text → DiffLine} {o : ℕ} {f : DiffLine → Option (ℕ × Text)}

theorem mem_numberedFrom {d : DiffLine} :
    d ∈ numberedFrom show1 o raw ↔ ∃ k line, raw[k]? = some line ∧ d = show1 (o + k) line := by
  unfold numberedFrom
  rw [mem_map]
  constructor
  · rintro ⟨⟨line, i⟩, hmem, rfl⟩
    obtain ⟨hle, hget⟩ := mk_mem_zipIdx_iff_le_and_getElem?_sub.mp hmem
    exact ⟨i - o, line, hget, by rw [Nat.add_sub_cancel' hle]⟩
  · rintro ⟨k, line, hget, rfl⟩
    refine ⟨(line, o + k), mk_mem_zipIdx_iff_le_and_getElem?_sub.mpr ⟨Nat.le_add_right o k, ?_⟩, rfl⟩
    rwa [Nat.add_sub_cancel_left]

theorem context_numberedFrom (h : .context n line ∈ numberedFrom .context o raw) :
    ∃ k, raw[k]? = some line ∧ n = o + k := by
  obtain ⟨k, line', hget, heq⟩ := mem_numberedFrom.mp h
  cases heq
  exact ⟨k, hget, rfl⟩

theorem context_closeBlock (h : .context n line ∈ closeBlock ctx last next o raw) :
    ∃ k, raw[k]? = some line ∧ n = o + k ∧
      ((last = true ∧ k < ctx) ∨ (next = true ∧ raw.length ≤ k + ctx)) := by
  have hlea : .context n line ∈ numberedFrom .context o (raw.take ctx) →
      ∃ k, raw[k]? = some line ∧ n = o + k ∧ k < ctx := by
    intro h
    obtain ⟨k, hget, hn⟩ := context_numberedFrom h
    rw [List.getElem?_take] at hget
    split at hget
    · rename_i hk
      exact ⟨k, hget, hn, hk⟩
    · cases hget
  have htra : .context n line ∈ numberedFrom .context (o + (raw.length - ctx))
        (raw.drop (raw.length - ctx)) →
      ∃ k, raw[k]? = some line ∧ n = o + k ∧ raw.length ≤ k + ctx := by
    intro h
    obtain ⟨k, hget, hn⟩ := context_numberedFrom h
    rw [List.getElem?_drop] at hget
    exact ⟨raw.length - ctx + k, hget, by omega, by omega⟩
  unfold closeBlock at h
  split at h
  · rename_i hboth
    obtain ⟨hlast, hnext⟩ := Bool.and_eq_true_iff.mp hboth
    split at h
    · rename_i hsho
      obtain ⟨k, hget, hn⟩ := context_numberedFrom h
      refine ⟨k, hget, hn, ?_⟩
      by_cases hk : k < ctx
      · exact .inl ⟨hlast, hk⟩
      · exact .inr ⟨hnext, by omega⟩
    · rcases mem_append.mp h with h | h
      · obtain ⟨k, hget, hn, hk⟩ := hlea h
        exact ⟨k, hget, hn, .inl ⟨hlast, hk⟩⟩
      · rcases mem_cons.mp h with h | h
        · cases h
        · obtain ⟨k, hget, hn, hk⟩ := htra h
          exact ⟨k, hget, hn, .inr ⟨hnext, hk⟩⟩
  · split at h
    · rename_i hlast
      rcases mem_append.mp h with h | h
      · obtain ⟨k, hget, hn, hk⟩ := hlea h
        exact ⟨k, hget, hn, .inl ⟨hlast, hk⟩⟩
      · split at h
        · cases mem_singleton.mp h
        · cases h
    · split at h
      · rename_i hnext
        rcases mem_append.mp h with h | h
        · split at h
          · cases mem_singleton.mp h
          · cases h
        · obtain ⟨k, hget, hn, hk⟩ := htra h
          exact ⟨k, hget, hn, .inr ⟨hnext, hk⟩⟩
      · cases h

/-- The output for parts that start at numbers of the two files. -/
def emit (contextLines : ℕ) : Bool → ℕ → ℕ → List Part → List DiffLine
  | _, _, _, [] => []
  | last, o, n, part :: parts =>
    let raw := rawLines part.value
    match part.kind with
    | .added => numberedFrom .added n raw ++ emit contextLines true o (n + raw.length) parts
    | .removed => numberedFrom .removed o raw ++ emit contextLines true (o + raw.length) n parts
    | .common =>
      closeBlock contextLines last (nextIsChange parts) o raw ++
        emit contextLines false (o + raw.length) (n + raw.length) parts

/-- **The output of the loop**, block by block. -/
theorem output_showParts (ctx : ℕ) (s : DiffState) (parts : List Part) :
    (showParts ctx s parts).output =
      s.output ++ emit ctx s.lastWasChange s.oldLineNum s.newLineNum parts := by
  induction parts generalizing s with
  | nil => exact (append_nil _).symm
  | cons part parts ih =>
    rw [showParts, emit]
    cases hkind : part.kind with
    | added =>
      rw [if_pos (by rw [Part.isChange, hkind]; rfl), ih, showChange, if_pos rfl, foldl_showAdded]
      simp only [append_assoc]
    | removed =>
      rw [if_pos (by rw [Part.isChange, hkind]; rfl), ih, showChange, if_neg (by simp), foldl_showRemoved]
      simp only [append_assoc]
    | common =>
      rw [if_neg (by rw [Part.isChange, hkind]; simp), ih, showUnchanged, showClose_eq]
      simp only [append_assoc]

/-! ### Lines of one kind -/

theorem sideLines_cons (part : Part) (parts : List Part) :
    sideLines other (part :: parts) =
      (if part.kind = other then [] else (linesOf lf part.value).map fun line => (part.kind, line)) ++
        sideLines other parts := by
  unfold sideLines partsOf
  by_cases h : part.kind = other
  · rw [filter_cons_of_neg (by simpa using h), if_pos h, nil_append]
  · rw [filter_cons_of_pos (by simpa using h), if_neg h, flatMap_cons]

theorem linesIn_cons (kind other : PartKind) (n : ℕ) (part : Part) (parts : List Part) (hkind : kind ≠ other) :
    linesIn kind other n (part :: parts) =
      (if part.kind = kind then ((linesOf lf part.value).zipIdx n).map fun (line, i) => (i, line)
        else []) ++ linesIn kind other (n + if part.kind = other then 0 else (linesOf lf part.value).length) parts := by
  unfold linesIn
  rw [sideLines_cons]
  by_cases hoth : part.kind = other
  · rw [if_pos hoth, if_pos hoth, if_neg (by rw [hoth]; exact hkind.symm), nil_append, nil_append, Nat.add_zero]
  · rw [if_neg hoth, if_neg hoth, zipIdx_append, filterMap_append, length_map, zipIdx_map, filterMap_map]
    congr 1
    by_cases hk : part.kind = kind
    · rw [if_pos hk]
      exact (filterMap_congr fun x _ => if_pos hk).trans (congrFun filterMap_eq_map' _)
    · rw [if_neg hk]
      exact filterMap_eq_nil_iff.mpr fun x _ => if_neg hk

theorem filterMap_numberedFrom
    (h : ∀ n line, f (show1 n line) = some (n, line)) :
    (numberedFrom show1 n raw).filterMap f = (raw.zipIdx n).map fun (line, i) => (i, line) := by
  unfold numberedFrom
  rw [filterMap_map]
  exact (filterMap_congr fun x _ => h _ _).trans (congrFun filterMap_eq_map' _)

theorem filterMap_eq_nil_of_numberedFrom
    (h : ∀ n line, f (show1 n line) = none) : (numberedFrom show1 n raw).filterMap f = [] := by
  refine filterMap_eq_nil_iff.mpr fun d hd => ?_
  obtain ⟨k, line, -, rfl⟩ := mem_numberedFrom.mp hd
  exact h _ _

theorem filterMap_closeBlock
    (h : ∀ n line, f (.context n line) = none) (heli : f .elided = none) :
    (closeBlock ctx last next o raw).filterMap f = [] := by
  have hnone : ∀ (o : ℕ) (raw : List Text), (numberedFrom .context o raw).filterMap f = [] :=
    fun o raw => filterMap_eq_nil_of_numberedFrom h
  unfold closeBlock
  split
  · split
    · exact hnone _ _
    · rw [filterMap_append, hnone, filterMap_cons_none heli, hnone, append_nil]
  · split
    · rw [filterMap_append, hnone]
      split
      · exact filterMap_cons_none heli
      · rfl
    · split
      · rw [filterMap_append, hnone]
        split
        · rw [filterMap_cons_none heli]
          rfl
        · rfl
      · rfl

/-- **Every added line** is shown once, and in order. -/
theorem added_emit (ctx : ℕ) (last : Bool) (o n : ℕ) (parts : List Part) :
    (emit ctx last o n parts).filterMap DiffLine.added? = linesIn .added .removed n parts := by
  induction parts generalizing last o n with
  | nil => rfl
  | cons part parts ih =>
    rw [linesIn_cons _ _ _ _ _ (by decide), emit, rawLines_eq]
    cases part.kind with
    | added =>
      dsimp only
      rw [filterMap_append, filterMap_numberedFrom fun _ _ => rfl, ih, if_pos rfl, if_neg (by decide)]
    | removed =>
      dsimp only
      rw [filterMap_append, filterMap_eq_nil_of_numberedFrom fun _ _ => rfl, ih, if_neg (by decide),
        if_pos rfl, Nat.add_zero]
    | common =>
      dsimp only
      rw [filterMap_append, filterMap_closeBlock (fun _ _ => rfl) rfl, ih, if_neg (by decide), if_neg (by decide)]

/-- **Every removed line** is shown once, and in order. -/
theorem removed_emit (ctx : ℕ) (last : Bool) (o n : ℕ) (parts : List Part) :
    (emit ctx last o n parts).filterMap DiffLine.removed? = linesIn .removed .added o parts := by
  induction parts generalizing last o n with
  | nil => rfl
  | cons part parts ih =>
    rw [linesIn_cons _ _ _ _ _ (by decide), emit, rawLines_eq]
    cases part.kind with
    | added =>
      dsimp only
      rw [filterMap_append, filterMap_eq_nil_of_numberedFrom fun _ _ => rfl, ih, if_neg (by decide),
        if_pos rfl, Nat.add_zero]
    | removed =>
      dsimp only
      rw [filterMap_append, filterMap_numberedFrom fun _ _ => rfl, ih, if_pos rfl, if_neg (by decide)]
    | common =>
      dsimp only
      rw [filterMap_append, filterMap_closeBlock (fun _ _ => rfl) rfl, ih, if_neg (by decide), if_neg (by decide)]

theorem sublist_closeBlock (o : ℕ) : ((closeBlock ctx last next o raw).filterMap
    DiffLine.context?).Sublist ((raw.zipIdx o).map fun (line, i) => (i, line)) := by
  have hsh : ∀ (o : ℕ) (raw : List Text), (numberedFrom .context o raw).filterMap DiffLine.context? =
      (raw.zipIdx o).map fun (line, i) => (i, line) := fun o raw => filterMap_numberedFrom fun _ _ => rfl
  have hspl : ∀ (raw : List Text) (k : ℕ), (raw.zipIdx o).map (fun (line, i) => (i, line)) =
      ((raw.take k).zipIdx o).map (fun (line, i) => (i, line)) ++
        ((raw.drop k).zipIdx (o + min k raw.length)).map fun (line, i) => (i, line) := by
    intro raw k
    rw [← map_append, ← length_take, ← zipIdx_append, take_append_drop]
  have hlea : ∀ raw : List Text, (((raw.take ctx).zipIdx o).map
      fun (line, i) => (i, line)).Sublist ((raw.zipIdx o).map fun (line, i) => (i, line)) := by
    intro raw
    rw [hspl raw ctx]
    exact sublist_append_left _ _
  have htra : (((raw.drop (raw.length - ctx)).zipIdx
      (o + (raw.length - ctx))).map fun (line, i) => (i, line)).Sublist
        ((raw.zipIdx o).map fun (line, i) => (i, line)) := by
    rw [hspl raw (raw.length - ctx), Nat.min_eq_left (Nat.sub_le _ _)]
    exact sublist_append_right _ _
  unfold closeBlock
  split
  · split
    · rw [hsh]
    · rename_i hlong
      rw [filterMap_append, hsh, filterMap_cons_none rfl, hsh,
        hspl raw (raw.length - ctx), Nat.min_eq_left (Nat.sub_le _ _)]
      refine List.Sublist.append ?_ (List.Sublist.refl _)
      have htake : raw.take ctx = (raw.take (raw.length - ctx)).take ctx := by
        rw [take_take, Nat.min_eq_left (by omega)]
      rw [htake]
      exact hlea _
  · split
    · rw [filterMap_append, hsh]
      split
      · rw [filterMap_cons_none rfl, filterMap_nil, append_nil]
        exact hlea raw
      · rw [filterMap_nil, append_nil]
        exact hlea raw
    · split
      · rw [filterMap_append, hsh]
        split
        · rw [filterMap_cons_none rfl, filterMap_nil, nil_append]
          exact htra
        · rw [filterMap_nil, nil_append]
          exact htra
      · exact nil_sublist _

/-- **Unchanged lines** are shown once at most, and in order. -/
theorem unchanged_emit (ctx : ℕ) (last : Bool) (o n : ℕ) (parts : List Part) :
    ((emit ctx last o n parts).filterMap DiffLine.context?).Sublist
      (linesIn .common .added o parts) := by
  induction parts generalizing last o n with
  | nil => exact nil_sublist _
  | cons part parts ih =>
    rw [linesIn_cons _ _ _ _ _ (by decide), emit, rawLines_eq]
    cases part.kind with
    | added =>
      dsimp only
      rw [filterMap_append, filterMap_eq_nil_of_numberedFrom fun _ _ => rfl, if_neg (by decide), if_pos rfl, Nat.add_zero]
      exact ih _ _ _
    | removed =>
      dsimp only
      rw [filterMap_append, filterMap_eq_nil_of_numberedFrom fun _ _ => rfl, if_neg (by decide), if_neg (by decide)]
      exact ih _ _ _
    | common =>
      dsimp only
      rw [filterMap_append, if_pos rfl, if_neg (by decide)]
      exact (sublist_closeBlock o).append (ih _ _ _)

/-! ### Lines close to a change -/

theorem lastIsChange_cons (last : Bool) (part : Part) (parts : List Part) :
    lastIsChange last (part :: parts) = lastIsChange part.isChange parts := by
  unfold lastIsChange
  rw [List.getLast?_cons]
  cases parts.getLast? with
  | none => rfl
  | some p => rfl

theorem CloseToChange.cons (h : CloseToChange ctx part.isChange
      (o + if part.kind = .added then 0 else (linesOf lf part.value).length) parts n line) :
    CloseToChange ctx last o (part :: parts) n line := by
  obtain ⟨before, p, after, rfl, hkind, k, hget, hn, hclo⟩ := h
  refine ⟨part :: before, p, after, rfl, hkind, k, hget, ?_, by rwa [lastIsChange_cons]⟩
  rw [hn, sideLines_cons, length_append]
  split
  · rw [length_nil]
    omega
  · rw [length_map]
    omega

/-- **Every unchanged line shown** is close to a change. -/
theorem context_emit {o m : ℕ} (h : .context n line ∈ emit ctx last o m parts) :
    CloseToChange ctx last o parts n line := by
  induction parts generalizing last o m with
  | nil => cases h
  | cons part parts ih =>
    rw [emit, rawLines_eq] at h
    cases hkind : part.kind with
    | added =>
      rw [hkind] at h
      rcases mem_append.mp h with h | h
      · obtain ⟨k, line', -, heq⟩ := mem_numberedFrom.mp h
        cases heq
      · refine CloseToChange.cons ?_
        rw [Part.isChange, hkind, if_pos rfl]
        exact ih h
    | removed =>
      rw [hkind] at h
      rcases mem_append.mp h with h | h
      · obtain ⟨k, line', -, heq⟩ := mem_numberedFrom.mp h
        cases heq
      · refine CloseToChange.cons ?_
        rw [Part.isChange, hkind, if_neg (by decide)]
        exact ih h
    | common =>
      rw [hkind] at h
      rcases mem_append.mp h with h | h
      · obtain ⟨k, hget, hn, hclo⟩ := context_closeBlock h
        exact ⟨[], part, parts, rfl, hkind, k, hget, hn, hclo⟩
      · refine CloseToChange.cons ?_
        rw [Part.isChange, hkind, if_neg (by decide)]
        exact ih h

/-! ### Lines of the files -/

theorem map_sideLines {other : PartKind} (h : ∀ p ∈ (partsOf other parts).dropLast, brokenAtEnd lf p.value = true) :
    (sideLines other parts).map Prod.snd = linesOf lf ((partsOf other parts).map (·.value)).flatten := by
  have hends : ∀ t ∈ ((partsOf other parts).map (·.value)).dropLast, brokenAtEnd lf t = true := by
    rw [← map_dropLast]
    exact fun t ht => by
      obtain ⟨p, hp, rfl⟩ := mem_map.mp ht
      exact h p hp
  rw [linesOf_flatten lf hends, sideLines, map_flatMap, flatMap_map]
  simp only [map_map, Function.comp_def, map_id']

theorem getElem?_split {other kind : PartKind} {content : Text} {i : ℕ}
    (hcon : ((partsOf other parts).map (·.value)).flatten = content)
    (h : ∀ p ∈ (partsOf other parts).dropLast, brokenAtEnd lf p.value = true)
    (hget : (sideLines other parts)[i]? = some (kind, line)) : (content.splitOn lf)[i]? = some line := by
  have hline : (linesOf lf content)[i]? = some line := by
    rw [← hcon, ← map_sideLines h, List.getElem?_map, hget]
    rfl
  obtain ⟨rest, hrest⟩ := linesOf_prefix lf content
  rw [← hrest, List.getElem?_append_left (List.getElem?_eq_some_iff.mp hline).1]
  exact hline

theorem mem_linesIn {kind other : PartKind} (h : (n, line) ∈ linesIn kind other 1 parts) :
    1 ≤ n ∧ (sideLines other parts)[n - 1]? = some (kind, line) := by
  obtain ⟨⟨⟨k, line'⟩, i⟩, hmem, hsome⟩ := mem_filterMap.mp h
  obtain ⟨hle, hget⟩ := mk_mem_zipIdx_iff_le_and_getElem?_sub.mp hmem
  dsimp only at hsome
  split at hsome
  · rename_i hk
    cases hsome
    subst hk
    exact ⟨hle, hget⟩
  · cases hsome

theorem CloseToChange.getElem? (h : CloseToChange ctx last 1 parts n line) :
    1 ≤ n ∧ (sideLines .added parts)[n - 1]? = some (.common, line) := by
  obtain ⟨before, p, after, rfl, hkind, k, hget, rfl, -⟩ := h
  refine ⟨by omega, ?_⟩
  have happ : sideLines .added (before ++ p :: after) = sideLines .added before ++ sideLines .added (p :: after) := by
    unfold sideLines partsOf
    rw [filter_append, flatMap_append]
  rw [happ, show 1 + (sideLines .added before).length + k - 1 = (sideLines .added before).length + k by
      omega, List.getElem?_append_right (Nat.le_add_right _ _), Nat.add_sub_cancel_left, sideLines_cons,
    if_neg (by rw [hkind]; decide), List.getElem?_append_left, List.getElem?_map, hget, hkind]
  · rfl
  · rw [length_map]
    exact (List.getElem?_eq_some_iff.mp hget).1

/-! ### The first change -/

theorem firstChangedLine_showParts (ctx : ℕ) (s : DiffState) (parts : List Part) :
    (showParts ctx s parts).firstChangedLine = s.firstChangedLine.or
        (if (parts.takeWhile (!·.isChange)).length = parts.length then none
        else some (s.newLineNum + (sideLines .removed (parts.takeWhile (!·.isChange))).length)) := by
  induction parts generalizing s with
  | nil => exact (Option.or_none).symm
  | cons part parts ih =>
    rw [showParts]
    split
    · rename_i hcha
      rw [ih, takeWhile_cons_of_neg (by simpa using hcha),
        if_neg (show ¬ ([] : List Part).length = (part :: parts).length by simp)]
      have hfst : (showChange s part.kind (rawLines part.value)).firstChangedLine =
          s.firstChangedLine.or (some s.newLineNum) := by
        unfold showChange
        dsimp only
        split
        · rw [foldl_showAdded]
        · rw [foldl_showRemoved]
      rw [hfst, Option.or_assoc]
      rfl
    · rename_i hcha
      have hkind : part.kind = .common := by simpa [Part.isChange] using hcha
      rw [ih, takeWhile_cons_of_pos (by simpa using hcha), showUnchanged, showClose_eq,
        length_cons, length_cons, sideLines_cons, if_neg (show ¬ part.kind = .removed by rw [hkind]; decide), rawLines_eq]
      simp only [Nat.add_right_cancel_iff, length_append, length_map, Nat.add_assoc]

theorem LineParts.unchanged_ends (h : LineParts parts oldContent newContent)
    (hcha : (parts.takeWhile (!·.isChange)).length ≠ parts.length) :
    ∀ p ∈ parts.takeWhile (!·.isChange), p.kind = .common ∧ brokenAtEnd lf p.value = true := by
  obtain ⟨change, rest, hrest⟩ : ∃ change rest, parts.dropWhile (!·.isChange) = change :: rest := by
    refine exists_cons_of_ne_nil fun hnil => hcha ?_
    conv_rhs => rw [← takeWhile_append_dropWhile (p := (!·.isChange)) (l := parts), hnil, append_nil]
  have hisC : change.isChange = true := by
    have hnot := List.head?_dropWhile_not (!·.isChange) parts
    rw [hrest] at hnot
    simpa using hnot
  intro p hp
  have hcom : p.kind = .common := by
    have := mem_takeWhile_imp hp
    simpa [Part.isChange] using this
  refine ⟨hcom, ?_⟩
  -- the change is in one of the files, and `p` is there before it
  have hside : ∀ other, p.kind ≠ other → change.kind ≠ other → p ∈ (partsOf other parts).dropLast := by
    intro other hp' hc'
    unfold partsOf
    rw [← takeWhile_append_dropWhile (p := (!·.isChange)) (l := parts), hrest, filter_append,
      filter_cons_of_pos (by simpa using hc'), dropLast_append_of_ne_nil (cons_ne_nil _ _)]
    exact mem_append_left _ (mem_filter.mpr ⟨hp, by simpa using hp'⟩)
  cases hkind : change.kind with
  | common => rw [Part.isChange, hkind] at hisC; cases hisC
  | added => exact h.newEnds p (hside .removed (by rw [hcom]; decide) (by rw [hkind]; decide))
  | removed => exact h.oldEnds p (hside .added (by rw [hcom]; decide) (by rw [hkind]; decide))

theorem LineParts.firstChange (h : LineParts parts oldContent newContent) :
    (showParts ctx {} parts).firstChangedLine = firstChange parts := by
  rw [firstChangedLine_showParts, EditDiff.firstChange, Option.none_or]
  dsimp only
  split
  · rfl
  · rename_i hcha
    have hends := h.unchanged_ends hcha
    have hall : partsOf .removed (parts.takeWhile (!·.isChange)) = parts.takeWhile (!·.isChange) :=
      filter_eq_self.mpr fun p hp => by simp [(hends p hp).1]
    have hlns := @map_sideLines (parts.takeWhile (!·.isChange)) .removed fun p hp => by
      rw [hall] at hp
      exact (hends p (dropLast_subset _ hp)).2
    rw [hall] at hlns
    rw [← hlns, length_map, Nat.add_comm]

end EditDiff
end EasyPi.CodingAgent
