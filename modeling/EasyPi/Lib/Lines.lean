/-
# Text as lines

A text cut at its line breaks, and lines that are each ended by one. A text of
ended lines with an unended rest is cut into those lines and the rest, the
empty rest included.
-/
import Mathlib.Data.List.Basic

namespace EasyPi

open List

/-- The pieces of a text between its line breaks. -/
def splitLines (s : String) : List String := (s.toList.splitOn '\n').map String.ofList

/-- The text of the lines, each with its line break. -/
def endLines (lines : List String) : String := String.join (lines.map (· ++ "\n"))

def endsWithNewline (s : String) : Bool := s.toList.getLast? == some '\n'

theorem endLines_cons (line : String) (lines : List String) :
    endLines (line :: lines) = line ++ "\n" ++ endLines lines := by
  rw [endLines, map_cons, String.join_cons, ← endLines]

theorem endLines_append (a b : List String) : endLines (a ++ b) = endLines a ++ endLines b := by
  rw [endLines, map_append, String.join_append, ← endLines, ← endLines]

theorem endLines_singleton (line : String) : endLines [line] = line ++ "\n" := by
  rw [endLines_cons, endLines, map_nil, String.join_nil, String.append_empty]

theorem splitLines_of_notMem {s : String} (h : '\n' ∉ s.toList) : splitLines s = [s] := by
  rw [splitLines, splitOn_eq_singleton h, map_singleton, String.ofList_toList]

variable {lines : List String}

theorem splitLines_endLines_append {rest : String}
    (hlns : ∀ line ∈ lines, '\n' ∉ line.toList) (hrest : '\n' ∉ rest.toList) :
    splitLines (endLines lines ++ rest) = lines ++ [rest] := by
  induction lines with
  | nil =>
    rw [endLines, map_nil, String.join_nil, String.empty_append, nil_append]
    exact splitLines_of_notMem hrest
  | cons line lines ih =>
    obtain ⟨hline, hlns⟩ := forall_mem_cons.mp hlns
    have htext : (endLines (line :: lines) ++ rest).toList = line.toList ++ '\n' :: (endLines lines ++ rest).toList := by
      rw [endLines_cons]
      simp
    rw [splitLines, htext, splitOn_append_cons_self_of_not_mem hline, map_cons,
      String.ofList_toList, ← splitLines, ih hlns, cons_append]

theorem intercalate_eq_endLines (h : lines ≠ []) : "\n".intercalate lines ++ "\n" = endLines lines := by
  induction lines with
  | nil => exact absurd rfl h
  | cons line lines ih =>
    cases lines with
    | nil => rw [String.intercalate_singleton, endLines_singleton]
    | cons next lines =>
      rw [String.intercalate_cons_cons, endLines_cons, ← ih (cons_ne_nil _ _)]
      simp only [String.append_assoc]

theorem endsWithNewline_append_newline (s : String) : endsWithNewline (s ++ "\n") = true := by
  simp [endsWithNewline]

theorem endsWithNewline_endLines (h : lines ≠ []) : endsWithNewline (endLines lines) = true := by
  rw [← intercalate_eq_endLines h]
  exact endsWithNewline_append_newline _

theorem endsWithNewline_append {s rest : String} (hne : rest ≠ "") (h : '\n' ∉ rest.toList) :
    endsWithNewline (s ++ rest) = false := by
  have hlist : rest.toList ≠ [] := fun hnil => hne (String.toList_eq_nil_iff.mp hnil)
  rw [endsWithNewline, String.toList_append, List.getLast?_append_of_ne_nil _ hlist, List.getLast?_eq_some_getLast hlist]
  have hlast : rest.toList.getLast hlist ≠ '\n' := ne_of_mem_of_not_mem (getLast_mem hlist) h
  simpa using hlast

end EasyPi
