/-
# The bytes of JSON text

`Buffer.byteLength(JSON.stringify(value))`, from the bytes of the parts of the value.
-/
import Mathlib.Algebra.Order.BigOperators.Group.List
import Mathlib.Data.Nat.Digits.Lemmas
import Mathlib.Data.String.Basic
import EasyPi.Ai.JsonText

namespace EasyPi

open List Standard

/-- `Buffer.byteLength(JSON.stringify(value))`. -/
def jsonBytes (value : JsonValue) : ℕ := (Standard.stringify value).utf8ByteSize

def memberBytes (member : String × JsonValue) : ℕ := jsonBytes (.str member.1) + 1 + jsonBytes member.2

/-- A character that is written as itself, in one byte. -/
def IsPlain (c : Char) : Prop := escapeChar c = [c] ∧ c.utf8Size = 1

instance (c : Char) : Decidable (IsPlain c) := inferInstanceAs (Decidable (_ ∧ _))

theorem isPlain_of_all (chars : List Char) (h : chars.all (fun c => decide (IsPlain c)) = true) :
    ∀ c ∈ chars, IsPlain c := by
  simpa only [all_eq_true, decide_eq_true_eq] using h

theorem jsonBytes_eq (value : JsonValue) : jsonBytes value = String.utf8Len (print value) := String.utf8ByteSize_ofList _

theorem utf8Len_printTail (close : Char) (items : List (List Char)) :
    String.utf8Len (printTail close items) = (items.map (String.utf8Len · + 1)).sum + close.utf8Size := by
  induction items with
  | nil => rw [printTail, String.utf8Len_cons, String.utf8Len_nil]; rfl
  | cons item items ih =>
    have hcomma : (',' : Char).utf8Size = 1 := by decide
    rw [printTail, String.utf8Len_cons, String.utf8Len_append, ih, map_cons, sum_cons, hcomma]
    omega

theorem utf8Len_printSeq (close : Char) (item : List Char) (items : List (List Char)) :
    String.utf8Len (printSeq close (item :: items)) + 1 =
      ((item :: items).map (String.utf8Len · + 1)).sum + close.utf8Size := by
  rw [printSeq, String.utf8Len_append, utf8Len_printTail, map_cons, sum_cons]
  omega

theorem utf8Len_printMember (member : String × JsonValue) : String.utf8Len (printMember member) = memberBytes member := by
  rw [printMember, memberBytes, jsonBytes_eq, jsonBytes_eq, print, String.utf8Len_cons, String.utf8Len_cons,
    String.utf8Len_append, String.utf8Len_cons]
  have hcol : (':' : Char).utf8Size = 1 := by decide
  rw [hcol]
  omega

/-- **An object**: its properties, each behind a comma or the brace. -/
theorem jsonBytes_obj {fields : Fields} (h : fields ≠ []) :
    jsonBytes (.obj fields) = (fields.map (memberBytes · + 1)).sum + 1 := by
  cases fields with
  | nil => exact absurd rfl h
  | cons member fields =>
    have hseq := utf8Len_printSeq '}' (printMember member) (fields.map printMember)
    have hclo : ('}' : Char).utf8Size = 1 := by decide
    have hopen : ('{' : Char).utf8Size = 1 := by decide
    rw [← map_cons, map_map, hclo] at hseq
    rw [jsonBytes_eq, print, printFields_eq_map, String.utf8Len_cons, hopen]
    have hsum : ((member :: fields).map ((String.utf8Len · + 1) ∘ printMember)).sum =
        ((member :: fields).map (memberBytes · + 1)).sum := by
      refine congrArg List.sum (map_congr_left fun other _ => ?_)
      exact congrArg (· + 1) (utf8Len_printMember other)
    rw [hsum] at hseq
    exact hseq

theorem jsonBytes_obj_le_of_sublist {fields more : Fields} (h : fields.Sublist more) (hne : fields ≠ []) :
    jsonBytes (.obj fields) ≤ jsonBytes (.obj more) := by
  have hmore : more ≠ [] := by
    rintro rfl
    exact hne (sublist_nil.mp h)
  rw [jsonBytes_obj hne, jsonBytes_obj hmore]
  exact Nat.add_le_add_right (List.Sublist.sum_le_sum (h.map _) fun _ _ => Nat.zero_le _) 1

theorem jsonBytes_arr_le (values : List JsonValue) :
    jsonBytes (.arr values) ≤ (values.map (jsonBytes · + 1)).sum + 2 := by
  have hclo : (']' : Char).utf8Size = 1 := by decide
  have hopen : ('[' : Char).utf8Size = 1 := by decide
  rw [jsonBytes_eq, print, printList_eq_map, String.utf8Len_cons, hopen]
  cases values with
  | nil => decide
  | cons value values =>
    have hseq := utf8Len_printSeq ']' (print value) (values.map print)
    rw [← map_cons, map_map, hclo] at hseq
    have hsum : ((value :: values).map ((String.utf8Len · + 1) ∘ print)).sum =
        ((value :: values).map (jsonBytes · + 1)).sum := by
      refine congrArg List.sum (map_congr_left fun other _ => ?_)
      exact congrArg (· + 1) (jsonBytes_eq other).symm
    rw [hsum] at hseq
    omega

theorem utf8Len_plain {text : List Char} (h : ∀ c ∈ text, IsPlain c) : String.utf8Len text = text.length := by
  induction text with
  | nil => rfl
  | cons c text ih =>
    obtain ⟨hc, htext⟩ := forall_mem_cons.mp h
    rw [String.utf8Len_cons, ih htext, hc.2, length_cons]

theorem jsonBytes_str {text : String} (h : ∀ c ∈ text.toList, IsPlain c) :
    jsonBytes (.str text) = text.toList.length + 2 := by
  have hesc : text.toList.flatMap escapeChar = text.toList := by
    conv_rhs => rw [← flatMap_singleton' text.toList]
    exact flatMap_congr fun c hc => (h c hc).1
  have hquo : ('"' : Char).utf8Size = 1 := by decide
  rw [jsonBytes_eq, print, printChars, hesc, String.utf8Len_cons, String.utf8Len_append, utf8Len_plain h,
    String.utf8Len_cons, String.utf8Len_nil, hquo]

theorem isPlain_of_isDigit {c : Char} (h : c.isDigit = true) : IsPlain c := by
  obtain ⟨hlow, hhigh⟩ : 48 ≤ c.toNat ∧ c.toNat ≤ 57 := by
    simpa [Char.isDigit, UInt32.le_iff_toNat_le] using h
  have hdig := (show ∀ d : Fin 10, IsPlain (Char.ofNat (48 + d)) by decide) ⟨c.toNat - 48, by omega⟩
  have hchar : Char.ofNat (48 + (c.toNat - 48)) = c := by
    rw [Nat.add_sub_cancel' hlow, Char.ofNat_toNat]
  rw [← hchar]
  exact hdig

theorem jsonBytes_num_le {n k : ℕ} (hk : 0 < k) (h : n < 10 ^ k) : jsonBytes (.num n) ≤ k := by
  have hpri : print (.num n) = printNat n := by
    have hnon : ¬ (n : ℤ) < 0 := not_lt.mpr (Int.natCast_nonneg n)
    rw [print, printNum, Rat.num_natCast, Rat.den_natCast, if_pos rfl, append_nil, printInt, if_neg hnon,
      Int.natAbs_natCast]
  rw [jsonBytes_eq, hpri, utf8Len_plain fun c hc => isPlain_of_isDigit (isDigit_of_mem_printNat hc), printNat]
  split
  · exact hk
  · rw [length_reverse, length_map]
    exact (Nat.digits_length_le_iff (by decide) n).mpr h

end EasyPi
