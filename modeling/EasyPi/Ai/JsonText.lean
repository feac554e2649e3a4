/-
# JSON text

`JSON.stringify` and `JSON.parse` as the modelled code relies on them. A
`JsonText` is a printer and a parser with three laws: what is printed parses
to the value it was printed from, a printed text has no line break, and no
strict beginning of the text of an object parses.

`Standard.stringify` writes the texts of the JSON grammar for every value but a
number that is not an integer: how an engine writes those is left open, and a
fraction stands in for it. What is written is read in one way only.
-/
import Mathlib.Data.Nat.Digits.Defs
import Mathlib.Data.Rat.Lemmas
import EasyPi.Ai.Json

namespace EasyPi

open List

structure JsonText where
  stringify : JsonValue → String
  parse : String → Option JsonValue
  parse_stringify : ∀ value, value.WellFormed → parse (stringify value) = some value
  newline_notMem : ∀ value, '\n' ∉ (stringify value).toList
  parse_truncated : ∀ (fields : Fields) (text : String), (JsonValue.obj fields).WellFormed →
    text.toList <+: (stringify (.obj fields)).toList → text ≠ stringify (.obj fields) → parse text = none

namespace JsonText

variable (J : JsonText)

theorem stringify_injective {a b : JsonValue} (ha : a.WellFormed) (hb : b.WellFormed)
    (h : J.stringify a = J.stringify b) : a = b := by
  have hprs := J.parse_stringify a ha
  rw [h, J.parse_stringify b hb] at hprs
  exact (Option.some.inj hprs).symm

theorem stringify_obj_ne_empty {fields : Fields} (h : (JsonValue.obj fields).WellFormed) :
    J.stringify (.obj fields) ≠ "" := by
  intro hemp
  obtain ⟨other, hoth, hne⟩ : ∃ other : Fields, (JsonValue.obj other).WellFormed ∧ other ≠ fields := by
    cases fields with
    | nil => exact ⟨[("", .null)], by simp [JsonValue.WellFormed, JsonValue.WellFormedFields], by simp⟩
    | cons p fields => exact ⟨[], by simp [JsonValue.WellFormed, JsonValue.WellFormedFields], by simp⟩
  have hnone := J.parse_truncated other "" hoth (by simp) fun heq => by
    exact hne (JsonValue.obj.inj (J.stringify_injective hoth h (by rw [← heq, hemp])))
  rw [← hemp, J.parse_stringify _ h] at hnone
  cases hnone

end JsonText

/-! ### A printer -/

namespace Standard

def hexDigit (n : ℕ) : Char := if n < 10 then Char.ofNat (48 + n) else Char.ofNat (87 + n)

def escapeChar (c : Char) : List Char :=
  if c = '"' then ['\\', '"']
  else if c = '\\' then ['\\', '\\']
  else if c = '\n' then ['\\', 'n']
  else if c = '\r' then ['\\', 'r']
  else if c = '\t' then ['\\', 't']
  else if c.toNat = 8 then ['\\', 'b']
  else if c.toNat = 12 then ['\\', 'f']
  else if c.toNat < 32 then ['\\', 'u', '0', '0', hexDigit (c.toNat / 16), hexDigit (c.toNat % 16)]
  else [c]

/-- A string literal behind its opening quote. -/
def printChars (s : List Char) : List Char := s.flatMap escapeChar ++ ['"']

def printNat (n : ℕ) : List Char :=
  if n = 0 then ['0'] else ((Nat.digits 10 n).map fun d => Char.ofNat (48 + d)).reverse

def printInt (i : ℤ) : List Char := if i < 0 then '-' :: printNat i.natAbs else printNat i.natAbs

def printNum (q : ℚ) : List Char := printInt q.num ++ if q.den = 1 then [] else '/' :: printNat q.den

/-- The items behind the first one, each behind a comma, and the closing bracket. -/
def printTail (close : Char) : List (List Char) → List Char
  | [] => [close]
  | item :: items => ',' :: (item ++ printTail close items)

/-- The items of an array or an object and the closing bracket. -/
def printSeq (close : Char) : List (List Char) → List Char
  | [] => [close]
  | item :: items => item ++ printTail close items

mutual
def print : JsonValue → List Char
  | .null => ['n', 'u', 'l', 'l']
  | .bool true => ['t', 'r', 'u', 'e']
  | .bool false => ['f', 'a', 'l', 's', 'e']
  | .num q => printNum q
  | .str s => '"' :: printChars s.toList
  | .arr xs => '[' :: printSeq ']' (printList xs)
  | .obj fields => '{' :: printSeq '}' (printFields fields)
def printList : List JsonValue → List (List Char)
  | [] => []
  | x :: xs => print x :: printList xs
def printFields : List (String × JsonValue) → List (List Char)
  | [] => []
  | (key, x) :: fields => ('"' :: (printChars key.toList ++ ':' :: print x)) :: printFields fields
end

/-! ### A printed text is read in one way -/

variable {n m : ℕ} {rest rest' : List Char}

/-- The characters that are not written as themselves. -/
def escapedChars : List Char := '"' :: '\\' :: (List.range 32).map Char.ofNat

theorem escapeChar_cases (c : Char) : escapeChar c = [c] ∧ c ≠ '"' ∧ c ≠ '\\' ∨ c ∈ escapedChars := by
  have hofN : Char.ofNat c.toNat = c := Char.ofNat_toNat c
  have hcon (h : c.toNat < 32) : c ∈ escapedChars :=
    mem_cons_of_mem _ (mem_cons_of_mem _ (mem_map.mpr ⟨_, mem_range.mpr h, hofN⟩))
  by_cases hquo : c = '"'
  · exact .inr (hquo ▸ mem_cons_self)
  by_cases hsla : c = '\\'
  · exact .inr (hsla ▸ mem_cons_of_mem _ mem_cons_self)
  by_cases hlow : c.toNat < 32
  · exact .inr (hcon hlow)
  · refine .inl ⟨?_, hquo, hsla⟩
    have hne (d : Char) (hd : d.toNat < 32) : c ≠ d := fun heq => hlow (heq ▸ hd)
    rw [escapeChar, if_neg hquo, if_neg hsla, if_neg (hne '\n' (by decide)), if_neg (hne '\r' (by decide)),
      if_neg (hne '\t' (by decide)), if_neg (by omega), if_neg (by omega), if_neg hlow]

theorem escaped_head (c : Char) (hc : c ∈ escapedChars) : (escapeChar c).head? = some '\\' := by
  have hall : (escapedChars.all fun c => (escapeChar c).head? = some '\\') = true := by decide +kernel
  exact of_decide_eq_true (all_eq_true.mp hall c hc)

theorem escaped_prefix (c : Char) (hc : c ∈ escapedChars) (d : Char) (hd : d ∈ escapedChars)
    (h : escapeChar c <+: escapeChar d) : c = d := by
  have hall : (escapedChars.all fun c => escapedChars.all fun d =>
      !(escapeChar c).isPrefixOf (escapeChar d) || c = d) = true := by decide +kernel
  have hpre := isPrefixOf_iff_prefix.mpr h
  simpa [hpre] using all_eq_true.mp (all_eq_true.mp hall c hc) d hd

theorem escapeChar_inj {c d : Char} (h : escapeChar c ++ rest = escapeChar d ++ rest') : c = d ∧ rest = rest' := by
  have hcd : c = d := by
    obtain ⟨hc, -, hsla⟩ | hc := escapeChar_cases c <;> obtain ⟨hd, -, hsla'⟩ | hd := escapeChar_cases d
    · rw [hc, hd] at h
      exact (cons.inj h).1
    · have hhead := congrArg head? h
      rw [head?_append, head?_append, hc, escaped_head d hd] at hhead
      exact absurd (Option.some.inj hhead) hsla
    · have hhead := congrArg head? h
      rw [head?_append, head?_append, hd, escaped_head c hc] at hhead
      exact absurd (Option.some.inj hhead).symm hsla'
    · obtain hpre | hpre := prefix_or_prefix_of_prefix (h ▸ prefix_append _ _) (prefix_append (escapeChar d) rest')
      · exact escaped_prefix c hc d hd hpre
      · exact Eq.symm <| escaped_prefix d hd c hc hpre
  subst hcd
  exact ⟨rfl, append_cancel_left h⟩

theorem escapeChar_ne_quote (c : Char) (s : List Char) : escapeChar c ++ s ≠ '"' :: rest := by
  intro h
  have hhead := congrArg head? h
  rw [head?_append] at hhead
  obtain ⟨hc, hquo, -⟩ | hc := escapeChar_cases c
  · rw [hc] at hhead
    exact hquo (Option.some.inj hhead)
  · rw [escaped_head c hc] at hhead
    exact absurd (Option.some.inj hhead) (by decide)

theorem printChars_inj {s t : List Char} (h : printChars s ++ rest = printChars t ++ rest') : s = t ∧ rest = rest' := by
  have hcons (c : Char) (s rest : List Char) : printChars (c :: s) ++ rest = escapeChar c ++ (printChars s ++ rest) := by
    simp [printChars]
  induction s generalizing t with
  | nil =>
    cases t with
    | nil => exact ⟨rfl, (cons.inj h).2⟩
    | cons d t =>
      rw [hcons] at h
      exact absurd h.symm (escapeChar_ne_quote d _)
  | cons c s ih =>
    rw [hcons] at h
    cases t with
    | nil => exact absurd h (escapeChar_ne_quote c _)
    | cons d t =>
      rw [hcons] at h
      obtain ⟨rfl, hs⟩ := escapeChar_inj h
      obtain ⟨rfl, hrest⟩ := ih hs
      exact ⟨rfl, hrest⟩

theorem isDigit_ofNat {d : ℕ} (h : d < 10) :
    (Char.ofNat (48 + d)).isDigit = true ∧ (Char.ofNat (48 + d)).toNat - 48 = d := by
  have : ∀ d : Fin 10, (Char.ofNat (48 + d)).isDigit = true ∧ (Char.ofNat (48 + d)).toNat - 48 = d.val := by decide
  exact this ⟨d, h⟩

theorem isDigit_of_mem_printNat {c : Char} (h : c ∈ printNat n) : c.isDigit = true := by
  unfold printNat at h
  split_ifs at h with hn
  · simp only [mem_singleton] at h
    subst h
    decide
  · simp only [mem_reverse, mem_map] at h
    obtain ⟨d, hd, rfl⟩ := h
    exact (isDigit_ofNat (Nat.digits_lt_base (by omega) hd)).1

theorem printNat_ne_nil (n : ℕ) : printNat n ≠ [] := by
  unfold printNat
  split_ifs with hn
  · simp
  · simp [hn, Nat.digits_ne_nil_iff_ne_zero]

theorem ofDigits_printNat (n : ℕ) : Nat.ofDigits 10 ((printNat n).reverse.map fun c => c.toNat - 48) = n := by
  unfold printNat
  split_ifs with hn
  · subst hn
    decide
  · rw [reverse_reverse, map_map]
    have hmap : (Nat.digits 10 n).map ((fun c : Char => c.toNat - 48) ∘ fun d => Char.ofNat (48 + d)) =
        Nat.digits 10 n := by
      conv_rhs => rw [← map_id (Nat.digits 10 n)]
      exact map_congr_left fun d hd =>
        (isDigit_ofNat (Nat.digits_lt_base (by omega) hd)).2
    rw [hmap, Nat.ofDigits_digits]

def NoDigit (rest : List Char) : Prop := ∀ c ∈ rest.head?, c.isDigit = false

/-- What may follow a number. -/
def Stops (rest : List Char) : Prop := ∀ c ∈ rest.head?, c.isDigit = false ∧ c ≠ '/'

theorem printNat_inj (hr : NoDigit rest) (hr' : NoDigit rest') (h : printNat n ++ rest = printNat m ++ rest') :
    n = m ∧ rest = rest' := by
  have htake (n : ℕ) {rest : List Char} (hr : NoDigit rest) : (printNat n ++ rest).takeWhile Char.isDigit = printNat n := by
    rw [takeWhile_append_of_pos fun c hc => isDigit_of_mem_printNat hc]
    cases rest with
    | nil => simp
    | cons c rest => simp [hr c (by simp)]
  have hpri : printNat n = printNat m := by
    rw [← htake n hr, h, htake m hr']
  have hval := ofDigits_printNat n
  rw [hpri, ofDigits_printNat] at hval
  rw [hpri] at h
  exact ⟨hval.symm, append_cancel_left h⟩

theorem printNat_start (n : ℕ) : ∃ c s, printNat n = c :: s ∧ c.isDigit = true := by
  obtain ⟨c, s, hs⟩ := exists_cons_of_ne_nil (printNat_ne_nil n)
  exact ⟨c, s, hs, isDigit_of_mem_printNat (hs ▸ mem_cons_self)⟩

theorem printInt_inj {i j : ℤ} (hr : NoDigit rest) (hr' : NoDigit rest') (h : printInt i ++ rest = printInt j ++ rest') :
    i = j ∧ rest = rest' := by
  have hminus (n : ℕ) (s s' : List Char) : '-' :: s ≠ printNat n ++ s' := by
    obtain ⟨c, t, ht, hc⟩ := printNat_start n
    rw [ht]
    rintro heq
    rw [← (cons.inj heq).1] at hc
    exact absurd hc (by decide)
  unfold printInt at h
  split_ifs at h with hi hj hj
  · obtain ⟨habs, hrest⟩ := printNat_inj hr hr' (cons.inj h).2
    exact ⟨by omega, hrest⟩
  · exact absurd h (hminus _ _ _)
  · exact absurd h.symm (hminus _ _ _)
  · obtain ⟨habs, hrest⟩ := printNat_inj hr hr' h
    exact ⟨by omega, hrest⟩

theorem printNum_inj {p q : ℚ} (hr : Stops rest) (hr' : Stops rest') (h : printNum p ++ rest = printNum q ++ rest') :
    p = q ∧ rest = rest' := by
  have hden (d : ℕ) {rest : List Char} (hr : Stops rest) :
      NoDigit ((if d = 1 then [] else '/' :: printNat d) ++ rest) := by
    split_ifs
    · exact fun c hc => (hr c hc).1
    · rintro c hc
      obtain rfl : '/' = c := Option.some.inj hc
      decide
  rw [printNum, printNum, append_assoc, append_assoc] at h
  obtain ⟨hnum, h⟩ := printInt_inj (hden _ hr) (hden _ hr') h
  split_ifs at h with hp hq hq
  · exact ⟨Rat.ext hnum (hp.trans hq.symm), h⟩
  · exact absurd rfl (hr '/' (by simp [show rest = _ from h])).2
  · have hslash := hr' '/' (by simp [show rest' = _ from h.symm])
    exact absurd rfl hslash.2
  · obtain ⟨hd, hrest⟩ := printNat_inj (fun c hc => (hr c hc).1) (fun c hc => (hr' c hc).1) (cons.inj h).2
    exact ⟨Rat.ext hnum hd, hrest⟩

section Sequences

variable {β : Type} {close : Char} {write : β → List Char} {xs ys : List β}

/-- A text of this item, before a comma or a bracket, is a text of no other. -/
def ReadOneWay (write : β → List Char) (x : β) : Prop := ∀ y rest rest', Stops rest → Stops rest' →
  write x ++ rest = write y ++ rest' → x = y ∧ rest = rest'

theorem stops_printTail (hclo : close.isDigit = false ∧ close ≠ '/') (items : List (List Char)) (rest : List Char) :
    Stops (printTail close items ++ rest) := by
  intro c hc
  cases items with
  | nil => exact Option.some.inj hc ▸ hclo
  | cons item items => exact Option.some.inj hc ▸ (by decide)

theorem printTail_inj (hclo : close.isDigit = false ∧ close ≠ '/') (hcomma : close ≠ ',')
    (hitem : ∀ x ∈ xs, ReadOneWay write x)
    (h : printTail close (xs.map write) ++ rest = printTail close (ys.map write) ++ rest') : xs = ys ∧ rest = rest' := by
  induction xs generalizing ys with
  | nil =>
    cases ys with
    | nil => exact ⟨rfl, (cons.inj h).2⟩
    | cons y ys => exact absurd (cons.inj h).1 hcomma
  | cons x xs ih =>
    obtain ⟨hx, hitem⟩ := forall_mem_cons.mp hitem
    cases ys with
    | nil => exact absurd (cons.inj h).1.symm hcomma
    | cons y ys =>
      rw [map_cons, map_cons, printTail, printTail, cons_append, cons_append, append_assoc, append_assoc] at h
      obtain ⟨rfl, hs⟩ := hx y _ _ (stops_printTail hclo _ _) (stops_printTail hclo _ _) (cons.inj h).2
      obtain ⟨rfl, hrest⟩ := ih hitem hs
      exact ⟨rfl, hrest⟩

theorem printSeq_inj (hclo : close.isDigit = false ∧ close ≠ '/') (hcomma : close ≠ ',')
    (hitem : ∀ x ∈ xs, ReadOneWay write x) (hstart : ∀ x, (write x).head? ≠ some close ∧ write x ≠ [])
    (h : printSeq close (xs.map write) ++ rest = printSeq close (ys.map write) ++ rest') : xs = ys ∧ rest = rest' := by
  have hne (x : β) (s t : List Char) : write x ++ s ≠ close :: t := by
    obtain ⟨c, s', hs⟩ := exists_cons_of_ne_nil (hstart x).2
    have hc := (hstart x).1
    rw [hs] at hc ⊢
    exact fun heq => hc (congrArg some (cons.inj heq).1)
  cases xs with
  | nil =>
    cases ys with
    | nil => exact ⟨rfl, (cons.inj h).2⟩
    | cons y ys =>
      rw [map_cons, printSeq, append_assoc] at h
      exact absurd h.symm (hne y _ _)
  | cons x xs =>
    obtain ⟨hx, hitem⟩ := forall_mem_cons.mp hitem
    rw [map_cons, printSeq, append_assoc] at h
    cases ys with
    | nil => exact absurd h (hne x _ _)
    | cons y ys =>
      rw [map_cons, printSeq, append_assoc] at h
      obtain ⟨rfl, hs⟩ := hx y _ _ (stops_printTail hclo _ _) (stops_printTail hclo _ _) h
      obtain ⟨rfl, hrest⟩ := printTail_inj hclo hcomma hitem hs
      exact ⟨rfl, hrest⟩

end Sequences

/-! ### Values -/

theorem printList_eq_map (xs : List JsonValue) : printList xs = xs.map print := by
  induction xs with
  | nil => rfl
  | cons x xs ih => rw [printList, ih, map_cons]

def printMember (p : String × JsonValue) : List Char := '"' :: (printChars p.1.toList ++ ':' :: print p.2)

theorem printFields_eq_map (fields : Fields) : printFields fields = fields.map printMember := by
  induction fields with
  | nil => rfl
  | cons p fields ih => rw [printFields, ih, map_cons, printMember]

theorem printInt_start (i : ℤ) : ∃ c s, printInt i = c :: s ∧ (c.isDigit = true ∨ c = '-') := by
  obtain ⟨c, s, hs⟩ := exists_cons_of_ne_nil (printNat_ne_nil i.natAbs)
  unfold printInt
  split_ifs with hi
  · exact ⟨_, _, rfl, Or.inr rfl⟩
  · exact ⟨c, s, hs, Or.inl (isDigit_of_mem_printNat (hs ▸ mem_cons_self))⟩

variable (value : JsonValue)

theorem print_start : (print value).head? ≠ some ']' ∧ print value ≠ [] := by
  cases value with
  | num q =>
    obtain ⟨c, s, hs, hc⟩ := printInt_start q.num
    rw [print, printNum, hs, cons_append]
    refine ⟨fun heq => ?_, cons_ne_nil _ _⟩
    obtain rfl := Option.some.inj heq
    exact absurd hc (by decide)
  | bool b => cases b <;> exact ⟨by decide, by decide⟩
  | null | str s | arr xs | obj fields => exact ⟨fun heq => absurd (Option.some.inj heq) (by decide), cons_ne_nil _ _⟩

theorem ne_print_num {c : Char} {s : List Char} {q : ℚ} (hc : ¬(c.isDigit = true ∨ c = '-')) :
    c :: s ≠ print (.num q) ++ rest := by
  obtain ⟨d, t, ht, hd⟩ := printInt_start q.num
  rw [print, printNum, ht, cons_append, cons_append]
  exact fun h => hc ((cons.inj h).1 ▸ hd)

/-- **A printed text is the text of one value**, whatever follows it. -/
theorem print_inj {value other : JsonValue} (hr : value.isNumber = true → Stops rest)
    (hr' : other.isNumber = true → Stops rest') (h : print value ++ rest = print other ++ rest') :
    value = other ∧ rest = rest' := by
  induction value using JsonValue.induct generalizing other rest rest' with
  | num q =>
    cases other with
    | num p =>
      obtain ⟨rfl, hrest⟩ := printNum_inj (hr rfl) (hr' rfl) h
      exact ⟨rfl, hrest⟩
    | bool b => cases b <;> exact absurd h.symm (ne_print_num (by decide))
    | null | str _ | arr _ | obj _ => exact absurd h.symm (ne_print_num (by decide))
  | null =>
    cases other with
    | null => exact ⟨rfl, append_cancel_left h⟩
    | num q => exact absurd h (ne_print_num (by decide))
    | bool b => cases b <;> exact absurd (cons.inj h).1 (by decide)
    | str _ | arr _ | obj _ => exact absurd (cons.inj h).1 (by decide)
  | bool b =>
    cases other with
    | bool b' =>
      cases b <;> cases b'
      · exact ⟨rfl, append_cancel_left h⟩
      · exact absurd (cons.inj h).1 (by decide)
      · exact absurd (cons.inj h).1 (by decide)
      · exact ⟨rfl, append_cancel_left h⟩
    | num q => cases b <;> exact absurd h (ne_print_num (by decide))
    | null | str _ | arr _ | obj _ => cases b <;> exact absurd (cons.inj h).1 (by decide)
  | str s =>
    cases other with
    | str t =>
      obtain ⟨hst, hrest⟩ := printChars_inj (cons.inj h).2
      exact ⟨congrArg JsonValue.str (String.toList_inj.mp hst), hrest⟩
    | num q => exact absurd h (ne_print_num (by decide))
    | bool b => cases b <;> exact absurd (cons.inj h).1 (by decide)
    | null | arr _ | obj _ => exact absurd (cons.inj h).1 (by decide)
  | arr xs ih =>
    cases other with
    | arr ys =>
      rw [print, print, printList_eq_map, printList_eq_map] at h
      have hitem : ∀ x ∈ xs, ReadOneWay print x := fun x hx y _ _ hs hs' => ih x hx (fun _ => hs) fun _ => hs'
      obtain ⟨rfl, hrest⟩ := printSeq_inj (by decide) (by decide) hitem print_start (cons.inj h).2
      exact ⟨rfl, hrest⟩
    | num q => exact absurd h (ne_print_num (by decide))
    | bool b => cases b <;> exact absurd (cons.inj h).1 (by decide)
    | null | str _ | obj _ => exact absurd (cons.inj h).1 (by decide)
  | obj fields ih =>
    cases other with
    | obj others =>
      rw [print, print, printFields_eq_map, printFields_eq_map] at h
      have hitem : ∀ p ∈ fields, ReadOneWay printMember p := by
        intro p hp q _ _ hs hs' heq
        rw [printMember, printMember, cons_append, cons_append, append_assoc, append_assoc] at heq
        obtain ⟨hkey, hmemb⟩ := printChars_inj (cons.inj heq).2
        obtain ⟨hval, hrest⟩ := ih p hp (fun _ => hs) (fun _ => hs') (cons.inj hmemb).2
        exact ⟨Prod.ext (String.toList_inj.mp hkey) hval, hrest⟩
      have hstart (p : String × JsonValue) : (printMember p).head? ≠ some '}' ∧ printMember p ≠ [] :=
        ⟨fun heq => absurd (Option.some.inj heq) (by decide), cons_ne_nil _ _⟩
      obtain ⟨rfl, hrest⟩ := printSeq_inj (by decide) (by decide) hitem hstart (cons.inj h).2
      exact ⟨rfl, hrest⟩
    | num q => exact absurd h (ne_print_num (by decide))
    | bool b => cases b <;> exact absurd (cons.inj h).1 (by decide)
    | null | str _ | arr _ => exact absurd (cons.inj h).1 (by decide)

/-! ### A printed text has no line break -/

theorem newline_notMem_printChars (s : List Char) : '\n' ∉ printChars s := by
  have hhex : ∀ n : Fin 16, '\n' ≠ hexDigit n := by decide
  simp only [printChars, mem_append, mem_flatMap, mem_singleton, not_or, not_exists, not_and]
  refine ⟨fun c _ => ?_, by decide⟩
  unfold escapeChar
  split_ifs with hquo hsla hnl hret htab hback hfeed hcon
  all_goals simp only [mem_cons, not_mem_nil, or_false, not_or]
  · decide
  · decide
  · decide
  · decide
  · decide
  · decide
  · decide
  · exact ⟨by decide, by decide, by decide, by decide, hhex ⟨_, by omega⟩, hhex ⟨_, by omega⟩⟩
  · exact Ne.symm hnl

theorem newline_notMem_printNat (n : ℕ) : '\n' ∉ printNat n := fun h =>
  absurd (isDigit_of_mem_printNat h) (by decide)

theorem newline_notMem_printNum (q : ℚ) : '\n' ∉ printNum q := by
  have hint : '\n' ∉ printInt q.num := by
    unfold printInt
    split_ifs <;> simp [newline_notMem_printNat]
  unfold printNum
  split_ifs <;> simp [hint, newline_notMem_printNat]

theorem newline_notMem_printSeq {close : Char} (hclo : close ≠ '\n')
    (h : ∀ item ∈ items, '\n' ∉ item) : '\n' ∉ printSeq close items := by
  have htail : ∀ items : List (List Char), (∀ item ∈ items, '\n' ∉ item) → '\n' ∉ printTail close items := by
    intro items hite
    induction items with
    | nil => simpa [printTail] using Ne.symm hclo
    | cons item items ih =>
      rw [forall_mem_cons] at hite
      simp [printTail, hite.1, ih hite.2]
  cases items with
  | nil => simpa [printSeq] using Ne.symm hclo
  | cons item items =>
    rw [forall_mem_cons] at h
    simp [printSeq, h.1, htail items h.2]

theorem newline_notMem_print : '\n' ∉ print value := by
  induction value using JsonValue.induct with
  | null => decide
  | bool b => cases b <;> decide
  | num q => exact newline_notMem_printNum q
  | str s => simp [print, newline_notMem_printChars]
  | arr xs ih =>
    rw [print, printList_eq_map]
    have := newline_notMem_printSeq (show ']' ≠ '\n' by decide) (forall_mem_map.mpr ih)
    simp [this]
  | obj fields ih =>
    rw [print, printFields_eq_map]
    have hmemb : ∀ p ∈ fields, '\n' ∉ printMember p := fun p hp => by
      simp [printMember, newline_notMem_printChars, ih p hp]
    have := newline_notMem_printSeq (show '}' ≠ '\n' by decide) (forall_mem_map.mpr hmemb)
    simp [this]


/-- No strict beginning of the text of an object is a printed text. -/
theorem print_truncated {fields : Fields} {value : JsonValue} {rest : List Char}
    (h : print value ++ rest = print (.obj fields)) : rest = [] := by
  have hstop : value.isNumber = true → Stops rest := by
    intro hnum
    cases value with
    | num q => exact absurd h.symm (ne_print_num (by decide))
    | null | bool _ | str _ | arr _ | obj _ => cases hnum
  exact (print_inj hstop (fun hnum => by cases hnum) (h.trans (append_nil _).symm)).2

def stringify (value : JsonValue) : String := .ofList (print value)

theorem stringify_inj {value other : JsonValue} (h : stringify value = stringify other) : value = other := by
  have hnil : Stops [] := fun c hc => by cases hc
  have hpri : print value ++ [] = print other ++ [] := by
    rw [append_nil, append_nil]
    exact String.ofList_injective h
  exact (print_inj (fun _ => hnil) (fun _ => hnil) hpri).1

end Standard

open Classical in
/-- The printer with the parser that reads what it prints and nothing else: the laws can be met. An engine
reads more texts. -/
noncomputable def JsonText.printed : JsonText where
  stringify := Standard.stringify
  parse text := if h : ∃ value : JsonValue, Standard.stringify value = text then some h.choose else none
  parse_stringify value _ := by
    have hex : ∃ other : JsonValue, Standard.stringify other = Standard.stringify value := ⟨value, rfl⟩
    rw [dif_pos hex, Standard.stringify_inj hex.choose_spec]
  newline_notMem value := by
    rw [Standard.stringify, String.toList_ofList]
    exact Standard.newline_notMem_print value
  parse_truncated fields text _ hpre hne := by
    refine dif_neg ?_
    rintro ⟨value, rfl⟩
    obtain ⟨rest, hrest⟩ := hpre
    rw [Standard.stringify, Standard.stringify, String.toList_ofList, String.toList_ofList] at hrest
    rw [Standard.print_truncated hrest, append_nil] at hrest
    exact hne (congrArg String.ofList hrest)

end EasyPi
