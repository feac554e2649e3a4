/-
# Text as UTF-8

A string as its code points, which may be unpaired surrogates, and its UTF-8 bytes. An unpaired
surrogate is written as a replacement character. A position in the bytes is moved forward to the
next boundary of two characters by passing continuation bytes.
-/
import EasyPi.Lib.Bytes
import Mathlib.Data.List.Basic

namespace EasyPi

open List

/-- A code point of a string: a character, or a surrogate without its other half. -/
inductive CodePoint where
  | char (c : Char)
  | surrogate (unit : UInt16)
  deriving DecidableEq

/-- The character that is written for a code point. -/
def CodePoint.written : CodePoint → Char
  | .char c => c
  | .surrogate _ => '\uFFFD'

abbrev Text := List CodePoint

def Text.ofChars (cs : List Char) : Text := cs.map .char

variable (p : CodePoint)

def CodePoint.bytes : Bytes := String.utf8EncodeChar p.written

/-- `Buffer.from(text, "utf-8")`. -/
def utf8 (t : Text) : Bytes := t.flatMap CodePoint.bytes

/-- `Buffer.byteLength(text, "utf-8")`. -/
def byteLength (t : Text) : ℕ := (utf8 t).length

/-- `(byte & 0xc0) === 0x80`. -/
def isContinuation (byte : UInt8) : Bool := byte &&& 0xc0 == 0x80

/-- The position behind the continuation bytes at `start`. -/
def nextBoundary (buffer : Bytes) (start : ℕ) : ℕ := start + ((buffer.drop start).takeWhile isContinuation).length

/-- The characters of UTF-8 bytes; `n` bounds their number. Each byte that starts no character is
read as a replacement character, where a decoder may read several of them as one. -/
def decodeUtf8 : ℕ → Bytes → List Char
  | 0, _ => []
  | _, [] => []
  | n + 1, byte :: bytes =>
    match (byte :: bytes).toByteArray.utf8DecodeChar? 0 with
    | some c => c :: decodeUtf8 n ((byte :: bytes).drop c.utf8Size)
    | none => '\uFFFD' :: decodeUtf8 n bytes

/-- `buffer.toString("utf-8")`. -/
def textOfUtf8 (bytes : Bytes) : Text := Text.ofChars (decodeUtf8 bytes.length bytes)

/-- The string with the characters that are written for its code points. -/
def Text.wellFormed (t : Text) : Text := Text.ofChars (t.map CodePoint.written)

theorem utf8_cons (t : Text) : utf8 (p :: t) = p.bytes ++ utf8 t := flatMap_cons

theorem utf8_append (a b : Text) : utf8 (a ++ b) = utf8 a ++ utf8 b := flatMap_append

@[simp] theorem byteLength_nil : byteLength [] = 0 := rfl

theorem byteLength_append (a b : Text) : byteLength (a ++ b) = byteLength a + byteLength b := by
  rw [byteLength, utf8_append, length_append, byteLength, byteLength]

theorem length_bytes : p.bytes.length = p.written.utf8Size := String.length_utf8EncodeChar _

theorem bytes_pos : 0 < p.bytes.length := by
  rw [length_bytes]
  exact Char.utf8Size_pos _

theorem byteLength_cons (t : Text) : byteLength (p :: t) = p.bytes.length + byteLength t := by
  rw [byteLength, utf8_cons, length_append, byteLength]

theorem length_le_byteLength (t : Text) : t.length ≤ byteLength t := by
  induction t with
  | nil => exact Nat.le_refl _
  | cons p t ih =>
    rw [length_cons, byteLength_cons]
    have := bytes_pos p
    omega

@[simp] theorem utf8_wellFormed (t : Text) : utf8 (Text.wellFormed t) = utf8 t := by
  rw [utf8, Text.wellFormed, Text.ofChars, map_map, flatMap_map]
  rfl

@[simp] theorem byteLength_wellFormed (t : Text) : byteLength (Text.wellFormed t) = byteLength t := by
  rw [byteLength, utf8_wellFormed, byteLength]

/-- **Decoding the bytes of a string** yields the characters that are written for it. -/
theorem decodeUtf8_utf8 {n : ℕ} {t : Text} (h : t.length ≤ n) : decodeUtf8 n (utf8 t) = t.map CodePoint.written := by
  induction n generalizing t with
  | zero =>
    rw [length_eq_zero_iff.mp (Nat.le_zero.mp h)]
    rfl
  | succ n ih =>
    cases t with
    | nil => rfl
    | cons p t =>
      obtain ⟨byte, rest, hbyt⟩ := exists_cons_of_ne_nil
        (length_pos_iff.mp (bytes_pos p))
      have hcons : utf8 (p :: t) = byte :: (rest ++ utf8 t) := by
        rw [utf8_cons, hbyt, cons_append]
      have hdec : (byte :: (rest ++ utf8 t)).toByteArray.utf8DecodeChar? 0 = some p.written := by
        rw [← hcons, utf8_cons, toByteArray_append]
        exact ByteArray.utf8DecodeChar?_utf8EncodeChar_append
      have hdrop : (byte :: (rest ++ utf8 t)).drop p.written.utf8Size = utf8 t := by
        rw [← hcons, utf8_cons, ← length_bytes, drop_left]
      rw [hcons, decodeUtf8, hdec]
      dsimp only
      rw [hdrop, ih (Nat.le_of_succ_le_succ h), map_cons]

theorem textOfUtf8_utf8 (t : Text) : textOfUtf8 (utf8 t) = Text.wellFormed t := by
  have h := length_le_byteLength t
  rw [byteLength] at h
  rw [textOfUtf8, decodeUtf8_utf8 h, Text.wellFormed]

/-! ### Boundaries -/

theorem forall_byte {P : UInt8 → Prop} (h : ∀ n : Fin 256, P (UInt8.ofFin n)) (byte : UInt8) : P byte := by
  rw [← UInt8.ofFin_toFin byte]
  exact h _

theorem isContinuation_of_first {byte : UInt8} (h : byte.IsUTF8FirstByte) : isContinuation byte = false :=
  forall_byte (P := fun byte => byte.IsUTF8FirstByte → isContinuation byte = false) (by decide +kernel) byte h

theorem isContinuation_tail (byte : UInt8) : isContinuation (byte &&& 0x3f ||| 0x80) = true :=
  forall_byte (P := fun byte => isContinuation (byte &&& 0x3f ||| 0x80) = true) (by decide +kernel) byte

theorem bytes_eq_cons : ∃ first rest, p.bytes = first :: rest ∧
    isContinuation first = false ∧ (∀ byte ∈ rest, isContinuation byte = true) ∧
    (rest = [] → first = p.written.val.toUInt8 ∧ p.written.val ≤ 127) := by
  have hfst := UInt8.isUTF8FirstByte_getElem_zero_utf8EncodeChar (c := p.written)
  obtain h | h | h | h := p.written.utf8Size_eq
  · have hbyt := String.utf8EncodeChar_eq_singleton h
    refine ⟨_, [], hbyt, ?_, by simp, fun _ => ⟨rfl, Char.utf8Size_eq_one_iff.mp h⟩⟩
    simp only [hbyt] at hfst
    exact isContinuation_of_first hfst
  · have hbyt := String.utf8EncodeChar_eq_cons_cons h
    refine ⟨_, _, hbyt, ?_, ?_, by simp⟩
    · simp only [hbyt] at hfst
      exact isContinuation_of_first hfst
    · simp [isContinuation_tail]
  · have hbyt := String.utf8EncodeChar_eq_cons_cons_cons h
    refine ⟨_, _, hbyt, ?_, ?_, by simp⟩
    · simp only [hbyt] at hfst
      exact isContinuation_of_first hfst
    · simp [isContinuation_tail]
  · have hbyt := String.utf8EncodeChar_eq_cons_cons_cons_cons h
    refine ⟨_, _, hbyt, ?_, ?_, by simp⟩
    · simp only [hbyt] at hfst
      exact isContinuation_of_first hfst
    · simp [isContinuation_tail]

/-- Positions within the bytes of a string lead to the next code point: the least one whose bytes
begin there or behind. -/
theorem nextBoundary_utf8 {t : Text} {n : ℕ} (hn : n ≤ byteLength t) :
    ∃ a b, t = a ++ b ∧ nextBoundary (utf8 t) n = byteLength a ∧ n ≤ byteLength a ∧
      ∀ p a', a = a' ++ [p] → byteLength a' < n := by
  induction t generalizing n with
  | nil =>
    obtain rfl := Nat.le_zero.mp hn
    exact ⟨[], [], rfl, rfl, Nat.le_refl _, by simp⟩
  | cons p t ih =>
    obtain ⟨first, rest, hbyt, hfst, hrest, -⟩ := bytes_eq_cons p
    have hutf8 : utf8 (p :: t) = first :: (rest ++ utf8 t) := by rw [utf8_cons, hbyt, cons_append]
    have hlen : p.bytes.length = rest.length + 1 := by rw [hbyt, length_cons]
    cases n with
    | zero =>
      refine ⟨[], p :: t, rfl, ?_, Nat.le_refl _, by simp⟩
      rw [nextBoundary, drop_zero, hutf8, takeWhile_cons, hfst]
      rfl
    | succ n =>
      rw [byteLength_cons, hlen] at hn
      by_cases hin : n < rest.length
      · -- The position is within this code point.
        have hskip : ∀ byte ∈ rest.drop n, isContinuation byte = true := fun byte hmem =>
          hrest byte (mem_of_mem_drop hmem)
        have hstop : (utf8 t).takeWhile isContinuation = [] := by
          cases t with
          | nil => rfl
          | cons q t =>
            obtain ⟨first', rest', hbyt', hfst', -⟩ := bytes_eq_cons q
            rw [utf8_cons, hbyt', cons_append, takeWhile_cons, hfst']
            rfl
        refine ⟨[p], t, rfl, ?_, ?_, ?_⟩
        · rw [nextBoundary, hutf8, drop_succ_cons, drop_append_of_le_length (by omega),
            takeWhile_append_of_pos hskip, hstop, append_nil, length_drop, byteLength_cons, byteLength_nil, hlen]
          omega
        · rw [byteLength_cons, byteLength_nil, hlen]
          omega
        · intro q a' heq
          have hnil : a' = [] := by
            have hleng := congrArg List.length heq
            rw [length_append, length_singleton] at hleng
            exact length_eq_zero_iff.mp (Nat.succ.inj hleng.symm)
          rw [hnil]
          exact Nat.succ_pos n
      · obtain ⟨a, b, rfl, hbou, hle, hlea⟩ := ih (n := n - rest.length) (by omega)
        refine ⟨p :: a, b, rfl, ?_, ?_, ?_⟩
        · rw [nextBoundary] at hbou ⊢
          have hdrop : (utf8 (p :: (a ++ b))).drop (n + 1) = (utf8 (a ++ b)).drop (n - rest.length) := by
            rw [hutf8, drop_succ_cons, drop_append, drop_eq_nil_of_le (by omega), nil_append]
          rw [hdrop, byteLength_cons, hlen]
          omega
        · rw [byteLength_cons, hlen]
          omega
        · intro q a' heq
          cases a' with
          | nil =>
            rw [byteLength_nil]
            omega
          | cons p' a' =>
            rw [cons_append, List.cons.injEq] at heq
            obtain ⟨rfl, rfl⟩ := heq
            have := hlea q a' rfl
            rw [byteLength_cons, hlen]
            omega

end EasyPi
