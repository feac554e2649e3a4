/-
# Base64 in the alphabet of URLs

Bytes as characters, six bits each, without padding. Characters outside the alphabet are skipped when the
bytes are read back.
-/
import EasyPi.Lib.Bytes
import Mathlib.Data.List.Basic

namespace EasyPi

open List

def base64Alphabet : List Char := "ABCDEFGHIJKLMNOPQRSTUVWXYZabcdefghijklmnopqrstuvwxyz0123456789-_".toList

def sextetChar (n : ℕ) : Char := base64Alphabet.getD n 'A'

def sextetOf (c : Char) : Option ℕ := base64Alphabet.findIdx? (· = c)

/-- Three bytes in four times six bits; zeros fill what is missing. -/
def encodeSextets : Bytes → List ℕ
  | a :: b :: c :: rest =>
    a.toNat / 4 :: (a.toNat % 4 * 16 + b.toNat / 16) :: (b.toNat % 16 * 4 + c.toNat / 64) :: c.toNat % 64 ::
      encodeSextets rest
  | [a, b] => [a.toNat / 4, a.toNat % 4 * 16 + b.toNat / 16, b.toNat % 16 * 4]
  | [a] => [a.toNat / 4, a.toNat % 4 * 16]
  | [] => []

/-- The bytes in groups of four times six bits. -/
def decodeSextets : List ℕ → Bytes
  | p :: q :: r :: s :: rest =>
    .ofNat (p * 4 + q / 16) :: .ofNat (q % 16 * 16 + r / 4) :: .ofNat (r % 4 * 64 + s) :: decodeSextets rest
  | [p, q, r] => [.ofNat (p * 4 + q / 16), .ofNat (q % 16 * 16 + r / 4)]
  | [p, q] => [.ofNat (p * 4 + q / 16)]
  | _ => []

variable (bytes : Bytes)

/-- `buffer.toString("base64url")`. -/
def base64url : List Char := (encodeSextets bytes).map sextetChar

/-- `Buffer.from(text, "base64url")`. -/
def ofBase64url (text : List Char) : Bytes := decodeSextets (text.filterMap sextetOf)

theorem sextetOf_sextetChar {n : ℕ} (h : n < 64) : sextetOf (sextetChar n) = some n :=
  (show ∀ n : Fin 64, sextetOf (sextetChar n) = some n.val by decide) ⟨n, h⟩

theorem encodeSextets_lt : ∀ n ∈ encodeSextets bytes, n < 64 := by
  fun_induction encodeSextets bytes with
  | case1 a b c rest ih =>
    have ha := a.toNat_lt
    have hb := b.toNat_lt
    have hc := c.toNat_lt
    simp only [forall_mem_cons]
    exact ⟨by omega, by omega, by omega, by omega, ih⟩
  | case2 a b =>
    have ha := a.toNat_lt
    have hb := b.toNat_lt
    simp only [forall_mem_cons]
    exact ⟨by omega, by omega, by omega, fun n hn => absurd hn not_mem_nil⟩
  | case3 a =>
    have ha := a.toNat_lt
    simp only [forall_mem_cons]
    exact ⟨by omega, by omega, fun n hn => absurd hn not_mem_nil⟩
  | case4 => exact fun n hn => absurd hn not_mem_nil

theorem ofNat_eq_of_toNat {n : ℕ} {b : UInt8} (h : n = b.toNat) : UInt8.ofNat n = b := by
  rw [h, UInt8.ofNat_toNat]

theorem decodeSextets_encodeSextets : decodeSextets (encodeSextets bytes) = bytes := by
  fun_induction encodeSextets bytes with
  | case1 a b c rest ih =>
    have ha := a.toNat_lt
    have hb := b.toNat_lt
    have hc := c.toNat_lt
    rw [decodeSextets, ih, ofNat_eq_of_toNat (b := a) (by omega), ofNat_eq_of_toNat (b := b) (by omega),
      ofNat_eq_of_toNat (b := c) (by omega)]
  | case2 a b =>
    have ha := a.toNat_lt
    have hb := b.toNat_lt
    rw [decodeSextets, ofNat_eq_of_toNat (b := a) (by omega), ofNat_eq_of_toNat (b := b) (by omega)]
  | case3 a =>
    have ha := a.toNat_lt
    rw [decodeSextets, ofNat_eq_of_toNat (b := a) (by omega)]
  | case4 => rfl

/-- **Bytes are read back.** -/
theorem ofBase64url_base64url : ofBase64url (base64url bytes) = bytes := by
  have hsex : (base64url bytes).filterMap sextetOf = encodeSextets bytes := by
    rw [base64url, filterMap_map]
    conv_rhs => rw [← filterMap_some (l := encodeSextets bytes)]
    exact filterMap_congr fun n hn => sextetOf_sextetChar (encodeSextets_lt bytes n hn)
  rw [ofBase64url, hsex, decodeSextets_encodeSextets]

theorem length_base64url : 3 * (base64url bytes).length ≤ 4 * bytes.length + 2 := by
  rw [base64url, length_map]
  fun_induction encodeSextets bytes with
  | case1 a b c rest ih => simp only [length_cons]; omega
  | case2 a b => simp
  | case3 a => simp
  | case4 => simp

theorem base64url_mem : ∀ c ∈ base64url bytes, c ∈ base64Alphabet := by
  intro c hc
  obtain ⟨n, hn, rfl⟩ := mem_map.mp hc
  have hlt : n < base64Alphabet.length := encodeSextets_lt bytes n hn
  rw [sextetChar, getD_eq_getElem _ _ hlt]
  exact getElem_mem hlt

end EasyPi
