/-
# Big-endian words

Unsigned words as bytes, most significant byte first. A write to a byte array
keeps the low eight bits of the number written.
-/
import Mathlib.Algebra.Group.Nat.Defs
import Mathlib.Data.List.GetD

namespace EasyPi

open List

abbrev Bytes := List UInt8

/-- The two bytes of `n % 2 ^ 16`. -/
def uint16Bytes (n : ℕ) : Bytes := [UInt8.ofNat (n >>> 8), UInt8.ofNat n]

/-- The four bytes of `n % 2 ^ 32`. -/
def uint32Bytes (n : ℕ) : Bytes := [UInt8.ofNat (n >>> 24), UInt8.ofNat (n >>> 16), UInt8.ofNat (n >>> 8), UInt8.ofNat n]

variable (bytes : Bytes)

/-- The first two bytes as a number; missing bytes are zero. -/
def uint16OfBytes : ℕ := (bytes.getD 0 0).toNat * 0x100 + (bytes.getD 1 0).toNat

/-- The first four bytes as a number; missing bytes are zero. -/
@[irreducible] def uint32OfBytes : ℕ :=
  (bytes.getD 0 0).toNat * 0x1000000 + (bytes.getD 1 0).toNat * 0x10000 +
    (bytes.getD 2 0).toNat * 0x100 + (bytes.getD 3 0).toNat

theorem uint16OfBytes_uint16Bytes {n : ℕ} (h : n < 2 ^ 16) : uint16OfBytes (uint16Bytes n) = n := by
  simp only [uint16OfBytes, uint16Bytes, getD_cons_zero, getD_cons_succ,
    UInt8.toNat_ofNat', Nat.shiftRight_eq_div_pow]
  omega

theorem uint32OfBytes_uint32Bytes {n : ℕ} (h : n < 2 ^ 32) : uint32OfBytes (uint32Bytes n) = n := by
  simp only [uint32OfBytes, uint32Bytes, getD_cons_zero, getD_cons_succ,
    UInt8.toNat_ofNat', Nat.shiftRight_eq_div_pow]
  omega

theorem uint16OfBytes_lt : uint16OfBytes bytes < 2 ^ 16 := by
  have h₀ := (bytes.getD 0 0).toNat_lt
  have h₁ := (bytes.getD 1 0).toNat_lt
  unfold uint16OfBytes
  omega

theorem uint32OfBytes_lt : uint32OfBytes bytes < 2 ^ 32 := by
  have h₀ := (bytes.getD 0 0).toNat_lt
  have h₁ := (bytes.getD 1 0).toNat_lt
  have h₂ := (bytes.getD 2 0).toNat_lt
  have h₃ := (bytes.getD 3 0).toNat_lt
  unfold uint32OfBytes
  omega

theorem uint32OfBytes_append {header bytes : Bytes} (h : header.length = 4) :
    uint32OfBytes (header ++ bytes) = uint32OfBytes header := by
  unfold uint32OfBytes
  rw [getD_append _ _ _ _ (by omega), getD_append _ _ _ _ (by omega),
    getD_append _ _ _ _ (by omega), getD_append _ _ _ _ (by omega)]

end EasyPi
