/-
# Numbers of JavaScript

A number is an IEEE 754 binary64 bit pattern: a sign, an exponent of 11 bits
and a fraction of 52 bits. `toInt?` is the exact value of a number that is an
integer, and `ofInt` the number of an integer below `2 ^ 53`: the safe
integers and their numbers are in bijection, but for `-0`, whose value is 0.
-/
import Mathlib.Data.Nat.Log
import Mathlib.Tactic.Ring
import EasyPi.Lib.Bytes

namespace EasyPi

structure Double where
  bits : BitVec 64
  deriving DecidableEq

namespace Double

variable (d : Double)

def sign : Bool := decide (2 ^ 63 ≤ d.bits.toNat)

def exponent : ℕ := d.bits.toNat / 2 ^ 52 % 2 ^ 11

def fraction : ℕ := d.bits.toNat % 2 ^ 52

def ofFields (sign : Bool) (exponent fraction : ℕ) : Double :=
  ⟨BitVec.ofNat 64 (sign.toNat * 2 ^ 63 + exponent * 2 ^ 52 + fraction)⟩

def zero : Double := ⟨0⟩

/-- `-0`. -/
def negZero : Double := ofFields true 0 0

def isFinite : Bool := d.exponent ≠ 2047

/-- The absolute value of a finite number, if it is an integer. A normal
number is `2 ^ 52 + fraction` times `2 ^ (exponent - 1075)`; one below 1 is an
integer only if it is zero. -/
def abs? : Option ℕ :=
  if d.exponent = 2047 then none
  else if d.exponent < 1023 then if d.exponent = 0 ∧ d.fraction = 0 then some 0 else none
  else if 1075 ≤ d.exponent then some ((2 ^ 52 + d.fraction) * 2 ^ (d.exponent - 1075))
  else if (2 ^ 52 + d.fraction) % 2 ^ (1075 - d.exponent) = 0 then
    some ((2 ^ 52 + d.fraction) / 2 ^ (1075 - d.exponent))
  else none

/-- The value of a number that is an integer. -/
def toInt? : Option ℤ := d.abs?.map fun (a : ℕ) => if d.sign then -(a : ℤ) else a

def isInteger : Bool := d.toInt?.isSome

/-- An integer that no other integer rounds to. -/
def IsSafe (n : ℤ) : Prop := n.natAbs < 2 ^ 53

instance (n : ℤ) : Decidable (IsSafe n) := inferInstanceAs (Decidable (_ < _))

def isSafeInteger : Bool := d.toInt?.any fun n => IsSafe n

def ofInt (n : ℤ) : Double :=
  if n = 0 then zero
  else
    let k := Nat.log 2 n.natAbs
    ofFields (n < 0) (1023 + k) (n.natAbs * 2 ^ (52 - k) - 2 ^ 52)

/-- The eight bytes of the pattern, most significant first. -/
def bytes : Bytes := uint32Bytes (d.bits.toNat / 2 ^ 32) ++ uint32Bytes (d.bits.toNat % 2 ^ 32)

def ofBytes (bytes : Bytes) : Double := ⟨BitVec.ofNat 64 (uint32OfBytes bytes * 2 ^ 32 + uint32OfBytes (bytes.drop 4))⟩

section
variable {s : Bool} {e f : ℕ}

theorem toNat_ofFields (he : e < 2 ^ 11) (hf : f < 2 ^ 52) :
    (ofFields s e f).bits.toNat = s.toNat * 2 ^ 63 + e * 2 ^ 52 + f := by
  rw [ofFields, BitVec.toNat_ofNat, Nat.mod_eq_of_lt]
  cases s <;> simp <;> omega

theorem sign_ofFields (he : e < 2 ^ 11) (hf : f < 2 ^ 52) : (ofFields s e f).sign = s := by
  rw [sign, toNat_ofFields he hf]
  cases s <;> simp <;> omega

theorem exponent_ofFields (he : e < 2 ^ 11) (hf : f < 2 ^ 52) : (ofFields s e f).exponent = e := by
  rw [exponent, toNat_ofFields he hf]
  cases s <;> simp <;> omega

theorem fraction_ofFields (he : e < 2 ^ 11) (hf : f < 2 ^ 52) : (ofFields s e f).fraction = f := by
  rw [fraction, toNat_ofFields he hf]
  cases s <;> simp <;> omega
end

theorem exponent_lt : d.exponent < 2 ^ 11 := Nat.mod_lt _ (by decide)

theorem fraction_lt : d.fraction < 2 ^ 52 := Nat.mod_lt _ (by decide)

theorem ofFields_fields : ofFields d.sign d.exponent d.fraction = d := by
  have hbits : (ofFields d.sign d.exponent d.fraction).bits.toNat = d.bits.toNat := by
    rw [toNat_ofFields d.exponent_lt d.fraction_lt]
    have hlt := d.bits.isLt
    unfold sign exponent fraction
    by_cases h : 2 ^ 63 ≤ d.bits.toNat
    · rw [decide_eq_true h, Bool.toNat_true]
      omega
    · rw [decide_eq_false h, Bool.toNat_false]
      omega
  cases d
  exact congrArg mk (BitVec.eq_of_toNat_eq hbits)

/-! ### Safe integers -/

theorem fields_of_pos {a : ℕ} (hpos : 0 < a) (hlt : a < 2 ^ 53) :
    Nat.log 2 a ≤ 52 ∧ 2 ^ 52 ≤ a * 2 ^ (52 - Nat.log 2 a) ∧ a * 2 ^ (52 - Nat.log 2 a) < 2 ^ 53 := by
  have hlog : Nat.log 2 a < 53 := Nat.log_lt_of_lt_pow (by omega) hlt
  have hlow : 2 ^ Nat.log 2 a ≤ a := Nat.pow_log_le_self 2 (by omega)
  have hhigh : a < 2 ^ (Nat.log 2 a + 1) := Nat.lt_pow_succ_log_self (by decide) a
  have hspl : 2 ^ Nat.log 2 a * 2 ^ (52 - Nat.log 2 a) = 2 ^ 52 := by
    rw [← Nat.pow_add]
    congr 1
    omega
  refine ⟨by omega, ?_, ?_⟩
  · calc 2 ^ 52 = 2 ^ Nat.log 2 a * 2 ^ (52 - Nat.log 2 a) := hspl.symm
      _ ≤ a * 2 ^ (52 - Nat.log 2 a) := Nat.mul_le_mul_right _ hlow
  · calc a * 2 ^ (52 - Nat.log 2 a)
        < 2 ^ (Nat.log 2 a + 1) * 2 ^ (52 - Nat.log 2 a) := Nat.mul_lt_mul_of_pos_right hhigh (Nat.two_pow_pos _)
      _ = 2 ^ 53 := by rw [Nat.pow_succ, Nat.mul_right_comm, hspl, ← Nat.pow_succ]

theorem abs?_of_pos {s : Bool} {a : ℕ} (hpos : 0 < a) (hlt : a < 2 ^ 53) :
    (ofFields s (1023 + Nat.log 2 a) (a * 2 ^ (52 - Nat.log 2 a) - 2 ^ 52)).abs? = some a := by
  obtain ⟨hlog, hlow, hhigh⟩ := fields_of_pos hpos hlt
  have he : 1023 + Nat.log 2 a < 2 ^ 11 := by omega
  have hf : a * 2 ^ (52 - Nat.log 2 a) - 2 ^ 52 < 2 ^ 52 := by omega
  have hsig : 2 ^ 52 + (a * 2 ^ (52 - Nat.log 2 a) - 2 ^ 52) = a * 2 ^ (52 - Nat.log 2 a) := by
    omega
  rw [abs?, exponent_ofFields he hf, fraction_ofFields he hf, hsig, if_neg (by omega), if_neg (by omega)]
  by_cases h52 : Nat.log 2 a = 52
  · rw [if_pos (by omega), h52]
    simp
  · have hshi : 1075 - (1023 + Nat.log 2 a) = 52 - Nat.log 2 a := by omega
    rw [if_neg (by omega), hshi, if_pos (Nat.mul_mod_left _ _), Nat.mul_div_cancel _ (Nat.two_pow_pos _)]

theorem toInt?_zero : zero.toInt? = some 0 := by decide

theorem toInt?_ofInt {n : ℤ} (h : IsSafe n) : (ofInt n).toInt? = some n := by
  unfold ofInt
  split_ifs with hzero
  · rw [hzero]
    exact toInt?_zero
  · have hpos : 0 < n.natAbs := Int.natAbs_pos.mpr hzero
    obtain ⟨hlog, hlow, hhigh⟩ := fields_of_pos hpos h
    rw [toInt?, abs?_of_pos hpos h, sign_ofFields (by omega) (by omega), Option.map_some]
    congr 1
    by_cases hneg : n < 0
    · rw [if_pos (decide_eq_true hneg)]
      omega
    · rw [if_neg (by simpa using hneg)]
      omega

theorem fields_of_abs? {d : Double} {a : ℕ} (h : d.abs? = some a) (hlt : a < 2 ^ 53) :
    (a = 0 ∧ d.exponent = 0 ∧ d.fraction = 0) ∨ (0 < a ∧ d.exponent = 1023 + Nat.log 2 a ∧
        d.fraction = a * 2 ^ (52 - Nat.log 2 a) - 2 ^ 52) := by
  have hf := d.fraction_lt
  unfold abs? at h
  split_ifs at h with hinf hsmall hzero hbig hdvd
  · obtain rfl := Option.some.inj h
    exact .inl ⟨rfl, hzero⟩
  · -- an exponent above 52 gives no safe integer, so that it is 52
    obtain rfl := Option.some.inj h
    have he : d.exponent = 1075 := by
      by_contra hne
      have hpow : 2 ^ 1 ≤ 2 ^ (d.exponent - 1075) := Nat.pow_le_pow_right (by decide) (by omega)
      have := Nat.mul_le_mul (Nat.le_add_right (2 ^ 52) d.fraction) hpow
      omega
    rw [he, Nat.sub_self, Nat.pow_zero, Nat.mul_one] at hlt ⊢
    have hlog : Nat.log 2 (2 ^ 52 + d.fraction) = 52 := (Nat.log_eq_iff (.inl (by decide))).mpr ⟨by omega, by omega⟩
    refine .inr ⟨by omega, by rw [hlog], ?_⟩
    rw [hlog]
    omega
  · obtain rfl := Option.some.inj h
    obtain ⟨t, ht⟩ : ∃ t, t = 1075 - d.exponent := ⟨_, rfl⟩
    rw [← ht] at hdvd hlt ⊢
    have hmul : (2 ^ 52 + d.fraction) / 2 ^ t * 2 ^ t = 2 ^ 52 + d.fraction :=
      Nat.div_mul_cancel (Nat.dvd_of_mod_eq_zero hdvd)
    have hspl : 2 ^ (52 - t) * 2 ^ t = 2 ^ 52 := by
      rw [← Nat.pow_add]
      congr 1
      omega
    have hpos : 0 < (2 ^ 52 + d.fraction) / 2 ^ t := by
      refine Nat.pos_of_ne_zero fun hz => ?_
      rw [hz] at hmul
      omega
    have hlog : Nat.log 2 ((2 ^ 52 + d.fraction) / 2 ^ t) = 52 - t := by
      refine (Nat.log_eq_iff (.inr ⟨by decide, by omega⟩)).mpr ⟨?_, ?_⟩
      · exact Nat.le_of_mul_le_mul_right (by rw [hmul, hspl]; omega) (Nat.two_pow_pos t)
      · refine Nat.lt_of_mul_lt_mul_right (a := 2 ^ t) ?_
        rw [hmul, Nat.pow_succ 2 (52 - t), Nat.mul_right_comm, hspl]
        omega
    refine .inr ⟨hpos, by rw [hlog]; omega, ?_⟩
    rw [hlog, show 52 - (52 - t) = t by omega, hmul]
    omega

theorem ofInt_of_toInt? {d : Double} {n : ℤ} (h : d.toInt? = some n) (hsafe : IsSafe n)
    (hne : d ≠ negZero) : ofInt n = d := by
  obtain ⟨a, ha, hn⟩ := Option.map_eq_some_iff.mp h
  have habs : n.natAbs = a := by
    rw [← hn]
    split_ifs <;> simp
  have hd := ofFields_fields d
  rcases fields_of_abs? ha (habs ▸ hsafe) with ⟨rfl, he, hf⟩ | ⟨hpos, he, hf⟩
  · rw [he, hf] at hd
    have hs : d.sign = false := by
      by_contra hs
      rw [Bool.not_eq_false] at hs
      rw [hs] at hd
      exact hne hd.symm
    rw [Int.natAbs_eq_zero.mp habs, ← hd, hs]
    rfl
  · have hneg : decide (n < 0) = d.sign := by
      rw [← hn]
      cases d.sign
      · simp
      · simp
        omega
    rw [ofInt, if_neg (fun hz => by rw [hz] at habs; simp at habs; omega)]
    simp only [habs, hneg, ← he, ← hf]
    exact hd

theorem toInt?_negZero : negZero.toInt? = some 0 := by decide

theorem ofInt_ne_negZero {n : ℤ} (h : IsSafe n) : ofInt n ≠ negZero := by
  intro heq
  have hn := toInt?_ofInt h
  rw [heq, toInt?_negZero] at hn
  obtain rfl := Option.some.inj hn
  revert heq
  decide

theorem isFinite_of_toInt? {d : Double} {n : ℤ} (h : d.toInt? = some n) : d.isFinite = true := by
  obtain ⟨a, ha, -⟩ := Option.map_eq_some_iff.mp h
  rw [isFinite, decide_eq_true_eq]
  intro he
  rw [abs?, if_pos he] at ha
  cases ha

@[simp] theorem length_bytes : d.bytes.length = 8 := rfl

theorem ofBytes_bytes : ofBytes d.bytes = d := by
  have hlt := d.bits.isLt
  have hhigh : uint32OfBytes d.bytes = d.bits.toNat / 2 ^ 32 :=
    (uint32OfBytes_append rfl).trans (uint32OfBytes_uint32Bytes (by omega))
  have hlow : uint32OfBytes (d.bytes.drop 4) = d.bits.toNat % 2 ^ 32 :=
    uint32OfBytes_uint32Bytes (Nat.mod_lt _ (by decide))
  rw [ofBytes, hhigh, hlow, Nat.div_add_mod']
  cases d
  exact congrArg mk (BitVec.ofNat_toNat _ _)

end Double
end EasyPi
