import Mathlib.Algebra.Order.Field.Rat
import Mathlib.Data.Nat.Log
import Mathlib.Tactic.FieldSimp
import Mathlib.Tactic.NormNum
import Mathlib.Tactic.Ring

/-!
# Integers as double precision numbers

`Double.ofNat` is the conversion of an unsigned 64-bit integer to the nearest double
precision number, ties to even, as the bits of that number; `Double.value` is the number
of some bits, for the positive normal numbers and zero, which are all that the conversion
yields. An integer below `2 ^ 53` is converted exactly (`value_ofNat`).
-/

namespace Double

/-- The bits of the double nearest to `n`, for `n` below `2 ^ 64`. -/
def ofNat (n : ℕ) : BitVec 64 :=
  if n = 0 then 0
  else
    let e := Nat.log2 n
    if e ≤ 52 then BitVec.ofNat 64 ((e + 1023) * 2 ^ 52 + (n - 2 ^ e) * 2 ^ (52 - e))
    else
      let shift := e - 52
      let q := n / 2 ^ shift
      let r := n % 2 ^ shift
      let half := 2 ^ (shift - 1)
      -- a carry out of the mantissa raises the exponent
      let rounded := if half < r ∨ r = half ∧ q % 2 = 1 then q + 1 else q
      BitVec.ofNat 64 ((e + 1023) * 2 ^ 52 + (rounded - 2 ^ 52))

/-- The number of some bits, for zero and the positive normal numbers. -/
def value (b : BitVec 64) : ℚ :=
  if b = 0 then 0
  else ((2 ^ 52 + b.toNat % 2 ^ 52 : ℕ) : ℚ) * 2 ^ (b.toNat / 2 ^ 52) / 2 ^ 1075

/-- Integers below `2 ^ 53` are converted exactly. -/
theorem value_ofNat {n : ℕ} (h : n < 2 ^ 53) : value (ofNat n) = n := by
  by_cases h_zero : n = 0
  · subst h_zero
    rfl
  have h_low : 2 ^ Nat.log2 n ≤ n := Nat.log2_self_le h_zero
  have h_high : n < 2 ^ (Nat.log2 n + 1) := Nat.lt_log2_self
  -- all bits of `n` fit the mantissa, so nothing is rounded
  have h_exp : Nat.log2 n ≤ 52 := by
    have h_lt : 2 ^ Nat.log2 n < 2 ^ 53 := lt_of_le_of_lt h_low h
    have := (Nat.pow_lt_pow_iff_right (by norm_num)).mp h_lt
    omega
  rw [ofNat, if_neg h_zero]
  simp only [if_pos h_exp]
  generalize Nat.log2 n = e at *
  have h_sum : 52 - e + (e + 1023) = 1075 := by omega
  -- the mantissa has no carry
  have h_split : (2 : ℕ) ^ 52 = 2 ^ e * 2 ^ (52 - e) := by
    rw [← pow_add]
    congr 1
    omega
  have h_mantissa : (n - 2 ^ e) * 2 ^ (52 - e) < 2 ^ 52 := by
    rw [h_split]
    apply Nat.mul_lt_mul_of_pos_right _ (by positivity)
    rw [pow_succ] at h_high
    omega
  have h_bits : (e + 1023) * 2 ^ 52 + (n - 2 ^ e) * 2 ^ (52 - e) < 2 ^ 64 := by omega
  have h_toNat : (BitVec.ofNat 64 ((e + 1023) * 2 ^ 52 + (n - 2 ^ e) * 2 ^ (52 - e))).toNat =
      (e + 1023) * 2 ^ 52 + (n - 2 ^ e) * 2 ^ (52 - e) := by
    rw [BitVec.toNat_ofNat, Nat.mod_eq_of_lt h_bits]
  have h_ne : BitVec.ofNat 64 ((e + 1023) * 2 ^ 52 + (n - 2 ^ e) * 2 ^ (52 - e)) ≠ 0 := by
    intro h_eq
    have h_nat := congrArg BitVec.toNat h_eq
    rw [h_toNat] at h_nat
    have h_rhs : (0 : BitVec 64).toNat = 0 := rfl
    omega
  have h_div : ((e + 1023) * 2 ^ 52 + (n - 2 ^ e) * 2 ^ (52 - e)) / 2 ^ 52 = e + 1023 := by
    rw [Nat.add_comm, Nat.add_mul_div_right _ _ (by norm_num), Nat.div_eq_of_lt h_mantissa,
      Nat.zero_add]
  have h_mod : ((e + 1023) * 2 ^ 52 + (n - 2 ^ e) * 2 ^ (52 - e)) % 2 ^ 52 =
      (n - 2 ^ e) * 2 ^ (52 - e) := by
    rw [Nat.add_comm, Nat.add_mul_mod_self_right, Nat.mod_eq_of_lt h_mantissa]
  have h_full : 2 ^ 52 + (n - 2 ^ e) * 2 ^ (52 - e) = n * 2 ^ (52 - e) := by
    rw [h_split, ← Nat.add_mul]
    congr 1
    omega
  rw [value, if_neg h_ne, h_toNat, h_div, h_mod, h_full]
  have h_pow : (2 : ℚ) ^ (52 - e + (e + 1023)) = 2 ^ (52 - e) * 2 ^ (e + 1023) := pow_add 2 _ _
  rw [h_sum] at h_pow
  rw [h_pow]
  push_cast
  field_simp

end Double
