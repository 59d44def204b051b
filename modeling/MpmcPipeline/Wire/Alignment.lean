import Mathlib.Data.Nat.ModEq
import Mathlib.Tactic.Ring

/-!
# Rounding machine words up to a power of two

`(value + align - 1) & ~(align - 1)` on words of `w` bits, for an `align` that is a power of
two. The sum may wrap. The result is then zero, and otherwise it is the first multiple of
`align` from the value on (`toNat_roundUp`): so a result that is not zero is never too small,
however close to `2 ^ w` the value is (`le_roundUp`).
-/

namespace Alignment

variable {w : ℕ}

/-- Round `value` up to a multiple of `align`. -/
def roundUp (value align : BitVec w) : BitVec w := (value + align - 1) &&& ~~~(align - 1)

/-- Of two powers of two the smaller divides the greater. -/
theorem dvd_of_le {a b : ℕ} (h_a : a.isPowerOfTwo) (h_b : b.isPowerOfTwo) (h : a ≤ b) :
    a ∣ b := by
  obtain ⟨i, rfl⟩ := h_a
  obtain ⟨j, rfl⟩ := h_b
  exact pow_dvd_pow 2 ((Nat.pow_le_pow_iff_right (by norm_num)).mp h)

theorem pos_of_isPowerOfTwo {a : ℕ} (h : a.isPowerOfTwo) : 0 < a := by
  obtain ⟨k, rfl⟩ := h
  exact Nat.two_pow_pos k

theorem dvd_two_pow {align : BitVec w} (h : align.toNat.isPowerOfTwo) : align.toNat ∣ 2 ^ w :=
  dvd_of_le h ⟨w, rfl⟩ align.isLt.le

theorem toNat_pred {align : BitVec w} (h : 0 < align.toNat) :
    (align - 1).toNat = align.toNat - 1 := by
  have h_one : (1 : BitVec w).toNat = 1 := by
    change 1 % 2 ^ w = 1
    exact Nat.mod_eq_of_lt (lt_of_le_of_lt h align.isLt)
  rw [BitVec.toNat_sub_of_le (by rw [BitVec.le_def, h_one]; exact h), h_one]

/-- The test `align != 0 && (align & (align - 1)) == 0`. -/
theorem isPowerOfTwo_iff (align : BitVec w) :
    align.toNat.isPowerOfTwo ↔ align ≠ 0 ∧ align &&& (align - 1) = 0 := by
  rw [← Nat.ne_zero_and_sub_one_eq_zero_iff_isPowerOfTwo]
  have h_zero : align.toNat = 0 ↔ align = 0 :=
    ⟨fun h => BitVec.eq_of_toNat_eq (by simpa using h), fun h => by rw [h]; simp⟩
  rw [ne_eq, h_zero]
  refine and_congr_right fun h_ne => ?_
  have h_pos : 0 < align.toNat := Nat.pos_of_ne_zero fun h => h_ne (h_zero.mp h)
  rw [← toNat_pred h_pos, ← BitVec.toNat_and, ← BitVec.toNat_inj]
  simp

/-- The bits of a word outside a mask and those inside make up the word. -/
theorem toNat_and_not_add (x mask : BitVec w) :
    (x &&& ~~~mask).toNat + (x &&& mask).toNat = x.toNat := by
  -- no bit is in both parts, so their sum is their union
  have h_disjoint : (x &&& ~~~mask) &&& (x &&& mask) = 0#w := by
    rw [BitVec.and_comm x mask, BitVec.and_assoc, ← BitVec.and_assoc (~~~mask) mask,
      BitVec.and_comm (~~~mask) mask, BitVec.and_not_self]
    simp
  have h_join : (x &&& ~~~mask) ||| (x &&& mask) = x := by
    rw [← BitVec.and_or_distrib_left, BitVec.or_comm, BitVec.or_not_self]
    simp
  calc (x &&& ~~~mask).toNat + (x &&& mask).toNat
    _ = ((x &&& ~~~mask) + (x &&& mask)).toNat :=
      (BitVec.toNat_add_of_and_eq_zero h_disjoint).symm
    _ = ((x &&& ~~~mask) ||| (x &&& mask)).toNat := by
      rw [BitVec.add_eq_or_of_and_eq_zero _ _ h_disjoint]
    _ = x.toNat := by rw [h_join]

/-- Clearing the bits below a power of two. -/
theorem toNat_and_not_pred (x : BitVec w) {align : BitVec w} (h : align.toNat.isPowerOfTwo) :
    (x &&& ~~~(align - 1)).toNat = x.toNat - x.toNat % align.toNat := by
  have h_split := toNat_and_not_add x (align - 1)
  have h_low : (x &&& (align - 1)).toNat = x.toNat % align.toNat := by
    rw [BitVec.toNat_and, toNat_pred (pos_of_isPowerOfTwo h)]
    obtain ⟨k, h_k⟩ := h
    rw [h_k, Nat.and_two_pow_sub_one_eq_mod]
  omega

variable {value align : BitVec w}

theorem dvd_roundUp (value : BitVec w) (h : align.toNat.isPowerOfTwo) :
    align.toNat ∣ (roundUp value align).toNat := by
  rw [roundUp, toNat_and_not_pred _ h]
  exact Nat.dvd_sub_mod _

/-- **Rounding up**: to zero where the sum wraps, and else to a multiple less than `align`
above the value. -/
theorem toNat_roundUp (value : BitVec w) (h : align.toNat.isPowerOfTwo) :
    (roundUp value align).toNat =
      if value.toNat + align.toNat ≤ 2 ^ w
      then (value.toNat + (align.toNat - 1)) / align.toNat * align.toNat else 0 := by
  have h_pos := pos_of_isPowerOfTwo h
  have h_value := value.isLt
  have h_sum : (value + align - 1).toNat = (value.toNat + (align.toNat - 1)) % 2 ^ w := by
    rw [BitVec.sub_eq_add_neg, BitVec.add_assoc, ← BitVec.sub_eq_add_neg, BitVec.toNat_add,
      toNat_pred h_pos]
  rw [roundUp, toNat_and_not_pred _ h, h_sum]
  split
  · rw [Nat.mod_eq_of_lt (by omega), Nat.div_mul_self_eq_mod_sub_self]
  · -- what is left of the sum is less than `align`
    rw [Nat.mod_eq_sub_mod (by omega), Nat.mod_eq_of_lt (by omega : _ < 2 ^ w),
      Nat.mod_eq_of_lt (by omega), Nat.sub_self]

theorem le_roundUp_of_room (h : align.toNat.isPowerOfTwo)
    (h_room : value.toNat + align.toNat ≤ 2 ^ w) :
    value.toNat ≤ (roundUp value align).toNat := by
  have h_pos := pos_of_isPowerOfTwo h
  rw [toNat_roundUp value h, if_pos h_room]
  have h_mod := Nat.div_add_mod' (value.toNat + (align.toNat - 1)) align.toNat
  have h_lt := Nat.mod_lt (value.toNat + (align.toNat - 1)) h_pos
  omega

theorem roundUp_eq_zero_of_wrap (h : align.toNat.isPowerOfTwo)
    (h_wrap : 2 ^ w < value.toNat + align.toNat) : roundUp value align = 0 := by
  apply BitVec.eq_of_toNat_eq
  rw [toNat_roundUp value h, if_neg (by omega)]
  simp

/-- **Never too small**: a result that is not zero is not below the value. -/
theorem le_roundUp (h : align.toNat.isPowerOfTwo) (h_ne : roundUp value align ≠ 0) :
    value.toNat ≤ (roundUp value align).toNat := by
  apply le_roundUp_of_room h
  by_contra h_wrap
  exact h_ne (roundUp_eq_zero_of_wrap h (by omega))

theorem roundUp_eq_zero_iff (h : align.toNat.isPowerOfTwo) (h_value : value ≠ 0) :
    roundUp value align = 0 ↔ 2 ^ w < value.toNat + align.toNat := by
  refine ⟨fun h_zero => ?_, roundUp_eq_zero_of_wrap h⟩
  by_contra h_room
  have h_le := le_roundUp_of_room h (Nat.not_lt.mp h_room)
  rw [h_zero] at h_le
  exact h_value (BitVec.eq_of_toNat_eq (by simpa using h_le))

/-- A multiple stays what it is. -/
theorem roundUp_eq_self (h : align.toNat.isPowerOfTwo) (h_dvd : align.toNat ∣ value.toNat) :
    roundUp value align = value := by
  have h_pos := pos_of_isPowerOfTwo h
  have h_room : value.toNat + align.toNat ≤ 2 ^ w := by
    -- the next multiple is not beyond the range, which is a multiple too
    obtain ⟨m, h_m⟩ := h_dvd
    obtain ⟨n, h_n⟩ := dvd_two_pow h
    have h_lt := value.isLt
    rw [h_m, h_n] at h_lt ⊢
    rw [← Nat.mul_succ]
    exact Nat.mul_le_mul_left _ (Nat.lt_of_mul_lt_mul_left h_lt)
  apply BitVec.eq_of_toNat_eq
  rw [toNat_roundUp value h, if_pos h_room]
  obtain ⟨m, h_m⟩ := h_dvd
  rw [h_m, Nat.mul_add_div h_pos, Nat.div_eq_of_lt (by omega), Nat.add_zero, Nat.mul_comm]

end Alignment
