import MpmcPipeline.Machine.Loop
import MpmcPipeline.Trading.Exact
import MpmcPipeline.Trading.Messages

/-!
# Decimal scaling over the integers

`apply_exponent` multiplies a 64-bit mantissa by ten, or divides it by ten with truncation,
as often as the exponent says, and its callers cut the result to 32 bits. Over unbounded
integers (`Exact.applyExponent`) that is one product or one quotient. The code's result is
this integer modulo `2 ^ 64` (`applyExponent_eq`): a product may wrap, a quotient cannot.

The last section has the two `for` loops of the code with their 8-bit counter
(`applyExponentFor`). They make as many rounds as the exponent says, also where it is the
first or the last value of its type, and where the exact product fits no product on the way
is out of range (`apply_exponent_exact`).
-/

namespace Hft

namespace Strategy

/-- The values of `std::int64_t`. -/
def Int64 (v : ℤ) : Prop := -2 ^ 63 ≤ v ∧ v < 2 ^ 63

instance : DecidablePred Int32 := fun v => inferInstanceAs (Decidable (-2 ^ 31 ≤ v ∧ v < 2 ^ 31))

instance : DecidablePred Int64 := fun v => inferInstanceAs (Decidable (-2 ^ 63 ≤ v ∧ v < 2 ^ 63))

theorem toInt_ofInt_eq_iff {v : ℤ} : (BitVec.ofInt 32 v).toInt = v ↔ Int32 v := by
  constructor
  · intro h
    rw [← h]
    exact int32_toInt _
  · rintro ⟨h_low, h_high⟩
    exact BitVec.toInt_ofInt_eq_self (by decide) h_low h_high

/-- Cutting an integer to 64 bits and then to 32 is cutting it to 32. -/
theorem setWidth_ofInt (v : ℤ) : (BitVec.ofInt 64 v).setWidth 32 = BitVec.ofInt 32 v := by
  apply BitVec.eq_of_toNat_eq
  rw [BitVec.toNat_setWidth, BitVec.toNat_ofInt, BitVec.toNat_ofInt]
  omega

/-- The `static_cast` to 32 bits keeps the number if and only if it fits. -/
theorem toInt_setWidth_eq_iff {v : ℤ} :
    ((BitVec.ofInt 64 v).setWidth 32).toInt = v ↔ Int32 v := by
  rw [setWidth_ofInt, toInt_ofInt_eq_iff]

namespace Exact

/-- Dividing twice with truncation is dividing once by the product. -/
theorem tdiv_tdiv (a : ℤ) (b c : ℕ) : (a.tdiv b).tdiv c = a.tdiv ((b * c : ℕ) : ℤ) := by
  obtain ⟨n, rfl | rfl⟩ := a.eq_nat_or_neg
  · rw [← Int.ofNat_tdiv, ← Int.ofNat_tdiv, ← Int.ofNat_tdiv, Nat.div_div_eq_div_mul]
  · rw [Int.neg_tdiv, Int.neg_tdiv, Int.neg_tdiv, ← Int.ofNat_tdiv, ← Int.ofNat_tdiv,
      ← Int.ofNat_tdiv, Nat.div_div_eq_div_mul]

/-- `sbe::apply_exponent` -/
def applyExponent (mantissa exponent : ℤ) : ℤ :=
  if 0 ≤ exponent then mantissa * 10 ^ exponent.toNat
  else mantissa.tdiv ((10 ^ (-exponent).toNat : ℕ) : ℤ)

@[simp] theorem applyExponent_zero (mantissa : ℤ) : applyExponent mantissa 0 = mantissa := by
  rw [applyExponent, if_pos le_rfl]
  exact Int.mul_one mantissa

end Exact

end Strategy

namespace Trading

open Strategy

theorem iterate_mul_ten (mantissa : BitVec 64) (n : ℕ) :
    (fun scaled => scaled * 10)^[n] mantissa = BitVec.ofInt 64 (mantissa.toInt * 10 ^ n) := by
  induction n with
  | zero => rw [Function.iterate_zero, id_eq, pow_zero, Int.mul_one, BitVec.ofInt_toInt]
  | succ n ih =>
    rw [Function.iterate_succ_apply', ih, pow_succ, ← mul_assoc,
      BitVec.ofInt_mul (mantissa.toInt * 10 ^ n) 10]
    rfl

theorem iterate_sdiv_ten (mantissa : BitVec 64) (n : ℕ) :
    ((fun scaled => scaled.sdiv 10)^[n] mantissa).toInt =
      mantissa.toInt.tdiv ((10 ^ n : ℕ) : ℤ) := by
  induction n with
  | zero =>
    rw [Function.iterate_zero, id_eq, pow_zero]
    exact (Int.tdiv_one _).symm
  | succ n ih =>
    -- a quotient by ten is never out of range
    have h_ten : (10 : BitVec 64).toInt = ((10 : ℕ) : ℤ) := rfl
    rw [Function.iterate_succ_apply', BitVec.toInt_sdiv_of_ne_or_ne _ _ (Or.inr (by decide)),
      ih, h_ten, Exact.tdiv_tdiv, ← pow_succ]

/-- **`apply_exponent` computes the exact number modulo `2 ^ 64`**, as multiplication does and as
division by a power of ten never leaves the range. -/
theorem applyExponent_eq (mantissa : BitVec 64) (exponent : BitVec 8) :
    applyExponent mantissa exponent =
      BitVec.ofInt 64 (Exact.applyExponent mantissa.toInt exponent.toInt) := by
  unfold applyExponent
  split
  · next h_zero => rw [h_zero, Exact.applyExponent_zero, BitVec.ofInt_toInt]
  · split
    · next h_pos => rw [iterate_mul_ten, Exact.applyExponent, if_pos h_pos.le]
    · next h_zero h_pos =>
      rw [Exact.applyExponent, if_neg (by omega), ← iterate_sdiv_ten, BitVec.ofInt_toInt]

/-! ### The loops -/

/-- The variables of the loops. -/
structure ScaleVars where
  i : BitVec 8
  scaled : BitVec 64
  deriving DecidableEq

/-- `for (std::int8_t i = 0; i < exponent; ++i) scaled *= 10;` -/
def scaleUp (exponent : BitVec 8) : Loop ScaleVars where
  test s := s.i.slt exponent
  body s := ⟨s.i + 1, s.scaled * 10⟩

/-- `for (std::int8_t i = 0; i > exponent; --i) scaled /= 10;` -/
def scaleDown (exponent : BitVec 8) : Loop ScaleVars where
  test s := exponent.slt s.i
  body s := ⟨s.i - 1, s.scaled.sdiv 10⟩

/-- `sbe::apply_exponent` with its loops; `none` when the fuel runs out. -/
def applyExponentFor (fuel : ℕ) (mantissa : BitVec 64) (exponent : BitVec 8) :
    Option (BitVec 64) :=
  if exponent = 0 then some mantissa
  else if BitVec.slt 0 exponent then
    ((scaleUp exponent).run fuel ⟨0, mantissa⟩).map ScaleVars.scaled
  else ((scaleDown exponent).run fuel ⟨0, mantissa⟩).map ScaleVars.scaled

theorem int8_toInt (exponent : BitVec 8) : -128 ≤ exponent.toInt ∧ exponent.toInt ≤ 127 := by
  have h_low := BitVec.le_toInt exponent
  have h_high := BitVec.toInt_lt (x := exponent)
  norm_num at h_low h_high
  omega

theorem toInt_add_one {i : BitVec 8} (h : i.toInt < 127) : (i + 1).toInt = i.toInt + 1 := by
  have h_one : (1 : BitVec 8).toInt = 1 := rfl
  have h_i := int8_toInt i
  rw [BitVec.toInt_add, h_one, Int.bmod_eq_of_le (by omega) (by omega)]

theorem toInt_sub_one {i : BitVec 8} (h : -128 < i.toInt) : (i - 1).toInt = i.toInt - 1 := by
  have h_one : (1 : BitVec 8).toInt = 1 := rfl
  have h_i := int8_toInt i
  rw [BitVec.toInt_sub, h_one, Int.bmod_eq_of_le (by omega) (by omega)]

/-- The counter and the mantissa go their own ways. -/
theorem scaleVars_iterate (f : BitVec 8 → BitVec 8) (g : BitVec 64 → BitVec 64)
    (mantissa : BitVec 64) (k : ℕ) :
    (fun s : ScaleVars => ⟨f s.i, g s.scaled⟩)^[k] ⟨0, mantissa⟩ = ⟨f^[k] 0, g^[k] mantissa⟩ := by
  induction k with
  | zero => rfl
  | succ k ih => simp only [Function.iterate_succ_apply', ih]

theorem scaleUp_iterate (exponent : BitVec 8) (mantissa : BitVec 64) (k : ℕ) :
    (scaleUp exponent).body^[k] ⟨0, mantissa⟩ =
      ⟨(fun i => i + 1)^[k] 0, (fun scaled => scaled * 10)^[k] mantissa⟩ :=
  scaleVars_iterate (fun i => i + 1) (fun scaled => scaled * 10) mantissa k

theorem scaleDown_iterate (exponent : BitVec 8) (mantissa : BitVec 64) (k : ℕ) :
    (scaleDown exponent).body^[k] ⟨0, mantissa⟩ =
      ⟨(fun i => i - 1)^[k] 0, (fun scaled => scaled.sdiv 10)^[k] mantissa⟩ :=
  scaleVars_iterate (fun i => i - 1) (fun scaled => scaled.sdiv 10) mantissa k

/-- Counting up has room for 127 rounds. -/
theorem toInt_iterate_add_one {k : ℕ} (h : k ≤ 127) :
    ((fun i : BitVec 8 => i + 1)^[k] 0).toInt = k := by
  induction k with
  | zero => rfl
  | succ k ih =>
    have h_i := ih (by omega)
    rw [Function.iterate_succ_apply', toInt_add_one (by omega), h_i]
    exact (Nat.cast_succ k).symm

/-- Counting down has room for 128. -/
theorem toInt_iterate_sub_one {k : ℕ} (h : k ≤ 128) :
    ((fun i : BitVec 8 => i - 1)^[k] 0).toInt = -k := by
  induction k with
  | zero => rfl
  | succ k ih =>
    have h_i := ih (by omega)
    rw [Function.iterate_succ_apply', toInt_sub_one (by omega), h_i]
    omega

/-- A positive exponent is the number of rounds up; with any other there is none. -/
theorem scaleUp_rounds (exponent : BitVec 8) (mantissa : BitVec 64) :
    (scaleUp exponent).Rounds ⟨0, mantissa⟩ exponent.toInt.toNat := by
  have h_exp := int8_toInt exponent
  have h_test : ∀ k ≤ 127, ((scaleUp exponent).test ((scaleUp exponent).body^[k] ⟨0, mantissa⟩) =
      decide ((k : ℤ) < exponent.toInt)) := fun k h_k => by
    rw [scaleUp_iterate, ← toInt_iterate_add_one h_k]
    rfl
  refine ⟨fun k h_k => ?_, ?_⟩
  · rw [h_test k (by omega), decide_eq_true_iff]
    omega
  · rw [h_test _ (by omega), decide_eq_false_iff_not]
    omega

/-- A negative exponent is the number of rounds down. -/
theorem scaleDown_rounds (exponent : BitVec 8) (mantissa : BitVec 64) :
    (scaleDown exponent).Rounds ⟨0, mantissa⟩ (-exponent.toInt).toNat := by
  have h_exp := int8_toInt exponent
  have h_test : ∀ k ≤ 128,
      ((scaleDown exponent).test ((scaleDown exponent).body^[k] ⟨0, mantissa⟩) =
        decide (exponent.toInt < -(k : ℤ))) := fun k h_k => by
    rw [scaleDown_iterate, ← toInt_iterate_sub_one h_k]
    rfl
  refine ⟨fun k h_k => ?_, ?_⟩
  · rw [h_test k (by omega), decide_eq_true_iff]
    omega
  · rw [h_test _ (by omega), decide_eq_false_iff_not]
    omega

/-- **The loops compute `applyExponent`**, with fuel for the rounds and the last test. -/
theorem applyExponentFor_eq (mantissa : BitVec 64) (exponent : BitVec 8) {fuel : ℕ}
    (h_fuel : exponent.toInt.natAbs < fuel) :
    applyExponentFor fuel mantissa exponent = some (applyExponent mantissa exponent) := by
  have h_exp := int8_toInt exponent
  unfold applyExponentFor applyExponent
  -- zero returns at once, the other exponents count down to it or up
  by_cases h_zero : exponent = 0
  · subst h_zero
    rfl
  · have h_ne : exponent.toInt ≠ 0 := fun h => h_zero (BitVec.eq_of_toInt_eq h)
    rw [if_neg h_zero, if_neg h_ne]
    by_cases h_pos : 0 < exponent.toInt
    · -- the loop compares as a signed byte
      have h_slt : BitVec.slt 0 exponent = true := decide_eq_true h_pos
      rw [if_pos h_slt, if_pos h_pos, (scaleUp_rounds exponent mantissa).run_eq (by omega),
        Option.map_some, scaleUp_iterate]
    · have h_slt : ¬BitVec.slt 0 exponent = true := fun h => h_pos (of_decide_eq_true h)
      rw [if_neg h_slt, if_neg h_pos, (scaleDown_rounds exponent mantissa).run_eq (by omega),
        Option.map_some, scaleDown_iterate]

/-- A factor that is left out keeps a product in range. -/
theorem int64_mul_pow_of_le {m : ℤ} {k n : ℕ} (h_k : k ≤ n) (h : Int64 (m * 10 ^ n)) :
    Int64 (m * 10 ^ k) := by
  have h_pow : (10 : ℤ) ^ k ≤ 10 ^ n := pow_le_pow_right₀ (by norm_num) h_k
  have h_one : (1 : ℤ) ≤ 10 ^ k := one_le_pow₀ (by norm_num)
  obtain ⟨h_low, h_high⟩ := h
  -- the product is on the same side of zero as the whole one, and nearer to it
  rcases le_total 0 m with h_m | h_m
  · exact ⟨by nlinarith, (mul_le_mul_of_nonneg_left h_pow h_m).trans_lt h_high⟩
  · exact ⟨h_low.trans (mul_le_mul_of_nonpos_left h_pow h_m), by nlinarith⟩

theorem toInt_iterate_mul_ten {mantissa : BitVec 64} {n : ℕ}
    (h : Int64 (mantissa.toInt * 10 ^ n)) :
    ((fun scaled => scaled * 10)^[n] mantissa).toInt = mantissa.toInt * 10 ^ n := by
  rw [iterate_mul_ten]
  exact BitVec.toInt_ofInt_eq_self (by norm_num) h.1 h.2

theorem toInt_applyExponent_of_pos (mantissa : BitVec 64) {exponent : BitVec 8}
    (h_pos : 0 < exponent.toInt) (h : Int64 (mantissa.toInt * 10 ^ exponent.toInt.toNat)) :
    (applyExponent mantissa exponent).toInt = mantissa.toInt * 10 ^ exponent.toInt.toNat := by
  rw [applyExponent, if_neg h_pos.ne', if_pos h_pos, toInt_iterate_mul_ten h]

theorem toInt_applyExponent_of_nonpos (mantissa : BitVec 64) {exponent : BitVec 8}
    (h_neg : exponent.toInt ≤ 0) :
    (applyExponent mantissa exponent).toInt =
      mantissa.toInt.tdiv (10 ^ (-exponent.toInt).toNat) := by
  rw [applyExponent]
  split
  · next h_zero => simp [h_zero]
  · rw [if_neg (by omega), iterate_sdiv_ten, Nat.cast_pow]
    rfl

/-- **Exact decimal scaling.** For every mantissa and exponent the loops end, and no step of
the counter leaves its type. An exponent that is not positive divides once, with truncation;
one that is positive multiplies, and where the whole product fits every product on the way
does. -/
theorem apply_exponent_exact (mantissa : BitVec 64) (exponent : BitVec 8) :
    ∃ result,
      (∀ fuel, exponent.toInt.natAbs < fuel →
        applyExponentFor fuel mantissa exponent = some result) ∧
      (∀ s, (scaleUp exponent).Visits ⟨0, mantissa⟩ s → (scaleUp exponent).test s = true →
        (s.i + 1).toInt = s.i.toInt + 1) ∧
      (∀ s, (scaleDown exponent).Visits ⟨0, mantissa⟩ s → (scaleDown exponent).test s = true →
        (s.i - 1).toInt = s.i.toInt - 1) ∧
      (exponent.toInt ≤ 0 →
        result.toInt = mantissa.toInt.tdiv (10 ^ exponent.toInt.natAbs)) ∧
      (0 < exponent.toInt → Int64 (mantissa.toInt * 10 ^ exponent.toInt.natAbs) →
        (∀ s, (scaleUp exponent).Visits ⟨0, mantissa⟩ s → (scaleUp exponent).test s = true →
          Int64 (s.scaled.toInt * 10)) ∧
        result.toInt = mantissa.toInt * 10 ^ exponent.toInt.natAbs) := by
  have h_exp := int8_toInt exponent
  refine ⟨applyExponent mantissa exponent, fun fuel => applyExponentFor_eq mantissa exponent,
    ?_, ?_, ?_, ?_⟩
  · -- the test bounds the counter by the exponent, and that by the type
    intro s h_s h_test
    have h_lt : s.i.toInt < exponent.toInt := of_decide_eq_true h_test
    exact toInt_add_one (by omega)
  · intro s h_s h_test
    have h_lt : exponent.toInt < s.i.toInt := of_decide_eq_true h_test
    exact toInt_sub_one (by omega)
  · intro h_neg
    have h_abs : exponent.toInt.natAbs = (-exponent.toInt).toNat := by omega
    rw [h_abs]
    exact toInt_applyExponent_of_nonpos mantissa h_neg
  · intro h_pos h_fit
    have h_abs : exponent.toInt.natAbs = exponent.toInt.toNat := by omega
    rw [h_abs] at h_fit ⊢
    refine ⟨fun s h_s h_test => ?_, toInt_applyExponent_of_pos mantissa h_pos h_fit⟩
    -- round `k` computes the product with `k + 1` tens
    obtain ⟨k, h_k, rfl⟩ := (scaleUp_rounds exponent mantissa).exists_of_test h_s h_test
    have h_next :=
      calc ((scaleUp exponent).body^[k] ⟨0, mantissa⟩).scaled.toInt * 10
        _ = ((fun scaled => scaled * 10)^[k] mantissa).toInt * 10 := by
          rw [scaleUp_iterate]
        _ = mantissa.toInt * 10 ^ k * 10 := by
          rw [toInt_iterate_mul_ten (int64_mul_pow_of_le h_k.le h_fit)]
        _ = mantissa.toInt * 10 ^ (k + 1) := by rw [pow_succ, mul_assoc]
    rw [h_next]
    exact int64_mul_pow_of_le h_k h_fit

end Trading

end Hft
