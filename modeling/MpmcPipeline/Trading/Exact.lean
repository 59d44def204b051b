import MpmcPipeline.Trading.Strategy

/-!
# The strategy over the integers

`update_ref_price` and `evaluate` are written for 32-bit integers and meant for prices.
This module has the same two functions over unbounded integers (`Exact.updateRefPrice`,
`Exact.evaluate`, with the division that truncates) and says when the two agree.

A reference price never leaves the hull of the prices it was made of, so the sum in
`update_ref_price` cannot overflow; what can are the difference of a price and the
reference, the product of the reference and the band, and the upper end of the band. While
none of them does, bit vectors and integers give the same sides (`sides_eq`). In terms of
the ticks that is `Exact.Tame`: a price less than `2 ^ 31` away from the reference, and a
reference whose product with the band is below `2 ^ 31`. `sides_exact_iff` is the
equivalence and `sides_exact_of_le` its case of interest, positive prices up to a bound.
-/

namespace Hft

namespace Strategy

/-- The values of `std::int32_t`. -/
def Int32 (v : ℤ) : Prop := -2 ^ 31 ≤ v ∧ v < 2 ^ 31

theorem int32_toInt (x : BitVec 32) : Int32 x.toInt := ⟨x.le_toInt, x.toInt_lt⟩

/-! ### Sums, differences, products and quotients in range -/

section

variable {x y : BitVec 32}

theorem toInt_add_of_int32 (h : Int32 (x.toInt + y.toInt)) :
    (x + y).toInt = x.toInt + y.toInt := by
  apply BitVec.toInt_add_of_not_saddOverflow
  obtain ⟨h_low, h_high⟩ := h
  simp only [BitVec.saddOverflow, Bool.or_eq_true, decide_eq_true_eq]
  omega

theorem toInt_sub_of_int32 (h : Int32 (x.toInt - y.toInt)) :
    (x - y).toInt = x.toInt - y.toInt := by
  apply BitVec.toInt_sub_of_not_ssubOverflow
  obtain ⟨h_low, h_high⟩ := h
  simp only [BitVec.ssubOverflow, Bool.or_eq_true, decide_eq_true_eq]
  omega

theorem toInt_mul_of_int32 (h : Int32 (x.toInt * y.toInt)) :
    (x * y).toInt = x.toInt * y.toInt := by
  apply BitVec.toInt_mul_of_not_smulOverflow
  obtain ⟨h_low, h_high⟩ := h
  simp only [BitVec.smulOverflow, Bool.or_eq_true, decide_eq_true_eq]
  omega

end

/-! ### The strategy over the integers -/

namespace Exact

/-- `update_ref_price` -/
def updateRefPrice (ref price : ℤ) : ℤ :=
  if ref = 0 then price else ref + (price - ref).tdiv 8

/-- `evaluate` -/
def evaluate (ref price bandBps : ℤ) : Side :=
  if ref ≤ 0 ∨ price ≤ 0 then .none
  else
    let band := (ref * bandBps).tdiv 10000
    if band ≤ 0 then .none
    else if price ≤ ref - band then .buy
    else if ref + band ≤ price then .sell
    else .none

/-- What `update_ref_price` computes on the way, apart from its result. -/
def updateSteps (ref price : ℤ) : List ℤ := if ref = 0 then [] else [price - ref]

/-- What `evaluate` computes on the way: a step is not reached if an earlier one decides. -/
def evaluateSteps (ref price bandBps : ℤ) : List ℤ :=
  if ref ≤ 0 ∨ price ≤ 0 then []
  else
    let band := (ref * bandBps).tdiv 10000
    if band ≤ 0 then [ref * bandBps]
    else if price ≤ ref - band then [ref * bandBps, ref - band]
    else [ref * bandBps, ref - band, ref + band]

/-- The sides of ticks with these prices, from a reference price on. -/
def sides (bandBps : ℤ) : ℤ → List ℤ → List Side
  | _, [] => []
  | ref, price :: prices =>
    evaluate (updateRefPrice ref price) price bandBps ::
      sides bandBps (updateRefPrice ref price) prices

/-- What is computed on the way. -/
def steps (bandBps : ℤ) : ℤ → List ℤ → List ℤ
  | _, [] => []
  | ref, price :: prices =>
    updateSteps ref price ++ evaluateSteps (updateRefPrice ref price) price bandBps ++
      steps bandBps (updateRefPrice ref price) prices

/-- The new reference lies between the old one and the price. -/
theorem updateRefPrice_mem_hull {lo hi ref price : ℤ} (h_ref : ref ≠ 0 → lo ≤ ref ∧ ref ≤ hi)
    (h_price : lo ≤ price ∧ price ≤ hi) :
    lo ≤ updateRefPrice ref price ∧ updateRefPrice ref price ≤ hi := by
  unfold updateRefPrice
  split
  · exact h_price
  · next h_zero =>
    -- an eighth of the way, rounded towards the old reference on either side
    obtain ⟨h_lo, h_hi⟩ := h_ref h_zero
    rcases le_total ref price with h_le | h_le
    · rw [Int.tdiv_eq_ediv_of_nonneg (by omega)]
      omega
    · rw [← neg_sub ref price, Int.neg_tdiv, Int.tdiv_eq_ediv_of_nonneg (by omega)]
      omega

theorem updateRefPrice_int32 {ref price : ℤ} (h_ref : Int32 ref) (h_price : Int32 price) :
    Int32 (updateRefPrice ref price) := by
  obtain ⟨h_low, h_high⟩ := h_ref
  obtain ⟨h_low', h_high'⟩ := h_price
  have h_old : ref ≠ 0 → -2 ^ 31 ≤ ref ∧ ref ≤ 2 ^ 31 - 1 := fun _ => ⟨h_low, by omega⟩
  have h_tick : -2 ^ 31 ≤ price ∧ price ≤ 2 ^ 31 - 1 := ⟨h_low', by omega⟩
  have h_new := updateRefPrice_mem_hull h_old h_tick
  exact ⟨h_new.1, by omega⟩

end Exact

/-- The sides of ticks with these prices, from a reference price on. -/
def sides (bandBps : BitVec 32) : BitVec 32 → List (BitVec 32) → List Side
  | _, [] => []
  | ref, price :: prices =>
    evaluate (updateRefPrice ref price) price bandBps ::
      sides bandBps (updateRefPrice ref price) prices

/-! ### Where the two agree -/

section

variable {ref price bandBps : BitVec 32}

theorem updateRefPrice_toInt
    (h : ∀ v ∈ Exact.updateSteps ref.toInt price.toInt, Int32 v) :
    (updateRefPrice ref price).toInt = Exact.updateRefPrice ref.toInt price.toInt := by
  have h_result := Exact.updateRefPrice_int32 (int32_toInt ref) (int32_toInt price)
  unfold updateRefPrice
  unfold Exact.updateRefPrice at h_result ⊢
  by_cases h_zero : ref = 0
  · -- the first price is the reference
    rw [if_pos h_zero, h_zero]
    rfl
  · have h_toInt : ref.toInt ≠ 0 := fun h_eq => h_zero (BitVec.eq_of_toInt_eq h_eq)
    rw [if_neg h_toInt] at h_result
    rw [if_neg h_zero, if_neg h_toInt]
    have h_sub : (price - ref).toInt = price.toInt - ref.toInt := by
      apply toInt_sub_of_int32
      apply h
      rw [Exact.updateSteps, if_neg h_toInt]
      exact List.mem_singleton_self _
    have h_div : ((price - ref).sdiv 8).toInt = (price.toInt - ref.toInt).tdiv 8 := by
      rw [BitVec.toInt_sdiv_of_ne_or_ne _ _ (Or.inr (by decide)), h_sub]
      rfl
    rw [toInt_add_of_int32 (by rwa [h_div]), h_div]

theorem evaluate_toInt
    (h : ∀ v ∈ Exact.evaluateSteps ref.toInt price.toInt bandBps.toInt, Int32 v) :
    evaluate ref price bandBps = Exact.evaluate ref.toInt price.toInt bandBps.toInt := by
  have h_zero : (0 : BitVec 32).toInt = 0 := rfl
  unfold evaluate Exact.evaluate
  unfold Exact.evaluateSteps at h
  simp only [Bool.or_eq_true, BitVec.sle_iff_toInt_le, h_zero]
  split
  · rfl
  · next h_pos =>
    rw [if_neg h_pos] at h
    dsimp only at h ⊢
    -- the product is computed whatever the band, the sums only where they are compared with
    have h_mul : (ref * bandBps).toInt = ref.toInt * bandBps.toInt := by
      apply toInt_mul_of_int32
      apply h
      split
      · exact List.mem_singleton_self _
      · split <;> exact List.mem_cons_self
    have h_band : ((ref * bandBps).sdiv 10000).toInt =
        (ref.toInt * bandBps.toInt).tdiv 10000 := by
      rw [BitVec.toInt_sdiv_of_ne_or_ne _ _ (Or.inr (by decide)), h_mul]
      rfl
    rw [h_band]
    split
    · rfl
    · next h_none =>
      rw [if_neg h_none] at h
      have h_sub : (ref - (ref * bandBps).sdiv 10000).toInt =
          ref.toInt - (ref.toInt * bandBps.toInt).tdiv 10000 := by
        rw [toInt_sub_of_int32, h_band]
        rw [h_band]
        apply h
        split <;> simp
      rw [h_sub]
      split
      · rfl
      · next h_buy =>
        rw [if_neg h_buy] at h
        have h_add : (ref + (ref * bandBps).sdiv 10000).toInt =
            ref.toInt + (ref.toInt * bandBps.toInt).tdiv 10000 := by
          rw [toInt_add_of_int32, h_band]
          rw [h_band]
          apply h
          simp
        rw [h_add]

/-- **Bit vectors and integers agree while no step leaves the range**: every operation of the two
functions is then the same on both. -/
theorem sides_eq (ref : BitVec 32) {prices : List (BitVec 32)}
    (h : ∀ v ∈ Exact.steps bandBps.toInt ref.toInt (prices.map BitVec.toInt), Int32 v) :
    sides bandBps ref prices = Exact.sides bandBps.toInt ref.toInt (prices.map BitVec.toInt) := by
  -- induction on the ticks; the references agree, so the next tick starts from the same one
  induction prices generalizing ref with
  | nil => rfl
  | cons price prices ih =>
    rw [List.map_cons, Exact.steps] at h
    rw [List.map_cons, sides, Exact.sides]
    have h_ref : (updateRefPrice ref price).toInt = Exact.updateRefPrice ref.toInt price.toInt :=
      updateRefPrice_toInt fun v h_v =>
        h v (List.mem_append_left _ (List.mem_append_left _ h_v))
    rw [← h_ref] at h ⊢
    rw [evaluate_toInt fun v h_v => h v (List.mem_append_left _ (List.mem_append_right _ h_v)),
      ih _ fun v h_v => h v (List.mem_append_right _ h_v)]

end

/-! ### In terms of the ticks -/

namespace Exact

/-- A tick at which nothing leaves the range: the price is less than `2 ^ 31` above and at most
`2 ^ 31` below the reference, and the new reference, if it and the price are positive, is not
too large for the band. With a band of one basis point the product cannot overflow but the
upper end of the band can, unless the tick is a buy and the upper end is not computed. -/
structure Tame (bandBps ref price : ℤ) : Prop where
  below : ref ≠ 0 → ref ≤ price + 2 ^ 31
  above : ref ≠ 0 → price < ref + 2 ^ 31
  product : 2 ≤ bandBps → 0 < price → 0 < updateRefPrice ref price →
    updateRefPrice ref price * bandBps < 2 ^ 31
  upper : bandBps = 1 → 0 < price → updateRefPrice ref price ≤ 2147268921 ∨
    price ≤ updateRefPrice ref price - updateRefPrice ref price / 10000

/-- Every tick is, each seen from the reference the ones before it have left. -/
def TameRun (bandBps : ℤ) : ℤ → List ℤ → Prop
  | _, [] => True
  | ref, price :: prices =>
    Tame bandBps ref price ∧ TameRun bandBps (updateRefPrice ref price) prices

theorem updateSteps_int32_iff {ref price : ℤ} :
    (∀ v ∈ updateSteps ref price, Int32 v) ↔
      (ref ≠ 0 → ref ≤ price + 2 ^ 31) ∧ (ref ≠ 0 → price < ref + 2 ^ 31) := by
  unfold updateSteps Int32
  split
  · next h_zero => simp [h_zero]
  · next h_zero =>
    simp only [List.mem_singleton, forall_eq, h_zero, ne_eq, not_false_eq_true, forall_const]
    omega

/-- The steps of `evaluate` for a positive reference and price, one by one. -/
theorem forall_evaluateSteps_iff {ref price bandBps : ℤ} {P : ℤ → Prop} (h_ref : 0 < ref)
    (h_price : 0 < price) :
    (∀ v ∈ evaluateSteps ref price bandBps, P v) ↔
      P (ref * bandBps) ∧ (0 < (ref * bandBps).tdiv 10000 →
        P (ref - (ref * bandBps).tdiv 10000) ∧
          (ref - (ref * bandBps).tdiv 10000 < price → P (ref + (ref * bandBps).tdiv 10000))) := by
  unfold evaluateSteps
  rw [if_neg (by omega)]
  dsimp only
  -- without a band nothing is compared
  split
  · next h_zero => simp [h_zero.not_gt]
  · next h_pos =>
    -- the upper limit is only computed above the lower one
    split
    · next h_buy => simp [Int.not_le.mp h_pos, h_buy.not_gt]
    · next h_above => simp [Int.not_le.mp h_pos, Int.not_le.mp h_above]

/-- What `evaluate` computes is in range if the product and the upper end of the band are. -/
theorem evaluateSteps_int32_iff {ref price bandBps : ℤ} (h_ref : Int32 ref)
    (h_band : 0 ≤ bandBps) :
    (∀ v ∈ evaluateSteps ref price bandBps, Int32 v) ↔
      (2 ≤ bandBps → 0 < price → 0 < ref → ref * bandBps < 2 ^ 31) ∧
      (bandBps = 1 → 0 < price → ref ≤ 2147268921 ∨ price ≤ ref - ref / 10000) := by
  obtain ⟨h_low, h_high⟩ := h_ref
  by_cases h_none : ref ≤ 0 ∨ price ≤ 0
  · -- nothing is computed
    unfold evaluateSteps
    rw [if_pos h_none]
    constructor
    · exact fun _ => ⟨by omega, by omega⟩
    · exact fun _ _ h_v => absurd h_v List.not_mem_nil
  · have h_ref : 0 < ref := by omega
    have h_price : 0 < price := by omega
    have h_product : 0 ≤ ref * bandBps := Int.mul_nonneg h_ref.le h_band
    have h_small : bandBps = 0 ∨ bandBps = 1 ∨ 2 ≤ bandBps := by omega
    rw [forall_evaluateSteps_iff h_ref h_price, Int.tdiv_eq_ediv_of_nonneg h_product]
    unfold Int32
    rcases h_small with rfl | rfl | h_two
    · simp
    · -- one basis point: the product is the reference itself
      rw [Int.mul_one]
      omega
    · -- the reference is at most half the product, so only the product can overflow
      have h_half : ref * 2 ≤ ref * bandBps := Int.mul_le_mul_of_nonneg_left h_two h_ref.le
      generalize ref * bandBps = product at *
      omega

theorem steps_int32_iff {bandBps ref : ℤ} {prices : List ℤ} (h_band : 0 ≤ bandBps)
    (h_ref : Int32 ref) (h_prices : ∀ price ∈ prices, Int32 price) :
    (∀ v ∈ steps bandBps ref prices, Int32 v) ↔ TameRun bandBps ref prices := by
  -- one price after the other, each with the reference it leads to
  induction prices generalizing ref with
  | nil => simp [steps, TameRun]
  | cons price prices ih =>
    -- a reference within range stays within range, so the steps of the rest make sense
    have h_next := updateRefPrice_int32 h_ref (h_prices price List.mem_cons_self)
    have h_rest := ih h_next fun v h_v => h_prices v (List.mem_cons_of_mem price h_v)
    simp only [steps, TameRun, List.forall_mem_append, h_rest, updateSteps_int32_iff,
      evaluateSteps_int32_iff h_next h_band]
    constructor
    · rintro ⟨⟨⟨h_below, h_above⟩, h_product, h_upper⟩, h_run⟩
      exact ⟨⟨h_below, h_above, h_product, h_upper⟩, h_run⟩
    · rintro ⟨⟨h_below, h_above, h_product, h_upper⟩, h_run⟩
      exact ⟨⟨⟨h_below, h_above⟩, h_product, h_upper⟩, h_run⟩

/-- Positive prices up to a bound whose product with the band is in range. -/
theorem tameRun_of_le {bandBps bound ref : ℤ} {prices : List ℤ}
    (h_product : 2 ≤ bandBps → bound * bandBps < 2 ^ 31)
    (h_upper : bandBps = 1 → bound ≤ 2147268921) (h_bound : bound < 2 ^ 31)
    (h_ref : ref ≠ 0 → 1 ≤ ref ∧ ref ≤ bound)
    (h_prices : ∀ price ∈ prices, 1 ≤ price ∧ price ≤ bound) : TameRun bandBps ref prices := by
  -- reference and prices stay between 1 and the bound
  induction prices generalizing ref with
  | nil => trivial
  | cons price prices ih =>
    obtain ⟨h_one, h_price⟩ := h_prices price List.mem_cons_self
    obtain ⟨h_pos, h_next⟩ := updateRefPrice_mem_hull h_ref ⟨h_one, h_price⟩
    refine ⟨⟨?_, ?_, ?_, ?_⟩, ih (fun _ => ⟨h_pos, h_next⟩) fun v h_v =>
      h_prices v (List.mem_cons_of_mem price h_v)⟩
    · -- the difference of two such numbers is in range
      intro h_ne
      have := h_ref h_ne
      omega
    · intro h_ne
      have := h_ref h_ne
      omega
    · -- and so is the product with the band
      intro h_two _ _
      exact lt_of_le_of_lt (Int.mul_le_mul_of_nonneg_right h_next (by omega)) (h_product h_two)
    · exact fun h_eq _ => Or.inl (h_next.trans (h_upper h_eq))

end Exact

/-- **Machine integers and integers.** For every band that is not negative and every list of prices:
from no reference on, bit vectors give the sides that integers give and no step leaves the range,
exactly if every tick is tame, that is, keeps the differences, the product with the band and the
upper limit in range. -/
theorem sides_exact_iff {bandBps : BitVec 32} (h_band : 0 ≤ bandBps.toInt)
    (prices : List (BitVec 32)) :
    (sides bandBps 0 prices = Exact.sides bandBps.toInt 0 (prices.map BitVec.toInt) ∧
        ∀ v ∈ Exact.steps bandBps.toInt 0 (prices.map BitVec.toInt), Int32 v) ↔
      Exact.TameRun bandBps.toInt 0 (prices.map BitVec.toInt) := by
  have h_prices : ∀ price ∈ prices.map BitVec.toInt, Int32 price := by
    intro price h_price
    obtain ⟨x, -, rfl⟩ := List.mem_map.mp h_price
    exact int32_toInt x
  have h_zero : Int32 0 := int32_toInt 0
  rw [← Exact.steps_int32_iff h_band h_zero h_prices]
  exact ⟨And.right, fun h => ⟨sides_eq 0 h, h⟩⟩

/-- Two ticks of a price of ten thousand are tame for the default band. -/
theorem sides_exact_iff_default :
    sides defaultBandBps 0 [10000, 9980] = Exact.sides 10 0 [10000, 9980] ∧
      ∀ v ∈ Exact.steps 10 0 [10000, 9980], Int32 v :=
  have h_band : 0 ≤ defaultBandBps.toInt := by decide
  have h_product : 2 ≤ defaultBandBps.toInt → 10000 * defaultBandBps.toInt < 2 ^ 31 := by decide
  (sides_exact_iff h_band [10000, 9980]).mpr
    (Exact.tameRun_of_le h_product (by decide) (by decide) (by decide) (by decide))

/-- Positive prices whose product with the band is in range. -/
theorem sides_exact_of_le {bandBps : BitVec 32} {bound : ℤ} {prices : List (BitVec 32)}
    (h_band : 0 ≤ bandBps.toInt) (h_product : 2 ≤ bandBps.toInt → bound * bandBps.toInt < 2 ^ 31)
    (h_upper : bandBps.toInt = 1 → bound ≤ 2147268921) (h_bound : bound < 2 ^ 31)
    (h_prices : ∀ price ∈ prices, 1 ≤ price.toInt ∧ price.toInt ≤ bound) :
    sides bandBps 0 prices = Exact.sides bandBps.toInt 0 (prices.map BitVec.toInt) := by
  -- below the bound no step of the run leaves the range
  have h_run : Exact.TameRun bandBps.toInt 0 (prices.map BitVec.toInt) := by
    apply Exact.tameRun_of_le h_product h_upper h_bound (fun h_ne => absurd rfl h_ne)
    intro price h_price
    obtain ⟨x, h_x, rfl⟩ := List.mem_map.mp h_price
    exact h_prices x h_x
  -- the prices are numbers of 32 bits to begin with
  have h_int32 : ∀ price ∈ prices.map BitVec.toInt, Int32 price := by
    intro price h_price
    obtain ⟨x, -, rfl⟩ := List.mem_map.mp h_price
    exact int32_toInt x
  have h_zero : Int32 0 := int32_toInt 0
  exact sides_eq 0 ((Exact.steps_int32_iff h_band h_zero h_int32).mpr h_run)

/-- At a reference of three hundred million the default band overflows: the product is
negative, no band is left, and a fall of three percent is no buy. -/
theorem sides_overflow :
    sides defaultBandBps 0 [300000000, 290000000] ≠
      Exact.sides defaultBandBps.toInt 0
        [300000000, 290000000] := by
  decide

end Strategy

end Hft
