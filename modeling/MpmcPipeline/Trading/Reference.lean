import Mathlib.Logic.Function.Iterate
import MpmcPipeline.Trading.Exact

/-!
# The reference price over a run of ticks

`update_ref_price` moves the reference an eighth of the way to the price, with a division
that truncates. For prices that are positive numbers of 32 bits the reference is a positive
number in the hull of the prices, so the zero that stands for "no reference yet" is never
seen again and no difference overflows; all of what follows is then about integers.

The new reference is monotone in the old one and in the price. Under a constant price the
distance to it shrinks by an eighth of itself, rounded down, as long as that is not
nothing: until it is less than eight, where the reference stays.
-/

namespace Hft

namespace Strategy

/-- Where steps make a measure smaller as long as it is at least `b`, so many steps make it
smaller than `b`. -/
theorem exists_iterate_lt {α : Type*} {f : α → α} {I : α → Prop} {μ : α → ℕ} {b : ℕ}
    (h_inv : ∀ x, I x → I (f x)) (h_step : ∀ x, I x → b ≤ μ x → μ (f x) < μ x) (x : α)
    (h_x : I x) : ∃ n, μ (f^[n] x) < b := by
  -- strong induction on the measure of the start
  induction h : μ x using Nat.strong_induction_on generalizing x with
  | _ m ih =>
    by_cases h_small : μ x < b
    · exact ⟨0, h_small⟩
    · obtain ⟨n, h_n⟩ := ih (μ (f x)) (h ▸ h_step x h_x (not_lt.mp h_small)) (f x) (h_inv x h_x) rfl
      exact ⟨n + 1, h_n⟩

namespace Exact

/-! ### One update of a reference -/

/-- The quotient of a distance, in either direction. -/
theorem tdiv_eight (d : ℤ) : d.tdiv 8 = if 0 ≤ d then d / 8 else -(-d / 8) := by
  split
  · next h => exact Int.tdiv_eq_ediv_of_nonneg h
  · next h =>
    rw [← neg_neg d, Int.neg_tdiv, neg_neg, Int.tdiv_eq_ediv_of_nonneg (by omega)]

theorem updateRefPrice_of_ne {ref price : ℤ} (h : ref ≠ 0) :
    updateRefPrice ref price = ref + (price - ref).tdiv 8 := if_neg h

/-- **Monotone.** -/
theorem updateRefPrice_mono {ref ref' price price' : ℤ} (h_ref : ref ≠ 0) (h_ref' : ref' ≠ 0)
    (h : ref ≤ ref') (h_price : price ≤ price') :
    updateRefPrice ref price ≤ updateRefPrice ref' price' := by
  rw [updateRefPrice_of_ne h_ref, updateRefPrice_of_ne h_ref', tdiv_eight, tdiv_eight]
  split
  · split
    · omega
    · omega
  · split
    · omega
    · omega

/-- The reference moves toward the price and not past it, and it moves if the price is at least
eight away. -/
theorem updateRefPrice_toward {ref price : ℤ} (h_ref : ref ≠ 0) :
    (ref ≤ price → ref ≤ updateRefPrice ref price ∧ updateRefPrice ref price ≤ price) ∧
    (price ≤ ref → price ≤ updateRefPrice ref price ∧ updateRefPrice ref price ≤ ref) ∧
    (8 ≤ (price - ref).natAbs →
      (price - updateRefPrice ref price).natAbs < (price - ref).natAbs) := by
  rw [updateRefPrice_of_ne h_ref, tdiv_eight]
  split
  · omega
  · omega

/-- Less than eight away from the price, the reference stays. -/
theorem updateRefPrice_stays {ref price : ℤ} (h_ref : ref ≠ 0) (h : (price - ref).natAbs < 8) :
    updateRefPrice ref price = ref := by
  rw [updateRefPrice_of_ne h_ref, tdiv_eight]
  split
  · omega
  · omega

end Exact

/-! ### Positive prices -/

section

variable {ref ref' price price' : BitVec 32}

/-- Between positive numbers no step overflows. -/
theorem updateSteps_int32_of_pos (h_ref : ref ≠ 0 → 0 < ref.toInt) (h_price : 0 < price.toInt) :
    ∀ v ∈ Exact.updateSteps ref.toInt price.toInt, Int32 v := by
  rw [Exact.updateSteps_int32_iff]
  have h_lt := ref.toInt_lt
  have h_lt' := price.toInt_lt
  have h_pos : ref.toInt ≠ 0 → 0 < ref.toInt := fun h_ne =>
    h_ref fun h_zero => h_ne (by rw [h_zero]; rfl)
  omega

theorem updateRefPrice_toInt_of_pos (h_ref : ref ≠ 0 → 0 < ref.toInt) (h_price : 0 < price.toInt) :
    (updateRefPrice ref price).toInt = Exact.updateRefPrice ref.toInt price.toInt :=
  updateRefPrice_toInt (updateSteps_int32_of_pos h_ref h_price)

/-- A positive reference stays positive. -/
theorem updateRefPrice_pos (h_ref : ref ≠ 0 → 0 < ref.toInt) (h_price : 0 < price.toInt) :
    0 < (updateRefPrice ref price).toInt := by
  have h_hull : 1 ≤ Exact.updateRefPrice ref.toInt price.toInt ∧
      Exact.updateRefPrice ref.toInt price.toInt ≤ 2 ^ 31 := by
    apply Exact.updateRefPrice_mem_hull
    · intro h_ne
      have h_pos := h_ref fun h_zero => h_ne (by rw [h_zero]; rfl)
      exact ⟨h_pos, ref.toInt_lt.le⟩
    · exact ⟨h_price, price.toInt_lt.le⟩
  rw [updateRefPrice_toInt_of_pos h_ref h_price]
  exact h_hull.1

theorem ne_zero_of_pos {x : BitVec 32} (h : 0 < x.toInt) : x ≠ 0 := by
  rintro rfl
  exact absurd h (by decide)

theorem updateRefPrice_mono (h_ref : 0 < ref.toInt) (h_price : 0 < price.toInt)
    (h : ref.toInt ≤ ref'.toInt) (h' : price.toInt ≤ price'.toInt) :
    (updateRefPrice ref price).toInt ≤ (updateRefPrice ref' price').toInt := by
  rw [updateRefPrice_toInt_of_pos (fun _ => h_ref) h_price,
    updateRefPrice_toInt_of_pos (fun _ => h_ref.trans_le h) (h_price.trans_le h')]
  exact Exact.updateRefPrice_mono h_ref.ne' (h_ref.trans_le h).ne' h h'

end

/-! ### Any prices -/

/-- The reference after these prices, from none on. -/
def reference (prices : List (BitVec 32)) : BitVec 32 := prices.foldl updateRefPrice 0

theorem reference_snoc (prices : List (BitVec 32)) (price : BitVec 32) :
    reference (prices ++ [price]) = updateRefPrice (reference prices) price := by
  rw [reference, List.foldl_append]
  rfl

/-- A reference that is set, between the least and the greatest of the prices. -/
structure InHull (prices : List (BitVec 32)) (ref : BitVec 32) : Prop where
  pos : 0 < ref.toInt
  low : ∃ lo ∈ prices, lo.toInt ≤ ref.toInt
  high : ∃ hi ∈ prices, ref.toInt ≤ hi.toInt

/-- One more price. -/
theorem InHull.snoc {prices : List (BitVec 32)} {ref price : BitVec 32} (h : InHull prices ref)
    (h_price : 0 < price.toInt) : InHull (prices ++ [price]) (updateRefPrice ref price) where
  pos := updateRefPrice_pos (fun _ => h.pos) h_price
  low := by
    -- the new reference is between the old one and the price, so the lower one bounds it
    obtain ⟨lo, h_lo, h_le⟩ := h.low
    obtain ⟨h_up, h_down, -⟩ := @Exact.updateRefPrice_toward ref.toInt price.toInt h.pos.ne'
    rw [updateRefPrice_toInt_of_pos (fun _ => h.pos) h_price]
    rcases le_total ref.toInt price.toInt with h_below | h_above
    · exact ⟨lo, List.mem_append_left _ h_lo, h_le.trans (h_up h_below).1⟩
    · exact ⟨price, List.mem_append_right _ (List.mem_singleton_self _), (h_down h_above).1⟩
  high := by
    obtain ⟨hi, h_hi, h_le⟩ := h.high
    obtain ⟨h_up, h_down, -⟩ := @Exact.updateRefPrice_toward ref.toInt price.toInt h.pos.ne'
    rw [updateRefPrice_toInt_of_pos (fun _ => h.pos) h_price]
    rcases le_total ref.toInt price.toInt with h_below | h_above
    · exact ⟨price, List.mem_append_right _ (List.mem_singleton_self _), (h_up h_below).2⟩
    · exact ⟨hi, List.mem_append_left _ h_hi, (h_down h_above).2.trans h_le⟩

/-- Every price leaves the reference in the hull of the prices so far. -/
theorem inHull_reference {prices : List (BitVec 32)} (h : ∀ price ∈ prices, 0 < price.toInt)
    (h_ne : prices ≠ []) : InHull prices (reference prices) := by
  induction prices using List.reverseRecOn with
  | nil => exact absurd rfl h_ne
  | append_singleton prices price ih =>
    have h_price := h price (List.mem_append_right _ (List.mem_singleton_self _))
    rw [reference_snoc]
    by_cases h_first : prices = []
    · -- the first price is the reference
      subst h_first
      exact ⟨h_price, ⟨price, List.mem_singleton_self _, le_rfl⟩,
        ⟨price, List.mem_singleton_self _, le_rfl⟩⟩
    · exact (ih (fun p h_p => h p (List.mem_append_left _ h_p)) h_first).snoc h_price

/-- A reference after some positive prices is not set or positive. -/
theorem reference_pos {prices : List (BitVec 32)} (h : ∀ price ∈ prices, 0 < price.toInt)
    (h_ne : reference prices ≠ 0) : 0 < (reference prices).toInt := by
  apply (inHull_reference h _).pos
  rintro rfl
  exact h_ne rfl

/-! ### One price again and again -/

/-- The reference after a price has come `n` times. -/
def repeated (price ref : BitVec 32) (n : ℕ) : BitVec 32 :=
  (fun ref => updateRefPrice ref price)^[n] ref

theorem repeated_succ (price ref : BitVec 32) (n : ℕ) :
    repeated price ref (n + 1) = updateRefPrice (repeated price ref n) price :=
  Function.iterate_succ_apply' ..

/-- The references under a constant price approach it. -/
structure Approaches (price ref : BitVec 32) : Prop where
  up : ∀ n, (repeated price ref n).toInt ≤ price.toInt →
    (repeated price ref n).toInt ≤ (repeated price ref (n + 1)).toInt ∧
      (repeated price ref (n + 1)).toInt ≤ price.toInt
  down : ∀ n, price.toInt ≤ (repeated price ref n).toInt →
    price.toInt ≤ (repeated price ref (n + 1)).toInt ∧
      (repeated price ref (n + 1)).toInt ≤ (repeated price ref n).toInt
  /-- From some tick on the reference is less than eight away, and stays. -/
  settles : ∃ N, ∀ n ≥ N, |(repeated price ref n).toInt - price.toInt| < 8 ∧
    repeated price ref n = repeated price ref N

section

variable {ref price : BitVec 32}

theorem repeated_pos (h_ref : 0 < ref.toInt) (h_price : 0 < price.toInt) (n : ℕ) :
    0 < (repeated price ref n).toInt := by
  induction n with
  | zero => exact h_ref
  | succ n ih =>
    rw [repeated_succ]
    exact updateRefPrice_pos (fun _ => ih) h_price

/-- A reference less than eight away from the price is the reference for good. -/
theorem repeated_of_near (h_ref : 0 < ref.toInt) (h_price : 0 < price.toInt)
    (h_near : (price.toInt - ref.toInt).natAbs < 8) (n : ℕ) : repeated price ref n = ref := by
  induction n with
  | zero => rfl
  | succ n ih =>
    rw [repeated_succ, ih]
    apply BitVec.eq_of_toInt_eq
    rw [updateRefPrice_toInt_of_pos (fun _ => h_ref) h_price]
    exact Exact.updateRefPrice_stays h_ref.ne' h_near

theorem approaches (h_ref : 0 < ref.toInt) (h_price : 0 < price.toInt) : Approaches price ref where
  up n h := by
    have h_pos := repeated_pos h_ref h_price n
    rw [repeated_succ, updateRefPrice_toInt_of_pos (fun _ => h_pos) h_price]
    exact (Exact.updateRefPrice_toward h_pos.ne').1 h
  down n h := by
    have h_pos := repeated_pos h_ref h_price n
    rw [repeated_succ, updateRefPrice_toInt_of_pos (fun _ => h_pos) h_price]
    exact (Exact.updateRefPrice_toward h_pos.ne').2.1 h
  settles := by
    -- the distance shrinks until it is less than eight
    obtain ⟨N, h_N⟩ := exists_iterate_lt (f := fun ref => updateRefPrice ref price)
      (I := fun ref => 0 < ref.toInt) (μ := fun ref => (price.toInt - ref.toInt).natAbs) (b := 8)
      (fun x h_x => updateRefPrice_pos (fun _ => h_x) h_price)
      (fun x h_x h_far => by
        rw [updateRefPrice_toInt_of_pos (fun _ => h_x) h_price]
        exact (Exact.updateRefPrice_toward h_x.ne').2.2 h_far) ref h_ref
    refine ⟨N, fun n h_n => ?_⟩
    obtain ⟨k, rfl⟩ := Nat.exists_eq_add_of_le h_n
    have h_stays : repeated price ref (N + k) = repeated price ref N := by
      rw [repeated, Nat.add_comm, Function.iterate_add_apply]
      exact repeated_of_near (repeated_pos h_ref h_price N) h_price h_N k
    rw [h_stays]
    refine ⟨?_, rfl⟩
    change (price.toInt - (repeated price ref N).toInt).natAbs < 8 at h_N
    rw [abs_lt]
    omega

end

/-- **The reference price.** For any positive prices from no reference on: an update computes
what it computes over the integers, nothing overflows, and leaves the reference positive and
between the least and the greatest price so far. An update is monotone in reference and price.
Under a constant price the reference approaches it and settles less than eight away. -/
theorem reference_laws :
    (∀ prices price, (∀ p ∈ prices ++ [price], 0 < BitVec.toInt p) →
      (∀ v ∈ Exact.updateSteps (reference prices).toInt price.toInt, Int32 v) ∧
      (reference (prices ++ [price])).toInt =
        Exact.updateRefPrice (reference prices).toInt price.toInt ∧
      reference (prices ++ [price]) ≠ 0 ∧
      InHull (prices ++ [price]) (reference (prices ++ [price]))) ∧
    (∀ ref ref' price price' : BitVec 32, 0 < ref.toInt → 0 < price.toInt →
      ref.toInt ≤ ref'.toInt → price.toInt ≤ price'.toInt →
      (updateRefPrice ref price).toInt ≤ (updateRefPrice ref' price').toInt) ∧
    ∀ ref price : BitVec 32, 0 < ref.toInt → 0 < price.toInt → Approaches price ref := by
  refine ⟨fun prices price h => ?_, fun _ _ _ _ => updateRefPrice_mono, fun _ _ => approaches⟩
  have h_price := h price (List.mem_append_right _ (List.mem_singleton_self _))
  have h_ref := reference_pos fun p h_p => h p (List.mem_append_left _ h_p)
  have h_hull := inHull_reference h (List.append_ne_nil_of_right_ne_nil _ (List.cons_ne_nil _ _))
  -- the range of the steps, the update over the integers, and the hull it stays in
  refine ⟨updateSteps_int32_of_pos h_ref h_price, ?_, ne_zero_of_pos h_hull.pos, h_hull⟩
  rw [reference_snoc]
  exact updateRefPrice_toInt_of_pos h_ref h_price

/-- A price after another, two references, and a reference that climbs. -/
theorem reference_laws_climb :
    InHull ([1] ++ [100]) (reference ([1] ++ [100])) ∧
      (updateRefPrice 1 8).toInt ≤ (updateRefPrice 9 8).toInt ∧ Approaches 100 1 :=
  ⟨(reference_laws.1 [1] 100 (by simp)).2.2.2,
    reference_laws.2.1 1 9 8 8 (by decide) (by decide) (by decide) le_rfl,
    reference_laws.2.2 1 100 (by decide) (by decide)⟩

end Strategy

end Hft
