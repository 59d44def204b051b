import MpmcPipeline.Trading.Interference
import MpmcPipeline.Trading.Scaling

/-!
# Top-of-book signals

An SBE tick and an MCX tick give the strategy the middle of a bid and an ask, and a signal
the bid size; the SBE ones are scaled by decimal exponents, and an MCX tick is a `Book`
whose exponents are zero. The sum of the two prices and the scaled values are 64-bit, the
signal has 32 bits.

`Book.exactPrice` and `Book.exactQuantity` are the same values over the integers. A signal
carries them if and only if the tick is in range (`Book.Fits`). That a sum that overflows is
always seen in the signal rests on the strategy, which gives no side at a price that is not
positive: a sum too large wraps to a negative one.
-/

namespace Hft

open Handoff (Env)

namespace Trading

open Strategy

/-- Bid, ask and bid size of a tick. -/
structure Book where
  bid : BitVec 64
  ask : BitVec 64
  size : BitVec 64
  priceExponent : BitVec 8 := 0
  sizeExponent : BitVec 8 := 0

/-- The book of a top-of-book tick. -/
def Tick.book : Tick → Option Book
  | sbe tick => some ⟨tick.body.bidNormalPrice, tick.body.askNormalPrice,
      tick.body.bidNormalSize, tick.body.priceExponent, tick.body.sizeExponent⟩
  | mcx tick => some { bid := tick.bidPrice, ask := tick.askPrice, size := tick.bidQty }
  | _ => none

namespace Book

/-- The mid-price as the producers compute it. -/
def price (book : Book) : BitVec 32 :=
  (applyExponent ((book.bid + book.ask).sdiv 2) book.priceExponent).setWidth 32

/-- The quantity as the producers compute it. -/
def quantity (book : Book) : BitVec 32 := (applyExponent book.size book.sizeExponent).setWidth 32

/-- The sum of bid and ask. -/
def exactSum (book : Book) : ℤ := book.bid.toInt + book.ask.toInt

/-- The mid-price over the integers. -/
def exactPrice (book : Book) : ℤ :=
  Exact.applyExponent (book.exactSum.tdiv 2) book.priceExponent.toInt

/-- The quantity over the integers. -/
def exactQuantity (book : Book) : ℤ := Exact.applyExponent book.size.toInt book.sizeExponent.toInt

/-- Nothing leaves the range of the integer it is kept in. -/
structure Fits (book : Book) : Prop where
  sum : Int64 book.exactSum
  price : Int32 book.exactPrice
  quantity : Int32 book.exactQuantity

/-- The signal has the exact values. -/
structure CarriedBy (book : Book) (signal : StrategySignal) : Prop where
  price : signal.price.toInt = book.exactPrice
  quantity : signal.quantity.toInt = book.exactQuantity

variable {book : Book}

/-- The half of the sum, whether the sum has wrapped or not. -/
theorem half_toInt (book : Book) :
    ((book.bid + book.ask).sdiv 2).toInt = (book.exactSum.bmod (2 ^ 64)).tdiv 2 := by
  rw [BitVec.toInt_sdiv_of_ne_or_ne _ _ (Or.inr (by decide)), BitVec.toInt_add]
  rfl

theorem quantity_toInt_iff :
    book.quantity.toInt = book.exactQuantity ↔ Int32 book.exactQuantity := by
  rw [quantity, applyExponent_eq]
  exact toInt_setWidth_eq_iff

theorem price_toInt_iff (h_sum : Int64 book.exactSum) :
    book.price.toInt = book.exactPrice ↔ Int32 book.exactPrice := by
  have h_bmod : book.exactSum.bmod (2 ^ 64) = book.exactSum := by
    obtain ⟨h_low, h_high⟩ := h_sum
    exact Int.bmod_eq_of_le (by omega) (by omega)
  rw [price, applyExponent_eq, half_toInt, h_bmod]
  exact toInt_setWidth_eq_iff

/-- The sum of two 64-bit numbers that overflows wraps to the other sign. -/
theorem wrapped_sum (book : Book) :
    Int64 book.exactSum ∨
      (2 ^ 63 ≤ book.exactSum ∧ book.exactSum.bmod (2 ^ 64) = book.exactSum - 2 ^ 64 ∧
        book.exactSum ≤ 2 ^ 64 - 2) ∨ book.exactSum < -2 ^ 63 := by
  have h_bid := book.bid.toInt_lt
  have h_ask := book.ask.toInt_lt
  -- two numbers of 64 bits differ from the range of a sum by one turn at most
  by_cases h_high : 2 ^ 63 ≤ book.exactSum
  · refine Or.inr (Or.inl ⟨h_high, ?_, ?_⟩)
    · have h_le : book.exactSum ≤ 2 ^ 64 - 2 := by
        rw [exactSum]
        omega
      -- one turn back the sum is in range again
      rw [← Int.sub_bmod_right, Int.bmod_eq_of_le]
      · rfl
      · norm_num
        omega
      · norm_num
        omega
    · rw [exactSum]
      omega
  · by_cases h_low : book.exactSum < -2 ^ 63
    · exact Or.inr (Or.inr h_low)
    · exact Or.inl ⟨by omega, by omega⟩

/-- A large number divided down to 32 bits: the divisor is large. -/
theorem tdiv_neg_int32 {sum : ℤ} {d : ℕ} (h_d : 0 < d) (h_sum : 2 ^ 63 ≤ sum)
    (h_le : sum ≤ 2 ^ 64 - 2) (h_price : Int32 ((sum.tdiv 2).tdiv d)) :
    Int32 (((sum - 2 ^ 64).tdiv 2).tdiv d) ∧ ((sum - 2 ^ 64).tdiv 2).tdiv d ≤ 0 := by
  have h_pos : (0 : ℤ) < d := by exact_mod_cast h_d
  obtain ⟨-, h_high⟩ := h_price
  rw [Int.tdiv_eq_ediv_of_nonneg (by omega : 0 ≤ sum),
    Int.tdiv_eq_ediv_of_nonneg (by omega : 0 ≤ sum / 2), Int.ediv_lt_iff_lt_mul h_pos] at h_high
  -- the wrapped half is at most as large, with the other sign
  have h_neg : (sum - 2 ^ 64).tdiv 2 = -((2 ^ 64 - sum) / 2) := by
    rw [← neg_sub, Int.neg_tdiv, Int.tdiv_eq_ediv_of_nonneg (by omega)]
  have h_half : 0 ≤ (2 ^ 64 - sum) / 2 := by omega
  have h_quotient : (2 ^ 64 - sum) / 2 / d < 2 ^ 31 := by
    rw [Int.ediv_lt_iff_lt_mul h_pos]
    omega
  have h_nonneg : 0 ≤ (2 ^ 64 - sum) / 2 / d := Int.ediv_nonneg h_half h_pos.le
  rw [h_neg, Int.neg_tdiv, Int.tdiv_eq_ediv_of_nonneg h_half]
  exact ⟨⟨by omega, by omega⟩, by omega⟩

/-- **An overflow shows.** If a positive price is the exact one, the sum has not wrapped. -/
theorem sum_of_exact (h_pos : 0 < book.price.toInt) (h_exact : book.price.toInt = book.exactPrice) :
    Int64 book.exactSum := by
  have h_int32 : Int32 book.exactPrice := by
    rw [← h_exact]
    exact int32_toInt _
  have h_exact_pos : 0 < book.exactPrice := by
    rw [← h_exact]
    exact h_pos
  rcases book.wrapped_sum with h_fits | ⟨h_high, h_wrap, h_le⟩ | h_low
  · exact h_fits
  · rw [price, applyExponent_eq, half_toInt, h_wrap] at h_pos
    unfold exactPrice at h_int32
    by_cases h_exp : 0 ≤ book.priceExponent.toInt
    · -- a product of a number of 63 bits does not fit 32
      rw [Exact.applyExponent, if_pos h_exp] at h_int32
      have h_ten : (1 : ℤ) ≤ 10 ^ book.priceExponent.toInt.toNat := one_le_pow₀ (by norm_num)
      have h_half : (2 : ℤ) ^ 62 ≤ book.exactSum.tdiv 2 := by
        rw [Int.tdiv_eq_ediv_of_nonneg (by omega)]
        omega
      have h_product := Int.mul_le_mul_of_nonneg_left h_ten (by omega : 0 ≤ book.exactSum.tdiv 2)
      have h_lt := h_int32.2
      omega
    · -- a quotient may, but then the wrapped one is not positive
      rw [Exact.applyExponent, if_neg h_exp] at h_int32 h_pos
      obtain ⟨h_wrapped, h_nonpos⟩ :=
        tdiv_neg_int32 (Nat.pow_pos (by norm_num)) h_high h_le h_int32
      rw [toInt_setWidth_eq_iff.mpr h_wrapped] at h_pos
      omega
  · -- the exact price of a negative sum is not positive
    unfold exactPrice at h_exact_pos
    have h_half : book.exactSum.tdiv 2 ≤ 0 := by
      rw [← neg_neg book.exactSum, Int.neg_tdiv, Int.tdiv_eq_ediv_of_nonneg (by omega)]
      omega
    rw [Exact.applyExponent] at h_exact_pos
    split at h_exact_pos
    · have h_ten : (0 : ℤ) ≤ 10 ^ book.priceExponent.toInt.toNat := by positivity
      have h_product := Int.mul_nonpos_of_nonpos_of_nonneg h_half h_ten
      omega
    · have h_quotient := Int.tdiv_nonneg (Int.neg_nonneg_of_nonpos h_half)
        (Int.natCast_nonneg (10 ^ (-book.priceExponent.toInt).toNat))
      rw [Int.neg_tdiv] at h_quotient
      omega

/-- **A positive price and its quantity are exact if and only if the tick fits.** -/
theorem exact_iff (h_pos : 0 < book.price.toInt) :
    book.price.toInt = book.exactPrice ∧ book.quantity.toInt = book.exactQuantity ↔ book.Fits := by
  constructor
  · rintro ⟨h_price, h_quantity⟩
    have h_sum := sum_of_exact h_pos h_price
    exact ⟨h_sum, (price_toInt_iff h_sum).mp h_price, quantity_toInt_iff.mp h_quantity⟩
  · intro h_fits
    exact ⟨(price_toInt_iff h_fits.sum).mpr h_fits.price, quantity_toInt_iff.mpr h_fits.quantity⟩

end Book

/-! ### The signals of a producer -/

@[simp] theorem applyExponent_zero (mantissa : BitVec 64) : applyExponent mantissa 0 = mantissa :=
  if_pos rfl

/-- Price and quantity of a top-of-book tick are those of its book. -/
theorem Tick.signal_of_book {tick : Tick} {book : Book} (h : tick.book = some book) (side : Side)
    (token : BitVec 32) :
    tick.price = book.price ∧ (tick.signal side token).price = book.price ∧
      (tick.signal side token).quantity = book.quantity := by
  cases tick with
  | itch tick | mtbt tick => cases h
  | sbe tick =>
    obtain rfl := Option.some.inj h
    exact ⟨rfl, rfl, rfl⟩
  | mcx tick =>
    obtain rfl := Option.some.inj h
    -- without an exponent nothing is scaled
    have h_price : Tick.price (.mcx tick) = Book.price
        { bid := tick.bidPrice, ask := tick.askPrice, size := tick.bidQty } := by
      rw [Book.price, applyExponent_zero]
      rfl
    refine ⟨h_price, h_price, ?_⟩
    rw [Book.quantity, applyExponent_zero]
    rfl

variable {P : PoolCapacity} {cap : Stage → Capacity}

/-- The origin of an emitted signal is the tick of the call, at a positive price. -/
theorem producerOnTick_emitted {env : Env} {mem mem' : Memory P cap} {self self' : Producer}
    {tick : Tick} {owned : Option (Ptr P)} {es : List (Event P)} {origin : Origin}
    (h : producerOnTick env mem self tick owned = some (mem', self', es))
    (h_origin : es.findSome? Event.origin = some origin) :
    origin.tick = tick ∧ 0 < tick.price.toInt := by
  cases producerOnTick_step h with
  | released | passed | exhausted => cases h_origin
  | signal msg h_side | signalNew msg h_side =>
    cases h_origin
    exact ⟨rfl, price_pos_of_evaluate h_side⟩

/-- **Run.** So it is for every signal of a producer. -/
theorem producing_emitted {self₀ self : Producer} {tr : List (Tick × Option Origin)}
    (h : (producing P cap).Reach self₀ tr self) :
    ∀ tick origin, (tick, some origin) ∈ tr → origin.tick = tick ∧ 0 < tick.price.toInt := by
  refine h.inv (I := fun tr _ => ∀ tick origin, (tick, some origin) ∈ tr →
    origin.tick = tick ∧ 0 < tick.price.toInt) ?_ ?_
  · intro tick origin h_mem
    exact absurd h_mem List.not_mem_nil
  · -- an old signal is described already, a new one is that of the call made
    intro tr self call self' es hI _ h_step tick origin h_mem
    rcases List.mem_append.mp h_mem with h_old | h_new
    · exact hI tick origin h_old
    · simp only [producing] at h_step
      split at h_step
      · cases h_step
      · next h_tick =>
        cases h_step
        have h_eq := List.mem_singleton.mp h_new
        rw [Prod.mk.injEq] at h_eq
        obtain ⟨rfl, h_origin⟩ := h_eq
        exact producerOnTick_emitted h_tick h_origin.symm

/-- **Exact signals.** In a run of a producer every signal of a top-of-book tick carries the
exact values, and only ticks with exact values of 32 bits have one, if and only if every
top-of-book tick that has a signal fits. -/
theorem book_signals_exact_iff {self₀ self : Producer} {tr : List (Tick × Option Origin)}
    (h : (producing P cap).Reach self₀ tr self) :
    (∀ tick origin book, (tick, some origin) ∈ tr → tick.book = some book →
        book.CarriedBy origin.signal ∧ Int32 book.exactPrice ∧ Int32 book.exactQuantity) ↔
      ∀ tick origin book, (tick, some origin) ∈ tr → tick.book = some book → book.Fits := by
  have h_emitted := producing_emitted h
  refine forall_congr' fun tick => forall_congr' fun origin => forall_congr' fun book =>
    forall_congr' fun h_mem => forall_congr' fun h_book => ?_
  -- a signal has a positive price, which excludes a sum that wraps to a negative one
  obtain ⟨rfl, h_pos⟩ := h_emitted tick origin h_mem
  obtain ⟨h_price, h_signal, h_quantity⟩ := Tick.signal_of_book h_book origin.side origin.token
  rw [h_price] at h_pos
  rw [← Book.exact_iff h_pos]
  constructor
  · rintro ⟨⟨h_exact, h_exact'⟩, -⟩
    exact ⟨h_signal ▸ h_exact, h_quantity ▸ h_exact'⟩
  · rintro ⟨h_exact, h_exact'⟩
    refine ⟨⟨?_, ?_⟩, ?_, ?_⟩
    · rw [← h_exact, ← h_signal]
      rfl
    · rw [← h_exact', ← h_quantity]
      rfl
    · rw [← h_exact]
      exact int32_toInt _
    · rw [← h_exact']
      exact int32_toInt _

/-- An MCX tick with one price on both sides. -/
def mcxAt (price size : BitVec 64) : Tick :=
  .mcx { bidPrice := price, askPrice := price, bidQty := size }

/-- The reference price against which the second of two ticks is evaluated. -/
def secondRef (first second : Tick) : BitVec 32 :=
  Strategy.updateRefPrice (Strategy.updateRefPrice 0 first.price) second.price

/-- The second tick has a signal, and fits. -/
theorem book_signals_exact_mcx :
    ∃ tr self, (producing onePool fun _ => Capacity.two).Reach {} tr self ∧
      tr.map Prod.fst = [mcxAt 10000 5, mcxAt 9000 7] ∧
      (∃ origin, (mcxAt 9000 7, some origin) ∈ tr) ∧
      ∀ tick origin book, (tick, some origin) ∈ tr → tick.book = some book →
        book.CarriedBy origin.signal ∧ Int32 book.exactPrice ∧ Int32 book.exactQuantity := by
  obtain ⟨tr, self, h_reach, h_ticks⟩ := exists_producing {} [mcxAt 10000 5, mcxAt 9000 7]
  have h_any : (producing onePool fun _ => Capacity.two).Reach {} tr self :=
    -- the second tick is evaluated against the reference price that the first has made
    h_reach.mono fun _ _ _ => trivial
  have h_second : (mcxAt 9000 7, secondRef (mcxAt 10000 5) (mcxAt 9000 7)) ∈
      references 0 (tr.map Prod.fst) := by
    rw [h_ticks]
    exact List.mem_cons_of_mem _ List.mem_cons_self
  refine ⟨tr, self, h_any, h_ticks,
    (Producing.reach h_reach).exists_signal h_second (by decide +kernel),
    (book_signals_exact_iff h_any).mpr ?_⟩
  intro tick origin book h_mem h_book
  have h_tick : tick ∈ [mcxAt 10000 5, mcxAt 9000 7] := by
    rw [← h_ticks]
    exact List.mem_map_of_mem h_mem
  rcases List.mem_pair.mp h_tick with rfl | rfl
  · obtain rfl := Option.some.inj h_book
    exact ⟨by decide, by decide, by decide⟩
  · obtain rfl := Option.some.inj h_book
    exact ⟨by decide, by decide, by decide⟩

/-- **A wrong price.** A tick at `2 ^ 32 + 9000` is cut to 9000, which is low enough for a signal to
buy, at a price nobody has quoted. -/
theorem book_signals_wrapped :
    ¬ ∀ (tr : List (Tick × Option Origin)) (self : Producer),
      (producing onePool fun _ => Capacity.two).Reach {} tr self →
      ∀ tick origin book, (tick, some origin) ∈ tr → tick.book = some book →
        book.CarriedBy origin.signal ∧ Int32 book.exactPrice ∧ Int32 book.exactQuantity := by
  intro h_all
  obtain ⟨tr, self, h_reach, h_ticks⟩ :=
    exists_producing {} [mcxAt 10000 5, mcxAt (2 ^ 32 + 9000) 7]
  have h_any : (producing onePool fun _ => Capacity.two).Reach {} tr self :=
    h_reach.mono fun _ _ _ => trivial
  -- so is the wrapped one here, and it is low enough for a signal
  have h_second : (mcxAt (2 ^ 32 + 9000) 7, secondRef (mcxAt 10000 5) (mcxAt (2 ^ 32 + 9000) 7)) ∈
      references 0 (tr.map Prod.fst) := by
    rw [h_ticks]
    exact List.mem_cons_of_mem _ List.mem_cons_self
  obtain ⟨origin, h_mem⟩ :=
    (Producing.reach h_reach).exists_signal h_second (by decide +kernel)
  exact absurd (h_all tr self h_any _ origin _ h_mem rfl).2.1 (by decide)

end Trading

end Hft
