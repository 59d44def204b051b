import MpmcPipeline.Proto.Layouts

/-!
# The strategy

`update_ref_price` moves a reference price an eighth of the way to the latest price and
`evaluate` compares the price with a band around the reference (`strategy.hpp`). Both
compute with 32-bit integers: bit vectors, whose sum, difference and product wrap, whose
division truncates, and which are compared as two's complement numbers.

A signal travels in a message: `encode_signal` copies it in and `decode_signal` copies it
out, giving the default signal for a message of another kind.
-/

namespace Hft

namespace Strategy

/-- `kDefaultBandBps` -/
def defaultBandBps : BitVec 32 := 10

/-- `update_ref_price` -/
def updateRefPrice (ref price : BitVec 32) : BitVec 32 :=
  -- the first price is the reference
  if ref = 0 then price else ref + (price - ref).sdiv 8

/-- `evaluate` -/
def evaluate (ref price bandBps : BitVec 32) : Side :=
  if ref.sle 0 || price.sle 0 then .none
  else
    let band := (ref * bandBps).sdiv 10000
    -- too low a reference has no band, and no side
    if band.sle 0 then .none
    else if price.sle (ref - band) then .buy
    else if (ref + band).sle price then .sell
    else .none

/-- `evaluate` returns an enumerator. -/
theorem evaluate_named (ref price bandBps : BitVec 32) :
    evaluate ref price bandBps = .none ∨ evaluate ref price bandBps = .buy ∨
      evaluate ref price bandBps = .sell := by
  unfold evaluate
  -- no reference or price, no band, below it, above it, within
  split
  · exact Or.inl rfl
  · dsimp only
    split
    · exact Or.inl rfl
    · split
      · exact Or.inr (Or.inl rfl)
      · split
        · exact Or.inr (Or.inr rfl)
        · exact Or.inl rfl

/-- Only a positive price has a side. -/
theorem price_pos_of_evaluate {ref price bandBps : BitVec 32}
    (h : evaluate ref price bandBps ≠ .none) : 0 < price.toInt := by
  by_contra h_price
  have h_sle : price.sle 0 = true := BitVec.sle_iff_toInt_le.mpr (not_lt.mp h_price)
  exact h (by rw [evaluate, h_sle, Bool.or_true, if_pos rfl])

/-- `encode_signal` -/
def encodeSignal (signal : StrategySignal) (out : TaggedMessage) : TaggedMessage :=
  out.write StrategySignal.codec .signal signal

/-- `decode_signal` -/
def decodeSignal (msg : TaggedMessage) : StrategySignal :=
  if msg.kind = .signal then msg.read StrategySignal.codec else {}

@[simp] theorem encodeSignal_kind (signal : StrategySignal) (out : TaggedMessage) :
    (encodeSignal signal out).kind = .signal := rfl

/-- A signal is decoded as it was encoded. -/
@[simp] theorem decodeSignal_encodeSignal (signal : StrategySignal) (out : TaggedMessage) :
    decodeSignal (encodeSignal signal out) = signal := by
  rw [decodeSignal, if_pos (encodeSignal_kind signal out)]
  exact TaggedMessage.read_write (by decide) _ signal out

end Strategy

end Hft
