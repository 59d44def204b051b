import MpmcPipeline.Trading.Identity
import MpmcPipeline.Trading.Scaling

/-!
# What a confirm repeats of its order

The layout of a fast order response is narrower than that of a request: its symbol id has 32
bits and not 64, its order link id 32 characters and not 64. `make_sbe_fast_confirm` copies
what fits: the low bits of the one, the first characters of the other. Everything else it
repeats is as wide as in the request.

An OUCH confirm shows the order token, a 32-bit number in the order, as a text of fourteen
digits. `format_ouch_token` writes the numeral over the end of a field of zeros, and that is
the token in base ten (`ouch_token_faithful`): no token is so long that `snprintf` or the
field would cut it.
-/

namespace Hft

namespace Trading

/-- Price, quantity, exponents, side and category of the request. -/
structure FastOrderResp.Repeats (ack : FastOrderResp) (req : CreateOrderReqV5) : Prop where
  price : ack.body.price = req.price.mantissa
  priceExponent : ack.body.priceExponent = req.price.exponent
  leavesQty : ack.body.leavesQty = req.qty.mantissa
  sizeExponent : ack.body.sizeExponent = req.qty.exponent
  side : ack.body.side = req.side
  category : ack.body.category = req.category

/-- **Confirms and requests.** A fast order response repeats price, quantity, exponents, side
and category. Its symbol id is that of the request cut to 32 bits, which is the same number if
and only if it fits; its link id is the first 32 characters of that of the request, which is
all of it if and only if it fits. So two requests get one link id if and only if theirs begin
with the same 32 characters. -/
theorem makeSbeFastConfirm_repeats (req req' : CreateOrderReqV5) (seq seq' : BitVec 64) :
    FastOrderResp.Repeats (makeSbeFastConfirm req seq) req ∧
    (makeSbeFastConfirm req seq).body.symbolId = req.symbolId.setWidth 32 ∧
    ((makeSbeFastConfirm req seq).body.symbolId.toInt = req.symbolId.toInt ↔
      Strategy.Int32 req.symbolId.toInt) ∧
    linkId (makeSbeFastConfirm req seq) = (linkText req).take 32 ∧
    (linkId (makeSbeFastConfirm req seq) = linkText req ↔ (linkText req).length ≤ 32) ∧
    (linkId (makeSbeFastConfirm req seq) = linkId (makeSbeFastConfirm req' seq') ↔
      (linkText req).take 32 = (linkText req').take 32) := by
  have h_symbol := Strategy.toInt_setWidth_eq_iff (v := req.symbolId.toInt)
  rw [BitVec.ofInt_toInt] at h_symbol
  -- what is as wide as in the request is copied; the link ids are texts that have been cut
  refine ⟨⟨rfl, rfl, rfl, rfl, rfl, rfl⟩, rfl, h_symbol, linkId_makeSbeFastConfirm req seq, ?_, ?_⟩
  · rw [linkId_makeSbeFastConfirm, List.take_eq_self_iff]
  · rw [linkId_makeSbeFastConfirm, linkId_makeSbeFastConfirm]

/-- A request with a symbol id of 33 bits and a link id of 40 characters, all of them this one
but the last. -/
def longRequest (last : Byte) : CreateOrderReqV5 where
  symbolId := 0x100000005
  orderLinkId := Text.ofList (List.replicate 39 0x61 ++ [last])

/-- **What does not fit.** The symbol id becomes 5, the link id is cut, and the link id of another
request is cut to the same, so the client cannot tell the two confirms by it. -/
theorem makeSbeFastConfirm_cuts :
    (¬ ∀ req seq, (makeSbeFastConfirm req seq).body.symbolId.toInt = req.symbolId.toInt) ∧
    (¬ ∀ req seq, linkId (makeSbeFastConfirm req seq) = linkText req) ∧
    ¬ ∀ req req' seq seq', linkText req ≠ linkText req' →
      linkId (makeSbeFastConfirm req seq) ≠ linkId (makeSbeFastConfirm req' seq') := by
  refine ⟨fun h_all => ?_, fun h_all => ?_, fun h_all => ?_⟩
  · exact absurd (h_all (longRequest 0x62) 0) (by decide +kernel)
  · exact absurd (h_all (longRequest 0x62) 0) (by decide +kernel)
  · exact h_all (longRequest 0x62) (longRequest 0x63) 0 0 (by decide +kernel) (by decide +kernel)

/-! ### The token of an OUCH confirm -/

theorem isDigit_of_mem_formatOuchToken (token : BitVec 32) :
    ∀ c ∈ List.ofFn (formatOuchToken token), Text.IsDigit c := by
  intro c h_c
  obtain ⟨i, rfl⟩ := List.mem_ofFn.mp h_c
  rw [formatOuchToken_eq]
  exact Text.isDigit_zeroPadded 14 token.toNat i

theorem value_formatOuchToken (token : BitVec 32) :
    Text.value (List.ofFn (formatOuchToken token)) = token.toNat := by
  rw [formatOuchToken_eq, Text.value_zeroPadded]
  exact Nat.mod_eq_of_lt (lt_trans token.isLt (by norm_num))

/-- **The token text is faithful.** All fourteen characters are digits, and they spell the
token, in the confirm as well; so distinct tokens have distinct texts, and the texts are
ordered, byte by byte, as the tokens are. -/
theorem ouch_token_faithful :
    (∀ token : BitVec 32, (∀ i, Text.IsDigit (formatOuchToken token i)) ∧
      Text.value (List.ofFn (formatOuchToken token)) = token.toNat) ∧
    (∀ (req : OuchEnterOrder) (orderRef : BitVec 64),
      Text.value (List.ofFn (makeOuchConfirm req orderRef).orderToken) = req.orderToken.toNat) ∧
    Function.Injective formatOuchToken ∧
    ∀ token token' : BitVec 32, token < token' ↔
      List.ofFn (formatOuchToken token) < List.ofFn (formatOuchToken token') := by
  refine ⟨fun token => ⟨fun i => ?_, value_formatOuchToken token⟩,
    fun req orderRef => value_formatOuchToken req.orderToken, ?_, ?_⟩
  · exact isDigit_of_mem_formatOuchToken token _ (List.mem_ofFn.mpr ⟨i, rfl⟩)
  · -- equal texts spell one number
    intro token token' h
    apply BitVec.eq_of_toNat_eq
    rw [← value_formatOuchToken, ← value_formatOuchToken, h]
  · intro token token'
    rw [BitVec.lt_def, ← value_formatOuchToken token, ← value_formatOuchToken token']
    apply Text.value_lt_iff
    · rw [List.length_ofFn, List.length_ofFn]
    · exact isDigit_of_mem_formatOuchToken token
    · exact isDigit_of_mem_formatOuchToken token'

end Trading

end Hft
