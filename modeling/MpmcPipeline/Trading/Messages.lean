import Mathlib.Logic.Function.Iterate
import MpmcPipeline.Trading.Strategy
import MpmcPipeline.Wire.Double
import MpmcPipeline.Wire.Text

/-!
# What the stages read and build

Ticks, orders and confirms of the four venues, and the pure part of every stage: the
price a producer gives the strategy and the signal it builds, the order a consumer
builds from a signal, the confirm the gateway builds from an order.

A `Tick`, `Order` or `Confirm` is one of four records. What a stage does with the record
is written once per record, under the name of the source function it is part of.
-/

namespace Hft

namespace Trading

/-- A tick of one of the four market feeds. -/
inductive Tick
  | itch (tick : ItchAddOrder)
  | mtbt (tick : MtbtNewOrder)
  | sbe (tick : BestObRpi)
  | mcx (tick : TopOfBook)

/-- An order to one of the four venues. -/
inductive Order
  | ouch (order : OuchEnterOrder)
  | nnf (order : NnfOrderEntry)
  | sbe (order : CreateOrderReqV5)
  | mcx (order : NewOrderSingleShort)

/-- A confirm of one of the four venues. -/
inductive Confirm
  | ouch (ack : OuchOrderAccepted)
  | nnf (ack : NnfOrderConfirm)
  | sbe (ack : FastOrderResp)
  | mcx (ack : ExecutionReportNew)

/-- The message is tagged as the tick and begins with its bytes. -/
def Tick.HeldBy (msg : TaggedMessage) : Tick → Prop
  | itch tick => msg.Holds tick
  | mtbt tick => msg.Holds tick
  | sbe tick => msg.Holds tick
  | mcx tick => msg.Holds tick

instance (tick : Tick) (msg : TaggedMessage) : Decidable (tick.HeldBy msg) := by
  unfold Tick.HeldBy TaggedMessage.Holds
  cases tick <;> infer_instance

/-- `msg->kind = …; memcpy(msg->bytes.data(), &order, sizeof(order))` -/
def Order.writeTo (msg : TaggedMessage) : Order → TaggedMessage
  | ouch order => msg.fill order
  | nnf order => msg.fill order
  | sbe order => msg.fill order
  | mcx order => msg.fill order

/-- The message is tagged as the order and begins with its bytes. -/
def Order.HeldBy (msg : TaggedMessage) : Order → Prop
  | ouch order => msg.Holds order
  | nnf order => msg.Holds order
  | sbe order => msg.Holds order
  | mcx order => msg.Holds order

theorem Order.heldBy_writeTo (order : Order) (msg : TaggedMessage) :
    order.HeldBy (order.writeTo msg) := by
  cases order <;> exact TaggedMessage.holds_fill msg _

/-- `pending->kind = …; memcpy(pending->bytes.data(), &ack, sizeof(ack))` -/
def Confirm.writeTo (msg : TaggedMessage) : Confirm → TaggedMessage
  | ouch ack => msg.fill ack
  | nnf ack => msg.fill ack
  | sbe ack => msg.fill ack
  | mcx ack => msg.fill ack

/-- The message is tagged as the confirm and begins with its bytes. -/
def Confirm.HeldBy (msg : TaggedMessage) : Confirm → Prop
  | ouch ack => msg.Holds ack
  | nnf ack => msg.Holds ack
  | sbe ack => msg.Holds ack
  | mcx ack => msg.Holds ack

theorem Confirm.heldBy_writeTo (ack : Confirm) (msg : TaggedMessage) :
    ack.HeldBy (ack.writeTo msg) := by
  cases ack <;> exact TaggedMessage.holds_fill msg _

/-! ### Producers -/

/-- `sbe::apply_exponent`: the mantissa is multiplied, or divided, by ten as often as the
exponent says. -/
def applyExponent (mantissa : BitVec 64) (exponent : BitVec 8) : BitVec 64 :=
  if exponent.toInt = 0 then mantissa
  else if 0 < exponent.toInt then (fun scaled => scaled * 10)^[exponent.toInt.toNat] mantissa
  else (fun scaled => scaled.sdiv 10)^[(-exponent.toInt).toNat] mantissa

/-- The price an `on_tick` gives the strategy. -/
def Tick.price : Tick → BitVec 32
  | itch tick => tick.price
  | mtbt tick => tick.price
  | sbe tick =>
    (applyExponent ((tick.body.bidNormalPrice + tick.body.askNormalPrice).sdiv 2)
      tick.body.priceExponent).setWidth 32
  | mcx tick => ((tick.bidPrice + tick.askPrice).sdiv 2).setWidth 32

/-- The first `len` bytes of an array, copied into a zeroed array of ten. -/
def symbolPrefix {n : ℕ} (symbol : Chars n) (len : ℕ) : Chars 10 := fun i =>
  if h : i.val < n then if i.val < len then symbol ⟨i, h⟩ else 0 else 0

/-- An array as memory, for the string functions. -/
def Chars.memory {n : ℕ} (symbol : Chars n) (k : ℕ) : Byte :=
  if h : k < n then symbol ⟨k, h⟩ else 0

/-- The signal of `ItchProducer::on_tick`. -/
def itchSignal (tick : ItchAddOrder) (side : Side) (token : BitVec 32) : StrategySignal :=
  { feed := .itch, side, price := tick.price, quantity := tick.shares, orderToken := token,
    stock := tick.stock }

/-- The signal of `MtbtProducer::on_tick`; the symbol is `snprintf("TKN%d")`, which
writes at most nine characters. -/
def mtbtSignal (tick : MtbtNewOrder) (side : Side) (token : BitVec 32) : StrategySignal :=
  { feed := .mtbt, side, price := tick.price, quantity := tick.quantity, orderToken := token,
    token := tick.token,
    symbol := Text.ofList ((0x54 :: 0x4B :: 0x4E :: Text.signedDecimal tick.token.toInt).take 9),
    series := Text.ofList [0x45, 0x51] }

/-- The signal of `SbeBboProducer::on_tick`. -/
def sbeSignal (tick : BestObRpi) (side : Side) (token : BitVec 32) : StrategySignal :=
  { feed := .sbeMarket, side, price := (Tick.sbe tick).price,
    quantity := (applyExponent tick.body.bidNormalSize tick.body.sizeExponent).setWidth 32,
    orderToken := token, token := tick.body.u.setWidth 32,
    symbol := symbolPrefix tick.symbol (min tick.symbolLen.toNat 9) }

/-- The signal of `McxTobProducer::on_tick`. -/
def mcxSignal (tick : TopOfBook) (side : Side) (token : BitVec 32) : StrategySignal :=
  { feed := .mcxMarket, side, price := (Tick.mcx tick).price,
    quantity := tick.bidQty.setWidth 32, orderToken := token, token := tick.simpleSecurityId,
    symbol := symbolPrefix tick.symbol (min 9 (Text.strnlen (Chars.memory tick.symbol) 12)) }

/-- The signal an `on_tick` builds. -/
def Tick.signal (side : Side) (token : BitVec 32) : Tick → StrategySignal
  | itch tick => itchSignal tick side token
  | mtbt tick => mtbtSignal tick side token
  | sbe tick => sbeSignal tick side token
  | mcx tick => mcxSignal tick side token

/-- The kind of the message a tick comes in, and the `feed` of its signal. -/
def Tick.kind : Tick → Kind
  | itch _ => .itch
  | mtbt _ => .mtbt
  | sbe _ => .sbeMarket
  | mcx _ => .mcxMarket

/-- A message holds one tick. -/
theorem Tick.HeldBy.unique {msg : TaggedMessage} {tick tick' : Tick} (h : tick.HeldBy msg)
    (h' : tick'.HeldBy msg) : tick = tick' := by
  -- two ticks of one feed are read from the same bytes, two feeds have different kinds
  cases tick <;> cases tick'
  all_goals first
    | exact congrArg _ (h.2.symm.trans h'.2)
    | exact absurd (h.1.symm.trans h'.1) (by decide)

theorem Tick.HeldBy.kind_eq {msg : TaggedMessage} {tick : Tick} (h : tick.HeldBy msg) :
    msg.kind = tick.kind := by
  cases tick <;> exact h.1

@[simp] theorem Tick.signal_feed (tick : Tick) (side : Side) (token : BitVec 32) :
    (tick.signal side token).feed = tick.kind := by
  cases tick <;> rfl

@[simp] theorem Tick.signal_side (tick : Tick) (side : Side) (token : BitVec 32) :
    (tick.signal side token).side = side := by
  cases tick <;> rfl

/-! ### Consumers -/

/-- The order of `OuchConsumer::poll_once`. -/
def ouchOrder (signal : StrategySignal) : OuchEnterOrder :=
  { orderToken := signal.orderToken,
    buySellIndicator := if signal.side = .buy then 0x42 else 0x53,
    shares := signal.quantity, price := signal.price, timeInForce := 0, stock := signal.stock }

/-- The order of `NnfConsumer::poll_once`. -/
def nnfOrder (traderId : BitVec 32) (signal : StrategySignal) : NnfOrderEntry :=
  { traderId, buySell := if signal.side = .buy then 1 else 2, volume := signal.quantity,
    price := signal.price, bookType := 1,
    secInfo := { symbol := signal.symbol, series := signal.series },
    transactionId := if signal.token ≠ 0 then signal.token else 0 }

/-- The order of `SbeOrderEntryConsumer::poll_once`; the link id is `snprintf("lnk%u")`. -/
def sbeOrder (symbolId : BitVec 64) (signal : StrategySignal) : CreateOrderReqV5 :=
  { category := 1, symbolId, side := if signal.side = .buy then 1 else 2, orderType := 2,
    qty := { mantissa := signal.quantity.signExtend 64 },
    price := { mantissa := signal.price.signExtend 64 }, timeInForce := 1,
    orderLinkId := Text.ofList (0x6C :: 0x6E :: 0x6B :: Text.decimal signal.orderToken.toNat) }

/-- The order of `McxOrderConsumer::poll_once`. -/
def mcxOrder (seq senderSubId simpleSecurityId : BitVec 32) (signal : StrategySignal) :
    NewOrderSingleShort :=
  { msgSeqNum := seq, senderSubId, price := signal.price.signExtend 64,
    clOrdId := signal.orderToken.setWidth 64, orderQty := signal.quantity.signExtend 64,
    disclosedQty := signal.quantity.signExtend 64, simpleSecurityId,
    side := if signal.side = .buy then 1 else 2, timeInForce := 0,
    strategyTriggerSeqNo := signal.orderToken.setWidth 64,
    freeText1 := fun i =>
      if i.val < min 11 (Text.strnlen (Chars.memory signal.symbol) 10)
      then Chars.memory signal.symbol i else 0 }

/-! ### The gateway -/

/-- `detail::format_ouch_token`: `snprintf("%u")` into `tmp`, copied to the end of an
array of zero characters. -/
def formatOuchToken (token : BitVec 32) : Chars 14 :=
  let tmp : Chars 16 := Text.ofList ((Text.decimal token.toNat).take 15)
  let len := Text.strnlen (Chars.memory tmp) 16
  let offset := if 14 ≤ len then 0 else 14 - len
  fun i => if i.val < offset then 0x30
    else if i.val - offset < min len 14 then Chars.memory tmp (i.val - offset) else 0x30

/-- `detail::make_ouch_confirm` -/
def makeOuchConfirm (req : OuchEnterOrder) (orderRef : BitVec 64) : OuchOrderAccepted :=
  { orderToken := formatOuchToken req.orderToken, buySellIndicator := req.buySellIndicator,
    shares := req.shares, stock := req.stock, price := req.price,
    timeInForce := req.timeInForce, orderReferenceNumber := orderRef, orderState := 0x41 }

/-- `detail::make_nnf_confirm` -/
def makeNnfConfirm (req : NnfOrderEntry) (orderNumber : BitVec 64) : NnfOrderConfirm :=
  { reasonCode := 0, token := req.transactionId, orderNumber, bookType := req.bookType,
    buySell := req.buySell, disclosedVol := req.disclosedVol,
    disclosedVolRemaining := req.disclosedVol, totalVolRemaining := req.volume,
    volume := req.volume, price := req.price, orderFlags := req.orderFlags,
    traderId := req.traderId }

/-- `detail::make_sbe_fast_confirm`; the order id is `exch-oid`. -/
def makeSbeFastConfirm (req : CreateOrderReqV5) (seq : BitVec 64) : FastOrderResp :=
  let linkLen := min (Text.strnlen (Chars.memory req.orderLinkId) 64) 32
  { body :=
      { category := req.category, side := req.side, orderStatus := 1,
        priceExponent := req.price.exponent, sizeExponent := req.qty.exponent,
        price := req.price.mantissa, leavesQty := req.qty.mantissa,
        symbolId := req.symbolId.setWidth 32, seq },
    orderLinkIdLen := BitVec.ofNat 8 linkLen,
    orderLinkId := fun i => if i.val < linkLen then Chars.memory req.orderLinkId i else 0,
    orderIdLen := 8,
    orderId := Text.ofList [0x65, 0x78, 0x63, 0x68, 0x2D, 0x6F, 0x69, 0x64] }

/-- `detail::make_mcx_confirm` -/
def makeMcxConfirm (req : NewOrderSingleShort) (orderId execId : BitVec 64) :
    ExecutionReportNew :=
  { msgSeqNum := req.msgSeqNum, orderId, clOrdId := req.clOrdId,
    simpleSecurityId := req.simpleSecurityId.setWidth 64, execId, ordStatus := 0x30,
    execType := 0x30, execRestatementReason := 101 }

/-- A text that fits is in memory, followed by zeros. -/
theorem Chars.memory_ofList {n : ℕ} {text : List Byte} (h : text.length ≤ n) :
    Chars.memory (Text.ofList text : Chars n) = fun k => text.getD k 0 := by
  funext k
  rw [Chars.memory]
  split
  · rfl
  · exact (List.getD_eq_default _ _ (by omega)).symm

/-- The token text is the zero-padded decimal numeral of the token. -/
theorem formatOuchToken_eq (token : BitVec 32) :
    formatOuchToken token = Text.zeroPadded 14 token.toNat := by
  -- ten digits at most: nothing is cut, neither by `tmp` nor by the array of fourteen
  have h_len : (Text.decimal token.toNat).length ≤ 10 :=
    Text.decimal_length_le (lt_trans token.isLt (by norm_num)) (by norm_num)
  have h_tmp : Chars.memory (Text.ofList ((Text.decimal token.toNat).take 15) : Chars 16) =
      fun k => (Text.decimal token.toNat).getD k 0 := by
    rw [List.take_of_length_le (by omega), Chars.memory_ofList (by omega)]
  have h_strlen : Text.strnlen (Chars.memory
      (Text.ofList ((Text.decimal token.toNat).take 15) : Chars 16)) 16 =
      (Text.decimal token.toNat).length := by
    rw [h_tmp]
    exact Text.strnlen_getD (Text.decimal_ne_zero _) (by omega)
  funext i
  have h_i := i.isLt
  rw [← Text.padded_decimal (by omega) i]
  simp only [formatOuchToken, h_strlen, if_neg (by omega : ¬14 ≤ (Text.decimal token.toNat).length)]
  split
  · rfl
  · rw [if_pos (by omega)]
    exact congrFun h_tmp _

end Trading

end Hft
