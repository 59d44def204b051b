import MpmcPipeline.Proto.Message
import MpmcPipeline.Wire.Codec

/-!
# The records of the wire and of the slots

The packed records of `protocols.hpp`, `sbe/` and `mcx/` with their field defaults. A
record goes into a message by `memcpy` and comes back by `memcpy`, so each has a `Codec`
(its bytes, little-endian, in field order) and `TaggedMessage.write` and
`TaggedMessage.read` are the two copies; what is read is what was written
(`read_write`), and a write touches the bytes of the record only (`write_bytes_of_le`).

Signed and unsigned integers are bit vectors of their width, a `double` is its eight
bytes, an SBE or MCX enumeration is its underlying byte. `TopOfBook` is not packed: the
bytes of its two alignment gaps are fields, because `memcpy` copies them.
`WireMessage` is the concept of that name: a record with its `kind_of`, whose size is
the `slot_size` of that kind.
-/

namespace Hft

/-- `char[n]` -/
abbrev Chars (n : ℕ) := Fin n → Byte

/-- Zero-initialized. -/
def Chars.zero {n : ℕ} : Chars n := fun _ => 0

/-- The first bytes of a list, then zeros. -/
def Chars.ofList {n : ℕ} (l : List Byte) : Chars n := fun i => l.getD i 0

/-- The two's complement values that are no enumerator of `Side`. -/
abbrev UnnamedSide := { v : BitVec 16 // v ≠ 0 ∧ v ≠ 1 ∧ v ≠ -1 }

/-- `enum class Side : std::int16_t` -/
inductive Side
  | none
  | buy
  | sell
  | unnamed (v : UnnamedSide)
  deriving DecidableEq

namespace Side

/-- The underlying value. -/
def toInt16 : Side → BitVec 16
  | none => 0
  | buy => 1
  | sell => -1
  | unnamed v => v.val

/-- The enumeration value of an `std::int16_t`. -/
def ofInt16 (v : BitVec 16) : Side :=
  if h : v ≠ 0 ∧ v ≠ 1 ∧ v ≠ -1 then unnamed ⟨v, h⟩
  else if v = 0 then none
  else if v = 1 then buy
  else sell

@[simp] theorem ofInt16_toInt16 (side : Side) : ofInt16 side.toInt16 = side := by
  cases side with
  | unnamed v => exact dif_pos v.property
  | _ => decide

@[simp] theorem toInt16_ofInt16 (v : BitVec 16) : (ofInt16 v).toInt16 = v := by
  unfold ofInt16
  split
  · rfl
  · next h =>
    split
    · next h_zero => exact h_zero.symm
    · next h_zero =>
      split
      · next h_one => exact h_one.symm
      · next h_one =>
        by_contra h_sell
        exact h ⟨h_zero, h_one, fun h_eq => h_sell h_eq.symm⟩

/-- A field of type `Side`. -/
def codec : Codec Side :=
  Codec.u16.map
    { toFun := ofInt16
      invFun := toInt16
      left_inv := toInt16_ofInt16
      right_inv := ofInt16_toInt16 }

end Side

/-- A field of type `Kind`. -/
def Kind.codec : Codec Kind :=
  Codec.u8.map
    { toFun := Kind.ofByte
      invFun := Kind.toByte
      left_inv := Kind.toByte_ofByte
      right_inv := Kind.ofByte_toByte }

/-! ### ITCH and OUCH -/

/-- NASDAQ ITCH 5.0, Add Order, message type `A`. -/
structure ItchAddOrder where
  messageType : Byte := 0x41
  stockLocate : BitVec 16 := 0
  trackingNumber : BitVec 16 := 0
  timestamp : Chars 6 := Chars.zero
  orderReferenceNumber : BitVec 64 := 0
  side : Byte := 0
  shares : BitVec 32 := 0
  stock : Chars 8 := Chars.zero
  price : BitVec 32 := 0
  deriving DecidableEq

/-- The bytes of `ItchAddOrder`. -/
def ItchAddOrder.codec : Codec ItchAddOrder :=
  open Codec in
  (u8.prod <| u16.prod <| u16.prod <| (chars 6).prod <| u64.prod <| u8.prod <| u32.prod <|
    (chars 8).prod <| u32).map
    { toFun := fun ⟨messageType, stockLocate, trackingNumber, timestamp, orderReferenceNumber,
        side, shares, stock, price⟩ => ⟨messageType, stockLocate, trackingNumber, timestamp,
        orderReferenceNumber, side, shares, stock, price⟩
      invFun := fun x => (x.messageType, x.stockLocate, x.trackingNumber, x.timestamp,
        x.orderReferenceNumber, x.side, x.shares, x.stock, x.price)
      left_inv := fun _ => rfl
      right_inv := fun _ => rfl }

/-- NASDAQ OUCH 4.2, Enter Order, message type `O`. -/
structure OuchEnterOrder where
  messageType : Byte := 0x4F
  orderToken : BitVec 32 := 0
  buySellIndicator : Byte := 0
  shares : BitVec 32 := 0
  stock : Chars 8 := Chars.zero
  price : BitVec 32 := 0
  timeInForce : BitVec 32 := 0
  firm : Chars 4 := Chars.zero
  display : Byte := 0
  customerInformation : BitVec 32 := 0
  attribs : Byte := 0
  orderState : Byte := 0
  locates : Chars 6 := Chars.zero
  reserved : Chars 2 := Chars.zero

/-- The bytes of `OuchEnterOrder`. -/
def OuchEnterOrder.codec : Codec OuchEnterOrder :=
  open Codec in
  (u8.prod <| u32.prod <| u8.prod <| u32.prod <| (chars 8).prod <| u32.prod <| u32.prod <|
    (chars 4).prod <| u8.prod <| u32.prod <| u8.prod <| u8.prod <| (chars 6).prod <| (chars
    2)).map
    { toFun := fun ⟨messageType, orderToken, buySellIndicator, shares, stock, price,
        timeInForce, firm, display, customerInformation, attribs, orderState, locates, reserved⟩
        => ⟨messageType, orderToken, buySellIndicator, shares, stock, price, timeInForce, firm,
        display, customerInformation, attribs, orderState, locates, reserved⟩
      invFun := fun x => (x.messageType, x.orderToken, x.buySellIndicator, x.shares, x.stock,
        x.price, x.timeInForce, x.firm, x.display, x.customerInformation, x.attribs, x.orderState,
        x.locates, x.reserved)
      left_inv := fun _ => rfl
      right_inv := fun _ => rfl }

/-- NASDAQ OUCH 4.2, Accepted, message type `A`. -/
structure OuchOrderAccepted where
  messageType : Byte := 0x41
  timestamp : BitVec 64 := 0
  orderToken : Chars 14 := Chars.zero
  buySellIndicator : Byte := 0
  shares : BitVec 32 := 0
  stock : Chars 8 := Chars.zero
  price : BitVec 32 := 0
  timeInForce : BitVec 32 := 0
  firm : Chars 4 := Chars.zero
  display : Byte := 0
  orderReferenceNumber : BitVec 64 := 0
  capacity : Byte := 0
  intermarketSweepEligibility : Byte := 0
  minimumQuantity : BitVec 32 := 0
  crossType : Byte := 0
  orderState : Byte := 0
  bboWeightIndicator : Byte := 0

/-- The bytes of `OuchOrderAccepted`. -/
def OuchOrderAccepted.codec : Codec OuchOrderAccepted :=
  open Codec in
  (u8.prod <| u64.prod <| (chars 14).prod <| u8.prod <| u32.prod <| (chars 8).prod <| u32.prod
    <| u32.prod <| (chars 4).prod <| u8.prod <| u64.prod <| u8.prod <| u8.prod <| u32.prod <|
    u8.prod <| u8.prod <| u8).map
    { toFun := fun ⟨messageType, timestamp, orderToken, buySellIndicator, shares, stock, price,
        timeInForce, firm, display, orderReferenceNumber, capacity, intermarketSweepEligibility,
        minimumQuantity, crossType, orderState, bboWeightIndicator⟩ => ⟨messageType, timestamp,
        orderToken, buySellIndicator, shares, stock, price, timeInForce, firm, display,
        orderReferenceNumber, capacity, intermarketSweepEligibility, minimumQuantity, crossType,
        orderState, bboWeightIndicator⟩
      invFun := fun x => (x.messageType, x.timestamp, x.orderToken, x.buySellIndicator,
        x.shares, x.stock, x.price, x.timeInForce, x.firm, x.display, x.orderReferenceNumber,
        x.capacity, x.intermarketSweepEligibility, x.minimumQuantity, x.crossType, x.orderState,
        x.bboWeightIndicator)
      left_inv := fun _ => rfl
      right_inv := fun _ => rfl }

/-! ### MTBT and NNF -/

/-- The header of an MTBT packet. -/
structure MtbtStreamHeader where
  msgLen : BitVec 16 := 0
  streamId : BitVec 16 := 0
  seqNo : BitVec 32 := 0

/-- The bytes of `MtbtStreamHeader`. -/
def MtbtStreamHeader.codec : Codec MtbtStreamHeader :=
  open Codec in
  (u16.prod <| u16.prod <| u32).map
    { toFun := fun ⟨msgLen, streamId, seqNo⟩ => ⟨msgLen, streamId, seqNo⟩
      invFun := fun x => (x.msgLen, x.streamId, x.seqNo)
      left_inv := fun _ => rfl
      right_inv := fun _ => rfl }

/-- The body of an MTBT packet. -/
structure MtbtNewOrder where
  messageType : Byte := 0x4E
  timestamp : BitVec 32 := 0
  orderId : BitVec 64 := 0
  token : BitVec 32 := 0
  orderType : Byte := 0
  price : BitVec 32 := 0
  quantity : BitVec 32 := 0
  deriving DecidableEq

/-- The bytes of `MtbtNewOrder`. -/
def MtbtNewOrder.codec : Codec MtbtNewOrder :=
  open Codec in
  (u8.prod <| u32.prod <| u64.prod <| u32.prod <| u8.prod <| u32.prod <| u32).map
    { toFun := fun ⟨messageType, timestamp, orderId, token, orderType, price, quantity⟩ =>
        ⟨messageType, timestamp, orderId, token, orderType, price, quantity⟩
      invFun := fun x => (x.messageType, x.timestamp, x.orderId, x.token, x.orderType, x.price,
        x.quantity)
      left_inv := fun _ => rfl
      right_inv := fun _ => rfl }

/-- The security of an NNF order. -/
structure NnfSecInfo where
  symbol : Chars 10 := Chars.zero
  series : Chars 2 := Chars.zero

/-- The bytes of `NnfSecInfo`. -/
def NnfSecInfo.codec : Codec NnfSecInfo :=
  open Codec in
  ((chars 10).prod <| (chars 2)).map
    { toFun := fun ⟨symbol, series⟩ => ⟨symbol, series⟩
      invFun := fun x => (x.symbol, x.series)
      left_inv := fun _ => rfl
      right_inv := fun _ => rfl }

/-- NNF order entry; the transcode is `kTranscodeBoardLotInTr`. -/
structure NnfOrderEntry where
  transcode : BitVec 16 := 20000
  traderId : BitVec 32 := 0
  secInfo : NnfSecInfo := {}
  accountNumber : Chars 10 := Chars.zero
  bookType : BitVec 16 := 0
  buySell : BitVec 16 := 0
  disclosedVol : BitVec 32 := 0
  volume : BitVec 32 := 0
  price : BitVec 32 := 0
  goodTillDate : BitVec 32 := 0
  orderFlags : BitVec 16 := 0
  branchId : BitVec 16 := 0
  userId : BitVec 32 := 0
  brokerId : Chars 5 := Chars.zero
  suspended : Byte := 0
  settlor : Chars 12 := Chars.zero
  proClient : BitVec 16 := 0
  nnfField : BitVec 64 := 0
  transactionId : BitVec 32 := 0
  pan : Chars 10 := Chars.zero
  algoId : BitVec 32 := 0
  reservedFiller : BitVec 16 := 0
  reserved : Chars 32 := Chars.zero

/-- The bytes of `NnfOrderEntry`. -/
def NnfOrderEntry.codec : Codec NnfOrderEntry :=
  open Codec in
  (u16.prod <| u32.prod <| NnfSecInfo.codec.prod <| (chars 10).prod <| u16.prod <| u16.prod <|
    u32.prod <| u32.prod <| u32.prod <| u32.prod <| u16.prod <| u16.prod <| u32.prod <| (chars
    5).prod <| u8.prod <| (chars 12).prod <| u16.prod <| u64.prod <| u32.prod <| (chars 10).prod
    <| u32.prod <| u16.prod <| (chars 32)).map
    { toFun := fun ⟨transcode, traderId, secInfo, accountNumber, bookType, buySell,
        disclosedVol, volume, price, goodTillDate, orderFlags, branchId, userId, brokerId,
        suspended, settlor, proClient, nnfField, transactionId, pan, algoId, reservedFiller,
        reserved⟩ => ⟨transcode, traderId, secInfo, accountNumber, bookType, buySell,
        disclosedVol, volume, price, goodTillDate, orderFlags, branchId, userId, brokerId,
        suspended, settlor, proClient, nnfField, transactionId, pan, algoId, reservedFiller,
        reserved⟩
      invFun := fun x => (x.transcode, x.traderId, x.secInfo, x.accountNumber, x.bookType,
        x.buySell, x.disclosedVol, x.volume, x.price, x.goodTillDate, x.orderFlags, x.branchId,
        x.userId, x.brokerId, x.suspended, x.settlor, x.proClient, x.nnfField, x.transactionId,
        x.pan, x.algoId, x.reservedFiller, x.reserved)
      left_inv := fun _ => rfl
      right_inv := fun _ => rfl }

/-- NNF order confirmation; the transcode is `kTranscodeOrderConfirmation`. -/
structure NnfOrderConfirm where
  transcode : BitVec 16 := 2073
  reasonCode : BitVec 16 := 0
  token : BitVec 32 := 0
  orderNumber : BitVec 64 := 0
  bookType : BitVec 16 := 0
  buySell : BitVec 16 := 0
  disclosedVol : BitVec 32 := 0
  disclosedVolRemaining : BitVec 32 := 0
  totalVolRemaining : BitVec 32 := 0
  volume : BitVec 32 := 0
  price : BitVec 32 := 0
  triggerPrice : BitVec 32 := 0
  orderFlags : BitVec 16 := 0
  traderId : BitVec 32 := 0
  nnfField : BitVec 64 := 0
  algoId : BitVec 32 := 0
  activityTimeNanos : BitVec 64 := 0
  competitorPeriod : BitVec 16 := 0
  solicitorPeriod : BitVec 16 := 0
  auctionNumber : BitVec 16 := 0
  suspended : Byte := 0
  filler : Byte := 0
  pan : Chars 10 := Chars.zero
  segment : Byte := 0
  reserved : Chars 11 := Chars.zero

/-- The bytes of `NnfOrderConfirm`. -/
def NnfOrderConfirm.codec : Codec NnfOrderConfirm :=
  open Codec in
  (u16.prod <| u16.prod <| u32.prod <| u64.prod <| u16.prod <| u16.prod <| u32.prod <| u32.prod
    <| u32.prod <| u32.prod <| u32.prod <| u32.prod <| u16.prod <| u32.prod <| u64.prod <|
    u32.prod <| u64.prod <| u16.prod <| u16.prod <| u16.prod <| u8.prod <| u8.prod <| (chars
    10).prod <| u8.prod <| (chars 11)).map
    { toFun := fun ⟨transcode, reasonCode, token, orderNumber, bookType, buySell, disclosedVol,
        disclosedVolRemaining, totalVolRemaining, volume, price, triggerPrice, orderFlags,
        traderId, nnfField, algoId, activityTimeNanos, competitorPeriod, solicitorPeriod,
        auctionNumber, suspended, filler, pan, segment, reserved⟩ => ⟨transcode, reasonCode,
        token, orderNumber, bookType, buySell, disclosedVol, disclosedVolRemaining,
        totalVolRemaining, volume, price, triggerPrice, orderFlags, traderId, nnfField, algoId,
        activityTimeNanos, competitorPeriod, solicitorPeriod, auctionNumber, suspended, filler,
        pan, segment, reserved⟩
      invFun := fun x => (x.transcode, x.reasonCode, x.token, x.orderNumber, x.bookType,
        x.buySell, x.disclosedVol, x.disclosedVolRemaining, x.totalVolRemaining, x.volume,
        x.price, x.triggerPrice, x.orderFlags, x.traderId, x.nnfField, x.algoId,
        x.activityTimeNanos, x.competitorPeriod, x.solicitorPeriod, x.auctionNumber, x.suspended,
        x.filler, x.pan, x.segment, x.reserved)
      left_inv := fun _ => rfl
      right_inv := fun _ => rfl }

/-! ### Signals -/

/-- A signal of the strategy. -/
structure StrategySignal where
  feed : Kind := .itch
  side : Side := .none
  price : BitVec 32 := 0
  quantity : BitVec 32 := 0
  orderToken : BitVec 32 := 0
  stock : Chars 8 := Chars.zero
  token : BitVec 32 := 0
  symbol : Chars 10 := Chars.zero
  series : Chars 2 := Chars.zero

/-- The bytes of `StrategySignal`. -/
def StrategySignal.codec : Codec StrategySignal :=
  open Codec in
  (Kind.codec.prod <| Side.codec.prod <| u32.prod <| u32.prod <| u32.prod <| (chars 8).prod <|
    u32.prod <| (chars 10).prod <| (chars 2)).map
    { toFun := fun ⟨feed, side, price, quantity, orderToken, stock, token, symbol, series⟩ =>
        ⟨feed, side, price, quantity, orderToken, stock, token, symbol, series⟩
      invFun := fun x => (x.feed, x.side, x.price, x.quantity, x.orderToken, x.stock, x.token,
        x.symbol, x.series)
      left_inv := fun _ => rfl
      right_inv := fun _ => rfl }

/-! ### SBE -/

/-- A decimal number with its exponent. -/
structure Decimal64 where
  exponent : Byte := 0
  mantissa : BitVec 64 := 0

/-- The bytes of `Decimal64`. -/
def Decimal64.codec : Codec Decimal64 :=
  open Codec in
  (u8.prod <| u64).map
    { toFun := fun ⟨exponent, mantissa⟩ => ⟨exponent, mantissa⟩
      invFun := fun x => (x.exponent, x.mantissa)
      left_inv := fun _ => rfl
      right_inv := fun _ => rfl }

/-- The fixed root of a `BestOBRpiEvent`. -/
structure BestObRpiBody where
  ts : BitVec 64 := 0
  seq : BitVec 64 := 0
  cts : BitVec 64 := 0
  u : BitVec 64 := 0
  askNormalPrice : BitVec 64 := 0
  askNormalSize : BitVec 64 := 0
  askRpiPrice : BitVec 64 := 0
  askRpiSize : BitVec 64 := 0
  bidNormalPrice : BitVec 64 := 0
  bidNormalSize : BitVec 64 := 0
  bidRpiPrice : BitVec 64 := 0
  bidRpiSize : BitVec 64 := 0
  priceExponent : Byte := 0
  sizeExponent : Byte := 0
  deriving DecidableEq

/-- The bytes of `BestObRpiBody`. -/
def BestObRpiBody.codec : Codec BestObRpiBody :=
  open Codec in
  (u64.prod <| u64.prod <| u64.prod <| u64.prod <| u64.prod <| u64.prod <| u64.prod <| u64.prod
    <| u64.prod <| u64.prod <| u64.prod <| u64.prod <| u8.prod <| u8).map
    { toFun := fun ⟨ts, seq, cts, u, askNormalPrice, askNormalSize, askRpiPrice, askRpiSize,
        bidNormalPrice, bidNormalSize, bidRpiPrice, bidRpiSize, priceExponent, sizeExponent⟩ =>
        ⟨ts, seq, cts, u, askNormalPrice, askNormalSize, askRpiPrice, askRpiSize, bidNormalPrice,
        bidNormalSize, bidRpiPrice, bidRpiSize, priceExponent, sizeExponent⟩
      invFun := fun x => (x.ts, x.seq, x.cts, x.u, x.askNormalPrice, x.askNormalSize,
        x.askRpiPrice, x.askRpiSize, x.bidNormalPrice, x.bidNormalSize, x.bidRpiPrice,
        x.bidRpiSize, x.priceExponent, x.sizeExponent)
      left_inv := fun _ => rfl
      right_inv := fun _ => rfl }

/-- The best bid and offer tick of a slot. -/
structure BestObRpi where
  body : BestObRpiBody := {}
  symbolLen : Byte := 0
  symbol : Chars 16 := Chars.zero
  deriving DecidableEq

/-- The bytes of `BestObRpi`. -/
def BestObRpi.codec : Codec BestObRpi :=
  open Codec in
  (BestObRpiBody.codec.prod <| u8.prod <| (chars 16)).map
    { toFun := fun ⟨body, symbolLen, symbol⟩ => ⟨body, symbolLen, symbol⟩
      invFun := fun x => (x.body, x.symbolLen, x.symbol)
      left_inv := fun _ => rfl
      right_inv := fun _ => rfl }

/-- The header of an SBE request. -/
structure ApiRequestHeader where
  reqId : Chars 64 := Chars.zero
  timestamp : BitVec 64 := 0
  recvWindow : BitVec 32 := 0
  referer : Chars 64 := Chars.zero

/-- The bytes of `ApiRequestHeader`. -/
def ApiRequestHeader.codec : Codec ApiRequestHeader :=
  open Codec in
  ((chars 64).prod <| u64.prod <| u32.prod <| (chars 64)).map
    { toFun := fun ⟨reqId, timestamp, recvWindow, referer⟩ => ⟨reqId, timestamp, recvWindow,
        referer⟩
      invFun := fun x => (x.reqId, x.timestamp, x.recvWindow, x.referer)
      left_inv := fun _ => rfl
      right_inv := fun _ => rfl }

/-- `CreateOrderReqV5`: spot, buy, limit, good till cancel, base coin by default. -/
structure CreateOrderReqV5 where
  header : ApiRequestHeader := {}
  category : Byte := 1
  symbolId : BitVec 64 := 0
  side : Byte := 1
  orderType : Byte := 2
  qty : Decimal64 := {}
  price : Decimal64 := {}
  orderLinkId : Chars 64 := Chars.zero
  timeInForce : Byte := 1
  positionIdx : Byte := 0
  marketUnit : Byte := 1
  isLeverage : Byte := 0
  reduceOnly : Byte := 0
  closeOnTrigger : Byte := 0
  mmp : Byte := 0
  smpType : Byte := 0
  rpiTakerAccess : Byte := 0

/-- The bytes of `CreateOrderReqV5`. -/
def CreateOrderReqV5.codec : Codec CreateOrderReqV5 :=
  open Codec in
  (ApiRequestHeader.codec.prod <| u8.prod <| u64.prod <| u8.prod <| u8.prod <|
    Decimal64.codec.prod <| Decimal64.codec.prod <| (chars 64).prod <| u8.prod <| u8.prod <|
    u8.prod <| u8.prod <| u8.prod <| u8.prod <| u8.prod <| u8.prod <| u8).map
    { toFun := fun ⟨header, category, symbolId, side, orderType, qty, price, orderLinkId,
        timeInForce, positionIdx, marketUnit, isLeverage, reduceOnly, closeOnTrigger, mmp,
        smpType, rpiTakerAccess⟩ => ⟨header, category, symbolId, side, orderType, qty, price,
        orderLinkId, timeInForce, positionIdx, marketUnit, isLeverage, reduceOnly, closeOnTrigger,
        mmp, smpType, rpiTakerAccess⟩
      invFun := fun x => (x.header, x.category, x.symbolId, x.side, x.orderType, x.qty, x.price,
        x.orderLinkId, x.timeInForce, x.positionIdx, x.marketUnit, x.isLeverage, x.reduceOnly,
        x.closeOnTrigger, x.mmp, x.smpType, x.rpiTakerAccess)
      left_inv := fun _ => rfl
      right_inv := fun _ => rfl }

/-- The fixed root of a fast order response. -/
structure FastOrderRespBody where
  category : Byte := 0
  side : Byte := 0
  orderStatus : Byte := 0
  priceExponent : Byte := 0
  sizeExponent : Byte := 0
  valueExponent : Byte := 0
  rejectReason : BitVec 16 := 0
  price : BitVec 64 := 0
  leavesQty : BitVec 64 := 0
  leavesValue : BitVec 64 := 0
  creationTime : BitVec 64 := 0
  updatedTime : BitVec 64 := 0
  seq : BitVec 64 := 0
  symbolId : BitVec 32 := 0

/-- The bytes of `FastOrderRespBody`. -/
def FastOrderRespBody.codec : Codec FastOrderRespBody :=
  open Codec in
  (u8.prod <| u8.prod <| u8.prod <| u8.prod <| u8.prod <| u8.prod <| u16.prod <| u64.prod <|
    u64.prod <| u64.prod <| u64.prod <| u64.prod <| u64.prod <| u32).map
    { toFun := fun ⟨category, side, orderStatus, priceExponent, sizeExponent, valueExponent,
        rejectReason, price, leavesQty, leavesValue, creationTime, updatedTime, seq, symbolId⟩ =>
        ⟨category, side, orderStatus, priceExponent, sizeExponent, valueExponent, rejectReason,
        price, leavesQty, leavesValue, creationTime, updatedTime, seq, symbolId⟩
      invFun := fun x => (x.category, x.side, x.orderStatus, x.priceExponent, x.sizeExponent,
        x.valueExponent, x.rejectReason, x.price, x.leavesQty, x.leavesValue, x.creationTime,
        x.updatedTime, x.seq, x.symbolId)
      left_inv := fun _ => rfl
      right_inv := fun _ => rfl }

/-- The fast order response of a slot. -/
structure FastOrderResp where
  body : FastOrderRespBody := {}
  orderIdLen : Byte := 0
  orderId : Chars 32 := Chars.zero
  orderLinkIdLen : Byte := 0
  orderLinkId : Chars 32 := Chars.zero

/-- The bytes of `FastOrderResp`. -/
def FastOrderResp.codec : Codec FastOrderResp :=
  open Codec in
  (FastOrderRespBody.codec.prod <| u8.prod <| (chars 32).prod <| u8.prod <| (chars 32)).map
    { toFun := fun ⟨body, orderIdLen, orderId, orderLinkIdLen, orderLinkId⟩ => ⟨body,
        orderIdLen, orderId, orderLinkIdLen, orderLinkId⟩
      invFun := fun x => (x.body, x.orderIdLen, x.orderId, x.orderLinkIdLen, x.orderLinkId)
      left_inv := fun _ => rfl
      right_inv := fun _ => rfl }

/-! ### MCX -/

/-- Top-of-book tick, with its two alignment gaps. -/
structure TopOfBook where
  simpleSecurityId : BitVec 32 := 0
  gap : Chars 4 := Chars.zero
  bidPrice : BitVec 64 := 0
  askPrice : BitVec 64 := 0
  bidQty : BitVec 64 := 0
  askQty : BitVec 64 := 0
  symbol : Chars 12 := Chars.zero
  tail : Chars 4 := Chars.zero
  deriving DecidableEq

/-- The bytes of `TopOfBook`. -/
def TopOfBook.codec : Codec TopOfBook :=
  open Codec in
  (u32.prod <| (chars 4).prod <| u64.prod <| u64.prod <| u64.prod <| u64.prod <| (chars 12).prod
    <| (chars 4)).map
    { toFun := fun ⟨simpleSecurityId, gap, bidPrice, askPrice, bidQty, askQty, symbol, tail⟩ =>
        ⟨simpleSecurityId, gap, bidPrice, askPrice, bidQty, askQty, symbol, tail⟩
      invFun := fun x => (x.simpleSecurityId, x.gap, x.bidPrice, x.askPrice, x.bidQty, x.askQty,
        x.symbol, x.tail)
      left_inv := fun _ => rfl
      right_inv := fun _ => rfl }

/-- New Order Single, short layout, template 10125. -/
structure NewOrderSingleShort where
  bodyLen : BitVec 32 := 120
  templateId : BitVec 16 := 10125
  networkMsgId : Chars 8 := Chars.zero
  pad2Header : Chars 2 := Chars.zero
  msgSeqNum : BitVec 32 := 0
  senderSubId : BitVec 32 := 0
  price : BitVec 64 := 0
  terminalInfo : BitVec 64 := 0
  clOrdId : BitVec 64 := 0
  orderQty : BitVec 64 := 0
  disclosedQty : BitVec 64 := 0
  simpleSecurityId : BitVec 32 := 0
  filler2 : BitVec 32 := 0
  filler4 : BitVec 16 := 0
  accountType : Byte := 1
  side : Byte := 1
  priceValidityCheckType : Byte := 0
  timeInForce : Byte := 0
  smpfOrderIdentifier : Byte := 0
  execInst : Byte := 0
  strategyId : BitVec 64 := 0
  strategyTriggerSeqNo : BitVec 64 := 0
  freeText1 : Chars 12 := Chars.zero
  cpCode : Chars 12 := Chars.zero

/-- The bytes of `NewOrderSingleShort`. -/
def NewOrderSingleShort.codec : Codec NewOrderSingleShort :=
  open Codec in
  (u32.prod <| u16.prod <| (chars 8).prod <| (chars 2).prod <| u32.prod <| u32.prod <| u64.prod
    <| u64.prod <| u64.prod <| u64.prod <| u64.prod <| u32.prod <| u32.prod <| u16.prod <| u8.prod
    <| u8.prod <| u8.prod <| u8.prod <| u8.prod <| u8.prod <| u64.prod <| u64.prod <| (chars
    12).prod <| (chars 12)).map
    { toFun := fun ⟨bodyLen, templateId, networkMsgId, pad2Header, msgSeqNum, senderSubId,
        price, terminalInfo, clOrdId, orderQty, disclosedQty, simpleSecurityId, filler2, filler4,
        accountType, side, priceValidityCheckType, timeInForce, smpfOrderIdentifier, execInst,
        strategyId, strategyTriggerSeqNo, freeText1, cpCode⟩ => ⟨bodyLen, templateId,
        networkMsgId, pad2Header, msgSeqNum, senderSubId, price, terminalInfo, clOrdId, orderQty,
        disclosedQty, simpleSecurityId, filler2, filler4, accountType, side,
        priceValidityCheckType, timeInForce, smpfOrderIdentifier, execInst, strategyId,
        strategyTriggerSeqNo, freeText1, cpCode⟩
      invFun := fun x => (x.bodyLen, x.templateId, x.networkMsgId, x.pad2Header, x.msgSeqNum,
        x.senderSubId, x.price, x.terminalInfo, x.clOrdId, x.orderQty, x.disclosedQty,
        x.simpleSecurityId, x.filler2, x.filler4, x.accountType, x.side, x.priceValidityCheckType,
        x.timeInForce, x.smpfOrderIdentifier, x.execInst, x.strategyId, x.strategyTriggerSeqNo,
        x.freeText1, x.cpCode)
      left_inv := fun _ => rfl
      right_inv := fun _ => rfl }

/-- New Order Response, template 10101. -/
structure ExecutionReportNew where
  bodyLen : BitVec 32 := 188
  templateId : BitVec 16 := 10101
  pad2Header : Chars 2 := Chars.zero
  requestTime : BitVec 64 := 0
  reserve0 : BitVec 64 := 0
  reserve1 : BitVec 64 := 0
  reserve2 : BitVec 64 := 0
  reserve3 : BitVec 64 := 0
  sendingTime : BitVec 64 := 0
  msgSeqNum : BitVec 32 := 0
  partitionId : BitVec 16 := 0
  applId : Byte := 4
  applMsgId : Chars 16 := Chars.zero
  lastFragment : Byte := 1
  orderId : BitVec 64 := 0
  clOrdId : BitVec 64 := 0
  simpleSecurityId : BitVec 64 := 0
  pad4Body : Chars 4 := Chars.zero
  priceMkToLimitPx : BitVec 64 := 0
  reserved1 : BitVec 64 := 0
  reserved2 : BitVec 64 := 0
  execId : BitVec 64 := 0
  trdRegTsEntryTime : BitVec 64 := 0
  reserve14 : BitVec 64 := 0
  lstUpdtTime : BitVec 64 := 0
  filler1 : BitVec 64 := 0
  filler2 : BitVec 32 := 0
  filler4 : BitVec 16 := 0
  ordStatus : Byte := 0x30
  execType : Byte := 0x30
  execRestatementReason : BitVec 16 := 101
  productComplex : Byte := 1
  filler5 : Byte := 0
  pad4Trailer : Chars 4 := Chars.zero

/-- The bytes of `ExecutionReportNew`. -/
def ExecutionReportNew.codec : Codec ExecutionReportNew :=
  open Codec in
  (u32.prod <| u16.prod <| (chars 2).prod <| u64.prod <| u64.prod <| u64.prod <| u64.prod <|
    u64.prod <| u64.prod <| u32.prod <| u16.prod <| u8.prod <| (chars 16).prod <| u8.prod <|
    u64.prod <| u64.prod <| u64.prod <| (chars 4).prod <| u64.prod <| u64.prod <| u64.prod <|
    u64.prod <| u64.prod <| u64.prod <| u64.prod <| u64.prod <| u32.prod <| u16.prod <| u8.prod <|
    u8.prod <| u16.prod <| u8.prod <| u8.prod <| (chars 4)).map
    { toFun := fun ⟨bodyLen, templateId, pad2Header, requestTime, reserve0, reserve1, reserve2,
        reserve3, sendingTime, msgSeqNum, partitionId, applId, applMsgId, lastFragment, orderId,
        clOrdId, simpleSecurityId, pad4Body, priceMkToLimitPx, reserved1, reserved2, execId,
        trdRegTsEntryTime, reserve14, lstUpdtTime, filler1, filler2, filler4, ordStatus, execType,
        execRestatementReason, productComplex, filler5, pad4Trailer⟩ => ⟨bodyLen, templateId,
        pad2Header, requestTime, reserve0, reserve1, reserve2, reserve3, sendingTime, msgSeqNum,
        partitionId, applId, applMsgId, lastFragment, orderId, clOrdId, simpleSecurityId,
        pad4Body, priceMkToLimitPx, reserved1, reserved2, execId, trdRegTsEntryTime, reserve14,
        lstUpdtTime, filler1, filler2, filler4, ordStatus, execType, execRestatementReason,
        productComplex, filler5, pad4Trailer⟩
      invFun := fun x => (x.bodyLen, x.templateId, x.pad2Header, x.requestTime, x.reserve0,
        x.reserve1, x.reserve2, x.reserve3, x.sendingTime, x.msgSeqNum, x.partitionId, x.applId,
        x.applMsgId, x.lastFragment, x.orderId, x.clOrdId, x.simpleSecurityId, x.pad4Body,
        x.priceMkToLimitPx, x.reserved1, x.reserved2, x.execId, x.trdRegTsEntryTime, x.reserve14,
        x.lstUpdtTime, x.filler1, x.filler2, x.filler4, x.ordStatus, x.execType,
        x.execRestatementReason, x.productComplex, x.filler5, x.pad4Trailer)
      left_inv := fun _ => rfl
      right_inv := fun _ => rfl }

/-! ### Kinds of records -/

/-- `concept WireMessage` with `kind_of`: a record whose size is the `slot_size` of its
kind. -/
class WireMessage (α : Type) where
  kindOf : Kind
  codec : Codec α
  size_eq : codec.size = kindOf.slotSize

instance : WireMessage ItchAddOrder := ⟨.itch, ItchAddOrder.codec, rfl⟩

instance : WireMessage OuchEnterOrder := ⟨.ouch, OuchEnterOrder.codec, rfl⟩

instance : WireMessage OuchOrderAccepted := ⟨.ouchConfirm, OuchOrderAccepted.codec, rfl⟩

instance : WireMessage MtbtNewOrder := ⟨.mtbt, MtbtNewOrder.codec, rfl⟩

instance : WireMessage NnfOrderEntry := ⟨.nnf, NnfOrderEntry.codec, rfl⟩

instance : WireMessage NnfOrderConfirm := ⟨.nnfConfirm, NnfOrderConfirm.codec, rfl⟩

instance : WireMessage BestObRpi := ⟨.sbeMarket, BestObRpi.codec, rfl⟩

instance : WireMessage CreateOrderReqV5 := ⟨.sbeOrderEntry, CreateOrderReqV5.codec, rfl⟩

instance : WireMessage FastOrderResp := ⟨.sbeFastOrder, FastOrderResp.codec, rfl⟩

instance : WireMessage TopOfBook := ⟨.mcxMarket, TopOfBook.codec, rfl⟩

instance : WireMessage NewOrderSingleShort := ⟨.mcxOrder, NewOrderSingleShort.codec, rfl⟩

instance : WireMessage ExecutionReportNew := ⟨.mcxConfirm, ExecutionReportNew.codec, rfl⟩

/-- A signal fills a slot of its kind. -/
theorem StrategySignal.size_eq : StrategySignal.codec.size = Kind.signal.slotSize := rfl

/-! ### Copies in and out of a message -/

namespace TaggedMessage

variable {α : Type}

/-- The payload as memory. -/
def memory (m : TaggedMessage) (k : ℕ) : Byte :=
  if h : k < maxSlotSize then m.bytes ⟨k, h⟩ else 0

/-- `memcpy(&x, msg.bytes.data(), sizeof(x))` -/
def read (A : Codec α) (m : TaggedMessage) : α := A.get m.memory

/-- `msg.kind = kind; memcpy(msg.bytes.data(), &x, sizeof(x))` -/
def write (A : Codec α) (kind : Kind) (x : α) (m : TaggedMessage) : TaggedMessage where
  kind := kind
  bytes j := if j.val < A.size then A.put x j else m.bytes j

@[simp] theorem write_kind (A : Codec α) (kind : Kind) (x : α) (m : TaggedMessage) :
    (m.write A kind x).kind = kind := rfl

theorem memory_of_lt (m : TaggedMessage) {k : ℕ} (h : k < maxSlotSize) :
    m.memory k = m.bytes ⟨k, h⟩ := dif_pos h

/-- A record that has been copied in is copied out again. -/
theorem read_write {A : Codec α} (h_size : A.size ≤ maxSlotSize) (kind : Kind) (x : α)
    (m : TaggedMessage) : (m.write A kind x).read A = x := by
  apply A.get_of_image
  intro k hk
  rw [memory_of_lt _ (lt_of_lt_of_le hk h_size)]
  exact if_pos hk

/-- A record is as long as its slot, which fits the buffer. -/
theorem size_le (W : WireMessage α) : W.codec.size ≤ maxSlotSize := by
  rw [W.size_eq]
  exact W.kindOf.slotSize_le

/-- The copy of a record leaves the bytes behind it. -/
theorem write_bytes_of_le (A : Codec α) (kind : Kind) (x : α) (m : TaggedMessage)
    {j : Fin maxSlotSize} (h : A.size ≤ j.val) : (m.write A kind x).bytes j = m.bytes j :=
  if_neg (Nat.not_lt.mpr h)

variable [W : WireMessage α]

/-- Tag and copy of a record. -/
def fill (m : TaggedMessage) (x : α) : TaggedMessage := m.write W.codec W.kindOf x

/-- The message is tagged as a record and begins with its bytes. -/
def Holds (m : TaggedMessage) (x : α) : Prop := m.kind = W.kindOf ∧ m.read W.codec = x

theorem holds_fill (m : TaggedMessage) (x : α) : (m.fill x).Holds x :=
  ⟨rfl, read_write (size_le W) _ x m⟩

end TaggedMessage

end Hft
