import MpmcPipeline.Mem.Copies
import MpmcPipeline.Trading.Gateway
import MpmcPipeline.Trading.Ingress

/-!
# The stages as routines

The code of every stage as a `Routine`: what `ingest_…_frame`, `poll_once`, `on_tick`,
`route_market_tick`, the loop of `main` over the confirms and the workers of `Runtime` do to
the pool, the queues, the messages and their own members, operation by operation and byte by
byte. What the stages compute in between is that of `Trading/Messages.lean` and
`Trading/Ingress.lean`.

`StageCall` is a call of a stage. Stage objects have names in `ι` and their members are in
`Parts`; the queues a call works on are given with it, so that objects can be wired in any way
and any number of them can share a queue.
-/

namespace Hft

namespace Trading

open Worker

variable {P : PoolCapacity} {Q ι : Type}

/-- The members of a `Runtime` that its workers use. -/
structure TestCounters where
  pushed : BitVec 64 := 0
  popped : BitVec 64 := 0
  nextSequence : BitVec 64 := 1

/-- The members of the stage objects, by name. -/
structure Parts (ι : Type) where
  producer : ι → Producer
  ouch : ι → OuchConsumer
  nnf : ι → NnfConsumer
  sbeOrder : ι → SbeOrderEntryConsumer
  mcxOrder : ι → McxOrderConsumer
  gateway : ι → ExchangeGateway
  runtime : ι → TestCounters

/-- Stage objects as they are constructed. -/
def Parts.fresh (ι : Type) : Parts ι where
  producer _ := {}
  ouch _ := {}
  nnf _ := {}
  sbeOrder _ := {}
  mcxOrder _ := {}
  gateway _ := {}
  runtime _ := {}

/-- The code of a stage. -/
abbrev Code (P : PoolCapacity) (Q ι α : Type) := Routine P Q (Parts ι) α

namespace Code

section

variable [DecidableEq ι]

/-- An access to the members of a producer; the answer is what they were. -/
def producer (self : ι) (f : Producer → Producer) : Code P Q ι Producer := do
  let parts ← own fun parts => { parts with
    producer := Function.update parts.producer self (f (parts.producer self)) }
  pure (parts.producer self)

def ouch (self : ι) (f : OuchConsumer → OuchConsumer) : Code P Q ι OuchConsumer := do
  let parts ← own fun parts => { parts with
    ouch := Function.update parts.ouch self (f (parts.ouch self)) }
  pure (parts.ouch self)

def nnf (self : ι) (f : NnfConsumer → NnfConsumer) : Code P Q ι NnfConsumer := do
  let parts ← own fun parts => { parts with
    nnf := Function.update parts.nnf self (f (parts.nnf self)) }
  pure (parts.nnf self)

def sbeOrder (self : ι) (f : SbeOrderEntryConsumer → SbeOrderEntryConsumer) :
    Code P Q ι SbeOrderEntryConsumer := do
  let parts ← own fun parts => { parts with
    sbeOrder := Function.update parts.sbeOrder self (f (parts.sbeOrder self)) }
  pure (parts.sbeOrder self)

def mcxOrder (self : ι) (f : McxOrderConsumer → McxOrderConsumer) :
    Code P Q ι McxOrderConsumer := do
  let parts ← own fun parts => { parts with
    mcxOrder := Function.update parts.mcxOrder self (f (parts.mcxOrder self)) }
  pure (parts.mcxOrder self)

def gateway (self : ι) (f : ExchangeGateway → ExchangeGateway) :
    Code P Q ι ExchangeGateway := do
  let parts ← own fun parts => { parts with
    gateway := Function.update parts.gateway self (f (parts.gateway self)) }
  pure (parts.gateway self)

def runtime (self : ι) (f : TestCounters → TestCounters) : Code P Q ι TestCounters := do
  let parts ← own fun parts => { parts with
    runtime := Function.update parts.runtime self (f (parts.runtime self)) }
  pure (parts.runtime self)

end

/-! ### Ingestion -/

/-- `pool.acquire_filled(decoded)` and `queue.push(slot)`: what a handler does with a message it
has decoded. -/
def store {α : Type} [WireMessage α] (market : Q) (decoded : α) : Code P Q ι Unit := do
  match ← acquireFilled decoded with
  -- the pool is exhausted: the message is dropped
  | none => pure ()
  | some slot => push market slot

/-- The loop of a splitter, with the calls of its handler. -/
def split {β : Type} (cut : ℕ → Splitter.Cut β) (handler : β → Code P Q ι Unit) :
    ℕ → ℕ → Code P Q ι Unit
  | 0, _ => spin
  | fuel + 1, offset =>
    match cut offset with
    | .stop _ => pure ()
    | .call piece next => do
      handler piece
      split cut handler fuel next

/-- `ingest_itch_frame` -/
def ingestItchFrame (market : Q) : Option (List Byte) → Code P Q ι Unit
  | none => pure ()
  | some frame =>
    split (itchCut frame) (fun slice =>
      match decodeItchAddOrder (frame.drop slice.1) slice.2 with
      -- another length, or another type
      | none => pure ()
      | some decoded => store market decoded) (frame.length + 1) 0

/-- `ingest_mtbt_frame`; the loop of the splitter need not end. -/
def ingestMtbtFrame (market : Q) (fuel : ℕ) : Option (List Byte) → Code P Q ι Unit
  | none => pure ()
  | some frame =>
    split (mtbtCut frame) (fun packet =>
      match decodeMtbtOrder (frame.drop packet.1) packet.2.1 with
      | none => pure ()
      | some decoded => store market decoded.order) fuel 0

/-- `ingest_mcx_tob_frame` -/
def ingestMcxTobFrame (market : Q) : Option (List Byte) → Code P Q ι Unit
  | none => pure ()
  | some frame =>
    if frame.length ≠ 56 then pure ()
    else store market (TopOfBook.codec.get (frameMemory frame))

/-! ### Producers -/

/-- `encode_signal` -/
def encodeSignal (signal : StrategySignal) (out : Ptr P) : Code P Q ι Unit := do
  writeKind out .signal
  copyIn out StrategySignal.codec signal

section

variable [DecidableEq ι]

/-- The end of an `on_tick` that emits. -/
def emit (self : ι) (signals : Q) (signal : StrategySignal) (out : Ptr P) : Code P Q ι Unit := do
  encodeSignal signal out
  push signals out
  let _ ← producer self fun members => { members with signals := members.signals + 1 }
  pure ()

/-- `on_tick(tick, owned)`, with `none` for `owned == nullptr`. -/
def producerOnTick (self : ι) (signals : Q) (tick : Tick) (owned : Option (Ptr P)) :
    Code P Q ι Unit := do
  -- `ref_price_` is a plain member, written and read back by one thread
  let before ← producer self fun members => members.follow tick
  let side := (before.origin tick).side
  if side = .none then
    -- no token is used up
    match owned with
    | some msg => release msg
    | none => pure ()
  else
    let issued ← producer self fun members =>
      { members with nextToken := members.nextToken + 1 }
    let signal := tick.signal side issued.nextToken
    match owned with
    -- the message of the tick is written over
    | some msg => emit self signals signal msg
    | none =>
      match ← acquire with
      | none => pure ()
      | some msg => emit self signals signal msg

/-- `poll_once` of a producer of messages of kind `kind`, which hold a record of codec `A`. -/
def producerPollOnce {α : Type} (kind : Kind) (A : Codec α) (tick : α → Tick) (self : ι)
    (market signals : Q) : Code P Q ι Unit := do
  match ← tryPop market with
  | none => pure ()
  | some msg =>
    if (← readKind msg) = kind then
      let decoded ← copyOut A msg
      producerOnTick self signals (tick decoded) (some msg)
    else release msg

/-- `ItchProducer::poll_once` -/
def itchPollOnce (self : ι) (market signals : Q) : Code P Q ι Unit :=
  producerPollOnce .itch ItchAddOrder.codec .itch self market signals

/-- `MtbtProducer::poll_once` -/
def mtbtPollOnce (self : ι) (market signals : Q) : Code P Q ι Unit :=
  producerPollOnce .mtbt MtbtNewOrder.codec .mtbt self market signals

/-- `SbeBboProducer::poll_once` -/
def sbePollOnce (self : ι) (market signals : Q) : Code P Q ι Unit :=
  producerPollOnce .sbeMarket BestObRpi.codec .sbe self market signals

/-- `McxTobProducer::poll_once` -/
def mcxPollOnce (self : ι) (market signals : Q) : Code P Q ι Unit :=
  producerPollOnce .mcxMarket TopOfBook.codec .mcx self market signals

/-- `route_market_tick` -/
def routeMarketTick (itch mtbt mcx : ι) (signals : Q) (msg : Ptr P) : Code P Q ι Unit := do
  match ← readKind msg with
  | .itch =>
    let tick ← copyOut ItchAddOrder.codec msg
    producerOnTick itch signals (.itch tick) (some msg)
  | .mtbt =>
    let tick ← copyOut MtbtNewOrder.codec msg
    producerOnTick mtbt signals (.mtbt tick) (some msg)
  | .mcxMarket =>
    let tick ← copyOut TopOfBook.codec msg
    producerOnTick mcx signals (.mcx tick) (some msg)
  | _ => release msg

/-- One round of the loop of `main` over the market queue. -/
def drainMarket (itch mtbt mcx : ι) (market signals : Q) : Code P Q ι Unit := do
  match ← tryPop market with
  | none => pure ()
  | some msg => routeMarketTick itch mtbt mcx signals msg

end

/-! ### Consumers -/

/-- `decode_signal` -/
def decodeSignal (msg : Ptr P) : Code P Q ι StrategySignal := do
  if (← readKind msg) = .signal then copyOut StrategySignal.codec msg else pure {}

/-- `poll_once` of a consumer of the signals of `feed`, which submits an order for one that has
a side. -/
def consumerPollOnce (feed : Kind) (signals : Q)
    (submit : StrategySignal → Ptr P → Code P Q ι Unit) : Code P Q ι Unit := do
  match ← tryPop signals with
  | none => pure ()
  | some msg =>
    if (← readKind msg) = .signal then
      let signal ← decodeSignal msg
      if signal.feed ≠ feed then push signals msg
      else if signal.side = .none then release msg
      else submit signal msg
    else release msg

section

variable [DecidableEq ι]

/-- `OuchConsumer::poll_once` -/
def ouchPollOnce (self : ι) (signals pending : Q) : Code P Q ι Unit :=
  consumerPollOnce .itch signals fun signal msg => do
    writeKind msg .ouch
    copyIn msg OuchEnterOrder.codec (ouchOrder signal)
    push pending msg
    let _ ← ouch self fun members => { members with submitted := members.submitted + 1 }
    pure ()

/-- `NnfConsumer::poll_once` -/
def nnfPollOnce (self : ι) (signals pending : Q) : Code P Q ι Unit :=
  consumerPollOnce .mtbt signals fun signal msg => do
    let members ← nnf self id
    writeKind msg .nnf
    copyIn msg NnfOrderEntry.codec (nnfOrder members.traderId signal)
    push pending msg
    let _ ← nnf self fun members => { members with submitted := members.submitted + 1 }
    pure ()

/-- `SbeOrderEntryConsumer::poll_once` -/
def sbeOrderPollOnce (self : ι) (signals pending : Q) : Code P Q ι Unit :=
  consumerPollOnce .sbeMarket signals fun signal msg => do
    let members ← sbeOrder self id
    writeKind msg .sbeOrderEntry
    copyIn msg CreateOrderReqV5.codec (Trading.sbeOrder members.symbolId signal)
    push pending msg
    let _ ← sbeOrder self fun members => { members with submitted := members.submitted + 1 }
    pure ()

/-- `McxOrderConsumer::poll_once` -/
def mcxOrderPollOnce (self : ι) (signals pending : Q) : Code P Q ι Unit :=
  consumerPollOnce .mcxMarket signals fun signal msg => do
    let members ← mcxOrder self fun members => { members with nextSeq := members.nextSeq + 1 }
    writeKind msg .mcxOrder
    copyIn msg NewOrderSingleShort.codec
      (Trading.mcxOrder members.nextSeq members.senderSubId members.simpleSecurityId signal)
    push pending msg
    let _ ← mcxOrder self fun members => { members with submitted := members.submitted + 1 }
    pure ()

/-! ### The gateway, and the confirms -/

/-- The exchange references, by their own access. -/
def counters (self : ι) (f : Counters → Counters) : Code P Q ι Counters := do
  let members ← gateway self fun members => { members with counters := f members.counters }
  pure members.counters

/-- The end of a `poll_once` that confirms. -/
def confirmed (self : ι) (confirms : Q) (pending : Ptr P) : Code P Q ι Unit := do
  push confirms pending
  let _ ← gateway self fun members => { members with confirms := members.confirms + 1 }
  pure ()

/-- `ExchangeGateway::poll_once` -/
def gatewayPollOnce (self : ι) (pendings confirms : Q) : Code P Q ι Unit := do
  match ← tryPop pendings with
  | none => pure ()
  | some pending =>
    match ← readKind pending with
    | .ouch =>
      let req ← copyOut OuchEnterOrder.codec pending
      let refs ← counters self fun refs => { refs with nextOuchRef := refs.nextOuchRef + 1 }
      writeKind pending .ouchConfirm
      copyIn pending OuchOrderAccepted.codec (makeOuchConfirm req refs.nextOuchRef)
      confirmed self confirms pending
    | .nnf =>
      let req ← copyOut NnfOrderEntry.codec pending
      let refs ← counters self fun refs => { refs with nextNnfOrder := refs.nextNnfOrder + 1 }
      writeKind pending .nnfConfirm
      copyIn pending NnfOrderConfirm.codec
        (makeNnfConfirm req (Double.ofNat refs.nextNnfOrder.toNat))
      confirmed self confirms pending
    | .sbeOrderEntry =>
      let req ← copyOut CreateOrderReqV5.codec pending
      let refs ← counters self fun refs => { refs with nextSbeSeq := refs.nextSbeSeq + 1 }
      writeKind pending .sbeFastOrder
      copyIn pending FastOrderResp.codec (makeSbeFastConfirm req refs.nextSbeSeq)
      confirmed self confirms pending
    | .mcxOrder =>
      let req ← copyOut NewOrderSingleShort.codec pending
      let orders ← counters self fun refs => { refs with nextMcxOrder := refs.nextMcxOrder + 1 }
      let execs ← counters self fun refs => { refs with nextMcxExec := refs.nextMcxExec + 1 }
      writeKind pending .mcxConfirm
      copyIn pending ExecutionReportNew.codec
        (makeMcxConfirm req orders.nextMcxOrder execs.nextMcxExec)
      confirmed self confirms pending
    | _ => release pending

end

/-- One round of the loop of `main` over the confirms, which counts them by kind. -/
def releaseConfirm (confirms : Q) : Code P Q ι Unit := do
  match ← tryPop confirms with
  | none => pure ()
  | some confirm =>
    let _ ← readKind confirm
    release confirm

/-! ### `Runtime` -/

/-- `fill_test_message` -/
def fillTestMessage (msg : Ptr P) (sequence : BitVec 64) : Code P Q ι Unit := do
  writeKind msg .itch
  copyIn msg ItchAddOrder.codec
    { stockLocate := (sequence &&& 0xFFFF).setWidth 16, shares := sequence.setWidth 32 }

section

variable [DecidableEq ι]

/-- One round of `producer_main`. -/
def producerMain (self : ι) (queue : Q) : Code P Q ι Unit := do
  let members ← runtime self fun members =>
    { members with nextSequence := members.nextSequence + 1 }
  match ← acquire with
  | none => pure ()
  | some msg =>
    fillTestMessage msg members.nextSequence
    push queue msg
    let _ ← runtime self fun members => { members with pushed := members.pushed + 1 }
    pure ()

/-- One round of `consumer_main`. It copies a sequence number out of whatever it has taken and
drops it, which is not modelled. -/
def consumerMain (self : ι) (queue : Q) : Code P Q ι Unit := do
  match ← tryPop queue with
  | none => pure ()
  | some msg =>
    release msg
    let _ ← runtime self fun members => { members with popped := members.popped + 1 }
    pure ()

end

end Code

/-! ### Calls -/

/-- A call of a stage: the object, the queues it works on, and what comes from outside. -/
inductive StageCall (Q ι : Type)
  | ingestItchFrame (market : Q) (frame : Option (List Byte))
  | ingestMtbtFrame (market : Q) (frame : Option (List Byte)) (fuel : ℕ)
  | ingestMcxTobFrame (market : Q) (frame : Option (List Byte))
  | feedBbo (market : Q) (tick : BestObRpi)
  | pollItch (self : ι) (market signals : Q)
  | pollMtbt (self : ι) (market signals : Q)
  | pollSbe (self : ι) (market signals : Q)
  | pollMcx (self : ι) (market signals : Q)
  | onTick (self : ι) (signals : Q) (tick : Tick)
  | drainMarket (itch mtbt mcx : ι) (market signals : Q)
  | pollOuch (self : ι) (signals pending : Q)
  | pollNnf (self : ι) (signals pending : Q)
  | pollSbeOrder (self : ι) (signals pending : Q)
  | pollMcxOrder (self : ι) (signals pending : Q)
  | pollGateway (self : ι) (pendings confirms : Q)
  | releaseConfirm (confirms : Q)
  | produceTest (self : ι) (queue : Q)
  | consumeTest (self : ι) (queue : Q)

/-- The code of a call. -/
def StageCall.code [DecidableEq ι] : StageCall Q ι → Code P Q ι Unit
  | ingestItchFrame market frame => Code.ingestItchFrame market frame
  | ingestMtbtFrame market frame fuel => Code.ingestMtbtFrame market fuel frame
  | ingestMcxTobFrame market frame => Code.ingestMcxTobFrame market frame
  | feedBbo market tick => Code.store market tick
  | pollItch self market signals => Code.itchPollOnce self market signals
  | pollMtbt self market signals => Code.mtbtPollOnce self market signals
  | pollSbe self market signals => Code.sbePollOnce self market signals
  | pollMcx self market signals => Code.mcxPollOnce self market signals
  | onTick self signals tick => Code.producerOnTick self signals tick none
  | drainMarket itch mtbt mcx market signals => Code.drainMarket itch mtbt mcx market signals
  | pollOuch self signals pending => Code.ouchPollOnce self signals pending
  | pollNnf self signals pending => Code.nnfPollOnce self signals pending
  | pollSbeOrder self signals pending => Code.sbeOrderPollOnce self signals pending
  | pollMcxOrder self signals pending => Code.mcxOrderPollOnce self signals pending
  | pollGateway self pendings confirms => Code.gatewayPollOnce self pendings confirms
  | releaseConfirm confirms => Code.releaseConfirm confirms
  | produceTest self queue => Code.producerMain self queue
  | consumeTest self queue => Code.consumerMain self queue

end Trading

end Hft
