import MpmcPipeline.Mem.Sequential
import MpmcPipeline.Trading.Messages

/-!
# Producers: from ticks to signals

The four producers of `producer.hpp` take market messages and turn them into signals in
place. They differ in the kind of message they accept, in the record they read and in the
signal they build, and in nothing else: `producerOnTick` and `producerPollOnce` are the
common text, and each producer is these two at its own kind and record.

A call is computed to its end. It shows as events what it did to pool messages, and it is
`none` where a push never finds an empty cell. What an `on_tick` was given is shown with the
message it came in, or with the one acquired for its signal. `route_market_tick` hands a
message to the producer of its kind.
-/

namespace Hft

open Handoff (Env)

namespace Trading

/-- The queues between the stages. -/
inductive Stage
  | market
  | signal
  | pending
  | confirm
  deriving DecidableEq

instance : Fintype Stage where
  elems := {.market, .signal, .pending, .confirm}
  complete stage := by cases stage <;> decide

theorem Stage.sum_eq (f : Stage → ℕ) :
    ∑ stage, f stage = f .market + f .signal + f .pending + f .confirm := by
  rw [show (Finset.univ : Finset Stage) = {.market, .signal, .pending, .confirm} from rfl]
  simp [add_assoc]

/-- The pool and the four queues. -/
abbrev Memory (P : PoolCapacity) (cap : Stage → Capacity) := Handoff.Shared P cap

/-- Where a signal comes from: the tick, the reference price it was evaluated against,
the side and the token issued for it. -/
structure Origin where
  tick : Tick
  ref : BitVec 32
  side : Side
  token : BitVec 32

/-- The signal built for an origin. -/
def Origin.signal (origin : Origin) : StrategySignal :=
  origin.tick.signal origin.side origin.token

/-- What a call does to a message of the pool. An acquired message is filled with `source`, if
that is a tick. `evaluated` is the call `on_tick(tick, …)` at a time when `next_token_` was
`next`; the message is the one the tick came in, or the one that was acquired for its signal. -/
inductive Event (P : PoolCapacity)
  | acquired (p : Ptr P) (source : Option Tick)
  | evaluated (p : Ptr P) (tick : Tick) (next : BitVec 32)
  | released (p : Ptr P)
  | signalled (p : Ptr P) (origin : Origin)
  | ordered (p : Ptr P) (order : Order)
  | confirmed (p : Ptr P) (ack : Confirm)

/-- The message an event is about. -/
def Event.ptr {P : PoolCapacity} : Event P → Ptr P
  | acquired p _ | evaluated p _ _ | released p | signalled p _ | ordered p _
  | confirmed p _ => p

/-- A producer. -/
structure Producer where
  bandBps : BitVec 32 := Strategy.defaultBandBps
  refPrice : BitVec 32 := 0
  nextToken : BitVec 32 := 1
  signals : BitVec 64 := 0

variable {P : PoolCapacity} {cap : Stage → Capacity}

/-- The end of an `on_tick` that emits: `encode_signal`, `push` and the counter. -/
def emit (env : Env) (mem : Memory P cap) (self : Producer) (origin : Origin) (out : Ptr P) :
    Option (Memory P cap × Producer × List (Event P)) :=
  match (mem.write out (Strategy.encodeSignal origin.signal (mem.load out))).push env
      .signal out with
  | none => none
  | some mem => some (mem, { self with signals := self.signals + 1 }, [.signalled out origin])

/-- `on_tick(tick, owned)`, with `none` for `owned == nullptr`. -/
def producerOnTick (env : Env) (mem : Memory P cap) (self : Producer) (tick : Tick)
    (owned : Option (Ptr P)) : Option (Memory P cap × Producer × List (Event P)) :=
  let refPrice := Strategy.updateRefPrice self.refPrice tick.price
  let side := Strategy.evaluate refPrice tick.price self.bandBps
  let next := self.nextToken
  let self := { self with refPrice }
  if side = .none then
    -- the message the tick came in is not needed any more
    match owned with
    | some msg => some (mem.release msg, self, [.evaluated msg tick next, .released msg])
    | none => some (mem, self, [])
  else
    -- the token is issued before a message is at hand, and is lost if none can be acquired
    let origin : Origin := ⟨tick, refPrice, side, next⟩
    let self := { self with nextToken := next + 1 }
    match owned with
    | some msg =>
      match emit env mem self origin msg with
      | none => none
      | some (mem, self, es) => some (mem, self, .evaluated msg tick next :: es)
    | none =>
      match mem.acquire env with
      -- the tick is dropped without a word
      | (none, mem) => some (mem, self, [])
      | (some msg, mem) =>
        match emit env mem self origin msg with
        | none => none
        | some (mem, self, es) =>
          some (mem, self, .acquired msg none :: .evaluated msg tick next :: es)

/-- A producer whose reference price has followed the tick. -/
def Producer.follow (self : Producer) (tick : Tick) : Producer :=
  { self with refPrice := Strategy.updateRefPrice self.refPrice tick.price }

/-- What the tick becomes a signal from. -/
def Producer.origin (self : Producer) (tick : Tick) : Origin where
  tick := tick
  ref := (self.follow tick).refPrice
  side := Strategy.evaluate (self.follow tick).refPrice tick.price self.bandBps
  token := self.nextToken

/-- **What an `on_tick` does**, with the guards under which it does it: without a side the message
goes back, with one the signal is pushed in the tick's message or in a new one, if there is a slot.
-/
inductive TickStep (env : Env) (mem : Memory P cap) (self : Producer) (tick : Tick) :
    Option (Ptr P) → Memory P cap → Producer → List (Event P) → Prop
  | released (msg : Ptr P) (h_side : (self.origin tick).side = .none) :
      TickStep env mem self tick (some msg) (mem.release msg) (self.follow tick)
        [.evaluated msg tick self.nextToken, .released msg]
  | passed (h_side : (self.origin tick).side = .none) :
      TickStep env mem self tick none mem (self.follow tick) []
  | signal {mem' : Memory P cap} (msg : Ptr P) (h_side : (self.origin tick).side ≠ .none)
      (h_push : (mem.write msg (Strategy.encodeSignal (self.origin tick).signal
        (mem.load msg))).push env .signal msg = some mem') :
      TickStep env mem self tick (some msg) mem'
        { self.follow tick with nextToken := self.nextToken + 1, signals := self.signals + 1 }
        [.evaluated msg tick self.nextToken, .signalled msg (self.origin tick)]
  | exhausted {mem' : Memory P cap} (h_side : (self.origin tick).side ≠ .none)
      (h_acquire : mem.acquire env = (none, mem')) :
      TickStep env mem self tick none mem'
        { self.follow tick with nextToken := self.nextToken + 1 } []
  | signalNew {mem₁ mem' : Memory P cap} (msg : Ptr P) (h_side : (self.origin tick).side ≠ .none)
      (h_acquire : mem.acquire env = (some msg, mem₁))
      (h_push : (mem₁.write msg (Strategy.encodeSignal (self.origin tick).signal
        (mem₁.load msg))).push env .signal msg = some mem') :
      TickStep env mem self tick none mem'
        { self.follow tick with nextToken := self.nextToken + 1, signals := self.signals + 1 }
        [.acquired msg none, .evaluated msg tick self.nextToken,
          .signalled msg (self.origin tick)]

section

variable {env : Env} {mem mem' : Memory P cap} {self self' : Producer} {es : List (Event P)}

theorem emit_eq_some {origin : Origin} {out : Ptr P}
    (h : emit env mem self origin out = some (mem', self', es)) :
    (mem.write out (Strategy.encodeSignal origin.signal (mem.load out))).push env .signal out =
        some mem' ∧ self' = { self with signals := self.signals + 1 } ∧
      es = [.signalled out origin] := by
  unfold emit at h
  split at h
  · cases h
  · next h_push =>
    cases h
    exact ⟨h_push, rfl, rfl⟩

/-- **Inversion.** An `on_tick` that returns is one of these, whatever the venue. -/
theorem producerOnTick_step {tick : Tick} {owned : Option (Ptr P)}
    (h : producerOnTick env mem self tick owned = some (mem', self', es)) :
    TickStep env mem self tick owned mem' self' es := by
  unfold producerOnTick at h
  dsimp only at h
  split at h
  · next h_side =>
    -- the strategy sees nothing to do
    split at h
    · cases h
      exact .released _ h_side
    · cases h
      exact .passed h_side
  · next h_side =>
    split at h
    · -- the tick's own message becomes the signal
      split at h
      · cases h
      · next h_emit =>
        cases h
        obtain ⟨h_push, rfl, rfl⟩ := emit_eq_some h_emit
        exact .signal _ h_side h_push
    · split at h
      · next h_acquire =>
        cases h
        exact .exhausted h_side h_acquire
      · next h_acquire =>
        split at h
        · cases h
        · next h_emit =>
          cases h
          obtain ⟨h_push, rfl, rfl⟩ := emit_eq_some h_emit
          exact .signalNew _ h_side h_acquire h_push

end

/-- `poll_once` of a producer of messages of kind `kind`, read by `read`. -/
def producerPollOnce (kind : Kind) (read : TaggedMessage → Tick) (env : Env)
    (mem : Memory P cap) (self : Producer) :
    Option (Memory P cap × Producer × List (Event P)) :=
  match mem.tryPop .market with
  | (none, mem) => some (mem, self, [])
  | (some msg, mem) =>
    if (mem.load msg).kind = kind then
      producerOnTick env mem self (read (mem.load msg)) (some msg)
    -- a tick of another feed is not handed on but lost
    else some (mem.release msg, self, [.released msg])

/-- `ItchProducer::on_tick` -/
def ItchProducer.onTick (env : Env) (mem : Memory P cap) (self : Producer)
    (tick : ItchAddOrder) (owned : Option (Ptr P)) :=
  producerOnTick env mem self (.itch tick) owned

/-- `ItchProducer::poll_once` -/
def ItchProducer.pollOnce (env : Env) (mem : Memory P cap) (self : Producer) :=
  producerPollOnce .itch (fun msg => .itch (msg.read ItchAddOrder.codec)) env mem self

/-- `MtbtProducer::on_tick` -/
def MtbtProducer.onTick (env : Env) (mem : Memory P cap) (self : Producer)
    (tick : MtbtNewOrder) (owned : Option (Ptr P)) :=
  producerOnTick env mem self (.mtbt tick) owned

/-- `MtbtProducer::poll_once` -/
def MtbtProducer.pollOnce (env : Env) (mem : Memory P cap) (self : Producer) :=
  producerPollOnce .mtbt (fun msg => .mtbt (msg.read MtbtNewOrder.codec)) env mem self

/-- `SbeBboProducer::on_tick` -/
def SbeBboProducer.onTick (env : Env) (mem : Memory P cap) (self : Producer)
    (tick : BestObRpi) (owned : Option (Ptr P)) :=
  producerOnTick env mem self (.sbe tick) owned

/-- `SbeBboProducer::poll_once` -/
def SbeBboProducer.pollOnce (env : Env) (mem : Memory P cap) (self : Producer) :=
  producerPollOnce .sbeMarket (fun msg => .sbe (msg.read BestObRpi.codec)) env mem self

/-- `McxTobProducer::on_tick` -/
def McxTobProducer.onTick (env : Env) (mem : Memory P cap) (self : Producer)
    (tick : TopOfBook) (owned : Option (Ptr P)) :=
  producerOnTick env mem self (.mcx tick) owned

/-- `McxTobProducer::poll_once` -/
def McxTobProducer.pollOnce (env : Env) (mem : Memory P cap) (self : Producer) :=
  producerPollOnce .mcxMarket (fun msg => .mcx (msg.read TopOfBook.codec)) env mem self

/-- The three producers that `main` routes to. -/
structure Producers where
  itch : Producer := {}
  mtbt : Producer := {}
  mcx : Producer := {}

/-- `route_market_tick` -/
def routeMarketTick (env : Env) (mem : Memory P cap) (self : Producers) (msg : Ptr P) :
    Option (Memory P cap × Producers × List (Event P)) :=
  match (mem.load msg).kind with
  | .itch =>
    match ItchProducer.onTick env mem self.itch ((mem.load msg).read ItchAddOrder.codec)
        (some msg) with
    | none => none
    | some (mem, itch, es) => some (mem, { self with itch }, es)
  | .mtbt =>
    match MtbtProducer.onTick env mem self.mtbt ((mem.load msg).read MtbtNewOrder.codec)
        (some msg) with
    | none => none
    | some (mem, mtbt, es) => some (mem, { self with mtbt }, es)
  | .mcxMarket =>
    match McxTobProducer.onTick env mem self.mcx ((mem.load msg).read TopOfBook.codec)
        (some msg) with
    | none => none
    | some (mem, mcx, es) => some (mem, { self with mcx }, es)
  -- the default case, which is also that of the SBE ticks
  | _ => some (mem.release msg, self, [.released msg])

/-- One round of the loop of `main` over the market queue. -/
def drainMarket (env : Env) (mem : Memory P cap) (self : Producers) :
    Option (Memory P cap × Producers × List (Event P)) :=
  match mem.tryPop .market with
  | (none, mem) => some (mem, self, [])
  | (some msg, mem) => routeMarketTick env mem self msg

end Trading

end Hft
