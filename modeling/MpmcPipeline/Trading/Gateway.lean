import MpmcPipeline.Trading.Consumer

/-!
# The gateway: from orders to confirms

`ExchangeGateway` (`gateway.hpp`) takes the oldest order it can get, writes a confirm
over it and hands it on; anything that is no order it releases. Each venue has its own
counters for the references the exchange gives (`Counters`).
-/

namespace Hft

open Handoff (Env)

namespace Trading

variable {P : PoolCapacity} {cap : Stage → Capacity}

/-- The exchange references. -/
structure Counters where
  nextOuchRef : BitVec 64 := 1
  nextNnfOrder : BitVec 64 := 1
  nextSbeSeq : BitVec 64 := 1
  nextMcxOrder : BitVec 64 := 1
  nextMcxExec : BitVec 64 := 1

/-- `ExchangeGateway` -/
structure ExchangeGateway where
  counters : Counters := {}
  confirms : BitVec 64 := 0

/-- The `switch` of `poll_once`: the confirm of an order, and the references after it. -/
def Counters.answer (self : Counters) (pending : TaggedMessage) : Option (Confirm × Counters) :=
  match pending.kind with
  | .ouch =>
    some (.ouch (makeOuchConfirm (pending.read OuchEnterOrder.codec) self.nextOuchRef),
      { self with nextOuchRef := self.nextOuchRef + 1 })
  | .nnf =>
    some (.nnf (makeNnfConfirm (pending.read NnfOrderEntry.codec)
        (Double.ofNat self.nextNnfOrder.toNat)),
      { self with nextNnfOrder := self.nextNnfOrder + 1 })
  | .sbeOrderEntry =>
    some (.sbe (makeSbeFastConfirm (pending.read CreateOrderReqV5.codec) self.nextSbeSeq),
      { self with nextSbeSeq := self.nextSbeSeq + 1 })
  | .mcxOrder =>
    some (.mcx (makeMcxConfirm (pending.read NewOrderSingleShort.codec) self.nextMcxOrder
        self.nextMcxExec),
      { self with nextMcxOrder := self.nextMcxOrder + 1, nextMcxExec := self.nextMcxExec + 1 })
  | _ => none

/-- `ExchangeGateway::poll_once` -/
def ExchangeGateway.pollOnce (env : Env) (mem : Memory P cap) (self : ExchangeGateway) :
    Option (Memory P cap × ExchangeGateway × List (Event P)) :=
  match mem.tryPop .pending with
  | (none, mem) => some (mem, self, [])
  | (some pending, mem) =>
    match self.counters.answer (mem.load pending) with
    | none => some (mem.release pending, self, [.released pending])
    | some (ack, counters) =>
      match (mem.write pending (ack.writeTo (mem.load pending))).push env .confirm pending with
      | none => none
      | some mem =>
        some (mem, { self with counters, confirms := self.confirms + 1 },
          [.confirmed pending ack])

end Trading

end Hft
