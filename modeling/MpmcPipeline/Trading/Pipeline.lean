import MpmcPipeline.Trading.Gateway
import MpmcPipeline.Trading.Ingress

/-!
# The pipeline

Feeds, producers, consumers and the gateway on one pool and four queues, each call
running to its end before the next one starts, in any order. `World.step` is one call;
it shows what the call did to pool messages, and is `none` where the call does not
return (a push that finds no empty cell, a split that does not end).
-/

namespace Hft

open Handoff (Env)

namespace Trading

variable {P : PoolCapacity} {cap : Stage → Capacity}

/-- The arguments of the constructors. -/
structure Config where
  itchBandBps : BitVec 32 := Strategy.defaultBandBps
  mtbtBandBps : BitVec 32 := Strategy.defaultBandBps
  sbeBandBps : BitVec 32 := Strategy.defaultBandBps
  mcxBandBps : BitVec 32 := Strategy.defaultBandBps
  traderId : BitVec 32 := 1
  symbolId : BitVec 64 := 1
  senderSubId : BitVec 32 := 1
  simpleSecurityId : BitVec 32 := 5001

/-- The whole pipeline. -/
structure World (P : PoolCapacity) (cap : Stage → Capacity) where
  mem : Memory P cap
  producers : Producers
  sbe : Producer
  consumers : Consumers
  sbeOrder : SbeOrderEntryConsumer
  gateway : ExchangeGateway

/-- A fresh pool, whatever was mapped, and empty queues. -/
def World.init (config : Config) (message : Ptr P → TaggedMessage) : World P cap where
  mem := ⟨TaggedPool.fresh message, fun q => MPMC.fresh (cap q) (Ptr P)⟩
  producers :=
    { itch := { bandBps := config.itchBandBps }, mtbt := { bandBps := config.mtbtBandBps },
      mcx := { bandBps := config.mcxBandBps } }
  sbe := { bandBps := config.sbeBandBps }
  consumers :=
    { nnf := { traderId := config.traderId },
      mcx :=
        { senderSubId := config.senderSubId, simpleSecurityId := config.simpleSecurityId } }
  sbeOrder := { symbolId := config.symbolId }
  gateway := {}

/-- A call. The ticks of `onItchTick` and the like come without a message
(`owned == nullptr`); `feedBbo` is how `main` feeds a top-of-book tick of the SBE feed. -/
inductive Op
  | ingestItchFrame (frame : Option (List Byte))
  | ingestMtbtFrame (frame : Option (List Byte)) (fuel : ℕ)
  | ingestMcxTobFrame (frame : Option (List Byte))
  | feedBbo (tick : BestObRpi)
  | pollItch
  | pollMtbt
  | pollSbe
  | pollMcx
  | drainMarket
  | onItchTick (tick : ItchAddOrder)
  | onMtbtTick (tick : MtbtNewOrder)
  | onSbeTick (tick : BestObRpi)
  | onMcxTick (tick : TopOfBook)
  | pollOuch
  | pollNnf
  | pollSbeOrder
  | pollMcxOrder
  | pollGateway
  | releaseConfirm

/-- A call and the environment of each of its uses of the pool and the queues. -/
structure Action where
  op : Op
  envs : ℕ → Env

namespace World

/-- The end of a call that leaves memory, and something that `set` puts in its place. -/
def ended {σ : Type} (set : σ → World P cap) :
    Option (Memory P cap × σ × List (Event P)) → Option (World P cap × List (Event P))
  | none => none
  | some (mem, self, es) => some ({ set self with mem }, es)

theorem ended_eq_some {σ : Type} {set : σ → World P cap}
    {result : Option (Memory P cap × σ × List (Event P))} {w' : World P cap}
    {es : List (Event P)} (h : ended set result = some (w', es)) :
    ∃ mem self, result = some (mem, self, es) ∧ w' = { set self with mem } := by
  match result, h with
  | some (mem, self, _), rfl => exact ⟨mem, self, rfl, rfl⟩

/-- One call. What an ingest call returns is dropped. -/
def step (w : World P cap) (a : Action) : Option (World P cap × List (Event P)) :=
  let env := a.envs 0
  let setItch itch := { w with producers := { w.producers with itch } }
  let setMtbt mtbt := { w with producers := { w.producers with mtbt } }
  let setSbe sbe := { w with sbe }
  let setMcx mcx := { w with producers := { w.producers with mcx } }
  match a.op with
  | .ingestItchFrame frame => ended (fun _ => w) (Trading.ingestItchFrame a.envs w.mem frame)
  | .ingestMtbtFrame frame fuel =>
    ended (fun _ => w) (Trading.ingestMtbtFrame a.envs fuel w.mem frame)
  | .ingestMcxTobFrame frame => ended (fun _ => w) (Trading.ingestMcxTobFrame env w.mem frame)
  | .feedBbo tick => ended (fun _ => w) (storeTick env w.mem (.sbe tick))
  | .pollItch => ended setItch (ItchProducer.pollOnce env w.mem w.producers.itch)
  | .pollMtbt => ended setMtbt (MtbtProducer.pollOnce env w.mem w.producers.mtbt)
  | .pollSbe => ended setSbe (SbeBboProducer.pollOnce env w.mem w.sbe)
  | .pollMcx => ended setMcx (McxTobProducer.pollOnce env w.mem w.producers.mcx)
  | .drainMarket =>
    ended (fun producers => { w with producers }) (Trading.drainMarket env w.mem w.producers)
  | .onItchTick tick => ended setItch (ItchProducer.onTick env w.mem w.producers.itch tick none)
  | .onMtbtTick tick => ended setMtbt (MtbtProducer.onTick env w.mem w.producers.mtbt tick none)
  | .onSbeTick tick => ended setSbe (SbeBboProducer.onTick env w.mem w.sbe tick none)
  | .onMcxTick tick => ended setMcx (McxTobProducer.onTick env w.mem w.producers.mcx tick none)
  | .pollOuch =>
    ended (fun ouch => { w with consumers := { w.consumers with ouch } })
      (w.consumers.ouch.pollOnce env w.mem)
  | .pollNnf =>
    ended (fun nnf => { w with consumers := { w.consumers with nnf } })
      (w.consumers.nnf.pollOnce env w.mem)
  | .pollSbeOrder => ended (fun sbeOrder => { w with sbeOrder }) (w.sbeOrder.pollOnce env w.mem)
  | .pollMcxOrder =>
    ended (fun mcx => { w with consumers := { w.consumers with mcx } })
      (w.consumers.mcx.pollOnce env w.mem)
  | .pollGateway => ended (fun gateway => { w with gateway }) (w.gateway.pollOnce env w.mem)
  -- `main` reads the confirm and gives the message back
  | .releaseConfirm =>
    match w.mem.tryPop .confirm with
    | (none, mem) => some ({ w with mem }, [])
    | (some confirm, mem) => some ({ w with mem := mem.release confirm }, [.released confirm])

end World

/-- The pipeline as a machine. -/
abbrev machine (P : PoolCapacity) (cap : Stage → Capacity) :
    Machine (World P cap) Action (Event P) where
  step := World.step

end Trading

end Hft
