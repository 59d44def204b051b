import MpmcPipeline.Trading.Producer

/-!
# Consumers: from signals to orders

The four consumers of `consumer.hpp` share one signal queue. A consumer takes the oldest
signal it can get; one of another feed it puts back, one without a side it releases, and
for one of its own feed it writes an order over the signal and submits it.
`consumerPollOnce` is the common text, and each consumer is that text at its own feed and
order. `drain_signals` polls three of them in turn.
-/

namespace Hft

open Handoff (Env)

namespace Trading

variable {P : PoolCapacity} {cap : Stage → Capacity}

/-- `poll_once` of a consumer of the signals of `feed`; the flag says whether an order
has been submitted. -/
def consumerPollOnce (feed : Kind) (order : StrategySignal → Order) (env : Env)
    (mem : Memory P cap) : Option (Memory P cap × Bool × List (Event P)) :=
  match mem.tryPop .signal with
  | (none, mem) => some (mem, false, [])
  | (some msg, mem) =>
    if (mem.load msg).kind = .signal then
      let signal := Strategy.decodeSignal (mem.load msg)
      if signal.feed ≠ feed then
        -- back to the tail, behind the signals that came later
        match mem.push env .signal msg with
        | none => none
        | some mem => some (mem, false, [])
      else if signal.side = .none then some (mem.release msg, false, [.released msg])
      else
        -- the order replaces the signal in the same message
        match (mem.write msg ((order signal).writeTo (mem.load msg))).push env .pending msg with
        | none => none
        | some mem => some (mem, true, [.ordered msg (order signal)])
    else some (mem.release msg, false, [.released msg])

/-- **What a `poll_once` does**, with the guards under which it does it: nothing, release, put back
or submit, in the order in which the source asks. -/
inductive ConsumerCall (feed : Kind) (order : StrategySignal → Order) (env : Env)
    (mem : Memory P cap) : Memory P cap → Bool → List (Event P) → Prop
  | empty {mem' : Memory P cap} (h_pop : mem.tryPop .signal = (none, mem')) :
      ConsumerCall feed order env mem mem' false []
  | noSignal {mem₁ : Memory P cap} (msg : Ptr P)
      (h_pop : mem.tryPop .signal = (some msg, mem₁)) (h_kind : (mem₁.load msg).kind ≠ .signal) :
      ConsumerCall feed order env mem (mem₁.release msg) false [.released msg]
  | putBack {mem₁ mem' : Memory P cap} (msg : Ptr P)
      (h_pop : mem.tryPop .signal = (some msg, mem₁)) (h_kind : (mem₁.load msg).kind = .signal)
      (h_feed : (Strategy.decodeSignal (mem₁.load msg)).feed ≠ feed)
      (h_push : mem₁.push env .signal msg = some mem') :
      ConsumerCall feed order env mem mem' false []
  | noSide {mem₁ : Memory P cap} (msg : Ptr P)
      (h_pop : mem.tryPop .signal = (some msg, mem₁)) (h_kind : (mem₁.load msg).kind = .signal)
      (h_feed : (Strategy.decodeSignal (mem₁.load msg)).feed = feed)
      (h_side : (Strategy.decodeSignal (mem₁.load msg)).side = .none) :
      ConsumerCall feed order env mem (mem₁.release msg) false [.released msg]
  | submit {mem₁ mem' : Memory P cap} (msg : Ptr P)
      (h_pop : mem.tryPop .signal = (some msg, mem₁)) (h_kind : (mem₁.load msg).kind = .signal)
      (h_feed : (Strategy.decodeSignal (mem₁.load msg)).feed = feed)
      (h_side : (Strategy.decodeSignal (mem₁.load msg)).side ≠ .none)
      (h_push : (mem₁.write msg ((order (Strategy.decodeSignal (mem₁.load msg))).writeTo
        (mem₁.load msg))).push env .pending msg = some mem') :
      ConsumerCall feed order env mem mem' true
        [.ordered msg (order (Strategy.decodeSignal (mem₁.load msg)))]

/-- **Inversion.** A poll that returns is one of these five, whatever the venue. -/
theorem consumerPollOnce_call {feed : Kind} {order : StrategySignal → Order} {env : Env}
    {mem mem' : Memory P cap} {submitted : Bool} {es : List (Event P)}
    (h : consumerPollOnce feed order env mem = some (mem', submitted, es)) :
    ConsumerCall feed order env mem mem' submitted es := by
  -- the branches of the source, in its order
  unfold consumerPollOnce at h
  split at h
  · next h_pop =>
    cases h
    exact .empty h_pop
  · next msg mem₁ h_pop =>
    split at h
    · next h_kind =>
      dsimp only at h
      split at h
      · next h_feed =>
        split at h
        · cases h
        · next h_push =>
          cases h
          exact .putBack msg h_pop h_kind h_feed h_push
      · next h_feed =>
        have h_feed := not_not.mp h_feed
        split at h
        · next h_side =>
          cases h
          exact .noSide msg h_pop h_kind h_feed h_side
        · next h_side =>
          split at h
          · cases h
          · next h_push =>
            cases h
            exact .submit msg h_pop h_kind h_feed h_side h_push
    · next h_kind =>
      cases h
      exact .noSignal msg h_pop h_kind

/-- The end of a `poll_once`: the consumer is `submitted` if an order has been submitted. -/
def polled {σ : Type} (self submitted : σ) :
    Option (Memory P cap × Bool × List (Event P)) → Option (Memory P cap × σ × List (Event P))
  | none => none
  | some (mem, true, es) => some (mem, submitted, es)
  | some (mem, false, es) => some (mem, self, es)

section

variable {σ : Type} {self self' submitted : σ} {mem : Memory P cap} {es : List (Event P)}
  {result : Option (Memory P cap × Bool × List (Event P))}

theorem polled_eq_some (h : polled self submitted result = some (mem, self', es)) :
    ∃ b, result = some (mem, b, es) ∧ self' = cond b submitted self := by
  match result, h with
  | some (_, true, _), rfl => exact ⟨true, rfl, rfl⟩
  | some (_, false, _), rfl => exact ⟨false, rfl, rfl⟩

theorem exists_polled (self submitted : σ) {b : Bool} (h : result = some (mem, b, es)) :
    ∃ self', polled self submitted result = some (mem, self', es) := by
  subst h
  cases b <;> exact ⟨_, rfl⟩

end

/-- `OuchConsumer` -/
structure OuchConsumer where
  submitted : BitVec 64 := 0

/-- `OuchConsumer::poll_once` -/
def OuchConsumer.pollOnce (env : Env) (mem : Memory P cap) (self : OuchConsumer) :
    Option (Memory P cap × OuchConsumer × List (Event P)) :=
  polled self { self with submitted := self.submitted + 1 }
    (consumerPollOnce .itch (fun signal => .ouch (ouchOrder signal)) env mem)

/-- `NnfConsumer` -/
structure NnfConsumer where
  traderId : BitVec 32 := 1
  submitted : BitVec 64 := 0

/-- `NnfConsumer::poll_once` -/
def NnfConsumer.pollOnce (env : Env) (mem : Memory P cap) (self : NnfConsumer) :
    Option (Memory P cap × NnfConsumer × List (Event P)) :=
  polled self { self with submitted := self.submitted + 1 }
    (consumerPollOnce .mtbt (fun signal => .nnf (nnfOrder self.traderId signal)) env mem)

/-- `SbeOrderEntryConsumer` -/
structure SbeOrderEntryConsumer where
  symbolId : BitVec 64 := 1
  submitted : BitVec 64 := 0

/-- `SbeOrderEntryConsumer::poll_once` -/
def SbeOrderEntryConsumer.pollOnce (env : Env) (mem : Memory P cap)
    (self : SbeOrderEntryConsumer) :
    Option (Memory P cap × SbeOrderEntryConsumer × List (Event P)) :=
  polled self { self with submitted := self.submitted + 1 }
    (consumerPollOnce .sbeMarket (fun signal => .sbe (sbeOrder self.symbolId signal)) env mem)

/-- `McxOrderConsumer` -/
structure McxOrderConsumer where
  senderSubId : BitVec 32 := 1
  simpleSecurityId : BitVec 32 := 5001
  nextSeq : BitVec 32 := 1
  submitted : BitVec 64 := 0

/-- `McxOrderConsumer::poll_once` -/
def McxOrderConsumer.pollOnce (env : Env) (mem : Memory P cap) (self : McxOrderConsumer) :
    Option (Memory P cap × McxOrderConsumer × List (Event P)) :=
  polled self { self with nextSeq := self.nextSeq + 1, submitted := self.submitted + 1 }
    (consumerPollOnce .mcxMarket (fun signal =>
      .mcx (mcxOrder self.nextSeq self.senderSubId self.simpleSecurityId signal)) env mem)

/-- The three consumers that `main` drains the signals with. -/
structure Consumers where
  ouch : OuchConsumer := {}
  nnf : NnfConsumer := {}
  mcx : McxOrderConsumer := {}

/-- One round of `drain_signals`. -/
def drainRound (env : Env) (mem : Memory P cap) (self : Consumers) :
    Option (Memory P cap × Consumers × List (Event P)) :=
  match self.ouch.pollOnce env mem with
  | none => none
  | some (mem, ouch, es) =>
    match self.nnf.pollOnce env mem with
    | none => none
    | some (mem, nnf, es') =>
      match self.mcx.pollOnce env mem with
      | none => none
      | some (mem, mcx, es'') => some (mem, ⟨ouch, nnf, mcx⟩, es ++ es' ++ es'')

/-- `drain_signals(ouch, nnf, mcx, rounds)` -/
def drainSignals (env : Env) :
    ℕ → Memory P cap → Consumers → Option (Memory P cap × Consumers × List (Event P))
  | 0, mem, self => some (mem, self, [])
  | rounds + 1, mem, self =>
    match drainRound env mem self with
    | none => none
    | some (mem, self, es) =>
      match drainSignals env rounds mem self with
      | none => none
      | some (mem, self, es') => some (mem, self, es ++ es')

end Trading

end Hft
