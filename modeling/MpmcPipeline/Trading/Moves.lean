import MpmcPipeline.Trading.Pipeline

/-!
# What a call does, in moves

A call holds at most one message at a time. `Move` says once what a stage can do with
memory, the message in hand and the exchange references; `World.step_moves` is the
inversion of `World.step` into moves, from no message in hand to none, and
`World.core_inv` is the invariant rule: what every move keeps holds after every run of
calls.
-/

namespace Hft

open Handoff (Cell Env Placed Taken)

namespace Trading

variable {P : PoolCapacity} {cap : Stage → Capacity}

/-- What the moves are about: memory, the exchange references, and the message in hand. -/
structure Core (P : PoolCapacity) (cap : Stage → Capacity) where
  mem : Memory P cap
  counters : Counters
  hand : Option (Ptr P)

/-- The order is what the consumer of the signal's feed builds from it. -/
def OrderOf (signal : StrategySignal) : Order → Prop
  | .ouch order => signal.feed = .itch ∧ order = ouchOrder signal
  | .nnf order => signal.feed = .mtbt ∧ ∃ traderId, order = nnfOrder traderId signal
  | .sbe order => signal.feed = .sbeMarket ∧ ∃ symbolId, order = sbeOrder symbolId signal
  | .mcx order => signal.feed = .mcxMarket ∧ ∃ seq senderSubId simpleSecurityId,
      order = mcxOrder seq senderSubId simpleSecurityId signal

/-- The strategy gave the tick its side, which is not `none`. -/
structure Origin.Evaluated (bandBps : Kind → BitVec 32) (origin : Origin) : Prop where
  side_eq : origin.side =
    Strategy.evaluate origin.ref origin.tick.price (bandBps origin.tick.kind)
  side_ne : origin.side ≠ .none

/-- **What a stage does.** `bandBps` is the band of the producer of each kind of tick. A tick
is evaluated with its side: the message it came in is released (`dismiss`) or takes the
signal (`signal`), or the signal goes into a message acquired for it (`signalNew`). The
token of a signal is the one that was next. -/
inductive Move (bandBps : Kind → BitVec 32) : Core P cap → List (Event P) → Core P cap → Prop
  | take {mem mem' : Memory P cap} {counters : Counters} {cell : Cell cap} (p : Ptr P)
      (h_taken : Taken mem cell p mem') :
      Move bandBps ⟨mem, counters, none⟩ [] ⟨mem', counters, some p⟩
  | put {mem mem' : Memory P cap} {counters : Counters} {cell : Cell cap} (p : Ptr P)
      (h_placed : Placed mem cell p mem') :
      Move bandBps ⟨mem, counters, some p⟩ [] ⟨mem', counters, none⟩
  | acquire {mem : Memory P cap} {counters : Counters} (p : Ptr P) (tick : Tick)
      (m : TaggedMessage) (h_free : (mem.pool.slots p).state = 0) (h_tick : tick.HeldBy m) :
      Move bandBps ⟨mem, counters, none⟩ [.acquired p (some tick)]
        ⟨{ mem with pool := (mem.pool.setState p 1).store p m }, counters, some p⟩
  | release {mem : Memory P cap} {counters : Counters} (p : Ptr P) :
      Move bandBps ⟨mem, counters, some p⟩ [.released p]
        ⟨{ mem with pool := mem.pool.setState p 0 }, counters, none⟩
  | dismiss {mem : Memory P cap} {counters : Counters} (p : Ptr P) (tick : Tick)
      (next : BitVec 32) (h_tick : tick.HeldBy (mem.load p)) :
      Move bandBps ⟨mem, counters, some p⟩ [.evaluated p tick next, .released p]
        ⟨{ mem with pool := mem.pool.setState p 0 }, counters, none⟩
  | signal {mem : Memory P cap} {counters : Counters} (p : Ptr P) (origin : Origin)
      (h_tick : origin.tick.HeldBy (mem.load p)) (h_origin : origin.Evaluated bandBps) :
      Move bandBps ⟨mem, counters, some p⟩
        [.evaluated p origin.tick origin.token, .signalled p origin]
        ⟨mem.write p (Strategy.encodeSignal origin.signal (mem.load p)), counters, some p⟩
  | signalNew {mem mem' : Memory P cap} {counters : Counters} (p : Ptr P) (origin : Origin)
      (h_free : (mem.pool.slots p).state = 0)
      (h_mem : mem' = { mem with pool := (mem.pool.setState p 1).store p TaggedMessage.fresh })
      (h_origin : origin.Evaluated bandBps) :
      Move bandBps ⟨mem, counters, none⟩
        [.acquired p none, .evaluated p origin.tick origin.token, .signalled p origin]
        ⟨mem'.write p (Strategy.encodeSignal origin.signal (mem'.load p)), counters, some p⟩
  | order {mem : Memory P cap} {counters : Counters} (p : Ptr P) (order : Order)
      (h_kind : (mem.load p).kind = .signal)
      (h_order : OrderOf (Strategy.decodeSignal (mem.load p)) order) :
      Move bandBps ⟨mem, counters, some p⟩ [.ordered p order]
        ⟨mem.write p (order.writeTo (mem.load p)), counters, some p⟩
  | confirm {mem : Memory P cap} {counters counters' : Counters} (p : Ptr P) (ack : Confirm)
      (h_ack : counters.answer (mem.load p) = some (ack, counters')) :
      Move bandBps ⟨mem, counters, some p⟩ [.confirmed p ack]
        ⟨mem.write p (ack.writeTo (mem.load p)), counters', some p⟩

/-- Moves one after the other. -/
inductive Moves (bandBps : Kind → BitVec 32) : Core P cap → List (Event P) → Core P cap → Prop
  | nil (c : Core P cap) : Moves bandBps c [] c
  | cons {c c' c'' : Core P cap} {es es' : List (Event P)} (h : Move bandBps c es c')
      (h' : Moves bandBps c' es' c'') : Moves bandBps c (es ++ es') c''

section

variable {bandBps : Kind → BitVec 32} {c c' c'' : Core P cap} {es es' : List (Event P)}

theorem Move.one (h : Move bandBps c es c') : Moves bandBps c es c' := by
  simpa using Moves.cons h (.nil c')

/-- A first move that shows nothing. -/
theorem Moves.silent (h : Move bandBps c [] c') (h' : Moves bandBps c' es c'') :
    Moves bandBps c es c'' := .cons h h'

theorem Moves.trans (h : Moves bandBps c es c') (h' : Moves bandBps c' es' c'') :
    Moves bandBps c (es ++ es') c'' := by
  -- induction on the first sequence: its events stand in front
  induction h with
  | nil c => exact h'
  | cons h_move _ ih =>
    rw [List.append_assoc]
    exact .cons h_move (ih h')

/-- **The invariant rule for moves.** What every move keeps a whole call keeps, and so does a run.
-/
theorem Moves.inv {I : List (Event P) → Core P cap → Prop}
    (h_move : ∀ tr c es c', I tr c → Move bandBps c es c' → I (tr ++ es) c')
    (h : Moves bandBps c es c') {tr : List (Event P)} (hI : I tr c) : I (tr ++ es) c' := by
  -- the history grows by what the first move shows, hence for every `tr`
  induction h generalizing tr with
  | nil c => simpa using hI
  | cons h_first _ ih =>
    rw [← List.append_assoc]
    exact ih (h_move _ _ _ _ hI h_first)

end

/-! ### What a call does, in moves -/

section

variable {bandBps : Kind → BitVec 32} {env : Env} {mem mem' : Memory P cap}
  {counters : Counters} {es : List (Event P)}

theorem take_moves {q : Stage} {p : Ptr P} (h : mem.tryPop q = (some p, mem')) :
    Move bandBps ⟨mem, counters, none⟩ [] ⟨mem', counters, some p⟩ :=
  .take p (Handoff.Shared.tryPop_some h).choose_spec

theorem put_moves {q : Stage} {p : Ptr P} (h : mem.push env q p = some mem') :
    Move bandBps ⟨mem, counters, some p⟩ [] ⟨mem', counters, none⟩ :=
  .put p (Handoff.Shared.push_some h).choose_spec

theorem release_moves (p : Ptr P) :
    Move bandBps ⟨mem, counters, some p⟩ [.released p] ⟨mem.release p, counters, none⟩ := by
  rw [Handoff.Shared.release_eq]
  exact .release p

/-- `on_tick`; a message that comes with the tick holds it. -/
theorem producerOnTick_moves (counters : Counters) (tick : Tick) {self self' : Producer}
    {owned : Option (Ptr P)}
    (h_band : self.bandBps = bandBps tick.kind)
    (h_owned : ∀ p, owned = some p → tick.HeldBy (mem.load p))
    (h : producerOnTick env mem self tick owned = some (mem', self', es)) :
    self'.bandBps = self.bandBps ∧
      Moves bandBps ⟨mem, counters, owned⟩ es ⟨mem', counters, none⟩ := by
  have h_origin : (self.origin tick).side ≠ .none → (self.origin tick).Evaluated bandBps := by
    intro h_side
    exact ⟨congrArg (Strategy.evaluate (self.origin tick).ref tick.price) h_band, h_side⟩
  cases producerOnTick_step h with
  | released msg h_side =>
    rw [Handoff.Shared.release_eq]
    exact ⟨rfl, (Move.dismiss msg tick _ (h_owned msg rfl)).one⟩
  | passed h_side => exact ⟨rfl, .nil _⟩
  | signal msg h_side h_push =>
    -- the tick's own message becomes the signal
    refine ⟨rfl, ?_⟩
    exact .cons (.signal msg _ (h_owned msg rfl) (h_origin h_side)) (put_moves h_push).one
  | exhausted h_side h_acquire =>
    rw [Handoff.Shared.acquire_none h_acquire]
    exact ⟨rfl, .nil _⟩
  | signalNew msg h_side h_acquire h_push =>
    obtain ⟨h_free, h_mem⟩ := Handoff.Shared.acquire_some h_acquire
    refine ⟨rfl, ?_⟩
    exact .cons (.signalNew msg _ h_free h_mem (h_origin h_side)) (put_moves h_push).one

/-- `poll_once` of a producer. -/
theorem producerPollOnce_moves {kind : Kind} (read : TaggedMessage → Tick)
    {self self' : Producer} (h_read : ∀ msg, msg.kind = kind → (read msg).HeldBy msg)
    (h_band : self.bandBps = bandBps kind)
    (h : producerPollOnce kind read env mem self = some (mem', self', es)) :
    self'.bandBps = self.bandBps ∧
      Moves bandBps ⟨mem, counters, none⟩ es ⟨mem', counters, none⟩ := by
  unfold producerPollOnce at h
  split at h
  · -- no message, and nothing moves
    next h_pop =>
    cases h
    rw [Handoff.Shared.tryPop_none h_pop]
    exact ⟨rfl, .nil _⟩
  · next msg mem₁ h_pop =>
    split at h
    · -- a tick of the producer's kind is handed to `on_tick`
      next h_kind =>
      have h_held := h_read _ h_kind
      obtain ⟨h_self, h_moves⟩ := producerOnTick_moves counters _
        (by rw [h_band, ← h_held.kind_eq, h_kind])
        (fun p h_p => by cases h_p; exact h_held) h
      exact ⟨h_self, .cons (take_moves h_pop) h_moves⟩
    · -- any other message is taken and released
      cases h
      exact ⟨rfl, .cons (take_moves h_pop) (release_moves msg).one⟩

/-- `poll_once` of a consumer. -/
theorem consumerPollOnce_moves {feed : Kind} {order : StrategySignal → Order}
    {submitted : Bool} (h_order : ∀ signal, signal.feed = feed → OrderOf signal (order signal))
    (h : consumerPollOnce feed order env mem = some (mem', submitted, es)) :
    Moves bandBps ⟨mem, counters, none⟩ es ⟨mem', counters, none⟩ := by
  cases consumerPollOnce_call h with
  | empty h_pop =>
    rw [Handoff.Shared.tryPop_none h_pop]
    exact .nil _
  | noSignal msg h_pop | noSide msg h_pop =>
    exact .silent (take_moves h_pop) (release_moves msg).one
  | putBack msg h_pop _ _ h_push => exact .silent (take_moves h_pop) (put_moves h_push).one
  | submit msg h_pop h_kind h_feed _ h_push =>
    -- the order is written while the message is in hand
    refine .silent (take_moves h_pop) ?_
    exact .cons (.order msg _ h_kind (h_order _ h_feed)) (put_moves h_push).one

theorem OuchConsumer.pollOnce_moves {self self' : OuchConsumer}
    (h : self.pollOnce env mem = some (mem', self', es)) :
    Moves bandBps ⟨mem, counters, none⟩ es ⟨mem', counters, none⟩ := by
  obtain ⟨_, h_poll, -⟩ := polled_eq_some h
  refine consumerPollOnce_moves ?_ h_poll
  exact fun _ h_feed => ⟨h_feed, rfl⟩

theorem NnfConsumer.pollOnce_moves {self self' : NnfConsumer}
    (h : self.pollOnce env mem = some (mem', self', es)) :
    Moves bandBps ⟨mem, counters, none⟩ es ⟨mem', counters, none⟩ := by
  obtain ⟨_, h_poll, -⟩ := polled_eq_some h
  refine consumerPollOnce_moves ?_ h_poll
  exact fun _ h_feed => ⟨h_feed, _, rfl⟩

theorem SbeOrderEntryConsumer.pollOnce_moves {self self' : SbeOrderEntryConsumer}
    (h : self.pollOnce env mem = some (mem', self', es)) :
    Moves bandBps ⟨mem, counters, none⟩ es ⟨mem', counters, none⟩ := by
  obtain ⟨_, h_poll, -⟩ := polled_eq_some h
  refine consumerPollOnce_moves ?_ h_poll
  exact fun _ h_feed => ⟨h_feed, _, rfl⟩

theorem McxOrderConsumer.pollOnce_moves {self self' : McxOrderConsumer}
    (h : self.pollOnce env mem = some (mem', self', es)) :
    Moves bandBps ⟨mem, counters, none⟩ es ⟨mem', counters, none⟩ := by
  obtain ⟨_, h_poll, -⟩ := polled_eq_some h
  refine consumerPollOnce_moves ?_ h_poll
  exact fun _ h_feed => ⟨h_feed, _, _, _, rfl⟩

/-- `poll_once` of the gateway. -/
theorem ExchangeGateway.pollOnce_moves {self self' : ExchangeGateway}
    (h : self.pollOnce env mem = some (mem', self', es)) :
    Moves bandBps ⟨mem, self.counters, none⟩ es ⟨mem', self'.counters, none⟩ := by
  unfold ExchangeGateway.pollOnce at h
  split at h
  · next h_pop =>
    cases h
    rw [Handoff.Shared.tryPop_none h_pop]
    exact .nil _
  · next pending mem₁ h_pop =>
    refine .silent (take_moves h_pop) ?_
    split at h
    · -- an order of no kind that can be answered is released
      cases h
      exact (release_moves pending).one
    · -- an order is answered in place and put into the confirm queue
      next ack counters h_ack =>
      split at h
      · cases h
      · next h_push =>
        cases h
        exact .cons (.confirm pending ack h_ack) (put_moves h_push).one

/-- `acquire_filled` -/
theorem acquireFilled_moves {tick : Tick} {p : Ptr P}
    (h : tick.acquireFilled env mem = (some p, mem')) :
    Move bandBps ⟨mem, counters, none⟩ [.acquired p (some tick)] ⟨mem', counters, some p⟩ := by
  cases tick
  all_goals
    obtain ⟨h_free, rfl⟩ := Handoff.Shared.acquireFilled_some h
    exact .acquire p _ _ h_free (TaggedMessage.holds_fill _ _)

theorem acquireFilled_none {tick : Tick} (h : tick.acquireFilled env mem = (none, mem')) :
    mem' = mem := by
  cases tick <;> exact Handoff.Shared.acquireFilled_none h

theorem storeTick_moves {tick : Tick} {stored : Bool}
    (h : storeTick env mem tick = some (mem', stored, es)) :
    Moves bandBps ⟨mem, counters, none⟩ es ⟨mem', counters, none⟩ := by
  unfold storeTick at h
  split at h
  · -- no slot
    next h_none =>
    cases h
    rw [acquireFilled_none h_none]
    exact .nil _
  · next slot mem₁ h_acquire =>
    -- the push may not return, and then neither does the store
    split at h
    · cases h
    · next h_push =>
      cases h
      exact .cons (acquireFilled_moves h_acquire) (put_moves h_push).one

/-- What an ingest handler has done so far. -/
def Ingest.Moved (bandBps : Kind → BitVec 32) (mem : Memory P cap) (counters : Counters)
    (s : Ingest P cap) : Prop :=
  Moves bandBps ⟨mem, counters, none⟩ s.shown ⟨s.mem, counters, none⟩

theorem Ingest.Moved.start (bandBps : Kind → BitVec 32) (mem : Memory P cap)
    (counters : Counters) : Ingest.Moved bandBps mem counters ⟨0, mem, []⟩ := Moves.nil _

theorem Ingest.store_moved {envs : ℕ → Env} {s s' : Ingest P cap} {decoded : Option Tick}
    {accepted : Bool} (h_moved : s.Moved bandBps mem counters)
    (h : s.store envs decoded = some (s', accepted)) : s'.Moved bandBps mem counters := by
  -- nothing to store, or one store
  cases decoded with
  | none =>
    cases h
    exact h_moved
  | some tick =>
    simp only [Ingest.store] at h
    split at h
    · cases h
    · next h_store =>
      cases h
      exact h_moved.trans (storeTick_moves h_store)

theorem ingestItchFrame_moves {envs : ℕ → Env} {frame : Option (List Byte)} {stats : Stats}
    (h : ingestItchFrame envs mem frame = some (mem', stats, es)) :
    Moves bandBps ⟨mem, counters, none⟩ es ⟨mem', counters, none⟩ := by
  obtain ⟨⟨s, stats⟩, h_split, h_result⟩ := Option.map_eq_some_iff.mp h
  cases h_result
  exact splitItchFrame_inv (I := Ingest.Moved bandBps mem counters)
    (fun _ _ _ _ _ h_moved h_call => Ingest.store_moved h_moved h_call) (.start ..) h_split

theorem ingestMtbtFrame_moves {envs : ℕ → Env} {fuel : ℕ} {frame : Option (List Byte)}
    {stats : Stats} (h : ingestMtbtFrame envs fuel mem frame = some (mem', stats, es)) :
    Moves bandBps ⟨mem, counters, none⟩ es ⟨mem', counters, none⟩ := by
  obtain ⟨⟨s, stats⟩, h_split, h_result⟩ := Option.map_eq_some_iff.mp h
  cases h_result
  exact splitMtbtFrame_inv (I := Ingest.Moved bandBps mem counters)
    (fun _ _ _ _ _ _ h_moved h_call => Ingest.store_moved h_moved h_call) (.start ..) h_split

theorem ingestMcxTobFrame_moves {frame : Option (List Byte)} {stats : Stats}
    (h : ingestMcxTobFrame env mem frame = some (mem', stats, es)) :
    Moves bandBps ⟨mem, counters, none⟩ es ⟨mem', counters, none⟩ := by
  rcases ingestMcxTobFrame_cases h with ⟨rfl, rfl⟩ | ⟨tick, stored, h_store⟩
  · exact .nil _
  · exact storeTick_moves h_store

end

/-! ### What a step does, in moves -/

/-- The band of the producer of each kind of tick. -/
def Config.bandBps (config : Config) : Kind → BitVec 32
  | .itch => config.itchBandBps
  | .mtbt => config.mtbtBandBps
  | .sbeMarket => config.sbeBandBps
  | .mcxMarket => config.mcxBandBps
  | _ => Strategy.defaultBandBps

/-- The producers have the bands they were made with. -/
structure World.Banded (bandBps : Kind → BitVec 32) (w : World P cap) : Prop where
  itch : w.producers.itch.bandBps = bandBps .itch
  mtbt : w.producers.mtbt.bandBps = bandBps .mtbt
  sbe : w.sbe.bandBps = bandBps .sbeMarket
  mcx : w.producers.mcx.bandBps = bandBps .mcxMarket

/-- What the moves are about, between two calls. -/
def World.core (w : World P cap) : Core P cap := ⟨w.mem, w.gateway.counters, none⟩

namespace World

variable {bandBps : Kind → BitVec 32} {w w' : World P cap} {es : List (Event P)}

theorem Banded.init (config : Config) (message : Ptr P → TaggedMessage) :
    (World.init config message : World P cap).Banded config.bandBps :=
  ⟨rfl, rfl, rfl, rfl⟩

/-- The producers that `main` routes to have their bands. -/
theorem routeMarketTick_moves {env : Env} {mem mem' : Memory P cap} (counters : Counters)
    {self self' : Producers} {msg : Ptr P} (h_itch : self.itch.bandBps = bandBps .itch)
    (h_mtbt : self.mtbt.bandBps = bandBps .mtbt) (h_mcx : self.mcx.bandBps = bandBps .mcxMarket)
    (h : routeMarketTick env mem self msg = some (mem', self', es)) :
    (self'.itch.bandBps = bandBps .itch ∧ self'.mtbt.bandBps = bandBps .mtbt ∧
      self'.mcx.bandBps = bandBps .mcxMarket) ∧
      Moves bandBps ⟨mem, counters, some msg⟩ es ⟨mem', counters, none⟩ := by
  unfold routeMarketTick at h
  -- by kind, to the producer of the kind
  split at h
  · next h_kind =>
    split at h
    · cases h
    · next h_tick =>
      cases h
      obtain ⟨h_self, h_moves⟩ := producerOnTick_moves counters (.itch _) h_itch
        (fun p h_p => by cases h_p; exact ⟨h_kind, rfl⟩) h_tick
      exact ⟨⟨h_self.trans h_itch, h_mtbt, h_mcx⟩, h_moves⟩
  · next h_kind =>
    split at h
    · cases h
    · next h_tick =>
      cases h
      obtain ⟨h_self, h_moves⟩ := producerOnTick_moves counters (.mtbt _) h_mtbt
        (fun p h_p => by cases h_p; exact ⟨h_kind, rfl⟩) h_tick
      exact ⟨⟨h_itch, h_self.trans h_mtbt, h_mcx⟩, h_moves⟩
  · next h_kind =>
    split at h
    · cases h
    · next h_tick =>
      cases h
      obtain ⟨h_self, h_moves⟩ := producerOnTick_moves counters (.mcx _) h_mcx
        (fun p h_p => by cases h_p; exact ⟨h_kind, rfl⟩) h_tick
      exact ⟨⟨h_itch, h_mtbt, h_self.trans h_mcx⟩, h_moves⟩
  · -- what is no tick of the three goes back to the pool
    cases h
    exact ⟨⟨h_itch, h_mtbt, h_mcx⟩, (release_moves msg).one⟩

theorem drainMarket_moves {env : Env} {mem mem' : Memory P cap} (counters : Counters)
    {self self' : Producers} (h_itch : self.itch.bandBps = bandBps .itch)
    (h_mtbt : self.mtbt.bandBps = bandBps .mtbt) (h_mcx : self.mcx.bandBps = bandBps .mcxMarket)
    (h : drainMarket env mem self = some (mem', self', es)) :
    (self'.itch.bandBps = bandBps .itch ∧ self'.mtbt.bandBps = bandBps .mtbt ∧
      self'.mcx.bandBps = bandBps .mcxMarket) ∧
      Moves bandBps ⟨mem, counters, none⟩ es ⟨mem', counters, none⟩ := by
  unfold drainMarket at h
  split at h
  · -- the queue is empty, or its message is routed
    next h_pop =>
    cases h
    rw [Handoff.Shared.tryPop_none h_pop]
    exact ⟨⟨h_itch, h_mtbt, h_mcx⟩, .nil _⟩
  · next msg mem₁ h_pop =>
    obtain ⟨h_self, h_moves⟩ := routeMarketTick_moves counters h_itch h_mtbt h_mcx h
    exact ⟨h_self, .cons (take_moves h_pop) h_moves⟩

/-- **Inversion.** A call is moves, from no message in hand to none, and the producers keep their
bands. -/
theorem step_moves {a : Action} (h_band : w.Banded bandBps)
    (h : w.step a = some (w', es)) :
    w'.Banded bandBps ∧ Moves bandBps w.core es w'.core := by
  obtain ⟨h_itch, h_mtbt, h_sbe, h_mcx⟩ := h_band
  obtain ⟨op, envs⟩ := a
  -- one case per call; the bands change in none, as no stage writes its own
  cases op with
  | ingestItchFrame frame =>
    obtain ⟨mem, _, h_call, rfl⟩ := ended_eq_some h
    exact ⟨⟨h_itch, h_mtbt, h_sbe, h_mcx⟩, ingestItchFrame_moves h_call⟩
  | ingestMtbtFrame frame fuel =>
    obtain ⟨mem, _, h_call, rfl⟩ := ended_eq_some h
    exact ⟨⟨h_itch, h_mtbt, h_sbe, h_mcx⟩, ingestMtbtFrame_moves h_call⟩
  | ingestMcxTobFrame frame =>
    obtain ⟨mem, _, h_call, rfl⟩ := ended_eq_some h
    exact ⟨⟨h_itch, h_mtbt, h_sbe, h_mcx⟩, ingestMcxTobFrame_moves h_call⟩
  | feedBbo tick =>
    obtain ⟨mem, _, h_call, rfl⟩ := ended_eq_some h
    exact ⟨⟨h_itch, h_mtbt, h_sbe, h_mcx⟩, storeTick_moves h_call⟩
  | pollItch =>
    obtain ⟨mem, self, h_call, rfl⟩ := ended_eq_some h
    obtain ⟨h_self, h_moves⟩ := producerPollOnce_moves
      (fun msg => .itch (msg.read ItchAddOrder.codec)) (fun _ h_kind => ⟨h_kind, rfl⟩) h_itch h_call
    exact ⟨⟨h_self.trans h_itch, h_mtbt, h_sbe, h_mcx⟩, h_moves⟩
  | pollMtbt =>
    obtain ⟨mem, self, h_call, rfl⟩ := ended_eq_some h
    obtain ⟨h_self, h_moves⟩ := producerPollOnce_moves
      (fun msg => .mtbt (msg.read MtbtNewOrder.codec)) (fun _ h_kind => ⟨h_kind, rfl⟩) h_mtbt h_call
    exact ⟨⟨h_itch, h_self.trans h_mtbt, h_sbe, h_mcx⟩, h_moves⟩
  | pollSbe =>
    obtain ⟨mem, self, h_call, rfl⟩ := ended_eq_some h
    obtain ⟨h_self, h_moves⟩ := producerPollOnce_moves
      (fun msg => .sbe (msg.read BestObRpi.codec)) (fun _ h_kind => ⟨h_kind, rfl⟩) h_sbe h_call
    exact ⟨⟨h_itch, h_mtbt, h_self.trans h_sbe, h_mcx⟩, h_moves⟩
  | pollMcx =>
    obtain ⟨mem, self, h_call, rfl⟩ := ended_eq_some h
    obtain ⟨h_self, h_moves⟩ := producerPollOnce_moves
      (fun msg => .mcx (msg.read TopOfBook.codec)) (fun _ h_kind => ⟨h_kind, rfl⟩) h_mcx h_call
    exact ⟨⟨h_itch, h_mtbt, h_sbe, h_self.trans h_mcx⟩, h_moves⟩
  | drainMarket =>
    obtain ⟨mem, producers, h_call, rfl⟩ := ended_eq_some h
    obtain ⟨⟨h_itch', h_mtbt', h_mcx'⟩, h_moves⟩ := drainMarket_moves w.gateway.counters
      h_itch h_mtbt h_mcx h_call
    exact ⟨⟨h_itch', h_mtbt', h_sbe, h_mcx'⟩, h_moves⟩
  | onItchTick tick =>
    obtain ⟨mem, self, h_call, rfl⟩ := ended_eq_some h
    obtain ⟨h_self, h_moves⟩ := producerOnTick_moves w.gateway.counters (.itch tick) h_itch
      (fun p (h_p : none = some p) => nomatch h_p) h_call
    exact ⟨⟨h_self.trans h_itch, h_mtbt, h_sbe, h_mcx⟩, h_moves⟩
  | onMtbtTick tick =>
    obtain ⟨mem, self, h_call, rfl⟩ := ended_eq_some h
    obtain ⟨h_self, h_moves⟩ := producerOnTick_moves w.gateway.counters (.mtbt tick) h_mtbt
      (fun p (h_p : none = some p) => nomatch h_p) h_call
    exact ⟨⟨h_itch, h_self.trans h_mtbt, h_sbe, h_mcx⟩, h_moves⟩
  | onSbeTick tick =>
    obtain ⟨mem, self, h_call, rfl⟩ := ended_eq_some h
    obtain ⟨h_self, h_moves⟩ := producerOnTick_moves w.gateway.counters (.sbe tick) h_sbe
      (fun p (h_p : none = some p) => nomatch h_p) h_call
    exact ⟨⟨h_itch, h_mtbt, h_self.trans h_sbe, h_mcx⟩, h_moves⟩
  | onMcxTick tick =>
    obtain ⟨mem, self, h_call, rfl⟩ := ended_eq_some h
    obtain ⟨h_self, h_moves⟩ := producerOnTick_moves w.gateway.counters (.mcx tick) h_mcx
      (fun p (h_p : none = some p) => nomatch h_p) h_call
    exact ⟨⟨h_itch, h_mtbt, h_sbe, h_self.trans h_mcx⟩, h_moves⟩
  | pollOuch =>
    obtain ⟨mem, self, h_call, rfl⟩ := ended_eq_some h
    exact ⟨⟨h_itch, h_mtbt, h_sbe, h_mcx⟩, OuchConsumer.pollOnce_moves h_call⟩
  | pollNnf =>
    obtain ⟨mem, self, h_call, rfl⟩ := ended_eq_some h
    exact ⟨⟨h_itch, h_mtbt, h_sbe, h_mcx⟩, NnfConsumer.pollOnce_moves h_call⟩
  | pollSbeOrder =>
    obtain ⟨mem, self, h_call, rfl⟩ := ended_eq_some h
    exact ⟨⟨h_itch, h_mtbt, h_sbe, h_mcx⟩, SbeOrderEntryConsumer.pollOnce_moves h_call⟩
  | pollMcxOrder =>
    obtain ⟨mem, self, h_call, rfl⟩ := ended_eq_some h
    exact ⟨⟨h_itch, h_mtbt, h_sbe, h_mcx⟩, McxOrderConsumer.pollOnce_moves h_call⟩
  | pollGateway =>
    obtain ⟨mem, self, h_call, rfl⟩ := ended_eq_some h
    exact ⟨⟨h_itch, h_mtbt, h_sbe, h_mcx⟩, ExchangeGateway.pollOnce_moves h_call⟩
  | releaseConfirm =>
    simp only [step] at h
    split at h
    · next h_pop =>
      cases h
      rw [World.core, Handoff.Shared.tryPop_none h_pop]
      exact ⟨⟨h_itch, h_mtbt, h_sbe, h_mcx⟩, .nil _⟩
    · next confirm mem₁ h_pop =>
      cases h
      exact ⟨⟨h_itch, h_mtbt, h_sbe, h_mcx⟩,
        .cons (take_moves h_pop) (release_moves confirm).one⟩

/-- **The invariant rule of the pipeline**: what every move keeps holds after every run. -/
theorem core_inv {config : Config} {message : Ptr P → TaggedMessage} {tr : List (Event P)}
    {I : List (Event P) → Core P cap → Prop}
    (h_init : I [] (World.init config message).core)
    (h_move : ∀ tr c es c', I tr c → Move config.bandBps c es c' → I (tr ++ es) c')
    (h : (machine P cap).Reach (World.init config message) tr w) : I tr w.core := by
  -- the bands are part of the invariant, since moves are moves for given bands
  have h_inv := h.inv (I := fun tr w => w.Banded config.bandBps ∧ I tr w.core)
    ⟨.init config message, h_init⟩ ?_
  · exact h_inv.2
  · rintro tr s a s' es ⟨h_band, hI⟩ - h_step
    obtain ⟨h_band', h_moves⟩ := step_moves h_band h_step
    exact ⟨h_band', h_moves.inv h_move hI⟩

end World

end Trading

end Hft
