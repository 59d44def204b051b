import Mathlib.Algebra.BigOperators.Fin
import Mathlib.Data.List.ReduceOption
import MpmcPipeline.Trading.Ingress

/-!
# Producers that share a market queue

`main` constructs the ITCH, MTBT and MCX producers on one market queue. A message of that
queue can be taken in two ways: `route_market_tick` looks at its kind and gives it to the
producer of that kind, and a `poll_once` gives it to the polling producer or, if it is of
another kind, to nobody.

`sharedMarket` is the machine of the polls. It shows what becomes of every message taken, as
read off what a poll has done: the message is not in the queue any more, and among the events
is the `on_tick` of its tick (`evaluated`), or none is (`dropped`). A poll that finds a tick of
its own kind does what the central routing does (`OwnHead.poll_eq`), and no tick is dropped
exactly in the runs of such polls (`shared_market_iff`).
-/

namespace Hft

open Handoff (Env)

namespace Trading

variable {P : PoolCapacity} {cap : Stage → Capacity}

/-- The producers that share the market queue. -/
inductive Feed
  | itch
  | mtbt
  | mcx
  deriving DecidableEq

/-- The kind of the ticks of a feed. -/
def Feed.kind : Feed → Kind
  | itch => .itch
  | mtbt => .mtbt
  | mcx => .mcxMarket

/-- `memcpy(&tick, msg->bytes.data(), sizeof(tick))` -/
def Feed.read (msg : TaggedMessage) : Feed → Tick
  | itch => .itch (msg.read ItchAddOrder.codec)
  | mtbt => .mtbt (msg.read MtbtNewOrder.codec)
  | mcx => .mcx (msg.read TopOfBook.codec)

/-- The producer of a feed. -/
def Producers.get (self : Producers) : Feed → Producer
  | .itch => self.itch
  | .mtbt => self.mtbt
  | .mcx => self.mcx

/-- The producers with another one for a feed. -/
def Producers.set (self : Producers) (producer : Producer) : Feed → Producers
  | .itch => { self with itch := producer }
  | .mtbt => { self with mtbt := producer }
  | .mcx => { self with mcx := producer }

/-- The end of a call of the producer of a feed. -/
def Feed.ended (feed : Feed) (self : Producers) :
    Option (Memory P cap × Producer × List (Event P)) →
      Option (Memory P cap × Producers × List (Event P))
  | none => none
  | some (mem, producer, es) => some (mem, self.set producer feed, es)

/-- `on_tick` of the producer of a feed. -/
def Feed.onTick (feed : Feed) (env : Env) (mem : Memory P cap) (self : Producers) (tick : Tick)
    (msg : Ptr P) : Option (Memory P cap × Producers × List (Event P)) :=
  feed.ended self (producerOnTick env mem (self.get feed) tick (some msg))

/-- `poll_once` of the producer of a feed. -/
def Feed.poll (feed : Feed) (env : Env) (mem : Memory P cap) (self : Producers) :
    Option (Memory P cap × Producers × List (Event P)) :=
  match feed with
  | .itch => Feed.ended .itch self (ItchProducer.pollOnce env mem self.itch)
  | .mtbt => Feed.ended .mtbt self (MtbtProducer.pollOnce env mem self.mtbt)
  | .mcx => Feed.ended .mcx self (McxTobProducer.pollOnce env mem self.mcx)

/-! ### What becomes of a message -/

section

variable {feed : Feed} {env : Env} {mem mem' : Memory P cap} {self : Producers} {msg : Ptr P}

/-- All three polls are one text. -/
theorem Feed.poll_eq : feed.poll env mem self = feed.ended self
    (producerPollOnce feed.kind (fun msg => feed.read msg) env mem (self.get feed)) := by
  cases feed <;> rfl

/-- A poll of an empty queue does nothing. -/
theorem Feed.poll_empty (h : mem.tryPop .market = (none, mem')) :
    feed.poll env mem self = some (mem', self, []) := by
  rw [Feed.poll_eq, producerPollOnce, h]
  cases feed <;> rfl

/-- A tick of the producer's own kind is given to its `on_tick`. -/
theorem Feed.poll_own (h : mem.tryPop .market = (some msg, mem'))
    (h_kind : (mem'.load msg).kind = feed.kind) :
    feed.poll env mem self = feed.onTick env mem' self (feed.read (mem'.load msg)) msg := by
  rw [Feed.poll_eq, producerPollOnce, h]
  dsimp only
  rw [if_pos h_kind, Feed.onTick]

/-- Another message is released. -/
theorem Feed.poll_other (h : mem.tryPop .market = (some msg, mem'))
    (h_kind : (mem'.load msg).kind ≠ feed.kind) :
    feed.poll env mem self = some (mem'.release msg, self, [.released msg]) := by
  rw [Feed.poll_eq, producerPollOnce, h]
  dsimp only
  rw [if_neg h_kind]
  cases feed <;> rfl

/-- The central routing gives a tick to the `on_tick` of the producer of its kind. -/
theorem routeMarketTick_own (h_kind : (mem.load msg).kind = feed.kind) :
    routeMarketTick env mem self msg =
      feed.onTick env mem self (feed.read (mem.load msg)) msg := by
  unfold routeMarketTick
  cases feed <;> rw [h_kind] <;> rfl

end

/-! ### What a call has taken, and what it has done with it -/

/-- What becomes of a message that is taken off the market queue. -/
inductive Treated (P : PoolCapacity)
  | evaluated (p : Ptr P) (tick : Tick)
  | dropped (p : Ptr P)

/-- The messages in the market queue, cell by cell. -/
def marketCells (mem : Memory P cap) : List (Ptr P) :=
  (List.ofFn (mem.queues .market).ring).reduceOption

/-- The messages that were in the market queue and are not there any more. -/
def takenOff (mem mem' : Memory P cap) : List (Ptr P) := (marketCells mem).diff (marketCells mem')

/-- The tick that the message holds, where the event is the call of `on_tick` with it. -/
def Event.heldTick (mem : Memory P cap) (p : Ptr P) : Event P → Option Tick
  | .evaluated q tick _ => if q = p ∧ tick.HeldBy (mem.load p) then some tick else none
  | _ => none

/-- What the events of a call say about a message: `on_tick` was called with the tick that it
held, or it was dropped. An `on_tick` of a kind of tick is that of the producer of the kind. -/
def Treated.of (mem : Memory P cap) (es : List (Event P)) (p : Ptr P) : Treated P :=
  match es.findSome? (Event.heldTick mem p) with
  | some tick => .evaluated p tick
  | none => .dropped p

/-- What has become of the messages a call has taken off the market queue. -/
def treated (mem mem' : Memory P cap) (es : List (Event P)) : List (Treated P) :=
  (takenOff mem mem').map (Treated.of mem es)

/-- The polls of the three producers, one after the other. -/
abbrev sharedMarket (P : PoolCapacity) (cap : Stage → Capacity) :
    Machine (Memory P cap × Producers) (Feed × Env) (Treated P) where
  step s a :=
    match a.1.poll a.2 s.1 s.2 with
    | none => none
    | some (mem, self, es) => some ((mem, self), treated s.1 mem es)

/-- The rounds of the loop of `main` over the market queue. -/
abbrev routedMarket (P : PoolCapacity) (cap : Stage → Capacity) :
    Machine (Memory P cap × Producers) Env (Treated P) where
  step s env :=
    match drainMarket env s.1 s.2 with
    | none => none
    | some (mem, self, es) => some ((mem, self), treated s.1 mem es)

section

variable {mem mem₁ mem' : Memory P cap} {msg : Ptr P}

/-- A list of cells and their content as a multiset. -/
theorem coe_reduceOption {α : Type} (l : List (Option α)) :
    (l.reduceOption : Multiset α) = (l.map MPMC.cell).sum := by
  induction l with
  | nil => rfl
  | cons x l ih =>
    cases x with
    | none =>
      rw [List.reduceOption_cons_of_none, List.map_cons, List.sum_cons, ih]
      exact (zero_add _).symm
    | some message =>
      rw [List.reduceOption_cons_of_some, List.map_cons, List.sum_cons, ← ih]
      rfl

theorem coe_marketCells (mem : Memory P cap) :
    (marketCells mem : Multiset (Ptr P)) = MPMC.cells (mem.queues .market).ring := by
  rw [marketCells, coe_reduceOption, List.map_ofFn, List.sum_ofFn]
  rfl

/-- Nothing is taken off a queue that stays as it is. -/
theorem takenOff_none (h : mem'.queues .market = mem.queues .market) : takenOff mem mem' = [] := by
  rw [takenOff, marketCells, marketCells, h, ← Multiset.coe_eq_zero, ← Multiset.coe_sub]
  exact tsub_self _

/-- A `try_pop` takes the message it returns. -/
theorem takenOff_some (h_pop : mem.tryPop .market = (some msg, mem₁))
    (h : mem'.queues .market = mem₁.queues .market) : takenOff mem mem' = [msg] := by
  obtain ⟨slot, h_taken⟩ := Handoff.Shared.tryPop_some h_pop
  -- the cells before are those after and the one that was emptied
  have h_ring := Handoff.ring_of_cell_eq h_taken.cell_eq
  have h_cells := MPMC.cells_update_none (show (mem.queues .market).ring slot = some msg from
    h_taken.full)
  rw [← h_ring, ← coe_marketCells, ← coe_marketCells] at h_cells
  have h_same : marketCells mem' = marketCells mem₁ := by rw [marketCells, marketCells, h]
  refine List.perm_singleton.mp (Multiset.coe_eq_coe.mp ?_)
  rw [takenOff, h_same, ← Multiset.coe_sub, ← h_cells]
  exact add_tsub_cancel_left _ _

/-- An `on_tick` leaves the market queue alone. -/
theorem TickStep.market {env : Env} {self self' : Producer} {tick : Tick}
    {owned : Option (Ptr P)} {es : List (Event P)}
    (h : TickStep env mem self tick owned mem' self' es) :
    mem'.queues .market = mem.queues .market := by
  -- the signal goes into another queue
  have h_signal : ∀ {mem mem' : Memory P cap} {p : Ptr P}, mem.push env .signal p = some mem' →
      mem'.queues .market = mem.queues .market := by
    intro mem mem' p h_push
    simp only [Handoff.Shared.push] at h_push
    split at h_push
    · cases h_push
    · cases h_push
      exact mem.setQueue_of_ne (by decide) _
  cases h with
  | released | passed => rfl
  | signal msg _ h_push => rw [h_signal h_push, Handoff.Shared.write_queues]
  | exhausted _ h_acquire => rw [Handoff.Shared.acquire_none h_acquire]
  | signalNew msg _ h_acquire h_push =>
    rw [h_signal h_push, Handoff.Shared.write_queues, (Handoff.Shared.acquire_some h_acquire).2]

/-- An `on_tick` of a message says that it is one. -/
theorem TickStep.heldTick {env : Env} {self self' : Producer} {tick : Tick}
    {es : List (Event P)} (h : TickStep env mem self tick (some msg) mem' self' es)
    (h_tick : tick.HeldBy (mem₁.load msg)) :
    es.findSome? (Event.heldTick mem₁ msg) = some tick := by
  have h_first : Event.heldTick mem₁ msg (.evaluated msg tick self.nextToken) = some tick :=
    if_pos ⟨rfl, h_tick⟩
  cases h with
  | released | signal => rw [List.findSome?_cons, h_first]

/-- **What a poll does with the message it takes**: a tick of the producer's own kind is
evaluated, and anything else is dropped. -/
theorem Feed.poll_treated {feed : Feed} {env : Env} {self self' : Producers}
    {es : List (Event P)} (h : feed.poll env mem self = some (mem', self', es)) :
    ((mem.tryPop .market).1 = none ∧ treated mem mem' es = []) ∨
      ∃ msg, (mem.tryPop .market).1 = some msg ∧
        ((mem.load msg).kind = feed.kind ∧
            treated mem mem' es = [.evaluated msg (feed.read (mem.load msg))] ∨
          (mem.load msg).kind ≠ feed.kind ∧ treated mem mem' es = [.dropped msg]) := by
  rcases h_pop : mem.tryPop .market with ⟨_ | msg, mem₁⟩
  · rw [Feed.poll_empty h_pop] at h
    cases h
    refine Or.inl ⟨rfl, ?_⟩
    rw [treated, takenOff_none (by rw [Handoff.Shared.tryPop_none h_pop]), List.map_nil]
  · have h_load : mem₁.load msg = mem.load msg := by
      obtain ⟨slot, h_taken⟩ := Handoff.Shared.tryPop_some h_pop
      rw [Handoff.Shared.load, h_taken.pool_eq, ← Handoff.Shared.load]
    refine Or.inr ⟨msg, rfl, ?_⟩
    by_cases h_kind : (mem.load msg).kind = feed.kind
    · -- `on_tick` of the producer
      rw [Feed.poll_own h_pop (h_load ▸ h_kind), Feed.onTick, h_load] at h
      rcases h_tick : producerOnTick env mem₁ (self.get feed) (feed.read (mem.load msg))
        (some msg) with _ | ⟨mem₂, producer, shown⟩
      · rw [h_tick] at h
        cases h
      · rw [h_tick] at h
        cases h
        have h_step := producerOnTick_step h_tick
        have h_held : (feed.read (mem.load msg)).HeldBy (mem.load msg) := by
          cases feed <;> exact ⟨h_kind, rfl⟩
        refine Or.inl ⟨h_kind, ?_⟩
        rw [treated, takenOff_some h_pop h_step.market, List.map_singleton, Treated.of,
          h_step.heldTick h_held]
    · rw [Feed.poll_other h_pop (by rwa [h_load])] at h
      cases h
      refine Or.inr ⟨h_kind, ?_⟩
      -- `release` leaves the queue alone
      have h_market : (mem₁.release msg).queues .market = mem₁.queues .market := rfl
      rw [treated, takenOff_some h_pop h_market]
      rfl

end

/-- The poll finds an empty queue, or a message of the producer's own kind. -/
def OwnHead (s : Memory P cap × Producers) (a : Feed × Env) : Prop :=
  match s.1.tryPop .market with
  | (none, _) => True
  | (some msg, mem) => (mem.load msg).kind = a.1.kind

instance (s : Memory P cap × Producers) (a : Feed × Env) : Decidable (OwnHead s a) := by
  unfold OwnHead
  split <;> infer_instance

section

variable {s s' s₀ : Memory P cap × Producers} {a : Feed × Env} {tr es : List (Treated P)}

/-- `OwnHead` speaks of the message as it is in the queue. -/
theorem ownHead_iff : OwnHead s a ↔
    ∀ msg, (s.1.tryPop .market).1 = some msg → (s.1.load msg).kind = a.1.kind := by
  rw [OwnHead]
  rcases h_pop : s.1.tryPop .market with ⟨_ | msg, mem⟩
  · simp
  · obtain ⟨slot, h_taken⟩ := Handoff.Shared.tryPop_some h_pop
    have h_load : mem.load msg = s.1.load msg := by
      rw [Handoff.Shared.load, h_taken.pool_eq, ← Handoff.Shared.load]
    simp [h_load]

/-- A poll drops a message just when it takes one that is not its own. -/
theorem sharedMarket_step (h : (sharedMarket P cap).step s a = some (s', es)) :
    OwnHead s a ↔ ∀ p, .dropped p ∉ es := by
  dsimp only at h
  split at h
  · cases h
  · next mem self shown h_poll =>
    cases h
    rw [ownHead_iff]
    rcases Feed.poll_treated h_poll with ⟨h_none, h_es⟩ |
      ⟨msg, h_msg, ⟨h_kind, h_es⟩ | ⟨h_kind, h_es⟩⟩
    · simp [h_es, h_none]
    · simp [h_es, h_msg, h_kind]
    · simp [h_es, h_msg, h_kind]

/-- A poll of its own kind is a round of the central routing. -/
theorem OwnHead.poll_eq (h : OwnHead s a) : a.1.poll a.2 s.1 s.2 = drainMarket a.2 s.1 s.2 := by
  rw [OwnHead] at h
  rw [drainMarket]
  rcases h_pop : s.1.tryPop .market with ⟨_ | msg, mem⟩
  · exact Feed.poll_empty h_pop
  · rw [h_pop] at h
    dsimp only at h ⊢
    rw [Feed.poll_own h_pop h, routeMarketTick_own h]

/-- **Polls of their own kind refine the central routing**: each of them is the routing's step on
the same message, with the same end and the same event. -/
theorem sharedMarket_refines (h : (sharedMarket P cap).ReachBy OwnHead s₀ tr s) :
    (routedMarket P cap).Reach s₀ tr s := by
  have h_sim : ∀ s t a s' es, s = t → OwnHead s a →
      (sharedMarket P cap).step s a = some (s', es) →
      ∃ env t', (routedMarket P cap).step t env = some (t', es) ∧ s' = t' := by
    rintro s _ a s' es rfl h_own h_step
    refine ⟨a.2, s', ?_, rfl⟩
    rw [← h_step]
    simp only [h_own.poll_eq]
  obtain ⟨t, h_reach, rfl⟩ := h.simulate rfl h_sim
  exact h_reach

/-- **Producers that share a queue.** In a run of the polls of the three producers every tick
taken off the market queue is given to the `on_tick` of the producer of its kind exactly if
every poll found an empty queue or a tick of its own kind, and then the central routing has a
run with the same end that treats the same ticks in the same way. -/
theorem shared_market_iff (h : (sharedMarket P cap).Reach s₀ tr s) :
    ((∀ p, .dropped p ∉ tr) ↔ (sharedMarket P cap).ReachBy OwnHead s₀ tr s) ∧
      ((∀ p, .dropped p ∉ tr) → (routedMarket P cap).Reach s₀ tr s) := by
  have h_iff : (∀ p, .dropped p ∉ tr) ↔ (sharedMarket P cap).ReachBy OwnHead s₀ tr s := by
    constructor
    · -- induction on the run: what the last poll took was its own
      intro h_all
      induction h with
      | init => exact .init
      | step h_reach _ h_step ih =>
        have h_old := ih fun p h_p => h_all p (List.mem_append_left _ h_p)
        refine h_old.step ((sharedMarket_step h_step).mpr fun p h_p => ?_) h_step
        exact h_all p (List.mem_append_right _ h_p)
    · intro h_own
      apply h_own.inv (I := fun tr _ => ∀ p, .dropped p ∉ tr)
      · exact fun p => List.not_mem_nil
      · intro tr s a s' es hI h_own h_step p h_p
        rcases List.mem_append.mp h_p with h_old | h_new
        · exact hI p h_old
        · exact (sharedMarket_step h_step).mp h_own p h_new
  exact ⟨h_iff, fun h_all => sharedMarket_refines (h_iff.mp h_all)⟩

end

/-- Memory with one MTBT tick in the market queue. -/
def oneTick : Memory onePool fun _ => Capacity.two :=
  let fresh : Memory onePool fun _ => Capacity.two :=
    ⟨TaggedPool.fresh fun _ => TaggedMessage.fresh, fun _ => MPMC.fresh _ _⟩
  match storeTick ⟨MPMC.strong, MPMC.strong, 2⟩ fresh (.mtbt { token := 111, price := 250000 }) with
  | none => fresh
  | some (mem, _, _) => mem

/-- Whether a message was dropped. -/
def Treated.isDropped : Treated P → Bool
  | evaluated _ _ => false
  | dropped _ => true

/-- Polled by the MTBT producer, the MTBT tick is evaluated, as the routing does. -/
theorem shared_market_iff_oneTick :
    ∃ tr s, (sharedMarket onePool fun _ => Capacity.two).Reach (oneTick, {}) tr s ∧
      tr.length = 1 ∧ (∀ p, .dropped p ∉ tr) ∧
      (routedMarket onePool fun _ => Capacity.two).Reach (oneTick, {}) tr s := by
  obtain ⟨tr, s, h_own, h_length⟩ := Machine.exists_reachBy_of_runBy
    (sharedMarket onePool fun _ => Capacity.two) OwnHead (oneTick, {})
    [(.mtbt, ⟨MPMC.strong, MPMC.strong, 2⟩)] (fun _ tr => decide (tr.length = 1))
    (by decide +kernel)
  have h_reach := h_own.mono fun _ _ _ => trivial
  obtain ⟨h_iff, h_routed⟩ := shared_market_iff h_reach
  have h_all := h_iff.mpr h_own
  exact ⟨tr, s, h_reach, of_decide_eq_true h_length, h_all, h_routed h_all⟩

/-- **A tick is dropped.** An MTBT tick that the ITCH producer finds in the shared queue is released
and reaches no `on_tick`. -/
theorem shared_market_drop :
    ¬∀ tr s, (sharedMarket onePool fun _ => Capacity.two).Reach (oneTick, {}) tr s →
      ∀ p, .dropped p ∉ tr := by
  intro h_all
  obtain ⟨tr, s, h_reach, h_run⟩ := Machine.exists_reach_of_run
    (sharedMarket onePool fun _ => Capacity.two) (oneTick, {})
    [(.itch, ⟨MPMC.strong, MPMC.strong, 2⟩)] (fun _ tr => tr.any Treated.isDropped)
    (by decide +kernel)
  obtain ⟨e, h_e, h_dropped⟩ := List.any_eq_true.mp h_run
  cases e with
  | evaluated p tick => cases h_dropped
  | dropped p => exact h_all tr s h_reach p h_e

end Trading

end Hft
