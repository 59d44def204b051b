import MpmcPipeline.Trading.Fidelity

/-!
# Orders and the ticks they come from

An order is pushed to the pending queue over the signal it was built from, and the signal
over its tick (`Submission`), so what an order says can be read off a tick.

Its price is positive, since `evaluate` gives no side to a price that is not. Its quantity
is that of the tick as the signal carries it, which nothing checks
(`orders_positive_iff`). An order to MCX is for the security that the consumer was
constructed with and not for the one that the signal carries in its token
(`mcx_order_security_iff`); the configuration is followed through a run by
`World.Secured`.
-/

namespace Hft

open Handoff (Env)
open History (Lives)

namespace Trading

variable {P : PoolCapacity} {cap : Stage → Capacity}

/-! ### Quantities and prices as numbers -/

/-- The quantity of the signal of a tick, as the order shows it: an unsigned number of shares
for ITCH, and elsewhere a signed number of 32 bits, to which sizes of 64 bits are cut. -/
def Tick.quantity : Tick → ℤ
  | itch tick => tick.shares.toNat
  | mtbt tick => tick.quantity.toInt
  | sbe tick =>
    ((applyExponent tick.body.bidNormalSize tick.body.sizeExponent).setWidth 32).toInt
  | mcx tick => (tick.bidQty.setWidth 32).toInt

/-- The quantity an order asks for. -/
def Order.quantity : Order → ℤ
  | ouch order => order.shares.toNat
  | nnf order => order.volume.toInt
  | sbe order => order.qty.mantissa.toInt
  | mcx order => order.orderQty.toInt

/-- The price an order offers. -/
def Order.price : Order → ℤ
  | ouch order => order.price.toNat
  | nnf order => order.price.toInt
  | sbe order => order.price.mantissa.toInt
  | mcx order => order.price.toInt

section

variable {tick : Tick} {side : Side} {token : BitVec 32} {order : Order}

/-- An order asks for the quantity of the tick. -/
theorem OrderOf.quantity_eq (h : OrderOf (tick.signal side token) order) :
    order.quantity = tick.quantity := by
  -- the feed of the signal is the venue of the order
  cases order with
  | ouch order =>
    obtain ⟨h_feed, rfl⟩ := h
    cases tick <;> cases h_feed
    rfl
  | nnf order =>
    obtain ⟨h_feed, traderId, rfl⟩ := h
    cases tick <;> cases h_feed
    rfl
  | sbe order =>
    obtain ⟨h_feed, symbolId, rfl⟩ := h
    cases tick <;> cases h_feed
    exact BitVec.toInt_signExtend_of_le (by decide)
  | mcx order =>
    obtain ⟨h_feed, seq, senderSubId, simpleSecurityId, rfl⟩ := h
    cases tick <;> cases h_feed
    exact BitVec.toInt_signExtend_of_le (by decide)

/-- An order offers the price of the tick. -/
theorem OrderOf.price_eq (h : OrderOf (tick.signal side token) order)
    (h_price : 0 < tick.price.toInt) : order.price = tick.price.toInt := by
  cases order with
  | ouch order =>
    obtain ⟨h_feed, rfl⟩ := h
    cases tick <;> cases h_feed
    -- a signed number that is positive is the same number unsigned
    exact (BitVec.toInt_eq_toNat_of_lt (BitVec.toInt_pos_iff.mp h_price.le)).symm
  | nnf order =>
    obtain ⟨h_feed, traderId, rfl⟩ := h
    cases tick <;> cases h_feed
    rfl
  | sbe order =>
    obtain ⟨h_feed, symbolId, rfl⟩ := h
    cases tick <;> cases h_feed
    exact BitVec.toInt_signExtend_of_le (by decide)
  | mcx order =>
    obtain ⟨h_feed, seq, senderSubId, simpleSecurityId, rfl⟩ := h
    cases tick <;> cases h_feed
    exact BitVec.toInt_signExtend_of_le (by decide)

end

/-- The order an event pushes. -/
def Event.order : Event P → Option Order
  | .ordered _ order => some order
  | _ => none

theorem Event.order_eq_some {e : Event P} {order : Order} (h : e.order = some order) :
    ∃ p, e = .ordered p order := by
  cases e <;> cases h
  exact ⟨_, rfl⟩

/-- Reading an order off a position of a history. -/
theorem exists_ordered {tr : List (Event P)} {k : ℕ} {order : Order}
    (h : (tr[k]?).bind Event.order = some order) : ∃ p, tr[k]? = some (.ordered p order) := by
  obtain ⟨e, h_e, h_order⟩ := Option.bind_eq_some_iff.mp h
  obtain ⟨p, rfl⟩ := Event.order_eq_some h_order
  exact ⟨p, h_e⟩

theorem Origin.Evaluated.price_pos {bandBps : Kind → BitVec 32} {origin : Origin}
    (h : origin.Evaluated bandBps) : 0 < origin.tick.price.toInt :=
  Strategy.price_pos_of_evaluate (h.side_eq ▸ h.side_ne)

/-- **Orders and quantities.** Every order pushed to the pending queue was the signal of a tick, and
its quantity and price are positive exactly if the quantity of that tick is: the strategy asks for a
positive price, and nobody asks for a positive quantity. -/
theorem orders_positive_iff {config : Config} {message : Ptr P → TaggedMessage}
    {tr : List (Event P)} {w : World P cap}
    (h : (machine P cap).Reach (World.init config message) tr w) {p : Ptr P} {order : Order} {k : ℕ}
    (h_k : tr[k]? = some (.ordered p order)) :
    ∃ origin i, Submission tr p origin order i k ∧
      (0 < order.quantity ∧ 0 < order.price ↔ 0 < origin.tick.quantity) := by
  have h_lives := (FaithfulInv.reach h).lives
  obtain ⟨origin, i, hS⟩ := exists_submission h_lives h_k
  obtain ⟨h_origin, h_order⟩ := hS.orderOf h_lives
  refine ⟨origin, i, hS, ?_⟩
  rw [h_order.quantity_eq, h_order.price_eq h_origin.price_pos]
  exact and_iff_left h_origin.price_pos

/-- An ITCH frame with this order to add. -/
def itchFrameOf (tick : ItchAddOrder) : List Byte :=
  0 :: 36 :: List.ofFn fun k : Fin 36 => ItchAddOrder.codec.put tick k

/-- Two ITCH ticks of so many shares each, the second of which makes an order. -/
def orderRun (shares : BitVec 32) : List Action :=
  [.ingestItchFrame (some (itchFrameOf { price := 10000, shares })), .drainMarket,
    .ingestItchFrame (some (itchFrameOf { price := 9000, shares })), .pollItch, .pollOuch].map
    fun op => ⟨op, fun _ => ⟨MPMC.strong, MPMC.strong, 2⟩⟩

/-- The seventh event pushes an order, so its tick has a positive quantity just when it has. -/
theorem orders_positive_iff_hundred :
    ∃ (tr : List (Event twoPool)) (w : World twoPool fun _ => Capacity.two),
      (machine twoPool fun _ => Capacity.two).Reach
        (World.init {} fun _ => TaggedMessage.fresh) tr w ∧
      ∃ p order origin i, Submission tr p origin order i 6 ∧ order.quantity = 100 ∧
        (0 < order.quantity ∧ 0 < order.price ↔ 0 < origin.tick.quantity) := by
  obtain ⟨tr, w, h_reach, h_run⟩ := Machine.exists_reach_of_run
    (machine twoPool fun _ => Capacity.two) (World.init {} fun _ => TaggedMessage.fresh)
    (orderRun 100) (fun _ tr => decide ((tr[6]?.bind Event.order).map Order.quantity = some 100))
    (by decide +kernel)
  -- event 6 shows an order of a hundred
  obtain ⟨order, h_order, h_quantity⟩ := Option.map_eq_some_iff.mp (of_decide_eq_true h_run)
  obtain ⟨p, h_k⟩ := exists_ordered h_order
  -- and the theorem traces it back to its tick
  obtain ⟨origin, i, hS, h_iff⟩ := orders_positive_iff h_reach h_k
  exact ⟨tr, w, h_reach, p, order, origin, i, hS, h_quantity, h_iff⟩

/-- Ticks of no shares whose price falls below the band make an order for no shares. -/
theorem orders_not_positive :
    ¬∀ (tr : List (Event twoPool)) (w : World twoPool fun _ => Capacity.two),
      (machine twoPool fun _ => Capacity.two).Reach
        (World.init {} fun _ => TaggedMessage.fresh) tr w →
      ∀ p order, .ordered p order ∈ tr → 0 < order.quantity ∧ 0 < order.price := by
  intro h_all
  obtain ⟨tr, w, h_reach, h_run⟩ := Machine.exists_reach_of_run
    (machine twoPool fun _ => Capacity.two) (World.init {} fun _ => TaggedMessage.fresh)
    (orderRun 0) (fun _ tr => decide ((tr[6]?.bind Event.order).map Order.quantity = some 0))
    (by decide +kernel)
  -- event 6 shows an order for no shares
  obtain ⟨order, h_order, h_quantity⟩ := Option.map_eq_some_iff.mp (of_decide_eq_true h_run)
  obtain ⟨p, h_k⟩ := exists_ordered h_order
  have h_pos := (h_all tr w h_reach p order (List.mem_of_getElem? h_k)).1
  exact absurd h_quantity h_pos.ne'

/-! ### The security of an order -/

/-- An order to MCX is for this security. -/
def Event.Secured (simpleSecurityId : BitVec 32) : Event P → Prop
  | .ordered _ (.mcx order) => order.simpleSecurityId = simpleSecurityId
  | _ => True

section

variable {id : BitVec 32} {env : Env} {mem mem' : Memory P cap} {es : List (Event P)}

theorem producerOnTick_secured {tick : Tick} {self self' : Producer} {owned : Option (Ptr P)}
    (h : producerOnTick env mem self tick owned = some (mem', self', es)) :
    ∀ e ∈ es, e.Secured id := by
  cases producerOnTick_step h <;> simp [Event.Secured]

theorem producerPollOnce_secured {kind : Kind} {read : TaggedMessage → Tick}
    {self self' : Producer}
    (h : producerPollOnce kind read env mem self = some (mem', self', es)) :
    ∀ e ∈ es, e.Secured id := by
  unfold producerPollOnce at h
  split at h
  · cases h
    simp
  · split at h
    · exact producerOnTick_secured h
    · cases h
      simp [Event.Secured]

theorem drainMarket_secured {self self' : Producers}
    (h : drainMarket env mem self = some (mem', self', es)) : ∀ e ∈ es, e.Secured id := by
  unfold drainMarket at h
  split at h
  · cases h
    simp
  · unfold routeMarketTick at h
    split at h
    case h_4 =>
      cases h
      simp [Event.Secured]
    -- a kind that is routed is handled by its producer
    all_goals
      split at h
      · cases h
      · next h_tick =>
        cases h
        exact producerOnTick_secured h_tick

/-- A consumer pushes the order it builds, if any. -/
theorem consumerPollOnce_secured {feed : Kind} {order : StrategySignal → Order}
    {submitted : Bool}
    (h_order : ∀ (p : Ptr P) signal, (Event.ordered p (order signal)).Secured id)
    (h : consumerPollOnce feed order env mem = some (mem', submitted, es)) :
    ∀ e ∈ es, e.Secured id := by
  cases consumerPollOnce_call h with
  | empty | noSignal | putBack | noSide => simp [Event.Secured]
  | submit msg =>
    intro e h_e
    rw [List.mem_singleton.mp h_e]
    exact h_order _ _

theorem gateway_secured {self self' : ExchangeGateway}
    (h : self.pollOnce env mem = some (mem', self', es)) : ∀ e ∈ es, e.Secured id := by
  unfold ExchangeGateway.pollOnce at h
  split at h
  · cases h
    simp
  · split at h
    · cases h
      simp [Event.Secured]
    · split at h <;> cases h
      simp [Event.Secured]

theorem storeTick_secured {tick : Tick} {stored : Bool}
    (h : storeTick env mem tick = some (mem', stored, es)) : ∀ e ∈ es, e.Secured id := by
  unfold storeTick at h
  split at h
  · cases h
    simp
  · split at h <;> cases h
    simp [Event.Secured]

theorem Ingest.store_secured {envs : ℕ → Env} {s s' : Ingest P cap} {decoded : Option Tick}
    {accepted : Bool} (h_shown : ∀ e ∈ s.shown, e.Secured id)
    (h : s.store envs decoded = some (s', accepted)) : ∀ e ∈ s'.shown, e.Secured id := by
  -- only a tick that is stored shows events
  cases decoded with
  | none =>
    cases h
    exact h_shown
  | some tick =>
    simp only [Ingest.store] at h
    split at h
    · cases h
    · next h_store =>
      cases h
      intro e h_e
      rcases List.mem_append.mp h_e with h_old | h_new
      · exact h_shown e h_old
      · exact storeTick_secured h_store e h_new

end

/-- The consumer of MCX signals keeps the security it was constructed with, and every order to
MCX is for it. -/
structure World.Secured (id : BitVec 32) (tr : List (Event P)) (w : World P cap) : Prop where
  config : w.consumers.mcx.simpleSecurityId = id
  orders : ∀ e ∈ tr, e.Secured id

theorem World.Secured.step {id : BitVec 32} {tr : List (Event P)} {w w' : World P cap}
    {a : Action} {es : List (Event P)} (hI : w.Secured id tr) (h : w.step a = some (w', es)) :
    w'.Secured id (tr ++ es) := by
  obtain ⟨h_config, h_orders⟩ := hI
  -- it is enough to know the consumer after the call, and what the call shows
  suffices w'.consumers.mcx.simpleSecurityId = id ∧ ∀ e ∈ es, e.Secured id by
    refine ⟨this.1, fun e h_e => ?_⟩
    rcases List.mem_append.mp h_e with h_old | h_new
    · exact h_orders e h_old
    · exact this.2 e h_new
  obtain ⟨op, envs⟩ := a
  cases op with
  | ingestItchFrame frame =>
    obtain ⟨mem, _, h_call, rfl⟩ := ended_eq_some h
    obtain ⟨⟨s, stats⟩, h_split, h_result⟩ := Option.map_eq_some_iff.mp h_call
    cases h_result
    exact ⟨h_config, splitItchFrame_inv (I := fun s => ∀ e ∈ s.shown, e.Secured id)
      (fun _ _ _ _ _ h_shown h_store => Ingest.store_secured h_shown h_store) (by simp) h_split⟩
  | ingestMtbtFrame frame fuel =>
    obtain ⟨mem, _, h_call, rfl⟩ := ended_eq_some h
    obtain ⟨⟨s, stats⟩, h_split, h_result⟩ := Option.map_eq_some_iff.mp h_call
    cases h_result
    exact ⟨h_config, splitMtbtFrame_inv (I := fun s => ∀ e ∈ s.shown, e.Secured id)
      (fun _ _ _ _ _ _ h_shown h_store => Ingest.store_secured h_shown h_store) (by simp) h_split⟩
  | ingestMcxTobFrame frame =>
    obtain ⟨mem, _, h_call, rfl⟩ := ended_eq_some h
    refine ⟨h_config, ?_⟩
    rcases ingestMcxTobFrame_cases h_call with ⟨-, rfl⟩ | ⟨tick, stored, h_store⟩
    · simp
    · exact storeTick_secured h_store
  | feedBbo tick =>
    obtain ⟨mem, _, h_call, rfl⟩ := ended_eq_some h
    exact ⟨h_config, storeTick_secured h_call⟩
  | pollItch | pollMtbt | pollSbe | pollMcx =>
    obtain ⟨mem, self, h_call, rfl⟩ := ended_eq_some h
    exact ⟨h_config, producerPollOnce_secured h_call⟩
  | drainMarket =>
    obtain ⟨mem, producers, h_call, rfl⟩ := ended_eq_some h
    exact ⟨h_config, drainMarket_secured h_call⟩
  | onItchTick tick | onMtbtTick tick | onSbeTick tick | onMcxTick tick =>
    obtain ⟨mem, self, h_call, rfl⟩ := ended_eq_some h
    exact ⟨h_config, producerOnTick_secured h_call⟩
  | pollOuch | pollNnf | pollSbeOrder =>
    obtain ⟨mem, self, h_call, rfl⟩ := ended_eq_some h
    obtain ⟨_, h_poll, -⟩ := polled_eq_some h_call
    refine ⟨h_config, consumerPollOnce_secured ?_ h_poll⟩
    exact fun _ _ => trivial
  | pollMcxOrder =>
    obtain ⟨mem, self, h_call, rfl⟩ := ended_eq_some h
    obtain ⟨submitted, h_poll, rfl⟩ := polled_eq_some h_call
    refine ⟨?_, consumerPollOnce_secured ?_ h_poll⟩
    · -- of the consumer only the sequence number and the counter change
      cases submitted <;> exact h_config
    · exact fun _ _ => h_config
  | pollGateway =>
    obtain ⟨mem, self, h_call, rfl⟩ := ended_eq_some h
    exact ⟨h_config, gateway_secured h_call⟩
  | releaseConfirm =>
    simp only [World.step] at h
    split at h
    · cases h
      exact ⟨h_config, by simp⟩
    · cases h
      exact ⟨h_config, by simp [Event.Secured]⟩

theorem World.Secured.reach {config : Config} {message : Ptr P → TaggedMessage}
    {tr : List (Event P)} {w : World P cap}
    (h : (machine P cap).Reach (World.init config message) tr w) :
    w.Secured config.simpleSecurityId tr :=
  h.inv (I := fun tr w => w.Secured config.simpleSecurityId tr) ⟨rfl, by simp⟩
    fun _ _ _ _ _ hI _ h_step => hI.step h_step

/-- **Orders and securities.** The order that an MCX tick leads to is for the tick's security
exactly if that is the one that the consumer was constructed with: the order takes it from the
consumer, and the signal does not say it. -/
theorem mcx_order_security_iff {config : Config} {message : Ptr P → TaggedMessage}
    {tr : List (Event P)} {w : World P cap}
    (h : (machine P cap).Reach (World.init config message) tr w) {p : Ptr P} {origin : Origin}
    {order : Order} {tick : TopOfBook} {i k : ℕ} (hS : Submission tr p origin order i k)
    (h_tick : origin.tick = .mcx tick) :
    ∃ o, order = .mcx o ∧ (o.simpleSecurityId = tick.simpleSecurityId ↔
      tick.simpleSecurityId = config.simpleSecurityId) := by
  obtain ⟨-, h_order⟩ := hS.orderOf (FaithfulInv.reach h).lives
  obtain ⟨origin_tick, ref, side, token⟩ := origin
  cases h_tick
  cases order with
  | mcx o =>
    refine ⟨o, rfl, ?_⟩
    have h_id : o.simpleSecurityId = config.simpleSecurityId :=
      (World.Secured.reach h).orders _ (List.mem_of_getElem? hS.ordered)
    rw [h_id]
    exact eq_comm
  -- the other venues have other feeds
  | ouch o => cases h_order.1
  | nnf o => cases h_order.1
  | sbe o => cases h_order.1

/-- The order that an event makes of the signal of the event before it. -/
def submitted : Option (Event P) → Option (Event P) → Option (Origin × Order)
  | some (.signalled p origin), some (.ordered q order) =>
    if p = q then some (origin, order) else none
  | _, _ => none

/-- Reading a submission off two positions of a history. -/
theorem exists_submission_of_succ {bandBps : Kind → BitVec 32} {tr : List (Event P)} {i : ℕ}
    {origin : Origin} {order : Order} (h_lives : Lives Event.ptr (Event.Follows bandBps) tr)
    (h : submitted tr[i]? tr[i + 1]? = some (origin, order)) :
    ∃ p, Submission tr p origin order i (i + 1) := by
  unfold submitted at h
  -- an evaluation and then an order, of one message
  split at h
  · next p _ q _ h_i h_k =>
    split at h
    · next h_ptr =>
      cases h
      subst h_ptr
      obtain ⟨g, h_g, h_gi, -⟩ := exists_evaluated h_lives h_i
      exact ⟨p, ⟨g, h_g, h_gi⟩, h_i, h_k, .succ h_i h_k rfl⟩
    · cases h
  · cases h

/-- The securities of an MCX tick and of the order made of it. -/
def securities : Origin × Order → Option (BitVec 32 × BitVec 32)
  | (⟨.mcx tick, _, _, _⟩, .mcx order) => some (tick.simpleSecurityId, order.simpleSecurityId)
  | _ => none

theorem securities_eq_some {origin : Origin} {order : Order} {id id' : BitVec 32}
    (h : securities (origin, order) = some (id, id')) :
    ∃ tick o, origin.tick = .mcx tick ∧ order = .mcx o ∧ tick.simpleSecurityId = id ∧
      o.simpleSecurityId = id' := by
  obtain ⟨tick, ref, side, token⟩ := origin
  cases tick <;> cases order <;> cases h
  exact ⟨_, _, rfl, rfl, rfl, rfl⟩

/-- A frame of the MCX feed. -/
def mcxFrame (simpleSecurityId : BitVec 32) (price : BitVec 64) : List Byte :=
  List.ofFn fun k : Fin 56 => TopOfBook.codec.put
    { simpleSecurityId, bidPrice := price, askPrice := price, bidQty := 100 } k

/-- Two frames for this security, the second of which makes an order. -/
def mcxRun (simpleSecurityId : BitVec 32) : List Action :=
  [.ingestMcxTobFrame (some (mcxFrame simpleSecurityId 10000)), .drainMarket,
    .ingestMcxTobFrame (some (mcxFrame simpleSecurityId 9000)), .pollMcx, .pollMcxOrder].map
    fun op => ⟨op, fun _ => ⟨MPMC.strong, MPMC.strong, 2⟩⟩

/-- A tick of the security the consumer was constructed with. -/
theorem mcx_order_security_iff_configured :
    ∃ (tr : List (Event twoPool)) (w : World twoPool fun _ => Capacity.two),
      (machine twoPool fun _ => Capacity.two).Reach
        (World.init {} fun _ => TaggedMessage.fresh) tr w ∧
      ∃ p origin tick o i k, Submission tr p origin (.mcx o) i k ∧ origin.tick = .mcx tick ∧
        o.simpleSecurityId = tick.simpleSecurityId := by
  obtain ⟨tr, w, h_reach, h_run⟩ := Machine.exists_reach_of_run
    (machine twoPool fun _ => Capacity.two) (World.init {} fun _ => TaggedMessage.fresh)
    (mcxRun 5001) (fun _ tr => decide
      ((submitted tr[5]? tr[6]?).bind securities = some (5001, 5001))) (by decide +kernel)
  -- events 5 and 6 are a submission, with the tick's and the order's security
  obtain ⟨⟨origin, order⟩, h_submitted, h_ids⟩ :=
    Option.bind_eq_some_iff.mp (of_decide_eq_true h_run)
  obtain ⟨p, hS⟩ := exists_submission_of_succ (FaithfulInv.reach h_reach).lives h_submitted
  obtain ⟨tick, _, h_tick, -, h_id, -⟩ := securities_eq_some h_ids
  obtain ⟨o, rfl, h_iff⟩ := mcx_order_security_iff h_reach hS h_tick
  exact ⟨tr, w, h_reach, p, origin, tick, o, _, _, hS, h_tick, h_iff.mpr h_id⟩

/-- A tick of security 5002 leads to an order for 5001, the security the consumer was constructed
with. -/
theorem mcx_order_other_security :
    ¬∀ (tr : List (Event twoPool)) (w : World twoPool fun _ => Capacity.two),
      (machine twoPool fun _ => Capacity.two).Reach
        (World.init {} fun _ => TaggedMessage.fresh) tr w →
      ∀ p origin tick o i k, Submission tr p origin (.mcx o) i k → origin.tick = .mcx tick →
        o.simpleSecurityId = tick.simpleSecurityId := by
  intro h_all
  obtain ⟨tr, w, h_reach, h_run⟩ := Machine.exists_reach_of_run
    (machine twoPool fun _ => Capacity.two) (World.init {} fun _ => TaggedMessage.fresh)
    (mcxRun 5002) (fun _ tr => decide
      ((submitted tr[5]? tr[6]?).bind securities = some (5002, 5001))) (by decide +kernel)
  -- the two securities differ
  obtain ⟨⟨origin, order⟩, h_submitted, h_ids⟩ :=
    Option.bind_eq_some_iff.mp (of_decide_eq_true h_run)
  obtain ⟨p, hS⟩ := exists_submission_of_succ (FaithfulInv.reach h_reach).lives h_submitted
  obtain ⟨tick, o, h_tick, rfl, h_id, h_id'⟩ := securities_eq_some h_ids
  have h_eq := h_all tr w h_reach p origin tick o _ _ hS h_tick
  rw [h_id, h_id'] at h_eq
  exact absurd h_eq (by decide)

end Trading

end Hft
