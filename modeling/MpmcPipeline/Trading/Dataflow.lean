import Mathlib.Algebra.Group.Prod
import Mathlib.Data.BitVec
import Mathlib.Logic.Relation
import MpmcPipeline.Mem.Accounts
import MpmcPipeline.Trading.Fidelity
import MpmcPipeline.Trading.Routines

/-!
# The contract of the stages

Every stage relies on what lies in the queue it takes from: the market queue holds ticks, the
signal queue signals of ticks, the pending queue orders for signals, and the confirm queue
confirms of orders. Nothing in the code checks this along the way; it is what the stages owe
each other, and `Flow.contract` says it, as a contract in the sense of `Mem/Contract.lean`.

The records are tied to where they come from. A signal in a queue was made from a tick that a
call has brought in, with the side that the band of a producer gives it; an order is the one a
consumer builds for such a signal, and a confirm the one the gateway builds for such an order.
The contract also counts: a producer counts its signals, a consumer its orders, the gateway its
confirms and the references it has given.

`StageCall.kept` is the theorem about the code: every call that is wired to queues in their
roles keeps the contract, taken by itself. What follows for the system is in
`Trading/Conservation.lean`.
-/

namespace Hft

namespace Trading

open Worker
open Program (wp_bind)

variable {P : PoolCapacity} {Q ι : Type}

/-! ### Records of the stages -/

/-- The record of a tick. -/
def Tick.record : Tick → Record
  | itch tick => .itch tick
  | mtbt tick => .mtbt tick
  | sbe tick => .sbeMarket tick
  | mcx tick => .mcxMarket tick

/-- The record of an order. -/
def Order.record : Order → Record
  | ouch order => .ouch order
  | nnf order => .nnf order
  | sbe order => .sbeOrderEntry order
  | mcx order => .mcxOrder order

/-- The record of a confirm. -/
def Confirm.record : Confirm → Record
  | ouch ack => .ouchConfirm ack
  | nnf ack => .nnfConfirm ack
  | sbe ack => .sbeFastOrder ack
  | mcx ack => .mcxConfirm ack

/-- The tick that `fill_test_message` writes. -/
def testTick (sequence : BitVec 64) : ItchAddOrder :=
  { stockLocate := (sequence &&& 0xFFFF).setWidth 16, shares := sequence.setWidth 32 }

/-- **How stages are put together**: what a queue is for, which ticks come in, and the band of
every producer. -/
structure Flow (Q ι : Type) where
  role : Q → Stage
  admits : Tick → Prop
  band : ι → BitVec 32

namespace Flow

variable (F : Flow Q ι)

/-- A producer made a signal of a tick that came in. -/
def Made (origin : Origin) : Prop :=
  F.admits origin.tick ∧ ∃ self, origin.Evaluated fun _ => F.band self

/-- What lies in a queue. -/
def Carried : Stage → Record → Prop
  | .market, x => ∃ tick, F.admits tick ∧ x = Tick.record tick
  | .signal, x => ∃ origin, F.Made origin ∧ x = .signal origin.signal
  | .pending, x => ∃ origin order, F.Made origin ∧ OrderOf origin.signal order ∧
      x = Order.record order
  | .confirm, x => ∃ origin order ack, F.Made origin ∧ OrderOf origin.signal order ∧
      AckOf order ack ∧ x = Confirm.record ack

/-- A signal that is made has a side. -/
theorem Made.side_ne {F : Flow Q ι} {origin : Origin} (h : F.Made origin) :
    origin.signal.side ≠ .none := by
  obtain ⟨-, _, h_origin⟩ := h
  rw [Origin.signal, Tick.signal_side]
  exact h_origin.side_ne

end Flow

/-! ### What is counted -/

/-- The references that have been given, and are next. -/
def Counters.sum (refs : Counters) : BitVec 64 :=
  refs.nextOuchRef + refs.nextNnfOrder + refs.nextSbeSeq + refs.nextMcxOrder

section

variable [Fintype ι]

/-- `signals_emitted()` of all producers. -/
def Parts.signals (parts : Parts ι) : BitVec 64 := ∑ self, (parts.producer self).signals

/-- `orders_submitted()` of all consumers. -/
def Parts.submitted (parts : Parts ι) : BitVec 64 :=
  ∑ self, (parts.ouch self).submitted + ∑ self, (parts.nnf self).submitted +
    ∑ self, (parts.sbeOrder self).submitted + ∑ self, (parts.mcxOrder self).submitted

/-- `confirms_emitted()` of all gateways. -/
def Parts.confirms (parts : Parts ι) : BitVec 64 := ∑ self, (parts.gateway self).confirms

/-- The references of all gateways. -/
def Parts.refs (parts : Parts ι) : BitVec 64 := ∑ self, (parts.gateway self).counters.sum

namespace Flow

/-- What a record counts for: a signal that is no order yet, or an order that is not confirmed
yet. -/
def counts : Stage → BitVec 64 × BitVec 64 × BitVec 64
  | .signal => (1, 0, 0)
  | .pending => (0, 1, 0)
  | .market | .confirm => 0

/-- **The contract of the stages.** The three quantities are signals that are no order yet,
orders that are not confirmed yet, and references that have no confirm. -/
def contract (F : Flow Q ι) : Contract Q (Parts ι) (BitVec 64 × BitVec 64 × BitVec 64) where
  queue q := F.Carried (F.role q)
  discard x := F.Carried .market x ∨ F.Carried .confirm x
  members parts := ∀ self, (parts.producer self).bandBps = F.band self
  value parts := (parts.submitted - parts.signals, parts.confirms - parts.submitted,
    parts.confirms - parts.refs)
  weight q _ := counts (F.role q)

/-- An account of the stages. -/
abbrev Standing (P : PoolCapacity) := Account P (BitVec 64 × BitVec 64 × BitVec 64)

/-! ### Accesses to the members -/

section

variable [DecidableEq ι] {F : Flow Q ι} {self : ι} {g : Standing P}

omit [DecidableEq ι] in
/-- An access to the members of an object. -/
theorem wp_access {α : Type} {get : Parts ι → α} {update : Parts ι → Parts ι}
    {post : α → Standing P → Prop}
    (h : ∀ parts, F.contract.members parts → F.contract.members (update parts) ∧
      post (get parts) ⟨g.message,
        g.due + (F.contract.value parts - F.contract.value (update parts))⟩) :
    (do let parts ← own update; pure (get parts) : Code P Q ι α).wp F.contract.rules g post := by
  rw [wp_bind]
  refine Contract.wp_own fun parts h_parts => ?_
  rw [add_sub_assoc]
  exact h parts h_parts

/-- The sum of a count over the objects after an access to one of them. -/
theorem sum_update {α : Type} (count : α → BitVec 64) (members : ι → α) (self : ι) (a : α) :
    ∑ i, count (Function.update members self a i) =
      ∑ i, count (members i) + (count a - count (members self)) := by
  obtain ⟨rest, h_before, h_after⟩ := Finset.exists_rest count members self
  rw [h_before, h_after]
  abel

theorem wp_producer {f : Producer → Producer} {post : Producer → Standing P → Prop}
    (h : ∀ members : Producer, members.bandBps = F.band self →
      (f members).bandBps = members.bandBps ∧
      post members ⟨g.message, g.due + ((f members).signals - members.signals, 0, 0)⟩) :
    (Code.producer self f : Code P Q ι Producer).wp F.contract.rules g post := by
  refine wp_access fun parts h_parts => ?_
  obtain ⟨h_band, h_post⟩ := h (parts.producer self) (h_parts self)
  -- no access changes the band that the constructor has set
  refine ⟨fun i => ?_, ?_⟩
  · by_cases h_i : i = self
    · subst h_i
      dsimp only
      rw [Function.update_self, h_band, h_parts i]
    · dsimp only
      rw [Function.update_of_ne h_i, h_parts i]
  · have h_value : F.contract.value parts - F.contract.value { parts with
        producer := Function.update parts.producer self (f (parts.producer self)) } =
        ((f (parts.producer self)).signals - (parts.producer self).signals, 0, 0) := by
      refine Prod.ext ?_ (Prod.ext (sub_self _) (sub_self _))
      simp only [contract, Parts.signals, sum_update Producer.signals, Prod.fst_sub]
      simp only [Parts.submitted]
      abel
    rw [h_value]
    exact h_post

omit [DecidableEq ι] in
/-- What a consumer counts leaves the signals, and joins the orders. -/
theorem wp_submitted {α : Type} {get : Parts ι → α} {update : Parts ι → Parts ι}
    {post : α → Standing P → Prop} (count : α → BitVec 64) (f : α → α)
    (h_producer : ∀ parts, (update parts).producer = parts.producer)
    (h_gateway : ∀ parts, (update parts).gateway = parts.gateway)
    (h_submitted : ∀ parts, (update parts).submitted =
      parts.submitted + (count (f (get parts)) - count (get parts)))
    (h : ∀ members, post members ⟨g.message, g.due +
      (count members - count (f members), count (f members) - count members, 0)⟩) :
    (do let parts ← own update; pure (get parts) : Code P Q ι α).wp F.contract.rules g post := by
  -- the consumer's members touch no producer, so the bands stay as they were
  refine wp_access fun parts h_parts => ⟨fun i => ?_, ?_⟩
  · rw [h_producer]
    exact h_parts i
  · -- of the three sums of the contract the first two move, against each other
    have h_value : F.contract.value parts - F.contract.value (update parts) =
        (count (get parts) - count (f (get parts)), count (f (get parts)) - count (get parts),
          0) := by
      simp only [contract, Parts.signals, Parts.confirms, Parts.refs, h_producer, h_gateway,
        h_submitted]
      refine Prod.ext ?_ (Prod.ext ?_ (sub_self _))
      · simp only [Prod.fst_sub]
        abel
      · simp only [Prod.fst_sub, Prod.snd_sub]
        abel
    rw [h_value]
    exact h (get parts)

theorem wp_ouch {f : OuchConsumer → OuchConsumer} {post : OuchConsumer → Standing P → Prop}
    (h : ∀ members, post members ⟨g.message, g.due + (members.submitted - (f members).submitted,
      (f members).submitted - members.submitted, 0)⟩) :
    (Code.ouch self f : Code P Q ι OuchConsumer).wp F.contract.rules g post := by
  refine wp_submitted OuchConsumer.submitted f (fun _ => rfl) (fun _ => rfl) (fun parts => ?_) h
  simp only [Parts.submitted, sum_update OuchConsumer.submitted]
  abel

theorem wp_nnf {f : NnfConsumer → NnfConsumer} {post : NnfConsumer → Standing P → Prop}
    (h : ∀ members, post members ⟨g.message, g.due + (members.submitted - (f members).submitted,
      (f members).submitted - members.submitted, 0)⟩) :
    (Code.nnf self f : Code P Q ι NnfConsumer).wp F.contract.rules g post := by
  refine wp_submitted NnfConsumer.submitted f (fun _ => rfl) (fun _ => rfl) (fun parts => ?_) h
  simp only [Parts.submitted, sum_update NnfConsumer.submitted]
  abel

theorem wp_sbeOrder {f : SbeOrderEntryConsumer → SbeOrderEntryConsumer}
    {post : SbeOrderEntryConsumer → Standing P → Prop}
    (h : ∀ members, post members ⟨g.message, g.due + (members.submitted - (f members).submitted,
      (f members).submitted - members.submitted, 0)⟩) :
    (Code.sbeOrder self f : Code P Q ι SbeOrderEntryConsumer).wp F.contract.rules g post := by
  refine wp_submitted SbeOrderEntryConsumer.submitted f (fun _ => rfl) (fun _ => rfl)
    (fun parts => ?_) h
  simp only [Parts.submitted, sum_update SbeOrderEntryConsumer.submitted]
  abel

theorem wp_mcxOrder {f : McxOrderConsumer → McxOrderConsumer}
    {post : McxOrderConsumer → Standing P → Prop}
    (h : ∀ members, post members ⟨g.message, g.due + (members.submitted - (f members).submitted,
      (f members).submitted - members.submitted, 0)⟩) :
    (Code.mcxOrder self f : Code P Q ι McxOrderConsumer).wp F.contract.rules g post := by
  refine wp_submitted McxOrderConsumer.submitted f (fun _ => rfl) (fun _ => rfl)
    (fun parts => ?_) h
  simp only [Parts.submitted, sum_update McxOrderConsumer.submitted]
  abel

theorem wp_gateway {f : ExchangeGateway → ExchangeGateway}
    {post : ExchangeGateway → Standing P → Prop}
    (h : ∀ members, post members ⟨g.message, g.due + (0, members.confirms - (f members).confirms,
      members.confirms - (f members).confirms +
        ((f members).counters.sum - members.counters.sum))⟩) :
    (Code.gateway self f : Code P Q ι ExchangeGateway).wp F.contract.rules g post := by
  -- a gateway touches no producer
  refine wp_access fun parts h_parts => ⟨h_parts, ?_⟩
  -- a confirm is owed to the orders, and a reference number to the confirms
  have h_value : F.contract.value parts - F.contract.value { parts with
      gateway := Function.update parts.gateway self (f (parts.gateway self)) } =
      (0, (parts.gateway self).confirms - (f (parts.gateway self)).confirms,
        (parts.gateway self).confirms - (f (parts.gateway self)).confirms +
          ((f (parts.gateway self)).counters.sum - (parts.gateway self).counters.sum)) := by
    simp only [contract, Parts.confirms, Parts.refs, sum_update ExchangeGateway.confirms,
      sum_update fun members : ExchangeGateway => members.counters.sum]
    refine Prod.ext (sub_self _) (Prod.ext ?_ ?_)
    · simp only [Prod.fst_sub, Prod.snd_sub, Parts.submitted]
      abel
    · simp only [Prod.snd_sub]
      abel
  rw [h_value]
  exact h (parts.gateway self)

theorem wp_runtime {f : TestCounters → TestCounters} {post : TestCounters → Standing P → Prop}
    (h : ∀ members, post members g) :
    (Code.runtime self f : Code P Q ι TestCounters).wp F.contract.rules g post := by
  refine wp_access fun parts h_parts => ⟨h_parts, ?_⟩
  have h_value : F.contract.value parts - F.contract.value { parts with
      runtime := Function.update parts.runtime self (f (parts.runtime self)) } = 0 := sub_self _
  rw [h_value, add_zero]
  exact h (parts.runtime self)

/-! ### The queues -/

variable {market signals pending confirms : Q} {p : Ptr P} {c : Content}

theorem settled_of_due {due : BitVec 64 × BitVec 64 × BitVec 64} (h : due = 0) :
    (⟨none, due⟩ : Standing P) = .settled := congrArg _ h

section

variable {q : Q} {stage : Stage} {due : BitVec 64 × BitVec 64 × BitVec 64}

omit [DecidableEq ι] in
/-- What is taken from a queue is what lies there. -/
theorem wp_take {post : Option (Ptr P) → Standing P → Prop} (h_role : F.role q = stage)
    (h_none : post none ⟨none, due⟩)
    (h_some : ∀ p x, F.Carried stage x →
      post (some p) ⟨some (p, .holds x), due + counts stage⟩) :
    (tryPop q : Code P Q ι (Option (Ptr P))).wp F.contract.rules ⟨none, due⟩ post := by
  subst h_role
  exact Contract.wp_tryPop h_none h_some

omit [DecidableEq ι] in
/-- What is taken from the first or the last queue is not counted, and may be released. -/
theorem wp_take_old {post : Option (Ptr P) → Standing P → Prop}
    (h_role : F.role q = .market ∨ F.role q = .confirm) (h_none : post none ⟨none, due⟩)
    (h_some : ∀ p x, F.contract.discard x → post (some p) ⟨some (p, .holds x), due⟩) :
    (tryPop q : Code P Q ι (Option (Ptr P))).wp F.contract.rules ⟨none, due⟩ post := by
  obtain h_role | h_role := h_role
  · refine wp_take h_role h_none fun p x h_x => ?_
    rw [counts, add_zero]
    exact h_some p x (Or.inl h_x)
  · refine wp_take h_role h_none fun p x h_x => ?_
    rw [counts, add_zero]
    exact h_some p x (Or.inr h_x)

omit [DecidableEq ι] in
/-- What is put into a queue is what may lie there. -/
theorem wp_put {post : Unit → Standing P → Prop} (x : Record) (h_role : F.role q = stage)
    (h_is : c.Is x) (h_x : F.Carried stage x) (h : post () ⟨none, due - counts stage⟩) :
    (push q p : Code P Q ι Unit).wp F.contract.rules ⟨some (p, c), due⟩ post := by
  subst h_role
  exact Contract.wp_push x h_is h_x h

end

/-! ### Ingestion -/

omit [DecidableEq ι] in
/-- What a handler does with a tick. -/
theorem store_kept {α : Type} [W : WireMessage α] {decoded : α} (x : Record)
    (h_kind : x.kind = W.kindOf) (h_byte : x.byte = W.codec.put decoded)
    (h_market : F.role market = .market) (h_x : F.Carried .market x) :
    F.contract.KeptBy (Code.store market decoded : Code P Q ι Unit) := by
  rw [Contract.KeptBy, Contract.Settles, Code.store, wp_bind, acquireFilled, wp_bind]
  refine Contract.wp_acquire rfl fun slot => ?_
  refine Contract.wp_fill_bind x h_kind h_byte W.size_eq ?_
  exact wp_put x h_market ⟨rfl, rfl⟩ h_x (settled_of_due (sub_zero _))

omit [DecidableEq ι] in
/-- A loop whose handler keeps the contract on the pieces it comes to. -/
theorem split_kept {β : Type} {cut : ℕ → Splitter.Cut β} {handler : β → Code P Q ι Unit}
    {I : ℕ → Prop} (h_handler : ∀ offset piece next, I offset → cut offset = .call piece next →
      F.contract.KeptBy (handler piece) ∧ I next) (fuel offset : ℕ) (hI : I offset) :
    F.contract.KeptBy (Code.split cut handler fuel offset) := by
  induction fuel generalizing offset with
  | zero => trivial
  | succ fuel ih =>
    rw [Code.split]
    split
    · rfl
    · next piece next h_cut =>
      obtain ⟨h_piece, h_next⟩ := h_handler offset piece next hI h_cut
      exact h_piece.bind (ih next h_next)

/-! ### Producers -/

theorem emit_settles (origin : Origin) (h_signals : F.role signals = .signal)
    (h_made : F.Made origin) :
    F.contract.Settles (Code.emit self signals origin.signal p : Code P Q ι Unit)
      ⟨some (p, c), 0⟩ := by
  rw [Contract.Settles, Code.emit, wp_bind, Code.encodeSignal]
  refine Contract.wp_fill (.signal origin.signal) rfl rfl rfl ?_
  rw [wp_bind]
  refine wp_put (.signal origin.signal) h_signals ⟨rfl, rfl⟩ ⟨origin, h_made, rfl⟩ ?_
  rw [wp_bind]
  refine wp_producer fun members _ => ⟨rfl, settled_of_due ?_⟩
  -- one signal more is counted, and one more is in the queue
  simp [counts]

/-- A producer hands on the message of its tick, with the signal in it, or releases it. -/
theorem producerOnTick_settles {tick : Tick} (h_signals : F.role signals = .signal)
    (h_tick : F.admits tick) (owned : Option (Ptr P)) :
    F.contract.Settles (Code.producerOnTick self signals tick owned : Code P Q ι Unit)
      ⟨owned.map fun msg => (msg, .holds tick.record), 0⟩ := by
  unfold Code.producerOnTick
  rw [Contract.Settles, wp_bind]
  refine wp_producer fun before h_band => ⟨rfl, ?_⟩
  simp only [Producer.follow, sub_self, Prod.mk_zero_zero, add_zero]
  split
  · -- no side
    cases owned with
    | none => rfl
    | some msg => exact Contract.wp_release (Or.inl ⟨tick, h_tick, rfl⟩) rfl
  · next h_side =>
    rw [wp_bind]
    refine wp_producer fun issued _ => ⟨rfl, ?_⟩
    simp only [sub_self, Prod.mk_zero_zero, add_zero]
    have h_made : F.Made { before.origin tick with token := issued.nextToken } :=
      ⟨h_tick, self, congrArg (Strategy.evaluate _ _) h_band, h_side⟩
    have h_emit : ∀ msg c, F.contract.Settles (Code.emit self signals
        (tick.signal (before.origin tick).side issued.nextToken) msg : Code P Q ι Unit)
        ⟨some (msg, c), 0⟩ := fun msg c =>
      emit_settles { before.origin tick with token := issued.nextToken } h_signals h_made
    cases owned with
    | some msg => exact h_emit msg _
    | none =>
      rw [Option.map_none]
      dsimp only
      rw [wp_bind]
      exact Contract.wp_acquire rfl fun msg => h_emit msg .raw

/-- A producer releases the ticks of other feeds. -/
theorem producerPollOnce_kept {α : Type} {kind : Kind} {A : Codec α} {tick : α → Tick}
    (h_market : F.role market = .market) (h_signals : F.role signals = .signal)
    (h_read : ∀ t : Tick, t.record.kind = kind →
      ∃ a, t = tick a ∧ t.record.byte = A.put a ∧ A.size ≤ t.record.kind.slotSize) :
    F.contract.KeptBy
      (Code.producerPollOnce kind A tick self market signals : Code P Q ι Unit) := by
  rw [Contract.KeptBy, Contract.Settles, Code.producerPollOnce, wp_bind]
  -- nothing is queued, or a message of the queue's role is taken
  refine wp_take h_market rfl fun msg x h_x => ?_
  obtain ⟨t, h_t, rfl⟩ := h_x
  simp only [counts, add_zero]
  rw [wp_bind]
  refine Contract.wp_readKind ?_
  -- a tick of its own feed is copied out and evaluated, one of another feed goes back
  split
  · next h_kind =>
    obtain ⟨a, rfl, h_byte, h_size⟩ := h_read t h_kind
    rw [wp_bind]
    exact Contract.wp_copyOut a h_byte h_size
      (producerOnTick_settles h_signals h_t (some msg))
  · exact Contract.wp_release (Or.inl ⟨t, h_t, rfl⟩) rfl

theorem drainMarket_kept {itch mtbt mcx : ι} (h_market : F.role market = .market)
    (h_signals : F.role signals = .signal) :
    F.contract.KeptBy (Code.drainMarket itch mtbt mcx market signals : Code P Q ι Unit) := by
  rw [Contract.KeptBy, Contract.Settles, Code.drainMarket, wp_bind]
  refine wp_take h_market rfl fun msg x h_x => ?_
  obtain ⟨tick, h_tick, rfl⟩ := h_x
  simp only [counts, add_zero]
  rw [Code.routeMarketTick, wp_bind]
  refine Contract.wp_readKind ?_
  -- each tick goes to the producer of its feed, and that of no feed of `main` is released
  cases tick with
  | itch t =>
    show (copyOut _ _ >>= _).wp _ _ _
    rw [wp_bind]
    exact Contract.wp_copyOut t rfl (le_of_eq rfl)
      (producerOnTick_settles h_signals h_tick (some msg))
  | mtbt t =>
    show (copyOut _ _ >>= _).wp _ _ _
    rw [wp_bind]
    exact Contract.wp_copyOut t rfl (le_of_eq rfl)
      (producerOnTick_settles h_signals h_tick (some msg))
  | sbe t => exact Contract.wp_release (Or.inl ⟨_, h_tick, rfl⟩) rfl
  | mcx t =>
    show (copyOut _ _ >>= _).wp _ _ _
    rw [wp_bind]
    exact Contract.wp_copyOut t rfl (le_of_eq rfl)
      (producerOnTick_settles h_signals h_tick (some msg))

/-! ### Consumers -/

omit [DecidableEq ι] in
theorem wp_decodeSignal {signal : StrategySignal} {due : BitVec 64 × BitVec 64 × BitVec 64}
    {post : StrategySignal → Standing P → Prop}
    (h : post signal ⟨some (p, .holds (.signal signal)), due⟩) :
    (Code.decodeSignal p : Code P Q ι StrategySignal).wp F.contract.rules
      ⟨some (p, .holds (.signal signal)), due⟩ post := by
  rw [Code.decodeSignal, wp_bind]
  refine Contract.wp_readKind ?_
  rw [if_pos (show (Record.signal signal).kind = .signal from rfl)]
  exact Contract.wp_copyOut signal rfl (le_of_eq rfl) h

omit [DecidableEq ι] in
/-- A consumer puts back, or submits with what its `submit` does. There is no signal without a
side for it to release, nor anything that is no signal. -/
theorem consumerPollOnce_kept {submit : StrategySignal → Ptr P → Code P Q ι Unit} {feed : Kind}
    (h_signals : F.role signals = .signal)
    (h_submit : ∀ origin msg, F.Made origin → origin.signal.feed = feed →
      F.contract.Settles (submit origin.signal msg)
        ⟨some (msg, .holds (.signal origin.signal)), counts .signal⟩) :
    F.contract.KeptBy (Code.consumerPollOnce feed signals submit) := by
  rw [Contract.KeptBy, Contract.Settles, Code.consumerPollOnce, wp_bind]
  -- whatever is taken is the signal of an origin
  refine wp_take h_signals rfl fun msg x h_x => ?_
  obtain ⟨origin, h_made, rfl⟩ := h_x
  dsimp only
  rw [wp_bind, zero_add]
  refine Contract.wp_readKind ?_
  -- so the kind test passes, and so does the one on the side
  rw [if_pos (show (Record.signal origin.signal).kind = .signal from rfl), wp_bind]
  refine wp_decodeSignal ?_
  split
  · -- a signal of another feed goes back into the queue as it is
    exact wp_put _ h_signals rfl ⟨origin, h_made, rfl⟩ (settled_of_due (sub_self _))
  · next h_feed =>
    rw [if_neg h_made.side_ne]
    exact h_submit origin msg h_made (not_not.mp h_feed)

/-- A signal less is in its queue, an order more in the other, and it has been counted. -/
theorem counted (n : BitVec 64) :
    counts .signal - counts .pending + (n - (n + 1), n + 1 - n, 0) = 0 := by
  simp [counts]

theorem ouchPollOnce_kept (h_signals : F.role signals = .signal)
    (h_pending : F.role pending = .pending) :
    F.contract.KeptBy (Code.ouchPollOnce self signals pending : Code P Q ι Unit) := by
  refine consumerPollOnce_kept h_signals fun origin msg h_made h_feed => ?_
  refine Contract.wp_fill_bind (.ouch (ouchOrder origin.signal)) rfl rfl rfl ?_
  rw [wp_bind]
  refine wp_put _ h_pending ⟨rfl, rfl⟩
    ⟨origin, .ouch (ouchOrder origin.signal), h_made, ⟨h_feed, rfl⟩, rfl⟩ ?_
  rw [wp_bind]
  exact wp_ouch fun members => settled_of_due (counted members.submitted)

theorem nnfPollOnce_kept (h_signals : F.role signals = .signal)
    (h_pending : F.role pending = .pending) :
    F.contract.KeptBy (Code.nnfPollOnce self signals pending : Code P Q ι Unit) := by
  refine consumerPollOnce_kept h_signals fun origin msg h_made h_feed => ?_
  rw [Contract.Settles, wp_bind]
  refine wp_nnf fun members => ?_
  simp only [id_eq, sub_self, Prod.mk_zero_zero, add_zero]
  refine Contract.wp_fill_bind (.nnf (nnfOrder members.traderId origin.signal)) rfl rfl rfl ?_
  rw [wp_bind]
  refine wp_put _ h_pending ⟨rfl, rfl⟩
    ⟨origin, .nnf (nnfOrder members.traderId origin.signal), h_made, ⟨h_feed, _, rfl⟩, rfl⟩ ?_
  rw [wp_bind]
  exact wp_nnf fun members => settled_of_due (counted members.submitted)

theorem sbeOrderPollOnce_kept (h_signals : F.role signals = .signal)
    (h_pending : F.role pending = .pending) :
    F.contract.KeptBy (Code.sbeOrderPollOnce self signals pending : Code P Q ι Unit) := by
  refine consumerPollOnce_kept h_signals fun origin msg h_made h_feed => ?_
  rw [Contract.Settles, wp_bind]
  -- the members are read for the order first, and nothing is counted yet
  refine wp_sbeOrder fun members => ?_
  simp only [id_eq, sub_self, Prod.mk_zero_zero, add_zero]
  refine Contract.wp_fill_bind (.sbeOrderEntry (sbeOrder members.symbolId origin.signal)) rfl rfl
    rfl ?_
  rw [wp_bind]
  refine wp_put _ h_pending ⟨rfl, rfl⟩
    ⟨origin, .sbe (sbeOrder members.symbolId origin.signal), h_made, ⟨h_feed, _, rfl⟩, rfl⟩ ?_
  rw [wp_bind]
  -- the submission is counted once the order is in the queue
  exact wp_sbeOrder fun members => settled_of_due (counted members.submitted)

theorem mcxOrderPollOnce_kept (h_signals : F.role signals = .signal)
    (h_pending : F.role pending = .pending) :
    F.contract.KeptBy (Code.mcxOrderPollOnce self signals pending : Code P Q ι Unit) := by
  refine consumerPollOnce_kept h_signals fun origin msg h_made h_feed => ?_
  rw [Contract.Settles, wp_bind]
  -- the sequence number is drawn with the members
  refine wp_mcxOrder fun members => ?_
  simp only [sub_self, Prod.mk_zero_zero, add_zero]
  refine Contract.wp_fill_bind (.mcxOrder (mcxOrder members.nextSeq members.senderSubId
    members.simpleSecurityId origin.signal)) rfl rfl rfl ?_
  rw [wp_bind]
  refine wp_put _ h_pending ⟨rfl, rfl⟩ ⟨origin, .mcx (mcxOrder members.nextSeq
    members.senderSubId members.simpleSecurityId origin.signal), h_made,
    ⟨h_feed, _, _, _, rfl⟩, rfl⟩ ?_
  rw [wp_bind]
  -- and the submission is counted at the end, as for the others
  exact wp_mcxOrder fun members => settled_of_due (counted members.submitted)

/-! ### The gateway, and the confirms -/

theorem wp_counters {f : Counters → Counters} {post : Counters → Standing P → Prop}
    (h : ∀ refs : Counters, post refs ⟨g.message, g.due + (0, 0, (f refs).sum - refs.sum)⟩) :
    (Code.counters self f : Code P Q ι Counters).wp F.contract.rules g post := by
  rw [Code.counters, wp_bind]
  refine wp_gateway fun members => ?_
  simp only [sub_self, zero_add]
  exact h members.counters

/-- A confirm is handed on and counted, and with it its reference. -/
theorem confirmed_settles {origin : Origin} {order : Order} (ack : Confirm)
    (h_confirms : F.role confirms = .confirm) (h_made : F.Made origin)
    (h_order : OrderOf origin.signal order) (h_ack : AckOf order ack) :
    F.contract.Settles (Code.confirmed self confirms p : Code P Q ι Unit)
      ⟨some (p, .writing ack.record ack.record.kind.slotSize), (0, 1, 1)⟩ := by
  rw [Contract.Settles, Code.confirmed, wp_bind]
  refine wp_put ack.record h_confirms ⟨rfl, rfl⟩
    ⟨origin, order, ack, h_made, h_order, h_ack, rfl⟩ ?_
  rw [wp_bind]
  refine wp_gateway fun members => settled_of_due ?_
  simp [counts]

/-- The gateway answers each order, and there is nothing else for it to release. -/
theorem gatewayPollOnce_kept (h_pending : F.role pending = .pending)
    (h_confirms : F.role confirms = .confirm) :
    F.contract.KeptBy (Code.gatewayPollOnce self pending confirms : Code P Q ι Unit) := by
  rw [Contract.KeptBy, Contract.Settles, Code.gatewayPollOnce, wp_bind]
  refine wp_take h_pending rfl fun msg x h_x => ?_
  obtain ⟨origin, order, h_made, h_order, rfl⟩ := h_x
  dsimp only
  rw [wp_bind, zero_add]
  refine Contract.wp_readKind ?_
  -- every venue has a counter of its own
  have h_due : ∀ n n' : BitVec 64, n' - n = 1 →
      counts .pending + (0, 0, n' - n) = (0, 1, 1) := fun n n' h_n => by
    rw [h_n]
    simp [counts]
  cases order with
  | ouch req =>
    show (copyOut _ _ >>= _).wp _ _ _
    rw [wp_bind]
    refine Contract.wp_copyOut req rfl (le_of_eq rfl) ?_
    rw [wp_bind]
    refine wp_counters fun refs => ?_
    rw [h_due _ _ (by simp only [Counters.sum]; ring)]
    exact Contract.wp_fill_bind (.ouchConfirm (makeOuchConfirm req refs.nextOuchRef)) rfl rfl rfl
      (confirmed_settles (.ouch _) h_confirms h_made h_order ⟨_, rfl⟩)
  | nnf req =>
    show (copyOut _ _ >>= _).wp _ _ _
    rw [wp_bind]
    refine Contract.wp_copyOut req rfl (le_of_eq rfl) ?_
    rw [wp_bind]
    refine wp_counters fun refs => ?_
    rw [h_due _ _ (by simp only [Counters.sum]; ring)]
    exact Contract.wp_fill_bind (.nnfConfirm (makeNnfConfirm req
      (Double.ofNat refs.nextNnfOrder.toNat))) rfl rfl rfl
      (confirmed_settles (.nnf _) h_confirms h_made h_order ⟨_, rfl⟩)
  | sbe req =>
    show (copyOut _ _ >>= _).wp _ _ _
    rw [wp_bind]
    refine Contract.wp_copyOut req rfl (le_of_eq rfl) ?_
    rw [wp_bind]
    refine wp_counters fun refs => ?_
    rw [h_due _ _ (by simp only [Counters.sum]; ring)]
    exact Contract.wp_fill_bind (.sbeFastOrder (makeSbeFastConfirm req refs.nextSbeSeq)) rfl rfl
      rfl (confirmed_settles (.sbe _) h_confirms h_made h_order ⟨_, rfl⟩)
  | mcx req =>
    show (copyOut _ _ >>= _).wp _ _ _
    rw [wp_bind]
    refine Contract.wp_copyOut req rfl (le_of_eq rfl) ?_
    rw [wp_bind]
    refine wp_counters fun orders => ?_
    rw [h_due _ _ (by simp only [Counters.sum]; ring), wp_bind]
    refine wp_counters fun execs => ?_
    -- the number of the execution is not one of the references that are counted
    simp only [Counters.sum, sub_self, Prod.mk_zero_zero, add_zero]
    exact Contract.wp_fill_bind (.mcxConfirm (makeMcxConfirm req orders.nextMcxOrder
      execs.nextMcxExec)) rfl rfl rfl
      (confirmed_settles (.mcx _) h_confirms h_made h_order ⟨_, _, rfl⟩)

omit [DecidableEq ι] in
theorem releaseConfirm_kept (h_confirms : F.role confirms = .confirm) :
    F.contract.KeptBy (Code.releaseConfirm confirms : Code P Q ι Unit) := by
  rw [Contract.KeptBy, Contract.Settles, Code.releaseConfirm, wp_bind]
  refine wp_take_old (Or.inr h_confirms) rfl fun confirm x h_x => ?_
  dsimp only
  rw [wp_bind]
  exact Contract.wp_readKind (Contract.wp_release h_x rfl)

/-! ### `Runtime` -/

theorem producerMain_kept (h_market : F.role market = .market)
    (h_tick : ∀ sequence, F.admits (.itch (testTick sequence))) :
    F.contract.KeptBy (Code.producerMain self market : Code P Q ι Unit) := by
  rw [Contract.KeptBy, Contract.Settles, Code.producerMain, wp_bind]
  -- the number of the test message is none of the counters of the contract
  refine wp_runtime fun members => ?_
  rw [wp_bind]
  refine Contract.wp_acquire rfl fun msg => ?_
  dsimp only
  rw [wp_bind]
  refine Contract.wp_fill (.itch (testTick members.nextSequence)) rfl rfl rfl ?_
  rw [wp_bind]
  -- the market queue may hold it, as the flow admits the tick
  refine wp_put _ h_market ⟨rfl, rfl⟩ ⟨_, h_tick members.nextSequence, rfl⟩ ?_
  rw [wp_bind]
  exact wp_runtime fun _ => settled_of_due (sub_zero 0)

theorem consumerMain_kept {q : Q} (h_q : F.role q = .market ∨ F.role q = .confirm) :
    F.contract.KeptBy (Code.consumerMain self q : Code P Q ι Unit) := by
  rw [Contract.KeptBy, Contract.Settles, Code.consumerMain, wp_bind]
  refine wp_take_old h_q rfl fun msg x h_x => ?_
  dsimp only
  rw [wp_bind]
  refine Contract.wp_release h_x ?_
  rw [wp_bind]
  exact wp_runtime fun _ => rfl

end

end Flow

end

/-! ### Calls -/

/-- A piece to which the walk over a frame comes. -/
def Reached {β : Type*} (cut : ℕ → Splitter.Cut β) (piece : β) : Prop :=
  ∃ offset next, Relation.ReflTransGen (Splitter.Next cut) 0 offset ∧
    cut offset = .call piece next

/-- **The ticks a call brings in** from outside: those it decodes from its frame, the one it is
handed, or a test message of the runtime. -/
def StageCall.Brings : StageCall Q ι → Tick → Prop
  | ingestItchFrame _ (some frame), .itch tick => ∃ slice, Reached (itchCut frame) slice ∧
      decodeItchAddOrder (frame.drop slice.1) slice.2 = some tick
  | ingestMtbtFrame _ (some frame) _, .mtbt tick => ∃ packet decoded,
      Reached (mtbtCut frame) packet ∧
      decodeMtbtOrder (frame.drop packet.1) packet.2.1 = some decoded ∧ decoded.order = tick
  | ingestMcxTobFrame _ (some frame), .mcx tick =>
    frame.length = 56 ∧ TopOfBook.codec.get (frameMemory frame) = tick
  | feedBbo _ bbo, .sbe tick => bbo = tick
  | onTick _ _ tick, tick' => tick = tick'
  | produceTest _ _, .itch tick => ∃ sequence, testTick sequence = tick
  | _, _ => False

/-- **The queues of a call are used in their roles**: each stage takes from the queue before it and
puts into the one behind it, with as many queues in a role as one likes. -/
def StageCall.Wired (role : Q → Stage) : StageCall Q ι → Prop
  | ingestItchFrame market _ | ingestMtbtFrame market _ _ | ingestMcxTobFrame market _
  | feedBbo market _ | produceTest _ market => role market = .market
  | pollItch _ market signals | pollMtbt _ market signals | pollSbe _ market signals
  | pollMcx _ market signals | drainMarket _ _ _ market signals =>
    role market = .market ∧ role signals = .signal
  | onTick _ signals _ => role signals = .signal
  | pollOuch _ signals pending | pollNnf _ signals pending | pollSbeOrder _ signals pending
  | pollMcxOrder _ signals pending => role signals = .signal ∧ role pending = .pending
  | pollGateway _ pendings confirms => role pendings = .pending ∧ role confirms = .confirm
  | releaseConfirm confirms => role confirms = .confirm
  | consumeTest _ queue => role queue = .market ∨ role queue = .confirm

/-- The call is wired, and what it brings in is admitted. -/
structure StageCall.Joins (F : Flow Q ι) (call : StageCall Q ι) : Prop where
  wired : call.Wired F.role
  brings : ∀ tick, call.Brings tick → F.admits tick

/-- **Every call that joins keeps the contract**, taken by itself; that the calls keep it together
follows from the rules of the memory. -/
theorem StageCall.Joins.kept [Fintype ι] [DecidableEq ι] {F : Flow Q ι} {call : StageCall Q ι}
    (h : call.Joins F) : F.contract.KeptBy (call.code : Code P Q ι Unit) := by
  obtain ⟨h_wired, h_brings⟩ := h
  cases call with
  | ingestItchFrame market frame =>
    cases frame with
    | none => rfl
    | some frame =>
      -- along the walk from the start of the frame
      refine Flow.split_kept (I := Relation.ReflTransGen (Splitter.Next (itchCut frame)) 0)
        (fun offset slice next h_offset h_cut => ⟨?_, h_offset.tail ⟨slice, h_cut⟩⟩) _ 0 .refl
      split
      · rfl
      · next decoded h_decoded =>
        exact Flow.store_kept (.itch decoded) rfl rfl h_wired
          ⟨.itch decoded, h_brings _ ⟨slice, ⟨offset, next, h_offset, h_cut⟩, h_decoded⟩, rfl⟩
  | ingestMtbtFrame market frame fuel =>
    cases frame with
    | none => rfl
    | some frame =>
      refine Flow.split_kept (I := Relation.ReflTransGen (Splitter.Next (mtbtCut frame)) 0)
        (fun offset packet next h_offset h_cut => ⟨?_, h_offset.tail ⟨packet, h_cut⟩⟩) fuel 0 .refl
      split
      · rfl
      · next decoded h_decoded =>
        exact Flow.store_kept (.mtbt decoded.order) rfl rfl h_wired ⟨.mtbt decoded.order,
          h_brings _ ⟨packet, decoded, ⟨offset, next, h_offset, h_cut⟩, h_decoded, rfl⟩, rfl⟩
  | ingestMcxTobFrame market frame =>
    cases frame with
    | none => rfl
    | some frame =>
      show F.contract.KeptBy (Code.ingestMcxTobFrame market (some frame))
      rw [Code.ingestMcxTobFrame]
      split
      · rfl
      · next h_len =>
        exact Flow.store_kept (.mcxMarket _) rfl rfl h_wired
          ⟨.mcx _, h_brings _ ⟨not_not.mp h_len, rfl⟩, rfl⟩
  | feedBbo market tick =>
    exact Flow.store_kept (.sbeMarket tick) rfl rfl h_wired
      ⟨.sbe tick, h_brings (.sbe tick) rfl, rfl⟩
  | pollItch self market signals =>
    refine Flow.producerPollOnce_kept h_wired.1 h_wired.2 fun t h_t => ?_
    cases t with
    | itch tick => exact ⟨tick, rfl, rfl, le_of_eq rfl⟩
    | _ => cases h_t
  | pollMtbt self market signals =>
    refine Flow.producerPollOnce_kept h_wired.1 h_wired.2 fun t h_t => ?_
    cases t with
    | mtbt tick => exact ⟨tick, rfl, rfl, le_of_eq rfl⟩
    | _ => cases h_t
  | pollSbe self market signals =>
    refine Flow.producerPollOnce_kept h_wired.1 h_wired.2 fun t h_t => ?_
    cases t with
    | sbe tick => exact ⟨tick, rfl, rfl, le_of_eq rfl⟩
    | _ => cases h_t
  | pollMcx self market signals =>
    refine Flow.producerPollOnce_kept h_wired.1 h_wired.2 fun t h_t => ?_
    cases t with
    | mcx tick => exact ⟨tick, rfl, rfl, le_of_eq rfl⟩
    | _ => cases h_t
  | onTick self signals tick =>
    exact Flow.producerOnTick_settles h_wired (h_brings tick (by cases tick <;> rfl)) none
  | drainMarket itch mtbt mcx market signals => exact Flow.drainMarket_kept h_wired.1 h_wired.2
  | pollOuch self signals pending => exact Flow.ouchPollOnce_kept h_wired.1 h_wired.2
  | pollNnf self signals pending => exact Flow.nnfPollOnce_kept h_wired.1 h_wired.2
  | pollSbeOrder self signals pending => exact Flow.sbeOrderPollOnce_kept h_wired.1 h_wired.2
  | pollMcxOrder self signals pending => exact Flow.mcxOrderPollOnce_kept h_wired.1 h_wired.2
  | pollGateway self pendings confirms => exact Flow.gatewayPollOnce_kept h_wired.1 h_wired.2
  | releaseConfirm confirms => exact Flow.releaseConfirm_kept h_wired
  | produceTest self queue =>
    exact Flow.producerMain_kept h_wired fun sequence => h_brings (.itch _) ⟨sequence, rfl⟩
  | consumeTest self queue => exact Flow.consumerMain_kept h_wired

end Trading

end Hft
