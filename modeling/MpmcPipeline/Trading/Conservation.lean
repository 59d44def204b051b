import MpmcPipeline.Mem.Usage
import MpmcPipeline.Trading.Dataflow
import MpmcPipeline.Trading.TagCoherence

/-!
# What the stages conserve

The contract of the stages over whole runs: any number of workers call the stages, wired to the
queues in their roles, in any order and with any interleaving of their steps.

* Every queue carries what it is for, and what it carries comes from a tick that was brought in
  (`queue_contents`). A confirm tells what `Origin.Told` lists for its venue: fields of that tick or
  of its signal, and on MCX the token of the signal alone.
* What is given back to the pool is a tick or a confirm. No signal and no order is ever dropped,
  though the code of the consumers and of the gateway has branches that do
  (`only_old_released`).
* Between calls the counters tell what is under way: signals that no consumer has counted are in
  the signal queues, orders that no gateway has confirmed in the pending queues
  (`counters_balance`), and the slots in use are the messages in the queues (`slots_balance`).

The counters are modulo `2 ^ 64`, as they are in the code.
-/

namespace Hft

namespace Trading

open Worker

variable {P : PoolCapacity} {Q ι Id : Type} {cap : Q → Capacity}

/-! ### What a confirm tells -/

/-- The confirm tells the price and the quantity of the signal, its side, and the token in the
link id. -/
def Origin.SbeAck (origin : Origin) (ack : FastOrderResp) : Prop :=
  ∃ tick, origin.tick = .sbe tick ∧
    ack.body.price = (Tick.sbe tick).price.signExtend 64 ∧
    ack.body.leavesQty = origin.signal.quantity.signExtend 64 ∧
    (origin.side = .buy ∧ ack.body.side = 1 ∨ origin.side = .sell ∧ ack.body.side = 2) ∧
    ack.orderLinkId = Text.ofList (0x6C :: 0x6E :: 0x6B :: Text.decimal origin.token.toNat) ∧
    ack.orderLinkIdLen.toNat = 3 + (Text.decimal origin.token.toNat).length

/-- The confirm tells the token of the signal. It has no field of the tick: the security is the
one the consumer has been configured with. -/
def Origin.McxAck (origin : Origin) (ack : ExecutionReportNew) : Prop :=
  ∃ tick, origin.tick = .mcx tick ∧ ack.clOrdId = origin.token.setWidth 64

/-- What a confirm tells of what it comes from. -/
def Origin.Told (bandBps : Kind → BitVec 32) (origin : Origin) : Confirm → Prop
  | .ouch ack => origin.OuchAck bandBps ack
  | .nnf ack => origin.NnfAck bandBps ack
  | .sbe ack => origin.SbeAck ack
  | .mcx ack => origin.McxAck ack

/-- The link id of an order is in its confirm. -/
theorem makeSbeFastConfirm_link (symbolId seq : BitVec 64) (signal : StrategySignal) :
    (makeSbeFastConfirm (sbeOrder symbolId signal) seq).orderLinkId =
        Text.ofList (0x6C :: 0x6E :: 0x6B :: Text.decimal signal.orderToken.toNat) ∧
      (makeSbeFastConfirm (sbeOrder symbolId signal) seq).orderLinkIdLen.toNat =
        3 + (Text.decimal signal.orderToken.toNat).length := by
  -- thirteen characters at most: nothing is cut
  obtain ⟨text, h_text⟩ : ∃ text, text =
    0x6C :: 0x6E :: 0x6B :: Text.decimal signal.orderToken.toNat := ⟨_, rfl⟩
  have h_digits : (Text.decimal signal.orderToken.toNat).length ≤ 10 :=
    Text.decimal_length_le (lt_trans signal.orderToken.isLt (by norm_num)) (by norm_num)
  have h_len : text.length = 3 + (Text.decimal signal.orderToken.toNat).length := by
    rw [h_text, List.length_cons, List.length_cons, List.length_cons]
    omega
  have h_memory : Chars.memory (sbeOrder symbolId signal).orderLinkId =
      fun k => text.getD k 0 := by
    rw [h_text]
    refine Chars.memory_ofList ?_
    rw [← h_text]
    omega
  have h_ne : ∀ b ∈ text, b ≠ 0 := by
    intro b h_b
    rw [h_text] at h_b
    simp only [List.mem_cons] at h_b
    obtain rfl | rfl | rfl | h_b := h_b
    · decide
    · decide
    · decide
    · exact Text.decimal_ne_zero _ b h_b
  have h_strlen : min (Text.strnlen (Chars.memory (sbeOrder symbolId signal).orderLinkId) 64) 32 =
      text.length := by
    rw [h_memory, Text.strnlen_getD h_ne (by omega)]
    omega
  simp only [makeSbeFastConfirm, h_strlen]
  refine ⟨?_, ?_⟩
  · funext i
    split
    · next h_i => rw [h_memory, h_text]; rfl
    · next h_i =>
      rw [← h_text, Text.ofList, List.getD_eq_default _ _ (by omega)]
  · rw [BitVec.toNat_ofNat, Nat.mod_eq_of_lt (by omega), h_len]

/-- **A confirm tells what it comes from.** -/
theorem Origin.Evaluated.told {bandBps : Kind → BitVec 32} {origin : Origin} {order : Order}
    {ack : Confirm} (h : origin.Evaluated bandBps) (h_order : OrderOf origin.signal order)
    (h_ack : AckOf order ack) : origin.Told bandBps ack := by
  -- by venue: the order answered has to be of the confirm's venue, and the tick of the order's
  cases ack with
  | ouch ack => exact h.ouchAck h_order h_ack
  | nnf ack => exact h.nnfAck h_order h_ack
  | sbe ack =>
    cases order with
    | sbe req =>
      obtain ⟨h_feed, symbolId, rfl⟩ := h_order
      obtain ⟨seq, rfl⟩ := h_ack
      obtain ⟨h_link, h_len⟩ := makeSbeFastConfirm_link symbolId seq origin.signal
      have h_buy := h.buy_or_sell
      obtain ⟨tick, ref, side, token⟩ := origin
      -- only an SBE signal leads to an SBE order
      cases tick with
      | sbe tick =>
        refine ⟨tick, rfl, rfl, rfl, ?_, h_link, h_len⟩
        obtain h_side | h_side := h_buy
        · exact Or.inl ⟨h_side, if_pos h_side⟩
        · refine Or.inr ⟨h_side, if_neg fun h_eq => ?_⟩
          exact absurd (h_side.symm.trans h_eq) (by decide)
      | _ => exact absurd h_feed (by simp [Origin.signal, Tick.kind])
    | _ => exact h_ack.elim
  | mcx ack =>
    cases order with
    | mcx req =>
      obtain ⟨h_feed, seq, senderSubId, simpleSecurityId, rfl⟩ := h_order
      obtain ⟨orderId, execId, rfl⟩ := h_ack
      obtain ⟨tick, ref, side, token⟩ := origin
      -- an MCX order takes its security id from the consumer, so nothing of the tick is in it
      cases tick with
      | mcx tick => exact ⟨tick, rfl, rfl⟩
      | _ => exact absurd h_feed (by simp [Origin.signal, Tick.kind])
    | _ => exact h_ack.elim

/-! ### Over whole runs -/

/-- The calls that are started join the flow. -/
def Joining (F : Flow Q ι) (_ : System Id P cap (Parts ι)) (a : Id × Choice (StageCall Q ι)) :
    Prop :=
  ∀ call, a.2 = .call call → call.Joins F

/-- The messages in the queues of a role. -/
def Flow.waiting [Fintype Q] (F : Flow Q ι) (mem : Handoff.Shared P cap) (stage : Stage) : ℕ :=
  ∑ q with F.role q = stage, (mem.queues q).occupancy

section

variable [DecidableEq Id] [DecidableEq Q] [DecidableEq ι] [Fintype ι] {F : Flow Q ι}
  {message : Ptr P → TaggedMessage} {parts : Parts ι} {tr : List (Id × Worker.Event P Q)}
  {s : System Id P cap (Parts ι)}

/-- A run of calls that join keeps the contract. -/
theorem Joining.admits
    (h : (Worker.machine Id P cap (StageCall.code (P := P))).ReachBy (Joining F)
      (System.init Id cap message parts) tr s) :
    (Worker.machine Id P cap (StageCall.code (P := P))).ReachBy
      (F.contract.Admits StageCall.code) (System.init Id cap message parts) tr s :=
  h.mono fun _ _ h_joins call h_call => (h_joins call h_call).kept

/-- **The queues carry what they are for.** In every state that is reached, a message in a queue
holds a record of the queue's role, which comes from a tick that was brought in: a signal a
producer has made of it, the order a consumer builds for such a signal, or the confirm the
gateway builds for such an order. And a confirm tells what its venue's confirms tell. -/
theorem queue_contents (h_band : ∀ self, (parts.producer self).bandBps = F.band self)
    (h : (Worker.machine Id P cap (StageCall.code (P := P))).ReachBy (Joining F)
      (System.init Id cap message parts) tr s)
    {c : Handoff.Cell cap} {p : Ptr P} (h_c : s.shared.mem.cell c = some p) :
    (∃ x, (s.shared.mem.pool.load p).decode = some x ∧ F.Carried (F.role c.1) x) ∧
      (F.role c.1 = .confirm → ∃ (origin : Origin) (ack : Confirm) (self : ι),
        (s.shared.mem.pool.load p).decode = some (Confirm.record ack) ∧
          F.admits origin.tick ∧ origin.Told (fun _ => F.band self) ack) := by
  -- the account of the run says what every queue holds
  obtain ⟨acc, hK⟩ := Contract.Holds.reach h_band (Joining.admits h)
  obtain ⟨x, h_queue, h_x⟩ := hK.cell c p h_c
  refine ⟨⟨x, h_x.decode_eq, h_queue⟩, fun h_role => ?_⟩
  have h_confirm : F.Carried .confirm x := h_role ▸ h_queue
  -- the claim on the role of a confirm queue carries the whole chain back to the tick
  obtain ⟨origin, order, ack, ⟨h_admits, self, h_origin⟩, h_order, h_ack, rfl⟩ := h_confirm
  exact ⟨origin, ack, self, h_x.decode_eq, h_admits, h_origin.told h_order h_ack⟩

/-- **Nothing under way is dropped.** A step that gives a slot back to the pool finds a tick or a
confirm in it: no signal and no order is ever released, whichever producer, consumer or gateway
comes across it. -/
theorem only_old_released (h_band : ∀ self, (parts.producer self).bandBps = F.band self)
    (h : (Worker.machine Id P cap (StageCall.code (P := P))).ReachBy (Joining F)
      (System.init Id cap message parts) tr s)
    {a : Id × Choice (StageCall Q ι)} {s' : System Id P cap (Parts ι)}
    {es : List (Id × Worker.Event P Q)} (h_joins : Joining F s a)
    (h_step : (Worker.machine Id P cap (StageCall.code (P := P))).step s a = some (s', es))
    {p : Ptr P} (h_live : (s.shared.mem.pool.slots p).state = 1)
    (h_free : (s'.shared.mem.pool.slots p).state = 0) :
    ∃ x, (s.shared.mem.pool.load p).decode = some x ∧
      ((∃ tick, F.admits tick ∧ x = Tick.record tick) ∨ F.Carried .confirm x) := by
  -- the contract speaks of slots that cease to be live
  have h_ne : (s'.shared.mem.pool.slots p).state ≠ 1 := by
    rw [h_free]
    decide
  obtain ⟨x, h_discard, h_x⟩ := Contract.freed h_band (Joining.admits h)
    (fun call h_call => (h_joins call h_call).kept) h_step h_live h_ne
  exact ⟨x, h_x.decode_eq, h_discard⟩

/-! ### Counters -/

section

variable [Fintype Q]

omit [DecidableEq Id] [DecidableEq Q] [DecidableEq ι] in
/-- What the queues account for. -/
theorem Flow.inQueues_eq {acc : Id → Flow.Standing P} (hK : F.contract.Holds s acc) :
    F.contract.inQueues s.shared.mem = (BitVec.ofNat 64 (F.waiting s.shared.mem .signal),
      BitVec.ofNat 64 (F.waiting s.shared.mem .pending), 0) := by
  have h_part : ∀ stage, ∑ q, (s.shared.mem.queues q).occupancy •
      (if F.role q = stage then (1 : BitVec 64) else 0) =
      BitVec.ofNat 64 (F.waiting s.shared.mem stage) := fun stage => by
    rw [waiting, Finset.sum_filter, ← BitVec.natCast_eq_ofNat, Nat.cast_sum]
    refine Finset.sum_congr rfl fun q _ => ?_
    split
    · exact nsmul_one _
    · exact nsmul_zero _
  rw [hK.inQueues_eq (fun q => counts (F.role q)) fun _ _ => rfl, ← h_part, ← h_part]
  -- the three quantities one by one
  refine Prod.ext ?_ (Prod.ext ?_ ?_)
  · rw [Prod.fst_sum]
    refine Finset.sum_congr rfl fun q _ => ?_
    rw [Prod.smul_fst]
    cases F.role q <;> rfl
  · rw [Prod.snd_sum, Prod.fst_sum]
    refine Finset.sum_congr rfl fun q _ => ?_
    rw [Prod.smul_snd, Prod.smul_fst]
    cases F.role q <;> rfl
  · rw [Prod.snd_sum, Prod.snd_sum]
    refine Finset.sum_eq_zero fun q _ => ?_
    rw [Prod.smul_snd, Prod.smul_snd]
    cases F.role q <;> exact nsmul_zero _

/-- **The counters tell what is under way.** Whenever no worker is in a call, the signals that
producers have counted are those that consumers have counted as orders and those in the signal
queues; the orders are those that gateways have counted as confirms and those in the pending
queues; and a gateway has given one reference for each confirm. -/
theorem counters_balance [Fintype Id]
    (h_band : ∀ self, (parts.producer self).bandBps = F.band self)
    (h : (Worker.machine Id P cap (StageCall.code (P := P))).ReachBy (Joining F)
      (System.init Id cap message parts) tr s) (h_rest : Contract.AtRest s) :
    s.shared.parts.signals - parts.signals = s.shared.parts.submitted - parts.submitted +
        BitVec.ofNat 64 (F.waiting s.shared.mem .signal) ∧
      s.shared.parts.submitted - parts.submitted = s.shared.parts.confirms - parts.confirms +
        BitVec.ofNat 64 (F.waiting s.shared.mem .pending) ∧
      s.shared.parts.refs - parts.refs = s.shared.parts.confirms - parts.confirms := by
  -- no worker is in a call, so nobody owes anything
  obtain ⟨acc, hK⟩ := Contract.Holds.reach h_band (Joining.admits h)
  have h_balance := Contract.balance_atRest h_band (Joining.admits h) h_rest
  rw [Flow.inQueues_eq hK] at h_balance
  have h_signals := congrArg Prod.fst h_balance
  have h_orders := congrArg (fun x => x.2.1) h_balance
  have h_refs := congrArg (fun x => x.2.2) h_balance
  simp only [Flow.contract, Prod.fst_add, Prod.snd_add, add_zero] at h_signals h_orders h_refs
  refine ⟨?_, ?_, ?_⟩
  · rw [eq_sub_of_add_eq' h_signals]
    abel
  · rw [eq_sub_of_add_eq' h_orders]
    abel
  · rw [sub_eq_sub_iff_add_eq_add] at h_refs ⊢
    rw [add_comm, ← h_refs, add_comm]

end

end

/-! ### Slots -/

/-- **The slots in use are under way.** In every state that is reached, whatever the wiring, the
free slots, the messages in the queues and those in the hands of the workers make up the pool; a
worker has one message at most; and where none is in a call, no slot is in use but by a message
in a queue. -/
theorem slots_balance [DecidableEq Id] [DecidableEq Q] [DecidableEq ι] [Fintype Id] [Fintype Q]
    {message : Ptr P → TaggedMessage} {parts : Parts ι} {tr : List (Id × Worker.Event P Q)}
    {s : System Id P cap (Parts ι)}
    (h : (Worker.machine Id P cap (StageCall.code (P := P))).Reach
      (System.init Id cap message parts) tr s) :
    s.shared.mem.pool.free + ∑ q, (s.shared.mem.queues q).occupancy +
        ∑ i, (s.loc i).base.owned.length = P.val ∧
      (∀ i, (s.loc i).base.owned.length ≤ 1) ∧
      (Contract.AtRest s →
        s.shared.mem.pool.free + ∑ q, (s.shared.mem.queues q).occupancy = P.val) := by
  obtain ⟨h_total, h_hand⟩ := slots_total StageCall.clean h
  refine ⟨h_total, fun i => (h_hand i).1, fun h_rest => ?_⟩
  -- a worker between calls has nothing in hand
  have h_none : ∑ i, (s.loc i).base.owned.length = 0 :=
    Finset.sum_eq_zero fun i _ => by rw [(h_hand i).2 (h_rest i)]; rfl
  rw [h_none] at h_total
  exact h_total

/-! ### `Runtime` -/

section

variable [DecidableEq ι] [Fintype ι]

/-- `pushed()` of all runtimes. -/
def Parts.pushed (parts : Parts ι) : BitVec 64 := ∑ self, (parts.runtime self).pushed

/-- `popped()` of all runtimes. -/
def Parts.popped (parts : Parts ι) : BitVec 64 := ∑ self, (parts.runtime self).popped

/-- The contract of the workers of `Runtime`, who count every message. -/
def testContract (Q ι : Type) [Fintype ι] : Contract Q (Parts ι) (BitVec 64) where
  queue _ _ := True
  discard _ := True
  members _ := True
  value parts := parts.popped - parts.pushed
  weight _ _ := 1

/-- The calls that workers of `Runtime` make. -/
def StageCall.Tests : StageCall Q ι → Prop
  | produceTest _ _ | consumeTest _ _ => True
  | _ => False

theorem wp_test {self : ι} {g : Account P (BitVec 64)} {f : TestCounters → TestCounters}
    {post : TestCounters → Account P (BitVec 64) → Prop}
    (h : ∀ members, post members ⟨g.message, g.due + ((f members).pushed - members.pushed +
      (members.popped - (f members).popped))⟩) :
    (Code.runtime self f : Code P Q ι TestCounters).wp (testContract Q ι).rules g post := by
  rw [Code.runtime, Program.wp_bind]
  refine Contract.wp_own fun parts _ => ⟨trivial, ?_⟩
  have h_value : (testContract Q ι).value parts - (testContract Q ι).value { parts with
      runtime := Function.update parts.runtime self (f (parts.runtime self)) } =
      (f (parts.runtime self)).pushed - (parts.runtime self).pushed +
        ((parts.runtime self).popped - (f (parts.runtime self)).popped) := by
    -- the other runtimes are in both sums
    simp only [testContract, Parts.pushed, Parts.popped, Flow.sum_update TestCounters.pushed,
      Flow.sum_update TestCounters.popped]
    abel
  rw [add_sub_assoc, h_value]
  exact h (parts.runtime self)

/-- A round of a worker counts what it has done. -/
theorem StageCall.Tests.kept {call : StageCall Q ι} (h : call.Tests) :
    (testContract Q ι).KeptBy (call.code : Code P Q ι Unit) := by
  -- by the two workers; the rule for each command of the code in turn
  cases call with
  | produceTest self queue =>
    show (testContract Q ι).KeptBy (Code.producerMain self queue)
    rw [Contract.KeptBy, Contract.Settles, Code.producerMain, Program.wp_bind]
    -- the number of the message is drawn, and that is none of the two counters
    refine wp_test fun members => ?_
    simp only [sub_self, add_zero]
    rw [Program.wp_bind]
    refine Contract.wp_acquire rfl fun msg => ?_
    dsimp only
    rw [Program.wp_bind]
    refine Contract.wp_fill (.itch (testTick members.nextSequence)) rfl rfl rfl ?_
    rw [Program.wp_bind]
    refine Contract.wp_push _ ⟨rfl, rfl⟩ trivial ?_
    rw [Program.wp_bind]
    -- `pushed` is counted for the message that went into the queue
    refine wp_test fun members => congrArg _ ?_
    simp [testContract, Account.settled]
  | consumeTest self queue =>
    show (testContract Q ι).KeptBy (Code.consumerMain self queue)
    -- nothing is owed for a round that finds the queue empty
    rw [Contract.KeptBy, Contract.Settles, Code.consumerMain, Program.wp_bind]
    refine Contract.wp_tryPop rfl fun msg x _ => ?_
    dsimp only
    rw [Program.wp_bind]
    refine Contract.wp_release trivial ?_
    rw [Program.wp_bind]
    -- `popped` is counted for the message taken
    refine wp_test fun members => congrArg _ ?_
    simp [testContract]
  | _ => exact absurd h id

/-- **`pushed` and `popped`.** Whenever no worker is in a round of the runtime, what has been pushed
and not popped since the start, as the two counters have it, is what is in the queues. -/
theorem runtime_balance [DecidableEq Id] [Fintype Id] [DecidableEq Q] [Fintype Q]
    {message : Ptr P → TaggedMessage} {parts : Parts ι} {tr : List (Id × Worker.Event P Q)}
    {s : System Id P cap (Parts ι)}
    (h : (Worker.machine Id P cap (StageCall.code (P := P))).ReachBy
      (fun _ a => ∀ call : StageCall Q ι, a.2 = .call call → call.Tests)
      (System.init Id cap message parts) tr s) (h_rest : Contract.AtRest s) :
    (s.shared.parts.pushed - parts.pushed) - (s.shared.parts.popped - parts.popped) =
      BitVec.ofNat 64 (∑ q, (s.shared.mem.queues q).occupancy) := by
  -- a worker that only tests keeps the contract of the two counters
  have h_admits : (Worker.machine Id P cap (StageCall.code (P := P))).ReachBy
      ((testContract Q ι).Admits StageCall.code) (System.init Id cap message parts) tr s :=
    h.mono fun _ _ h_tests call h_call => (h_tests call h_call).kept
  obtain ⟨acc, hK⟩ := Contract.Holds.reach (K := testContract Q ι) trivial h_admits
  have h_balance := Contract.balance_atRest (K := testContract Q ι) trivial h_admits h_rest
  -- every queue weighs its messages by one
  rw [hK.inQueues_eq (fun _ => 1) fun _ _ => rfl, ← Finset.sum_smul, nsmul_one] at h_balance
  simp only [testContract] at h_balance
  rw [← BitVec.natCast_eq_ofNat, eq_sub_of_add_eq' h_balance]
  abel

end

/-! ### From a tick to its confirm -/

/-- An ITCH tick a tenth below the reference price. -/
def lowTick : Tick := .itch { price := 9000, shares := 100 }

/-- One object of each stage, and one queue for each role. -/
def lowFlow : Flow Stage Unit where
  role := id
  admits tick := tick = lowTick
  band _ := Strategy.defaultBandBps

/-- A pool of one message, and a producer whose reference price is 10000. -/
abbrev lowStart : System Unit onePool (fun _ : Stage => Capacity.two) (Parts Unit) :=
  System.init Unit (fun _ => Capacity.two) (fun _ => .fresh)
    { Parts.fresh Unit with producer := fun _ => { refPrice := 10000 } }

abbrev lowMachine := Worker.machine Unit onePool (fun _ : Stage => Capacity.two)
  (StageCall.code (P := onePool) (Q := Stage) (ι := Unit))

/-- The calls that take the tick to its confirm, each with the number of its steps. -/
def lowCalls : List (StageCall Stage Unit × ℕ) :=
  [(.onTick () .signal lowTick, 292), (.pollOuch () .signal .pending, 95),
    (.pollGateway () .pending .confirm, 122)]

/-- Calls one after the other. -/
def steps (calls : List (StageCall Stage Unit × ℕ)) : List (Unit × Choice (StageCall Stage Unit)) :=
  calls.flatMap fun call => ((), .call call.1) :: List.replicate call.2 ((), .run)

theorem joining_steps {calls : List (StageCall Stage Unit × ℕ)}
    (h : ∀ call ∈ calls, call.1.Joins lowFlow) :
    ∀ a ∈ steps calls, ∀ s : System Unit onePool (fun _ : Stage => Capacity.two) (Parts Unit),
      Joining lowFlow s a := by
  intro a h_a s call h_call
  obtain ⟨⟨call', n⟩, h_mem, h_a⟩ := List.mem_flatMap.mp h_a
  obtain rfl | h_a := List.mem_cons.mp h_a
  · cases h_call
    exact h _ h_mem
  · rw [List.eq_of_mem_replicate h_a] at h_call
    cases h_call

theorem lowCalls_join : ∀ call ∈ lowCalls, call.1.Joins lowFlow := by
  intro call h_call
  simp only [lowCalls, List.mem_cons, List.not_mem_nil, or_false] at h_call
  obtain rfl | rfl | rfl := h_call
  · exact ⟨rfl, fun tick h_tick => h_tick.symm⟩
  · exact ⟨⟨rfl, rfl⟩, fun tick h_tick => absurd h_tick id⟩
  · exact ⟨⟨rfl, rfl⟩, fun tick h_tick => absurd h_tick id⟩

/-- The worker is in no call. -/
def done (s : System Unit onePool (fun _ : Stage => Capacity.two) (Parts Unit)) : Bool :=
  match (s.loc ()).code with
  | .done _ => true
  | .ask _ _ => false

theorem atRest_of_done {s : System Unit onePool (fun _ : Stage => Capacity.two) (Parts Unit)}
    (h : done s = true) : Contract.AtRest s := by
  intro i
  unfold done at h
  split at h
  · assumption
  · cases h

/-- The state byte of the slot after one more step. -/
def nextState (s : System Unit onePool (fun _ : Stage => Capacity.two) (Parts Unit)) :
    Option Byte :=
  (lowMachine.step s ((), .run)).map fun r => (r.1.shared.mem.pool.slots ⟨0, by decide⟩).state

/-- The slot is in use, and one more step gives it back. -/
def givesBack (s : System Unit onePool (fun _ : Stage => Capacity.two) (Parts Unit)) : Prop :=
  (s.shared.mem.pool.slots ⟨0, by decide⟩).state = 1 ∧ nextState s = some 0

instance : DecidablePred givesBack := fun s => by
  unfold givesBack
  infer_instance

/-- The call that takes the confirm, until its slot is about to be given back. -/
def lowRelease : List (StageCall Stage Unit × ℕ) := [(.releaseConfirm .confirm, 5)]

/-- The calls are over and one confirm is queued; from there `lowRelease` gives its slot back. -/
def confirmed (s : System Unit onePool (fun _ : Stage => Capacity.two) (Parts Unit)) : Prop :=
  (done s = true ∧ (s.shared.mem.cell ⟨.confirm, ⟨0, by decide⟩⟩).isSome = true) ∧
    (s.shared.parts.confirms = 1 ∧ s.shared.mem.pool.free = 0) ∧
    (lowMachine.runBy (fun _ _ => True) s (steps lowRelease)).map
      (fun r => decide (givesBack r.1)) = some true

instance : DecidablePred confirmed := fun s => by
  unfold confirmed
  infer_instance

theorem exists_confirmed : ∃ tr s,
    lowMachine.ReachBy (Joining lowFlow) lowStart tr s ∧ confirmed s := by
  obtain ⟨tr, s, h_reach, h_s⟩ := Machine.exists_reachBy_of_run lowMachine (Joining lowFlow)
    lowStart (steps lowCalls) (fun s _ => confirmed s) (joining_steps lowCalls_join)
    (by decide +kernel)
  exact ⟨tr, s, h_reach, of_decide_eq_true h_s⟩

/-- The confirm that is queued tells the tick. -/
theorem queue_contents_lowTick : ∃ (m : TaggedMessage) (origin : Origin) (ack : Confirm),
    m.decode = some (Confirm.record ack) ∧ origin.tick = lowTick ∧
      origin.Told (fun _ => Strategy.defaultBandBps) ack := by
  obtain ⟨tr, s, h_reach, ⟨-, h_cell⟩, -⟩ := exists_confirmed
  obtain ⟨p, h_p⟩ := Option.isSome_iff_exists.mp h_cell
  obtain ⟨origin, ack, _, h_decode, h_tick, h_told⟩ :=
    (queue_contents (F := lowFlow) (fun _ => rfl) h_reach h_p).2 rfl
  exact ⟨_, origin, ack, h_decode, h_tick, h_told⟩

/-- The slot is given back with the confirm in it. -/
theorem only_old_released_lowTick : ∃ (m : TaggedMessage) (x : Record), m.decode = some x ∧
    ((∃ tick, lowFlow.admits tick ∧ x = Tick.record tick) ∨ lowFlow.Carried .confirm x) := by
  obtain ⟨tr, s, h_reach, -, -, h_run⟩ := exists_confirmed
  have h_join : ∀ call ∈ lowRelease, call.1.Joins lowFlow := by
    -- the release is a call that joins the flow
    intro call h_call
    rw [List.mem_singleton.mp h_call]
    exact ⟨rfl, fun tick h_tick => absurd h_tick id⟩
  obtain ⟨tr', s', h_reach', h_slot⟩ := Machine.exists_reachBy_of_run lowMachine
    (Joining lowFlow) s (steps lowRelease) (fun s _ => givesBack s) (joining_steps h_join) h_run
  obtain ⟨h_live, h_next⟩ := of_decide_eq_true h_slot
  obtain ⟨⟨s'', es⟩, h_step, h_free⟩ := Option.map_eq_some_iff.mp h_next
  obtain ⟨x, h_decode, h_old⟩ := only_old_released (F := lowFlow) (fun _ => rfl)
    (h_reach.trans h_reach') (fun _ h_call => by cases h_call) h_step h_live h_free
  exact ⟨_, x, h_decode, h_old⟩

/-- One signal, one order and one confirm have been counted, and one message is in a queue. -/
theorem counters_balance_lowTick :
    ∃ s : System Unit onePool (fun _ : Stage => Capacity.two) (Parts Unit),
      s.shared.parts.confirms = 1 ∧
      s.shared.parts.signals - 0 = s.shared.parts.submitted - 0 +
        BitVec.ofNat 64 (lowFlow.waiting s.shared.mem .signal) := by
  obtain ⟨tr, s, h_reach, ⟨h_done, -⟩, ⟨h_confirms, -⟩, -⟩ := exists_confirmed
  exact ⟨s, h_confirms,
    (counters_balance (F := lowFlow) (fun _ => rfl) h_reach (atRest_of_done h_done)).1⟩

/-- After one round of `producer_main` its message is in the queue. -/
theorem runtime_balance_round :
    ∃ (parts : Parts Unit) (s : System Unit onePool (fun _ : Stage => Capacity.two) (Parts Unit)),
      (s.shared.mem.queues .market).occupancy = 1 ∧
      (s.shared.parts.pushed - parts.pushed) - (s.shared.parts.popped - parts.popped) =
        BitVec.ofNat 64 (∑ q, (s.shared.mem.queues q).occupancy) := by
  have h_tests : ∀ a ∈ steps [(.produceTest () .market, 288)],
      ∀ _s : System Unit onePool (fun _ : Stage => Capacity.two) (Parts Unit),
      ∀ call : StageCall Stage Unit, a.2 = .call call → call.Tests := by
    intro a h_a _ call h_call
    simp only [steps, List.flatMap_cons, List.flatMap_nil, List.append_nil] at h_a
    obtain rfl | h_a := List.mem_cons.mp h_a
    · cases h_call
      trivial
    · rw [List.eq_of_mem_replicate h_a] at h_call
      cases h_call
  -- the round is 288 steps long
  obtain ⟨tr, s, h_reach, h_s⟩ := Machine.exists_reachBy_of_run lowMachine
    (fun _ a => ∀ call : StageCall Stage Unit, a.2 = .call call → call.Tests) lowStart
    (steps [(.produceTest () .market, 288)])
    (fun s _ => done s = true ∧ (s.shared.mem.queues .market).occupancy = 1) h_tests
    (by decide +kernel)
  obtain ⟨h_done, h_one⟩ := of_decide_eq_true h_s
  exact ⟨_, s, h_one, runtime_balance h_reach (atRest_of_done h_done)⟩

/-- The slot of the confirm is in use. -/
theorem slots_balance_lowTick :
    ∃ s : System Unit onePool (fun _ : Stage => Capacity.two) (Parts Unit),
      s.shared.mem.pool.free = 0 ∧
      s.shared.mem.pool.free + ∑ q, (s.shared.mem.queues q).occupancy = 1 := by
  obtain ⟨tr, s, h_reach, ⟨h_done, -⟩, ⟨-, h_free⟩, -⟩ := exists_confirmed
  exact ⟨s, h_free, (slots_balance (h_reach.mono fun _ _ _ => trivial)).2.2
    (atRest_of_done h_done)⟩

end Trading

end Hft
