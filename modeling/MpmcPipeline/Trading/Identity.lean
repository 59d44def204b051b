import MpmcPipeline.Trading.Orders

/-!
# What a confirm says about its signal

A client recognises a confirm by the fields it has chosen itself: the order token of OUCH,
the order link id of SBE, the client order id of MCX, and, as the layout of NNF has no
such field, everything an NNF confirm repeats of its request (`Confirm.SameIds`).

The first three carry the token of the signal, as a numeral of fixed width, as a numeral
behind a prefix, and as a number, and each of these can be read back. An NNF confirm
tells the instrument, the side, the quantity and the price, and no more:
`confirms_identify`.
-/

namespace Hft

open History (Lives)

namespace Trading

variable {P : PoolCapacity} {cap : Stage → Capacity}

/-- The order link id of a confirm: as many characters as the confirm says it has. -/
def linkId (ack : FastOrderResp) : List Byte :=
  (List.ofFn ack.orderLinkId).take ack.orderLinkIdLen.toNat

/-- Two confirms of one venue show the client the same: for NNF, in all fields that are copied
from the request. -/
def Confirm.SameIds : Confirm → Confirm → Prop
  | ouch a, ouch b => a.orderToken = b.orderToken
  | nnf a, nnf b =>
    a.token = b.token ∧ a.bookType = b.bookType ∧ a.buySell = b.buySell ∧
      a.disclosedVol = b.disclosedVol ∧ a.disclosedVolRemaining = b.disclosedVolRemaining ∧
      a.totalVolRemaining = b.totalVolRemaining ∧ a.volume = b.volume ∧ a.price = b.price ∧
      a.orderFlags = b.orderFlags ∧ a.traderId = b.traderId
  | sbe a, sbe b => linkId a = linkId b
  | mcx a, mcx b => a.clOrdId = b.clOrdId
  | _, _ => False

instance (ack ack' : Confirm) : Decidable (ack.SameIds ack') := by
  unfold Confirm.SameIds
  cases ack <;> cases ack' <;> infer_instance

/-! ### Reading the token back -/

theorem toNat_lt_of_width {w : ℕ} (token : BitVec 32) (h_w : 10 ≤ w) : token.toNat < 10 ^ w :=
  lt_of_lt_of_le (lt_trans token.isLt (by norm_num)) (Nat.pow_le_pow_right (by norm_num) h_w)

/-- Tokens with one text of fourteen digits are equal. -/
theorem token_eq_of_zeroPadded {token token' : BitVec 32}
    (h : Text.zeroPadded 14 token.toNat = Text.zeroPadded 14 token'.toNat) : token = token' :=
  BitVec.eq_of_toNat_eq (Text.zeroPadded_injOn (toNat_lt_of_width token (by norm_num))
    (toNat_lt_of_width token' (by norm_num)) h)

/-- The order link id of a request: its characters up to the first zero byte. -/
def linkText (req : CreateOrderReqV5) : List Byte :=
  (List.ofFn req.orderLinkId).take (Text.strnlen (Chars.memory req.orderLinkId) 64)

/-- A confirm repeats the first 32 characters of the link id. -/
theorem linkId_makeSbeFastConfirm (req : CreateOrderReqV5) (seq : BitVec 64) :
    linkId (makeSbeFastConfirm req seq) = (linkText req).take 32 := by
  obtain ⟨len, h_len⟩ : ∃ len, len = min (Text.strnlen (Chars.memory req.orderLinkId) 64) 32 :=
    ⟨_, rfl⟩
  have h_byte : (makeSbeFastConfirm req seq).orderLinkIdLen.toNat = len := by
    show (BitVec.ofNat 8 (min (Text.strnlen (Chars.memory req.orderLinkId) 64) 32)).toNat = len
    rw [← h_len, BitVec.toNat_ofNat]
    omega
  -- both are the first `len` characters of the request
  rw [linkId, h_byte, linkText, List.take_take, Nat.min_comm, ← h_len]
  apply List.ext_getElem
  · rw [List.length_take, List.length_take, List.length_ofFn, List.length_ofFn]
    omega
  · intro k h_k h_k'
    rw [List.length_take] at h_k
    rw [List.getElem_take, List.getElem_take, List.getElem_ofFn, List.getElem_ofFn]
    show (if k < min (Text.strnlen (Chars.memory req.orderLinkId) 64) 32
      then Chars.memory req.orderLinkId k else 0) = req.orderLinkId ⟨k, _⟩
    rw [← h_len, if_pos (by omega), Chars.memory, dif_pos]

/-- A link id without zero bytes is read up to its end. -/
theorem linkText_of_ofList {req : CreateOrderReqV5} {text : List Byte}
    (h_req : req.orderLinkId = Text.ofList text) (h_text : ∀ c ∈ text, c ≠ 0)
    (h_len : text.length < 64) : linkText req = text := by
  have h_memory : Chars.memory req.orderLinkId = fun k => text.getD k 0 := by
    rw [h_req, Chars.memory_ofList h_len.le]
  rw [linkText, h_memory, Text.strnlen_getD h_text h_len, h_req]
  apply List.ext_getElem
  · rw [List.length_take, List.length_ofFn]
    exact min_eq_left h_len.le
  · intro k h_k h_k'
    rw [List.getElem_take, List.getElem_ofFn]
    exact List.getD_eq_getElem _ _ h_k'

/-- The link id of an order is `lnk` and the token. -/
theorem linkId_sbeOrder (symbolId seq : BitVec 64) (signal : StrategySignal) :
    linkId (makeSbeFastConfirm (sbeOrder symbolId signal) seq) =
      0x6C :: 0x6E :: 0x6B :: Text.decimal signal.orderToken.toNat := by
  -- thirteen characters at most: neither the 64 of the request nor the 32 of the confirm cut it
  have h_len : (Text.decimal signal.orderToken.toNat).length ≤ 10 :=
    Text.decimal_length_le (toNat_lt_of_width signal.orderToken le_rfl) (by norm_num)
  have h_ne : ∀ c ∈ 0x6C :: 0x6E :: 0x6B :: Text.decimal signal.orderToken.toNat, c ≠ 0 := by
    intro c h_c
    simp only [List.mem_cons] at h_c
    rcases h_c with rfl | rfl | rfl | h_c
    · decide
    · decide
    · decide
    · exact Text.decimal_ne_zero _ c h_c
  rw [linkId_makeSbeFastConfirm,
    linkText_of_ofList rfl h_ne (by simp only [List.length_cons]; omega)]
  exact List.take_of_length_le (by simp only [List.length_cons]; omega)

@[simp] theorem Tick.signal_orderToken (tick : Tick) (side : Side) (token : BitVec 32) :
    (tick.signal side token).orderToken = token := by
  cases tick <;> rfl

section

variable {signal : StrategySignal} {order : Order}

theorem AckOf.linkId_eq {ack : FastOrderResp} (h : AckOf order (.sbe ack))
    (h_order : OrderOf signal order) : signal.feed = .sbeMarket ∧
      linkId ack = 0x6C :: 0x6E :: 0x6B :: Text.decimal signal.orderToken.toNat := by
  cases order with
  | sbe req =>
    obtain ⟨h_feed, symbolId, rfl⟩ := h_order
    obtain ⟨seq, rfl⟩ := h
    exact ⟨h_feed, linkId_sbeOrder symbolId seq signal⟩
  | _ => exact h.elim

theorem AckOf.clOrdId_eq {ack : ExecutionReportNew} (h : AckOf order (.mcx ack))
    (h_order : OrderOf signal order) :
    signal.feed = .mcxMarket ∧ ack.clOrdId = signal.orderToken.setWidth 64 := by
  cases order with
  | mcx req =>
    obtain ⟨h_feed, seq, senderSubId, simpleSecurityId, rfl⟩ := h_order
    obtain ⟨orderId, execId, rfl⟩ := h
    exact ⟨h_feed, rfl⟩
  | _ => exact h.elim

end

/-- NNF confirms that repeat the same stem from ticks that say the same. -/
theorem Origin.NnfAck.same {bandBps : Kind → BitVec 32} {origin origin' : Origin}
    {a a' : NnfOrderConfirm} (h : origin.NnfAck bandBps a) (h' : origin'.NnfAck bandBps a')
    (h_same : (Confirm.nnf a).SameIds (.nnf a')) :
    ∃ tick tick', origin.tick = .mtbt tick ∧ origin'.tick = .mtbt tick' ∧
      tick.token = tick'.token ∧ tick.quantity = tick'.quantity ∧ tick.price = tick'.price ∧
      origin.side = origin'.side := by
  obtain ⟨tick, h_tick, -, h_token, h_volume, -, h_price, h_side⟩ := h
  obtain ⟨tick', h_tick', -, h_token', h_volume', -, h_price', h_side'⟩ := h'
  obtain ⟨h_a_token, -, h_buySell, -, -, -, h_a_volume, h_a_price, -, -⟩ := h_same
  refine ⟨tick, tick', h_tick, h_tick', ?_, ?_, ?_, ?_⟩
  · rw [← h_token, ← h_token', h_a_token]
  · rw [← h_volume, ← h_volume', h_a_volume]
  · rw [← h_price, ← h_price', h_a_price]
  · -- one and two are not the same side
    rcases h_side with ⟨h_buy, h_one⟩ | ⟨h_sell, h_two⟩
    · rcases h_side' with ⟨h_buy', -⟩ | ⟨-, h_two'⟩
      · rw [h_buy, h_buy']
      · rw [h_one, h_two'] at h_buySell
        exact absurd h_buySell (by decide)
    · rcases h_side' with ⟨-, h_one'⟩ | ⟨h_sell', -⟩
      · rw [h_two, h_one'] at h_buySell
        exact absurd h_buySell (by decide)
      · rw [h_sell, h_sell']

/-- **Confirms and signals.** On the venues with a field for it, two confirms that show the
client the same stem from signals with one order token. Two NNF confirms that do stem from
ticks of one instrument, quantity and price, which the strategy gave one side. -/
theorem confirms_identify {config : Config} {message : Ptr P → TaggedMessage}
    {tr : List (Event P)} {w : World P cap}
    (h : (machine P cap).Reach (World.init config message) tr w) {p p' : Ptr P}
    {origin origin' : Origin} {ack ack' : Confirm} {i i' j j' : ℕ}
    (hJ : Journey tr p origin ack i j) (hJ' : Journey tr p' origin' ack' i' j')
    (h_same : ack.SameIds ack') :
    (origin.tick.kind ≠ .mtbt → origin.token = origin'.token) ∧
      ∀ tick, origin.tick = .mtbt tick → ∃ tick', origin'.tick = .mtbt tick' ∧
        tick.token = tick'.token ∧ tick.quantity = tick'.quantity ∧ tick.price = tick'.price ∧
        origin.side = origin'.side := by
  have h_lives := (FaithfulInv.reach h).lives
  obtain ⟨order, h_origin, h_order, h_ack⟩ := hJ.ackOf h_lives
  obtain ⟨order', h_origin', h_order', h_ack'⟩ := hJ'.ackOf h_lives
  have h_feed : origin.signal.feed = origin.tick.kind := Tick.signal_feed ..
  have h_token : origin.signal.orderToken = origin.token := Tick.signal_orderToken ..
  have h_token' : origin'.signal.orderToken = origin'.token := Tick.signal_orderToken ..
  -- a venue for itself; the confirms are of one
  cases ack with
  | ouch a =>
    cases ack' with
    | ouch a' =>
      obtain ⟨t, h_tick, -, -, -, -, -, h_id⟩ := h_origin.ouchAck h_order h_ack
      obtain ⟨t', -, -, -, -, -, -, h_id'⟩ := h_origin'.ouchAck h_order' h_ack'
      refine ⟨fun _ => token_eq_of_zeroPadded ?_, fun tick h_mtbt => ?_⟩
      · rw [← h_id, ← h_id']
        exact h_same
      · cases h_tick.symm.trans h_mtbt
    | _ => exact h_same.elim
  | nnf a =>
    cases ack' with
    | nnf a' =>
      obtain ⟨t, t', h_tick, h_tick', h_fields⟩ :=
        (h_origin.nnfAck h_order h_ack).same (h_origin'.nnfAck h_order' h_ack') h_same
      refine ⟨fun h_kind => absurd (congrArg Tick.kind h_tick) h_kind, fun tick h_mtbt => ?_⟩
      cases h_tick.symm.trans h_mtbt
      exact ⟨t', h_tick', h_fields⟩
    | _ => exact h_same.elim
  | sbe a =>
    cases ack' with
    | sbe a' =>
      obtain ⟨h_venue, h_id⟩ := h_ack.linkId_eq h_order
      obtain ⟨-, h_id'⟩ := h_ack'.linkId_eq h_order'
      refine ⟨fun _ => ?_, fun tick h_mtbt => ?_⟩
      · have h_text : linkId a = linkId a' := h_same
        rw [h_id, h_id', h_token, h_token'] at h_text
        simp only [List.cons.injEq, true_and] at h_text
        exact BitVec.eq_of_toNat_eq (Text.decimal_injective h_text)
      · rw [h_venue, h_mtbt] at h_feed
        cases h_feed
    | _ => exact h_same.elim
  | mcx a =>
    cases ack' with
    | mcx a' =>
      obtain ⟨h_venue, h_id⟩ := h_ack.clOrdId_eq h_order
      obtain ⟨-, h_id'⟩ := h_ack'.clOrdId_eq h_order'
      refine ⟨fun _ => ?_, fun tick h_mtbt => ?_⟩
      · have h_eq : a.clOrdId = a'.clOrdId := h_same
        rw [h_id, h_id', h_token, h_token'] at h_eq
        -- 64 bits have room for a token
        have h_nat := congrArg BitVec.toNat h_eq
        rw [BitVec.toNat_setWidth_of_le (by decide), BitVec.toNat_setWidth_of_le (by decide)]
          at h_nat
        exact BitVec.eq_of_toNat_eq h_nat
      · rw [h_venue, h_mtbt] at h_feed
        cases h_feed
    | _ => exact h_same.elim

/-- Two NNF confirms of one shape: the MTBT ticks of one token, quantity and price give two
signals, one after the other. -/
def twinRun : List Action :=
  [.onMtbtTick { token := 111, quantity := 10, price := 250000 },
    .onMtbtTick { token := 111, quantity := 10, price := 240000 },
    .onMtbtTick { token := 111, quantity := 10, price := 240000 },
    .pollNnf, .pollNnf, .pollGateway, .pollGateway].map
    fun op => ⟨op, fun _ => ⟨MPMC.strong, MPMC.strong, 2⟩⟩

/-- The confirms at two positions are of two messages and show the client the same. -/
def twins : Option (Event P) → Option (Event P) → Bool
  | some (.confirmed p ack), some (.confirmed p' ack') =>
    decide (p ≠ p') && decide (ack.SameIds ack')
  | _, _ => false

theorem exists_of_twins {tr : List (Event P)} {j j' : ℕ} (h : twins tr[j]? tr[j']? = true) :
    ∃ p p' ack ack', p ≠ p' ∧ ack.SameIds ack' ∧ tr[j]? = some (.confirmed p ack) ∧
      tr[j']? = some (.confirmed p' ack') := by
  unfold twins at h
  split at h
  · next p ack p' ack' h_j h_j' =>
    rw [Bool.and_eq_true, decide_eq_true_eq, decide_eq_true_eq] at h
    exact ⟨p, p', ack, ack', h.1, h.2, h_j, h_j'⟩
  · cases h

/-- The message and the order token of a signal. -/
def Event.issued : Event P → Option (Ptr P × BitVec 32)
  | .signalled p origin => some (p, origin.token)
  | _ => none

/-- The confirms of the run stem from two signals with two tokens. -/
theorem twinRun_journeys :
    ∃ (tr : List (Event twoPool)) (w : World twoPool fun _ => Capacity.two),
      (machine twoPool fun _ => Capacity.two).Reach
        (World.init {} fun _ => TaggedMessage.fresh) tr w ∧
      (∀ kind, signalCount kind tr < 2 ^ 32) ∧
      ∃ p p' origin origin' ack ack' i i' j j', Journey tr p origin ack i j ∧
        Journey tr p' origin' ack' i' j' ∧ ack.SameIds ack' ∧ origin.token ≠ origin'.token := by
  obtain ⟨tr, w, h_reach, h_run⟩ := Machine.exists_reach_of_run
    (machine twoPool fun _ => Capacity.two) (World.init {} fun _ => TaggedMessage.fresh) twinRun
    (fun _ tr => twins tr[8]? tr[9]? &&
      decide (tr.length = 10 ∧ ((tr.filterMap Event.issued).map Prod.snd).Nodup))
    (by decide +kernel)
  rw [Bool.and_eq_true, decide_eq_true_eq] at h_run
  obtain ⟨h_twins, h_length, h_issued⟩ := h_run
  obtain ⟨p, p', ack, ack', h_ne, h_same, h_j, h_j'⟩ := exists_of_twins h_twins
  have h_lives := (FaithfulInv.reach h_reach).lives
  obtain ⟨origin, -, i, hJ, -⟩ := exists_journey h_lives h_j
  obtain ⟨origin', -, i', hJ', -⟩ := exists_journey h_lives h_j'
  refine ⟨tr, w, h_reach, fun kind => ?_, p, p', origin, origin', ack, ack', i, i', 8, 9, hJ, hJ',
    h_same, fun h_token => h_ne ?_⟩
  · have h_count : signalCount kind tr ≤ tr.length := List.countP_le_length
    omega
  · -- no token is issued twice, so one token has one message
    obtain ⟨-, k, -, -, -, h_k, -⟩ := hJ.between
    obtain ⟨-, k', -, -, -, h_k', -⟩ := hJ'.between
    have h_mem : (p, origin.token) ∈ tr.filterMap Event.issued :=
      List.mem_filterMap.mpr ⟨_, List.mem_of_getElem? h_k, rfl⟩
    have h_mem' : (p', origin'.token) ∈ tr.filterMap Event.issued :=
      List.mem_filterMap.mpr ⟨_, List.mem_of_getElem? h_k', rfl⟩
    exact congrArg Prod.fst (List.inj_on_of_nodup_map h_issued h_mem h_mem' h_token)

/-- The twins look the same and have two tokens, so they are NNF confirms. -/
theorem confirms_identify_twins :
    ∃ (tr : List (Event twoPool)) (w : World twoPool fun _ => Capacity.two),
      (machine twoPool fun _ => Capacity.two).Reach
        (World.init {} fun _ => TaggedMessage.fresh) tr w ∧
      ∃ p p' origin origin' ack ack' i i' j j', Journey tr p origin ack i j ∧
        Journey tr p' origin' ack' i' j' ∧ ack.SameIds ack' ∧ origin.tick.kind = .mtbt := by
  obtain ⟨tr, w, h_reach, -, p, p', origin, origin', ack, ack', i, i', j, j', hJ, hJ', h_same,
    h_ne⟩ := twinRun_journeys
  refine ⟨tr, w, h_reach, p, p', origin, origin', ack, ack', i, i', j, j', hJ, hJ', h_same, ?_⟩
  by_contra h_kind
  exact h_ne ((confirms_identify h_reach hJ hJ' h_same).1 h_kind)

/-- The twins, two MTBT ticks of one instrument, quantity and price, have confirms that show the
client the same, and stem from signals with two tokens. -/
theorem confirms_not_identified :
    ¬∀ (tr : List (Event twoPool)) (w : World twoPool fun _ => Capacity.two),
      (machine twoPool fun _ => Capacity.two).Reach
        (World.init {} fun _ => TaggedMessage.fresh) tr w →
      (∀ kind, signalCount kind tr < 2 ^ 32) → ∀ p p' origin origin' ack ack' i i' j j',
        Journey tr p origin ack i j → Journey tr p' origin' ack' i' j' → ack.SameIds ack' →
        origin.token = origin'.token := by
  intro h_all
  obtain ⟨tr, w, h_reach, h_count, p, p', origin, origin', ack, ack', i, i', j, j', hJ, hJ',
    h_same, h_ne⟩ := twinRun_journeys
  exact h_ne (h_all tr w h_reach h_count p p' origin origin' ack ack' i i' j j' hJ hJ' h_same)

end Trading

end Hft
