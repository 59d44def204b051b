import MpmcPipeline.Trading.Orders

/-!
# Symbols

The symbol of a signal has ten bytes and ends with a zero byte, whatever the feed calls its
instruments: `TKN` and a token of up to eleven characters, a symbol of twelve bytes, one of
fifteen. The producers copy what fits. So the symbols of two signals are equal if and only
if the names of the instruments begin with the same nine characters (`Tick.signal_symbol`,
`Text.ofList_take_eq_iff`), and the symbol of an NNF order is that of its signal. Which
instrument a signal is for is still in its token.
-/

namespace Hft

open Handoff (Env)

namespace Trading

variable {P : PoolCapacity} {cap : Stage → Capacity}

/-- What the symbol of a signal is copied from. A signal for an ITCH tick has no symbol. -/
def Tick.name : Tick → List Byte
  | itch _ => []
  | mtbt tick => 0x54 :: 0x4B :: 0x4E :: Text.signedDecimal tick.token.toInt
  | sbe tick => (List.ofFn tick.symbol).take tick.symbolLen.toNat
  | mcx tick => (List.ofFn tick.symbol).take (Text.strnlen (Chars.memory tick.symbol) 12)

/-- A bounded copy of an array into a zeroed one is a text that has been cut. -/
theorem symbolPrefix_eq {n : ℕ} (symbol : Chars n) (len : ℕ) :
    symbolPrefix symbol (min len 9) = Text.ofList (((List.ofFn symbol).take len).take 9) := by
  funext i
  rw [Text.ofList, List.take_take, Nat.min_comm, List.getD_eq_getElem?_getD, List.getElem?_take,
    List.getElem?_ofFn, symbolPrefix]
  -- a byte of the array below both bounds, and zero behind them
  by_cases h_len : i.val < min 9 len
  · simp only [if_pos h_len]
    split
    · rfl
    · rfl
  · simp only [if_neg h_len]
    split
    · rfl
    · rfl

/-- The symbol of a signal has the first nine characters of the name. -/
theorem Tick.signal_symbol (tick : Tick) (side : Side) (token : BitVec 32) :
    (tick.signal side token).symbol = Text.ofList (tick.name.take 9) := by
  cases tick with
  | itch tick => rfl
  | mtbt tick => rfl
  | sbe tick => exact symbolPrefix_eq tick.symbol tick.symbolLen.toNat
  | mcx tick =>
    show symbolPrefix tick.symbol (min 9 _) = _
    rw [Nat.min_comm]
    exact symbolPrefix_eq tick.symbol _

theorem Origin.signal_symbol (origin : Origin) :
    origin.signal.symbol = Text.ofList (origin.tick.name.take 9) :=
  Tick.signal_symbol ..

/-- MTBT tokens of up to six characters have different names. -/
theorem token_eq_of_sameStart {tick tick' : MtbtNewOrder}
    (h_low : -99999 ≤ tick.token.toInt) (h_high : tick.token.toInt ≤ 999999)
    (h_low' : -99999 ≤ tick'.token.toInt) (h_high' : tick'.token.toInt ≤ 999999)
    (h : Text.SameStart 9 (Tick.mtbt tick).name (Tick.mtbt tick').name) :
    tick.token = tick'.token := by
  have h_ne : ∀ v, ∀ c ∈ 0x54 :: 0x4B :: 0x4E :: Text.signedDecimal v, c ≠ 0 := by
    intro v c h_c
    simp only [List.mem_cons] at h_c
    rcases h_c with rfl | rfl | rfl | h_c
    · decide
    · decide
    · decide
    · exact Text.signedDecimal_ne_zero v c h_c
  have h_len : (Tick.mtbt tick).name.length ≤ 9 := by
    have := Text.signedDecimal_length_le h_low h_high
    simp only [Tick.name, List.length_cons]
    omega
  have h_len' : (Tick.mtbt tick').name.length ≤ 9 := by
    have := Text.signedDecimal_length_le h_low' h_high'
    simp only [Tick.name, List.length_cons]
    omega
  -- nothing of the two names has been cut, and no zero in them is taken for an end
  have h_names := h.eq (h_ne _) (h_ne _) h_len h_len'
  simp only [Tick.name, List.cons.injEq, true_and] at h_names
  exact BitVec.eq_of_toInt_eq (Text.signedDecimal_injective h_names)

/-- An NNF order has the symbol of its signal. -/
theorem Submission.nnf_symbol {config : Config} {message : Ptr P → TaggedMessage}
    {tr : List (Event P)} {w : World P cap}
    (h : (machine P cap).Reach (World.init config message) tr w) {p : Ptr P} {origin : Origin}
    {o : NnfOrderEntry} {i k : ℕ} (hS : Submission tr p origin (.nnf o) i k) :
    o.secInfo.symbol = origin.signal.symbol := by
  obtain ⟨-, -, traderId, rfl⟩ := hS.orderOf (FaithfulInv.reach h).lives
  rfl

/-- **Symbols and names.** The symbols of two signals, and those of two NNF orders, are equal if
and only if the names of the instruments begin with the same nine characters. MTBT tokens of up
to six characters never do. -/
theorem symbols_eq_iff {config : Config} {message : Ptr P → TaggedMessage}
    {tr : List (Event P)} {w : World P cap}
    (h : (machine P cap).Reach (World.init config message) tr w) :
    (∀ origin origin' : Origin, origin.signal.symbol = origin'.signal.symbol ↔
      Text.SameStart 9 origin.tick.name origin'.tick.name) ∧
    (∀ p p' origin origin' o o' i i' k k', Submission tr p origin (.nnf o) i k →
      Submission tr p' origin' (.nnf o') i' k' →
      (o.secInfo.symbol = o'.secInfo.symbol ↔
        Text.SameStart 9 origin.tick.name origin'.tick.name)) ∧
    (∀ tick tick' : MtbtNewOrder, -99999 ≤ tick.token.toInt → tick.token.toInt ≤ 999999 →
      -99999 ≤ tick'.token.toInt → tick'.token.toInt ≤ 999999 →
      Text.SameStart 9 (Tick.mtbt tick).name (Tick.mtbt tick').name →
      tick.token = tick'.token) := by
  -- a symbol is the name cut to nine characters, in an array of ten
  have h_signals : ∀ origin origin' : Origin, origin.signal.symbol = origin'.signal.symbol ↔
      Text.SameStart 9 origin.tick.name origin'.tick.name := by
    intro origin origin'
    rw [origin.signal_symbol, origin'.signal_symbol]
    exact Text.ofList_take_eq_iff (by norm_num)
  refine ⟨h_signals, ?_, fun tick tick' => token_eq_of_sameStart⟩
  intro p p' origin origin' o o' i i' k k' hS hS'
  -- an NNF order copies the symbol of its signal
  rw [hS.nnf_symbol h, hS'.nnf_symbol h]
  exact h_signals origin origin'

/-- An MTBT tick sets the reference price, then one tick of each token makes an order. -/
def tokenRun (token token' : BitVec 32) : List Action :=
  [.onMtbtTick { token, quantity := 10, price := 250000 },
    .onMtbtTick { token, quantity := 10, price := 240000 },
    .onMtbtTick { token := token', quantity := 10, price := 240000 },
    .pollNnf, .pollNnf].map fun op => ⟨op, fun _ => ⟨MPMC.strong, MPMC.strong, 2⟩⟩

/-- The MTBT token of a signal. -/
def Event.mtbtToken : Event P → Option (BitVec 32)
  | signalled _ ⟨.mtbt tick, _, _, _⟩ => some tick.token
  | _ => none

/-- The symbol of an NNF order. -/
def Event.nnfSymbol : Event P → Option (List Byte)
  | ordered _ (.nnf order) => some (List.ofFn order.secInfo.symbol)
  | _ => none

theorem exists_of_mtbtToken {e : Option (Event P)} {token : BitVec 32}
    (h : e.bind Event.mtbtToken = some token) :
    ∃ p origin tick, e = some (.signalled p origin) ∧ origin.tick = .mtbt tick ∧
      tick.token = token := by
  obtain ⟨e, rfl, h_token⟩ := Option.bind_eq_some_iff.mp h
  unfold Event.mtbtToken at h_token
  split at h_token
  · cases h_token
    exact ⟨_, _, _, rfl, rfl, rfl⟩
  · cases h_token

theorem exists_of_nnfSymbol {e : Option (Event P)} {symbol : List Byte}
    (h : e.bind Event.nnfSymbol = some symbol) :
    ∃ p o, e = some (.ordered p (.nnf o)) ∧ List.ofFn o.secInfo.symbol = symbol := by
  obtain ⟨e, rfl, h_symbol⟩ := Option.bind_eq_some_iff.mp h
  unfold Event.nnfSymbol at h_symbol
  split at h_symbol
  · cases h_symbol
    exact ⟨_, _, rfl, rfl⟩
  · cases h_symbol

/-- Signals of two tokens at their places in a history, and NNF orders with two symbols. -/
def ordersAt (token token' : BitVec 32) (symbol symbol' : List Byte) (tr : List (Event P)) : Bool :=
  decide (tr[2]?.bind Event.mtbtToken = some token ∧ tr[5]?.bind Event.mtbtToken = some token' ∧
    tr[6]?.bind Event.nnfSymbol = some symbol ∧ tr[7]?.bind Event.nnfSymbol = some symbol')

/-- The run makes an NNF order of a signal of each token, with these symbols. -/
theorem tokenRun_orders (token token' : BitVec 32) (symbol symbol' : List Byte)
    (h : ((machine twoPool fun _ => Capacity.two).runBy (fun _ _ => True)
      (World.init {} fun _ => TaggedMessage.fresh) (tokenRun token token')).map
        (fun r => ordersAt token token' symbol symbol' r.2) = some true) :
    ∃ (tr : List (Event twoPool)) (w : World twoPool fun _ => Capacity.two),
      (machine twoPool fun _ => Capacity.two).Reach
        (World.init {} fun _ => TaggedMessage.fresh) tr w ∧
      (∃ p p' origin origin' tick tick', .signalled p origin ∈ tr ∧ .signalled p' origin' ∈ tr ∧
        origin.tick = .mtbt tick ∧ origin'.tick = .mtbt tick' ∧ tick.token = token ∧
        tick'.token = token') ∧
      ∃ p p' origin origin' o o' i i' k k', Submission tr p origin (.nnf o) i k ∧
        Submission tr p' origin' (.nnf o') i' k' ∧ List.ofFn o.secInfo.symbol = symbol ∧
        List.ofFn o'.secInfo.symbol = symbol' := by
  obtain ⟨tr, w, h_reach, h_run⟩ := Machine.exists_reach_of_run
    (machine twoPool fun _ => Capacity.two) (World.init {} fun _ => TaggedMessage.fresh)
    (tokenRun token token') (fun _ tr => ordersAt token token' symbol symbol' tr) h
  -- the events at places 2 and 5 are the signals, those at 6 and 7 the orders
  obtain ⟨h_token, h_token', h_symbol, h_symbol'⟩ := of_decide_eq_true h_run
  obtain ⟨p, origin, tick, h_2, h_tick⟩ := exists_of_mtbtToken h_token
  obtain ⟨p', origin', tick', h_5, h_tick'⟩ := exists_of_mtbtToken h_token'
  obtain ⟨q, o, h_6, h_o⟩ := exists_of_nnfSymbol h_symbol
  obtain ⟨q', o', h_7, h_o'⟩ := exists_of_nnfSymbol h_symbol'
  have h_lives := (FaithfulInv.reach h_reach).lives
  obtain ⟨source, i, hS⟩ := exists_submission h_lives h_6
  obtain ⟨source', i', hS'⟩ := exists_submission h_lives h_7
  exact ⟨tr, w, h_reach,
    ⟨p, p', origin, origin', tick, tick', List.mem_of_getElem? h_2, List.mem_of_getElem? h_5,
      h_tick.1, h_tick'.1, h_tick.2, h_tick'.2⟩,
    ⟨q, q', source, source', o, o', i, i', 6, 7, hS, hS', h_o, h_o'⟩⟩

/-- Tokens 111 and 112 have different symbols, so different names. -/
theorem symbols_eq_iff_short :
    ∃ (tr : List (Event twoPool)) (w : World twoPool fun _ => Capacity.two),
      (machine twoPool fun _ => Capacity.two).Reach
        (World.init {} fun _ => TaggedMessage.fresh) tr w ∧
      ∃ p p' origin origin' o o' i i' k k', Submission tr p origin (.nnf o) i k ∧
        Submission tr p' origin' (.nnf o') i' k' ∧
        ¬ Text.SameStart 9 origin.tick.name origin'.tick.name := by
  obtain ⟨tr, w, h_reach, -, p, p', origin, origin', o, o', i, i', k, k', hS, hS', h_o, h_o'⟩ :=
    tokenRun_orders 111 112 [0x54, 0x4B, 0x4E, 0x31, 0x31, 0x31, 0, 0, 0, 0]
      [0x54, 0x4B, 0x4E, 0x31, 0x31, 0x32, 0, 0, 0, 0] (by decide +kernel)
  refine ⟨tr, w, h_reach, p, p', origin, origin', o, o', i, i', k, k', hS, hS', fun h_same => ?_⟩
  -- were the names alike, the two symbols would be one
  have h_eq := ((symbols_eq_iff h_reach).2.1 p p' origin origin' o o' i i' k k' hS hS').mpr h_same
  rw [h_eq, h_o'] at h_o
  exact absurd h_o (by decide)

/-- **Two instruments with one symbol.** The names of tokens 1000000 and 1000001 differ in their
tenth character, and a symbol keeps the first nine. -/
theorem symbols_collide :
    ¬ ∀ (tr : List (Event twoPool)) (w : World twoPool fun _ => Capacity.two),
      (machine twoPool fun _ => Capacity.two).Reach
        (World.init {} fun _ => TaggedMessage.fresh) tr w →
      (∀ p p' origin origin' tick tick', .signalled p origin ∈ tr → .signalled p' origin' ∈ tr →
        origin.tick = .mtbt tick → origin'.tick = .mtbt tick' → tick.token ≠ tick'.token →
        origin.signal.symbol ≠ origin'.signal.symbol) := by
  intro h_all
  obtain ⟨tr, w, h_reach, ⟨p, p', ⟨tick₁, ref, side, token⟩, ⟨tick₂, ref', side', token'⟩, tick,
    tick', h_p, h_p', h_tick, h_tick', h_token, h_token'⟩, -⟩ :=
    tokenRun_orders 1000000 1000001 [0x54, 0x4B, 0x4E, 0x31, 0x30, 0x30, 0x30, 0x30, 0x30, 0]
      [0x54, 0x4B, 0x4E, 0x31, 0x30, 0x30, 0x30, 0x30, 0x30, 0] (by decide +kernel)
  -- both ticks are MTBT ticks, of the two tokens
  obtain rfl : tick₁ = .mtbt tick := h_tick
  obtain rfl : tick₂ = .mtbt tick' := h_tick'
  -- the first nine characters do not reach the digit that differs
  have h_symbol : (mtbtSignal tick side token).symbol = (mtbtSignal tick' side' token').symbol := by
    show Text.ofList ((0x54 :: 0x4B :: 0x4E :: Text.signedDecimal tick.token.toInt).take 9) =
      Text.ofList ((0x54 :: 0x4B :: 0x4E :: Text.signedDecimal tick'.token.toInt).take 9)
    rw [h_token, h_token']
    decide +kernel
  exact h_all tr w h_reach p p' _ _ tick tick' h_p h_p' rfl rfl
    (by rw [h_token, h_token']; decide) h_symbol

end Trading

end Hft
