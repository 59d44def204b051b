import MpmcPipeline.Trading.Moves

/-!
# Instruments of one producer

A producer has one reference price, and every tick of its feed moves it, whatever the
instrument. So the signals for an instrument are made from its own ticks and from a reference
price that the prices of all ticks so far have made (`Producing`), and this is the one way in
which instruments act on one another: what else is in the ticks of the others does not matter,
and to take them away matters exactly as far as it changes that reference price
(`instrument_signals`). It can change it (`instrument_interferes`).

The calls of `on_tick` are taken one by one, each in a memory that the other threads have made
what they like. The pool is not exhausted (`TickCall.Served`).
-/

namespace Hft

open Handoff (Env)

namespace Trading

variable {P : PoolCapacity} {cap : Stage → Capacity}

/-! ### Ticks, instruments and signals -/

/-- What a feed calls an instrument. -/
inductive Instrument
  | stockLocate (locate : BitVec 16)
  | token (token : BitVec 32)
  | symbol (symbol : List Byte)
  | simpleSecurityId (id : BitVec 32)
  deriving DecidableEq

/-- The instrument of a tick. -/
def Tick.instrument : Tick → Instrument
  | itch tick => .stockLocate tick.stockLocate
  | mtbt tick => .token tick.token
  | sbe tick => .symbol ((List.ofFn tick.symbol).take tick.symbolLen.toNat)
  | mcx tick => .simpleSecurityId tick.simpleSecurityId

/-- Side, price and quantity of a signal. -/
def Origin.terms (origin : Origin) : Side × BitVec 32 × BitVec 32 :=
  (origin.signal.side, origin.signal.price, origin.signal.quantity)

/-- The origin of a signal that is emitted. -/
def Event.origin : Event P → Option Origin
  | signalled _ origin => some origin
  | _ => none

/-- The reference price against which each tick is evaluated. -/
def references : BitVec 32 → List Tick → List (Tick × BitVec 32)
  | _, [] => []
  | ref, tick :: ticks =>
    (tick, Strategy.updateRefPrice ref tick.price) ::
      references (Strategy.updateRefPrice ref tick.price) ticks

/-- The reference price after so many ticks. -/
def lastReference (ref : BitVec 32) (ticks : List Tick) : BitVec 32 :=
  ticks.foldl (fun ref tick => Strategy.updateRefPrice ref tick.price) ref

/-- Side, price and quantity of the signal made from a tick, if one is made. -/
def evaluated (bandBps : BitVec 32) (x : Tick × BitVec 32) :
    Option (Side × BitVec 32 × BitVec 32) :=
  let side := Strategy.evaluate x.2 x.1.price bandBps
  if side = .none then none
  else some (side, (x.1.signal side 0).price, (x.1.signal side 0).quantity)

theorem references_snoc (ref : BitVec 32) (ticks : List Tick) (tick : Tick) :
    references ref (ticks ++ [tick]) = references ref ticks ++
      [(tick, Strategy.updateRefPrice (lastReference ref ticks) tick.price)] := by
  induction ticks generalizing ref with
  | nil => rfl
  | cons first ticks ih =>
    rw [List.cons_append, references, ih, references, List.cons_append]
    rfl

theorem lastReference_snoc (ref : BitVec 32) (ticks : List Tick) (tick : Tick) :
    lastReference ref (ticks ++ [tick]) =
      Strategy.updateRefPrice (lastReference ref ticks) tick.price := by
  rw [lastReference, List.foldl_append]
  rfl

/-- The token is in neither side, price nor quantity. -/
theorem Origin.terms_eq (tick : Tick) (ref : BitVec 32) (side : Side) (token : BitVec 32) :
    Origin.terms ⟨tick, ref, side, token⟩ =
      (side, (tick.signal side 0).price, (tick.signal side 0).quantity) := by
  cases tick <;> rfl

/-! ### A producer and its ticks -/

/-- A call of `on_tick`, in the memory it finds. -/
structure TickCall (P : PoolCapacity) (cap : Stage → Capacity) where
  tick : Tick
  owned : Option (Ptr P)
  env : Env
  mem : Memory P cap

/-- The pool is not exhausted. -/
def TickCall.Served (call : TickCall P cap) : Prop :=
  call.owned = none → ∃ msg, (call.mem.acquire call.env).1 = some msg

/-- A producer. Every tick is shown, with the origin of its signal if one is emitted. -/
def producing (P : PoolCapacity) (cap : Stage → Capacity) :
    Machine Producer (TickCall P cap) (Tick × Option Origin) where
  step self call :=
    match producerOnTick call.env call.mem self call.tick call.owned with
    | none => none
    | some (_, self, es) => some (self, [(call.tick, es.findSome? Event.origin)])

section

variable {env : Env} {mem mem' : Memory P cap} {self self' : Producer} {tick : Tick}
  {owned : Option (Ptr P)} {es : List (Event P)}

/-- **What a call emits.** -/
theorem producerOnTick_origin
    (h_pool : owned = none → ∃ msg, (mem.acquire env).1 = some msg)
    (h : producerOnTick env mem self tick owned = some (mem', self', es)) :
    self'.bandBps = self.bandBps ∧
      self'.refPrice = Strategy.updateRefPrice self.refPrice tick.price ∧
      (es.findSome? Event.origin).map Origin.terms =
        evaluated self.bandBps (tick, self'.refPrice) := by
  -- whatever becomes of the message, the reference price is made first
  cases producerOnTick_step h with
  | released _ h_side | passed h_side =>
    refine ⟨rfl, rfl, ?_⟩
    exact (if_pos h_side).symm
  | signal msg h_side | signalNew msg h_side =>
    -- a signal is emitted exactly if there is a side
    refine ⟨rfl, rfl, ?_⟩
    have h_terms := Origin.terms_eq tick (self.origin tick).ref (self.origin tick).side
      self.nextToken
    exact (congrArg some h_terms).trans (if_neg h_side).symm
  | exhausted _ h_acquire =>
    -- an empty pool is excluded for a tick without a message
    obtain ⟨msg, h_msg⟩ := h_pool rfl
    rw [h_acquire] at h_msg
    cases h_msg

end

/-- Side, price and quantity of the signals emitted for `X`. -/
def termsFor (X : Instrument) (tr : List (Tick × Option Origin)) :
    List (Side × BitVec 32 × BitVec 32) :=
  tr.filterMap fun e => if e.1.instrument = X then e.2.map Origin.terms else none

/-- **The invariant.** The reference price is made by all ticks, and each is evaluated against
it. -/
structure Producing (self₀ : Producer) (tr : List (Tick × Option Origin))
    (producer : Producer) : Prop where
  band : producer.bandBps = self₀.bandBps
  ref : producer.refPrice = lastReference self₀.refPrice (tr.map Prod.fst)
  terms : tr.map (fun e => (e.1, e.2.map Origin.terms)) =
    (references self₀.refPrice (tr.map Prod.fst)).map fun x => (x.1, evaluated self₀.bandBps x)

section

variable {self₀ self self' : Producer} {tr tr' : List (Tick × Option Origin)}

/-- **Run.** The producer's reference price is that of its ticks, and what it has emitted are its
ticks evaluated against it. -/
theorem Producing.reach (h : (producing P cap).ReachBy (fun _ call => call.Served) self₀ tr self) :
    Producing self₀ tr self := by
  refine h.inv ⟨rfl, rfl, rfl⟩ ?_
  intro tr self call self' es hI h_pool h_step
  simp only [producing] at h_step
  split at h_step
  · cases h_step
  · next h_tick =>
    cases h_step
    -- the call adds one tick, evaluated against the reference that it has made itself
    obtain ⟨h_band, h_ref, h_terms⟩ := producerOnTick_origin h_pool h_tick
    rw [hI.ref] at h_ref
    refine ⟨h_band.trans hI.band, ?_, ?_⟩
    · rw [List.map_append, h_ref]
      exact (lastReference_snoc _ _ _).symm
    · rw [List.map_append, List.map_append, hI.terms, List.map_singleton, List.map_singleton,
        references_snoc, List.map_append, List.map_singleton, h_terms, hI.band, h_ref]

/-- A tick that is evaluated to a side has a signal. -/
theorem Producing.exists_signal (h : Producing self₀ tr self) {tick : Tick} {ref : BitVec 32}
    (h_ref : (tick, ref) ∈ references self₀.refPrice (tr.map Prod.fst))
    (h_side : evaluated self₀.bandBps (tick, ref) ≠ none) :
    ∃ origin, (tick, some origin) ∈ tr := by
  have h_mem : (tick, evaluated self₀.bandBps (tick, ref)) ∈
      tr.map fun e => (e.1, e.2.map Origin.terms) := by
    rw [h.terms]
    exact List.mem_map_of_mem h_ref
  obtain ⟨⟨tick', signal⟩, h_e, h_eq⟩ := List.mem_map.mp h_mem
  obtain ⟨rfl, h_terms⟩ := Prod.mk.inj h_eq
  cases signal with
  | none => exact absurd h_terms.symm h_side
  | some origin => exact ⟨origin, h_e⟩

/-- **The signals of an instrument**, from the references: its own ticks, each evaluated against the
reference price that all ticks up to it have made. -/
theorem Producing.termsFor_eq (hI : Producing self₀ tr self) (X : Instrument) :
    termsFor X tr = ((references self₀.refPrice (tr.map Prod.fst)).filter
      (·.1.instrument = X)).filterMap (evaluated self₀.bandBps) := by
  have h_terms := congrArg (List.filterMap fun e => if e.1.instrument = X then e.2 else none)
    hI.terms
  rw [List.filterMap_map, List.filterMap_map] at h_terms
  rw [termsFor, List.filterMap_filter]
  simpa [Function.comp_def] using h_terms

end

/-- Ticks that differ only where they are not of `X`, and there not in the price. -/
def SameFor (X : Instrument) (tick tick' : Tick) : Prop :=
  tick.price = tick'.price ∧ (tick.instrument = X ∨ tick'.instrument = X → tick = tick')

/-- They are evaluated against the same references. -/
theorem references_filter_eq {X : Instrument} {ticks ticks' : List Tick}
    (h : List.Forall₂ (SameFor X) ticks ticks') (ref : BitVec 32) :
    (references ref ticks).filter (·.1.instrument = X) =
      (references ref ticks').filter (·.1.instrument = X) := by
  induction h generalizing ref with
  | nil => rfl
  | @cons tick tick' ticks ticks' h_same _ ih =>
    obtain ⟨h_price, h_eq⟩ := h_same
    rw [references, references, h_price, List.filter_cons, List.filter_cons, ih]
    by_cases h_X : tick.instrument = X
    · rw [h_eq (Or.inl h_X)]
    · have h_X' : tick'.instrument ≠ X := fun h => h_X (by rw [h_eq (Or.inr h)]; exact h)
      simp [h_X, h_X']

/-- **Interference.** The signals for an instrument are its ticks evaluated against the
reference price that all ticks have made. So a run without the ticks of the others emits the
same signals for it if each of its ticks is evaluated against the same reference price; and a
run in which the others are different ticks of the same prices emits the same signals. -/
theorem instrument_signals {self₀ self self' : Producer} {tr tr' : List (Tick × Option Origin)}
    (h : (producing P cap).ReachBy (fun _ call => call.Served) self₀ tr self)
    (h' : (producing P cap).ReachBy (fun _ call => call.Served) self₀ tr' self')
    (X : Instrument) :
    termsFor X tr = ((references self₀.refPrice (tr.map Prod.fst)).filter
      (·.1.instrument = X)).filterMap (evaluated self₀.bandBps) ∧
    (tr'.map Prod.fst = (tr.map Prod.fst).filter (·.instrument = X) →
      references self₀.refPrice ((tr.map Prod.fst).filter (·.instrument = X)) =
        (references self₀.refPrice (tr.map Prod.fst)).filter (·.1.instrument = X) →
      termsFor X tr' = termsFor X tr) ∧
    (List.Forall₂ (SameFor X) (tr.map Prod.fst) (tr'.map Prod.fst) →
      termsFor X tr' = termsFor X tr) := by
  have h_terms := (Producing.reach h).termsFor_eq X
  have h_terms' := (Producing.reach h').termsFor_eq X
  refine ⟨h_terms, fun h_ticks h_refs => ?_, fun h_same => ?_⟩
  · -- the same ticks against the same references
    rw [h_terms, h_terms', h_ticks, h_refs, List.filter_filter]
    simp only [Bool.and_self]
  · -- the others count by their prices only
    rw [h_terms, h_terms', references_filter_eq h_same]

/-- An environment without spurious failures. -/
def calm : Env := ⟨MPMC.strong, MPMC.strong, 2⟩

/-- Memory at the start. -/
def emptyMemory : Memory onePool fun _ => Capacity.two :=
  ⟨TaggedPool.fresh fun _ => TaggedMessage.fresh, fun _ => MPMC.fresh _ _⟩

/-- A call in it. -/
def callOn (tick : Tick) : TickCall onePool fun _ => Capacity.two :=
  ⟨tick, none, calm, emptyMemory⟩

theorem callOn_served (tick : Tick) : (callOn tick).Served := by
  intro _
  have h_acquire : (emptyMemory.acquire calm).1 = some ⟨0, by decide⟩ := by decide +kernel
  exact ⟨_, h_acquire⟩

/-- A push into an empty signal queue returns. -/
theorem emit_ne_none {mem : Memory onePool fun _ => Capacity.two} {self : Producer}
    {origin : Origin} {out : Ptr onePool} (h_empty : (mem.queues .signal).Represents []) :
    emit calm mem self origin out ≠ none := by
  obtain ⟨queue, -, h_push⟩ := Handoff.Shared.push_snoc
    (mem.write out (Strategy.encodeSignal origin.signal (mem.load out))) Stage.signal out h_empty
    (by decide : 0 < 2) (rfl : calm.push = MPMC.strong) le_rfl
  rw [emit, h_push]
  exact Option.some_ne_none _

theorem exists_callOn (self : Producer) (tick : Tick) :
    ∃ mem self' es, producerOnTick calm emptyMemory self tick none = some (mem, self', es) := by
  unfold producerOnTick
  dsimp only
  split
  · exact ⟨_, _, _, rfl⟩
  · split
    · exact ⟨_, _, _, rfl⟩
    · next msg mem h_acquire =>
      obtain ⟨-, rfl⟩ := Handoff.Shared.acquire_some h_acquire
      split
      · next h_emit => exact absurd h_emit (emit_ne_none MPMC.Represents.fresh)
      · exact ⟨_, _, _, rfl⟩

/-- A producer can be handed any ticks. -/
theorem exists_producing (self : Producer) (ticks : List Tick) :
    ∃ tr self', (producing onePool fun _ => Capacity.two).ReachBy (fun _ call => call.Served)
      self tr self' ∧ tr.map Prod.fst = ticks := by
  induction ticks using List.reverseRecOn with
  | nil => exact ⟨[], self, .init, rfl⟩
  | append_singleton ticks tick ih =>
    obtain ⟨tr, self', h_reach, h_ticks⟩ := ih
    obtain ⟨mem, self'', es, h_call⟩ := exists_callOn self' tick
    -- the tick comes with a message of its own, so no slot is needed
    have h_step : (producing onePool fun _ => Capacity.two).step self' (callOn tick) =
        some (self'', [(tick, es.findSome? Event.origin)]) := by
      simp only [producing, callOn, h_call]
    refine ⟨_, self'', h_reach.step (callOn_served tick) h_step, ?_⟩
    rw [List.map_append, h_ticks]
    rfl

/-- ITCH ticks of two instruments. -/
def itchTicks (prices : List (BitVec 16 × BitVec 32)) : List Tick :=
  prices.map fun (stockLocate, price) => .itch { stockLocate, price }

/-- A tick of another instrument that leaves the reference price as it is. -/
theorem instrument_signals_unmoved :
    ∃ tr self tr' self', (producing onePool fun _ => Capacity.two).ReachBy
        (fun _ call => call.Served) {} tr self ∧
      (producing onePool fun _ => Capacity.two).ReachBy (fun _ call => call.Served) {} tr' self' ∧
      tr.map Prod.fst = itchTicks [(10, 10000), (20, 10004), (10, 9000)] ∧
      tr'.map Prod.fst = itchTicks [(10, 10000), (10, 9000)] ∧
      termsFor (.stockLocate 10) tr = [(.buy, 9000, 0)] ∧
      termsFor (.stockLocate 10) tr' = termsFor (.stockLocate 10) tr := by
  obtain ⟨tr, self, h_reach, h_ticks⟩ :=
    exists_producing {} (itchTicks [(10, 10000), (20, 10004), (10, 9000)])
  obtain ⟨tr', self', h_reach', h_ticks'⟩ :=
    exists_producing {} (itchTicks [(10, 10000), (10, 9000)])
  obtain ⟨h_terms, h_without, -⟩ := instrument_signals h_reach h_reach' (.stockLocate 10)
  rw [h_ticks] at h_terms h_without
  rw [h_ticks'] at h_without
  exact ⟨tr, self, tr', self', h_reach, h_reach', h_ticks, h_ticks', h_terms.trans (by decide),
    h_without rfl rfl⟩

/-- **Interference.** A tick of instrument 10 sets the reference price, and a tick of
instrument 20 at a lower price becomes a signal. By itself it sets the reference price, and
becomes none. -/
theorem instrument_interferes :
    ¬∀ (tr tr' : List (Tick × Option Origin)) (self self' : Producer) (X : Instrument),
      (producing onePool fun _ => Capacity.two).ReachBy (fun _ call => call.Served) {} tr self →
      (producing onePool fun _ => Capacity.two).ReachBy (fun _ call => call.Served) {} tr' self' →
      tr'.map Prod.fst = (tr.map Prod.fst).filter (·.instrument = X) →
      termsFor X tr' = termsFor X tr := by
  intro h_all
  obtain ⟨tr, self, h_reach, h_ticks⟩ :=
    exists_producing {} (itchTicks [(10, 10000), (20, 9980)])
  obtain ⟨tr', self', h_reach', h_ticks'⟩ := exists_producing {} (itchTicks [(20, 9980)])
  -- without the first tick the second sets the reference price
  have h_eq := h_all tr tr' self self' (.stockLocate 20) h_reach h_reach'
    (by rw [h_ticks, h_ticks']; rfl)
  rw [(Producing.reach h_reach).termsFor_eq, (Producing.reach h_reach').termsFor_eq, h_ticks,
    h_ticks'] at h_eq
  exact absurd h_eq (by decide)

end Trading

end Hft
