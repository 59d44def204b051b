import MpmcPipeline.Trading.Ownership

/-!
# From ticks to confirms

A message is acquired with a tick, is evaluated, and becomes a signal, an order and a
confirm, all in the same slot, and lies in queues in between. Every event relates to the one
before it about its slot (`Event.Follows`), and what the slot holds is what its last event
says (`Event.Describes`); both are kept by every move, the second being what makes a stage
read the record the stage before it has written. An evaluation is over when its call is, so
between two moves it is no message's last event (`Settled`).

A confirm therefore ends a `Journey` that begins with one tick. Journeys with one end have
one beginning and the other way round, so the references of the exchange, which are
`1, 2, 3, …` in the order of confirmation, stay below the number of signals.
-/

namespace Hft

open History (Lives Next lastAt lastAt_snoc_of_ne lastAt_snoc_self)

namespace Trading

variable {P : PoolCapacity} {cap : Stage → Capacity}

/-! ### What a message is -/

/-- What the messages of a kind are to the stages. -/
inductive Phase
  | tick
  | signal
  | order
  | confirm
  | other
  deriving DecidableEq

/-- The phase of a kind. -/
def Kind.phase : Kind → Phase
  | .itch | .mtbt | .sbeMarket | .mcxMarket => .tick
  | .signal => .signal
  | .ouch | .nnf | .sbeOrderEntry | .mcxOrder => .order
  | .ouchConfirm | .nnfConfirm | .sbeFastOrder | .mcxConfirm => .confirm
  | .unnamed _ => .other

theorem Tick.HeldBy.phase {tick : Tick} {m : TaggedMessage} (h : tick.HeldBy m) :
    Kind.phase m.kind = .tick := by
  cases tick <;> rw [h.1] <;> rfl

theorem Order.HeldBy.phase {order : Order} {m : TaggedMessage} (h : order.HeldBy m) :
    Kind.phase m.kind = .order := by
  cases order <;> rw [h.1] <;> rfl

theorem Confirm.HeldBy.phase {ack : Confirm} {m : TaggedMessage} (h : ack.HeldBy m) :
    Kind.phase m.kind = .confirm := by
  cases ack <;> rw [h.1] <;> rfl

/-- The message is what its last event has made it. -/
def Event.Describes (m : TaggedMessage) : Event P → Prop
  | .acquired _ (some tick) => tick.HeldBy m
  | .acquired _ none | .evaluated _ _ _ => Kind.phase m.kind = .tick
  | .signalled _ origin => m.kind = .signal ∧ Strategy.decodeSignal m = origin.signal
  | .ordered _ order => order.HeldBy m
  | .confirmed _ ack => ack.HeldBy m
  | .released _ => True

/-- The phase after an event. -/
def Event.phase : Event P → Phase
  | .acquired _ _ | .evaluated _ _ _ => .tick
  | .signalled _ _ => .signal
  | .ordered _ _ => .order
  | .confirmed _ _ => .confirm
  | .released _ => .other

theorem Event.Describes.phase_eq {e : Event P} {m : TaggedMessage} (h : e.Describes m)
    (h_alive : Alive (some e)) : Kind.phase m.kind = e.phase := by
  cases e with
  | acquired p source =>
    cases source with
    | none => exact h
    | some tick => exact Tick.HeldBy.phase h
  | evaluated p tick next => exact h
  | signalled p origin => rw [h.1]; rfl
  | ordered p order => exact Order.HeldBy.phase h
  | confirmed p ack => exact Confirm.HeldBy.phase h
  | released p => exact h_alive.elim

/-! ### What follows what -/

/-- The confirm is what the gateway builds from the order. -/
def AckOf : Order → Confirm → Prop
  | .ouch order, .ouch ack => ∃ orderRef, ack = makeOuchConfirm order orderRef
  | .nnf order, .nnf ack => ∃ orderNumber, ack = makeNnfConfirm order orderNumber
  | .sbe order, .sbe ack => ∃ seq, ack = makeSbeFastConfirm order seq
  | .mcx order, .mcx ack => ∃ orderId execId, ack = makeMcxConfirm order orderId execId
  | _, _ => False

/-- What an event says about the event before it. -/
def Event.Follows (bandBps : Kind → BitVec 32) (prev : Option (Event P)) : Event P → Prop
  | .acquired _ _ => ¬Alive prev
  | .evaluated _ tick _ => ∃ p source, prev = some (.acquired p source) ∧
      ∀ held, source = some held → held = tick
  | .released _ => Alive prev
  | .signalled _ origin => origin.Evaluated bandBps ∧
      ∃ p, prev = some (.evaluated p origin.tick origin.token)
  | .ordered _ order => ∃ p origin, prev = some (.signalled p origin) ∧ OrderOf origin.signal order
  | .confirmed _ ack => ∃ p order, prev = some (.ordered p order) ∧ AckOf order ack

/-- The reference of an OUCH confirm. -/
def Event.ouchRef : Event P → Option (BitVec 64)
  | .confirmed _ (.ouch ack) => some ack.orderReferenceNumber
  | _ => none

/-- The order number of an NNF confirm. -/
def Event.nnfOrderNumber : Event P → Option (BitVec 64)
  | .confirmed _ (.nnf ack) => some ack.orderNumber
  | _ => none

/-- The references of the OUCH confirms, in the order of confirmation. -/
def ouchRefs (tr : List (Event P)) : List (BitVec 64) := tr.filterMap Event.ouchRef

/-- The order numbers of the NNF confirms, in the order of confirmation. -/
def nnfOrderNumbers (tr : List (Event P)) : List (BitVec 64) := tr.filterMap Event.nnfOrderNumber

/-- A counter has given the references `1, …, n`, as `f` shows them. -/
structure Issued (f : BitVec 64 → BitVec 64) (refs : List (BitVec 64)) (next : BitVec 64) :
    Prop where
  next_eq : next = BitVec.ofNat 64 (refs.length + 1)
  refs_eq : refs = (List.range refs.length).map fun k => f (BitVec.ofNat 64 (k + 1))

theorem Issued.snoc {f : BitVec 64 → BitVec 64} {refs : List (BitVec 64)} {next : BitVec 64}
    (h : Issued f refs next) : Issued f (refs ++ [f next]) (next + 1) := by
  constructor
  · rw [h.next_eq, List.length_append, List.length_singleton, BitVec.ofNat_add (refs.length + 1)]
    rfl
  · rw [List.length_append, List.length_singleton, List.range_succ, List.map_append, ← h.refs_eq,
      h.next_eq]
    rfl

/-- **The invariant.** The slots are owned once, the last event about a message describes it, every
event follows the one before it in the message's life, and the references were issued one after the
other. -/
structure FaithfulInv (bandBps : Kind → BitVec 32) (tr : List (Event P)) (c : Core P cap) :
    Prop where
  owned : OwnedInv tr c
  described : ∀ p e, lastAt Event.ptr tr p = some e → e.Describes (c.mem.load p)
  lives : Lives Event.ptr (Event.Follows bandBps) tr
  ouch : Issued id (ouchRefs tr) c.counters.nextOuchRef
  nnf : Issued (fun n => Double.ofNat n.toNat) (nnfOrderNumbers tr) c.counters.nextNnfOrder

theorem FaithfulInv.init (config : Config) (message : Ptr P → TaggedMessage) :
    FaithfulInv config.bandBps [] (World.init config message : World P cap).core where
  owned := .init config message
  described _ _ h_last := by cases h_last
  lives := Lives.nil
  ouch := ⟨rfl, rfl⟩
  nnf := ⟨rfl, rfl⟩

theorem ouchRefs_snoc (tr : List (Event P)) (e : Event P) :
    ouchRefs (tr ++ [e]) = ouchRefs tr ++ e.ouchRef.toList := by
  rw [ouchRefs, List.filterMap_append]
  cases h_ref : e.ouchRef <;> simp [ouchRefs, h_ref]

theorem nnfOrderNumbers_snoc (tr : List (Event P)) (e : Event P) :
    nnfOrderNumbers (tr ++ [e]) = nnfOrderNumbers tr ++ e.nnfOrderNumber.toList := by
  rw [nnfOrderNumbers, List.filterMap_append]
  cases h_ref : e.nnfOrderNumber <;> simp [nnfOrderNumbers, h_ref]

section

variable {counters counters' : Counters} {m : TaggedMessage} {ack : Confirm}

/-- The gateway answers an order with its confirm. -/
theorem Counters.answer_ackOf {order : Order} (h_held : order.HeldBy m)
    (h_ack : counters.answer m = some (ack, counters')) : AckOf order ack := by
  cases order
  all_goals
    obtain ⟨h_kind, h_read⟩ := h_held
    rw [Counters.answer, h_kind] at h_ack
    cases h_ack
    rw [← h_read]
  · exact ⟨_, rfl⟩
  · exact ⟨_, rfl⟩
  · exact ⟨_, rfl⟩
  · exact ⟨_, _, rfl⟩

/-- The gateway answers an order only. -/
theorem Counters.answer_phase (h_ack : counters.answer m = some (ack, counters')) :
    Kind.phase m.kind = .order := by
  unfold Counters.answer at h_ack
  split at h_ack
  all_goals first
    | next h_kind => rw [h_kind]; rfl
    | cases h_ack

/-- The references after an answer. -/
theorem Counters.answer_issued {refs numbers : List (BitVec 64)} (p : Ptr P)
    (h_ouch : Issued id refs counters.nextOuchRef)
    (h_nnf : Issued (fun n => Double.ofNat n.toNat) numbers counters.nextNnfOrder)
    (h_ack : counters.answer m = some (ack, counters')) :
    Issued id (refs ++ (Event.confirmed p ack).ouchRef.toList) counters'.nextOuchRef ∧
      Issued (fun n => Double.ofNat n.toNat)
        (numbers ++ (Event.confirmed p ack).nnfOrderNumber.toList) counters'.nextNnfOrder := by
  have h_refs : refs ++ [] = refs := List.append_nil _
  have h_numbers : numbers ++ [] = numbers := List.append_nil _
  unfold Counters.answer at h_ack
  split at h_ack
  -- each venue counts for itself
  · cases h_ack
    exact ⟨h_ouch.snoc, h_numbers.symm ▸ h_nnf⟩
  · cases h_ack
    exact ⟨h_refs.symm ▸ h_ouch, h_nnf.snoc⟩
  · cases h_ack
    exact ⟨h_refs.symm ▸ h_ouch, h_numbers.symm ▸ h_nnf⟩
  · cases h_ack
    exact ⟨h_refs.symm ▸ h_ouch, h_numbers.symm ▸ h_nnf⟩
  · cases h_ack

end

/-! ### Every move keeps the invariant -/

section

variable {bandBps : Kind → BitVec 32} {tr : List (Event P)} {mem mem' : Memory P cap}
  {counters counters' : Counters} {p : Ptr P}

/-- The last events of the messages describe them, after one event about `p`. -/
theorem described_snoc {e : Event P} (h_ptr : e.ptr = p)
    (h : ∀ q f, lastAt Event.ptr tr q = some f → f.Describes (mem.load q))
    (h_self : e.Describes (mem'.load p)) (h_other : ∀ q, q ≠ p → mem'.load q = mem.load q) :
    ∀ q f, lastAt Event.ptr (tr ++ [e]) q = some f → f.Describes (mem'.load q) := by
  subst h_ptr
  intro q f h_last
  -- the message the event is about, and all others
  by_cases h_q : q = e.ptr
  · subst h_q
    rw [lastAt_snoc_self, Option.some.injEq] at h_last
    rw [← h_last]
    exact h_self
  · rw [lastAt_snoc_of_ne Event.ptr tr h_q] at h_last
    rw [h_other q h_q]
    exact h q f h_last

/-- The last event about a slot in use. -/
theorem FaithfulInv.last {c : Core P cap} (hI : FaithfulInv bandBps tr c)
    (h_live : (c.mem.pool.slots p).state = 1) :
    ∃ e, lastAt Event.ptr tr p = some e ∧ e.Describes (c.mem.load p) ∧
      Kind.phase (c.mem.load p).kind = e.phase := by
  have h_alive := (hI.owned.alive p).mp h_live
  cases h_last : lastAt Event.ptr tr p with
  | none =>
    rw [h_last] at h_alive
    exact h_alive.elim
  | some e =>
    rw [h_last] at h_alive
    have h_described := hI.described p e h_last
    exact ⟨e, rfl, h_described, h_described.phase_eq h_alive⟩

/-- Of no message the last event is an evaluation. -/
def Settled (tr : List (Event P)) : Prop :=
  ∀ p q tick next, lastAt Event.ptr tr p ≠ some (.evaluated q tick next)

/-- Whether the event is an evaluation. -/
def Event.evaluates : Event P → Bool
  | .evaluated _ _ _ => true
  | _ => false

theorem Settled.nil : Settled ([] : List (Event P)) := by
  intro p q tick next h_last
  cases h_last

/-- An event that is no evaluation. -/
theorem Settled.snoc (h : Settled tr) {e : Event P} (h_e : e.evaluates = false) :
    Settled (tr ++ [e]) := by
  intro p q tick next h_last
  by_cases h_p : p = e.ptr
  · subst h_p
    rw [lastAt_snoc_self, Option.some.injEq] at h_last
    rw [h_last] at h_e
    cases h_e
  · rw [lastAt_snoc_of_ne Event.ptr tr h_p] at h_last
    exact h p q tick next h_last

/-- An evaluation with the event that ends it. -/
theorem Settled.pair (h : Settled tr) (tick : Tick) (next : BitVec 32) {e : Event P}
    (h_ptr : e.ptr = p) (h_e : e.evaluates = false) :
    Settled (tr ++ [.evaluated p tick next, e]) := by
  intro u q tick' next' h_last
  rw [List.append_cons] at h_last
  by_cases h_u : u = e.ptr
  · subst h_u
    rw [lastAt_snoc_self, Option.some.injEq] at h_last
    rw [h_last] at h_e
    cases h_e
  · -- of another message neither of the two is the last event
    rw [lastAt_snoc_of_ne Event.ptr _ h_u] at h_last
    rw [h_ptr] at h_u
    rw [lastAt_snoc_of_ne Event.ptr tr (e := .evaluated p tick next) h_u] at h_last
    exact h u q tick' next' h_last

/-- What happens to slots, apart from `FaithfulInv.owned`, when one event is added that is no
confirm. -/
theorem FaithfulInv.snoc {c c' : Core P cap} {e : Event P} (hI : FaithfulInv bandBps tr c)
    (h_owned : OwnedInv (tr ++ [e]) c')
    (h_follows : e.Follows bandBps (lastAt Event.ptr tr e.ptr))
    (h_self : e.Describes (c'.mem.load e.ptr))
    (h_other : ∀ q, q ≠ e.ptr → c'.mem.load q = c.mem.load q)
    (h_ouch : e.ouchRef = none) (h_nnf : e.nnfOrderNumber = none)
    -- the fields of the invariant: the counters count confirms only, so they do not move
    (h_counters : c'.counters = c.counters) : FaithfulInv bandBps (tr ++ [e]) c' where
  owned := h_owned
  described := described_snoc rfl hI.described h_self h_other
  lives := hI.lives.snoc h_follows
  ouch := by
    rw [ouchRefs_snoc, h_ouch, h_counters, Option.toList_none, List.append_nil]
    exact hI.ouch
  nnf := by
    rw [nnfOrderNumbers_snoc, h_nnf, h_counters, Option.toList_none, List.append_nil]
    exact hI.nnf

theorem FaithfulInv.acquire (hI : FaithfulInv bandBps tr ⟨mem, counters, none⟩)
    (source : Option Tick) (m : TaggedMessage) (h_free : (mem.pool.slots p).state = 0)
    (h_source : (Event.acquired p source).Describes m) :
    FaithfulInv bandBps (tr ++ [.acquired p source])
      ⟨{ mem with pool := (mem.pool.setState p 1).store p m }, counters, some p⟩ := by
  refine hI.snoc (hI.owned.acquire source m h_free) (hI.owned.not_alive h_free) ?_
    (fun q h_q => Handoff.Shared.load_acquired_of_ne _ h_q m) rfl rfl rfl
  show (Event.acquired p source).Describes (Handoff.Shared.load _ p)
  rw [Handoff.Shared.load_acquired]
  exact h_source

/-- `on_tick` of a message that was acquired with the tick, or for its signal. -/
theorem FaithfulInv.evaluate {tick : Tick} {source : Option Tick}
    (hI : FaithfulInv bandBps tr ⟨mem, counters, some p⟩)
    (h_last : lastAt Event.ptr tr p = some (.acquired p source))
    (h_source : ∀ held, source = some held → held = tick) (next : BitVec 32) :
    FaithfulInv bandBps (tr ++ [.evaluated p tick next]) ⟨mem, counters, some p⟩ := by
  have h_described := hI.described p _ h_last
  exact hI.snoc (hI.owned.evaluate tick next) ⟨p, source, h_last, h_source⟩
    (h_described.phase_eq trivial) (fun _ _ => rfl) rfl rfl rfl

theorem FaithfulInv.signal {origin : Origin}
    (hI : FaithfulInv bandBps tr ⟨mem, counters, some p⟩) (h_origin : origin.Evaluated bandBps)
    (h_last : lastAt Event.ptr tr p = some (.evaluated p origin.tick origin.token)) :
    FaithfulInv bandBps (tr ++ [.signalled p origin])
      ⟨mem.write p (Strategy.encodeSignal origin.signal (mem.load p)), counters, some p⟩ := by
  refine hI.snoc (hI.owned.write _ rfl (fun _ h_alive => h_alive) trivial)
    ⟨h_origin, p, h_last⟩ ?_ (fun q h_q => Handoff.Shared.load_write_of_ne _ h_q _) rfl rfl rfl
  simp [Event.Describes, Event.ptr]

theorem FaithfulInv.release (hI : FaithfulInv bandBps tr ⟨mem, counters, some p⟩) :
    FaithfulInv bandBps (tr ++ [.released p])
      ⟨{ mem with pool := mem.pool.setState p 0 }, counters, none⟩ :=
  hI.snoc hI.owned.release ((hI.owned.alive p).mp hI.owned.hand_alive) trivial
    (fun q _ => TaggedPool.setState_load _ p q 0) rfl rfl rfl

/-- A message in hand that holds a tick was acquired with it. -/
theorem FaithfulInv.acquired_with {tick : Tick}
    (hI : FaithfulInv bandBps tr ⟨mem, counters, some p⟩) (h_settled : Settled tr)
    (h_tick : tick.HeldBy (mem.load p)) : ∃ source,
      lastAt Event.ptr tr p = some (.acquired p source) ∧
        ∀ held, source = some held → held = tick := by
  -- the last event about the message in hand says what phase it is in
  obtain ⟨e, h_last, h_described, h_phase⟩ := hI.last hI.owned.hand_alive
  rw [h_tick.phase] at h_phase
  cases e with
  | acquired q source =>
    obtain rfl : q = p := History.key_of_lastAt h_last
    refine ⟨source, h_last, fun held h_source => ?_⟩
    subst h_source
    exact Tick.HeldBy.unique h_described h_tick
  | evaluated q held next => exact absurd h_last (h_settled p q held next)
  -- an event of another kind would have left another kind in the message
  | _ => cases h_phase

/-- No evaluation is left over at the end of a move. -/
theorem Settled.move {c c' : Core P cap} {es : List (Event P)} (h_settled : Settled tr)
    (h : Move bandBps c es c') : Settled (tr ++ es) := by
  cases h with
  | take | put =>
    rw [List.append_nil]
    exact h_settled
  | acquire | release | order | confirm => exact h_settled.snoc rfl
  -- the event after an evaluation is about the same message
  | dismiss p tick next => exact h_settled.pair tick next rfl rfl
  | signal p origin => exact h_settled.pair origin.tick origin.token rfl rfl
  | signalNew p origin =>
    rw [List.append_cons]
    exact (h_settled.snoc rfl).pair origin.tick origin.token rfl rfl

/-- **Step.** Every move keeps the invariant, as each describes the message it is about and leaves
the others alone. -/
theorem FaithfulInv.move {c c' : Core P cap} {es : List (Event P)}
    (hI : FaithfulInv bandBps tr c) (h_settled : Settled tr) (h : Move bandBps c es c') :
    FaithfulInv bandBps (tr ++ es) c' := by
  have h_owned := hI.owned.move h
  cases h with
  | take p h_taken =>
    rw [List.append_nil] at h_owned ⊢
    refine ⟨h_owned, fun q e h_last => ?_, hI.lives, hI.ouch, hI.nnf⟩
    rw [Handoff.Shared.load, h_taken.pool_eq]
    exact hI.described q e h_last
  | put p h_placed =>
    rw [List.append_nil] at h_owned ⊢
    refine ⟨h_owned, fun q e h_last => ?_, hI.lives, hI.ouch, hI.nnf⟩
    rw [Handoff.Shared.load, h_placed.pool_eq]
    exact hI.described q e h_last
  | acquire p tick m h_free h_tick => exact hI.acquire (some tick) m h_free h_tick
  | release p => exact hI.release
  | dismiss p tick next h_tick =>
    obtain ⟨source, h_last, h_source⟩ := hI.acquired_with h_settled h_tick
    rw [List.append_cons]
    exact (hI.evaluate h_last h_source next).release
  | signal p origin h_tick h_origin =>
    obtain ⟨source, h_last, h_source⟩ := hI.acquired_with h_settled h_tick
    rw [List.append_cons]
    exact (hI.evaluate h_last h_source origin.token).signal h_origin
      (lastAt_snoc_self Event.ptr tr (.evaluated p origin.tick origin.token))
  | signalNew p origin h_free h_mem h_origin =>
    subst h_mem
    rw [List.append_cons, List.append_cons]
    -- acquired for the signal, so without a tick
    have h_acquired := hI.acquire none TaggedMessage.fresh h_free rfl
    have h_none : ∀ held, none = some held → held = origin.tick := fun _ h_source =>
      absurd h_source (Option.some_ne_none _).symm
    have h_evaluated := h_acquired.evaluate (lastAt_snoc_self Event.ptr tr (.acquired p none))
      h_none origin.token
    exact h_evaluated.signal h_origin
      (lastAt_snoc_self Event.ptr _ (.evaluated p origin.tick origin.token))
  | order p order h_kind h_order =>
    obtain ⟨e, h_last, h_described, h_phase⟩ := hI.last hI.owned.hand_alive
    refine hI.snoc h_owned ?_ ?_
      (fun q h_q => Handoff.Shared.load_write_of_ne _ h_q _) rfl rfl rfl
    · -- of the events only `signalled` leaves a message of this kind
      rw [h_kind] at h_phase
      cases e with
      | signalled q origin => exact ⟨q, origin, h_last, h_described.2 ▸ h_order⟩
      | _ => cases h_phase
    · simpa [Event.Describes, Event.ptr] using Order.heldBy_writeTo order _
  | confirm p ack h_ack =>
    obtain ⟨e, h_last, h_described, h_phase⟩ := hI.last hI.owned.hand_alive
    rw [Counters.answer_phase h_ack] at h_phase
    -- the one move that moves a counter, so not by `FaithfulInv.snoc`
    obtain ⟨h_ouch, h_nnf⟩ := Counters.answer_issued p hI.ouch hI.nnf h_ack
    refine ⟨h_owned, described_snoc rfl hI.described ?_
      (fun q h_q => Handoff.Shared.load_write_of_ne _ h_q _), hI.lives.snoc ?_, ?_, ?_⟩
    · simpa [Event.Describes, Event.ptr] using Confirm.heldBy_writeTo ack _
    · cases e with
      | ordered q order => exact ⟨q, order, h_last, Counters.answer_ackOf h_described h_ack⟩
      | _ => cases h_phase
    · rw [ouchRefs_snoc]
      exact h_ouch
    · rw [nnfOrderNumbers_snoc]
      exact h_nnf

end

/-- **Run.** The invariant holds after every run, as every call is moves. -/
theorem FaithfulInv.reach {config : Config} {message : Ptr P → TaggedMessage}
    {tr : List (Event P)} {w : World P cap}
    (h : (machine P cap).Reach (World.init config message) tr w) :
    FaithfulInv config.bandBps tr w.core := by
  have h_inv := World.core_inv (I := fun tr c => FaithfulInv config.bandBps tr c ∧ Settled tr)
    ⟨.init config message, .nil⟩ ?_ h
  · exact h_inv.1
  · rintro tr c es c' ⟨hI, h_settled⟩ h_move
    exact ⟨hI.move h_settled h_move, h_settled.move h_move⟩

/-! ### Submissions and journeys -/

/-- The signal of `origin`, encoded at `i` into the message at `p` by an `on_tick` of the tick of
`origin` that was to give out its token, became `order` at `k`. -/
structure Submission (tr : List (Event P)) (p : Ptr P) (origin : Origin) (order : Order)
    (i k : ℕ) : Prop where
  evaluated : ∃ g, tr[g]? = some (.evaluated p origin.tick origin.token) ∧ Next Event.ptr tr g i
  signalled : tr[i]? = some (.signalled p origin)
  ordered : tr[k]? = some (.ordered p order)
  next : Next Event.ptr tr i k

/-- The message at `p`, acquired at `h`, became the signal of `origin`, then an order, and was
confirmed by `ack` at `j`. The tick of `origin` is the one `on_tick` was called with, and the one
the message was acquired with, if any; its token is the one that was next at the call. -/
structure Journey (tr : List (Event P)) (p : Ptr P) (origin : Origin) (ack : Confirm)
    (h j : ℕ) : Prop where
  acquired : ∃ source, tr[h]? = some (.acquired p source) ∧
    ∀ tick, source = some tick → tick = origin.tick
  confirmed : tr[j]? = some (.confirmed p ack)
  between : ∃ g i k order, tr[g]? = some (.evaluated p origin.tick origin.token) ∧
    tr[i]? = some (.signalled p origin) ∧ tr[k]? = some (.ordered p order) ∧
    Next Event.ptr tr h g ∧ Next Event.ptr tr g i ∧ Next Event.ptr tr i k ∧ Next Event.ptr tr k j

section

variable {tr : List (Event P)} {p p' : Ptr P} {origin origin' : Origin} {ack ack' : Confirm}
  {h h' j j' : ℕ}

/-- A confirm has one tick. -/
theorem Journey.left_unique (hJ : Journey tr p origin ack h j)
    (hJ' : Journey tr p' origin' ack' h' j) : h = h' := by
  obtain ⟨g, i, k, -, -, -, -, h_g, h_i, h_k, h_j⟩ := hJ.between
  obtain ⟨g', i', k', -, -, -, -, h_g', h_i', h_k', h_j'⟩ := hJ'.between
  obtain rfl := h_j.left_unique h_j'
  obtain rfl := h_k.left_unique h_k'
  obtain rfl := h_i.left_unique h_i'
  exact h_g.left_unique h_g'

/-- A tick has one confirm. -/
theorem Journey.right_unique (hJ : Journey tr p origin ack h j)
    (hJ' : Journey tr p' origin' ack' h j') : j = j' := by
  obtain ⟨g, i, k, -, -, -, -, h_g, h_i, h_k, h_j⟩ := hJ.between
  obtain ⟨g', i', k', -, -, -, -, h_g', h_i', h_k', h_j'⟩ := hJ'.between
  obtain rfl := h_g.right_unique h_g'
  obtain rfl := h_i.right_unique h_i'
  obtain rfl := h_k.right_unique h_k'
  exact h_j.right_unique h_j'

section

variable {bandBps : Kind → BitVec 32} {g i k : ℕ} {tick : Tick} {next : BitVec 32} {order : Order}

/-- Every evaluated message was acquired. -/
theorem exists_acquired (h_lives : Lives Event.ptr (Event.Follows bandBps) tr)
    (h_g : tr[g]? = some (.evaluated p tick next)) :
    ∃ h source, tr[h]? = some (.acquired p source) ∧
      (∀ held, source = some held → held = tick) ∧ Next Event.ptr tr h g := by
  rcases h_lives.next h_g with ⟨_, _, h_none, _⟩ |
    ⟨h, _, h_hg, h_h, p', source, h_prev, h_source⟩
  · cases h_none
  cases h_prev
  obtain rfl : p' = p := h_hg.key_eq h_h h_g
  exact ⟨h, source, h_h, h_source, h_hg⟩

/-- Every signal was evaluated. -/
theorem exists_evaluated (h_lives : Lives Event.ptr (Event.Follows bandBps) tr)
    (h_i : tr[i]? = some (.signalled p origin)) :
    ∃ g, tr[g]? = some (.evaluated p origin.tick origin.token) ∧ Next Event.ptr tr g i ∧
      origin.Evaluated bandBps := by
  rcases h_lives.next h_i with ⟨_, _, h_none⟩ | ⟨g, _, h_gi, h_g, h_origin, p', h_prev⟩
  · cases h_none
  cases h_prev
  obtain rfl : p' = p := h_gi.key_eq h_g h_i
  exact ⟨g, h_g, h_gi, h_origin⟩

/-- Every order was a signal. -/
theorem exists_submission (h_lives : Lives Event.ptr (Event.Follows bandBps) tr)
    (h_k : tr[k]? = some (.ordered p order)) :
    ∃ origin i, Submission tr p origin order i k := by
  rcases h_lives.next h_k with ⟨_, _, h_none, _⟩ | ⟨i, _, h_ik, h_i, p', origin, h_prev, -⟩
  · cases h_none
  cases h_prev
  obtain rfl : p' = p := h_ik.key_eq h_i h_k
  obtain ⟨g, h_g, h_gi, -⟩ := exists_evaluated h_lives h_i
  exact ⟨origin, i, ⟨g, h_g, h_gi⟩, h_i, h_k, h_ik⟩

/-- What was submitted is the order of the signal, and the signal that of its tick. -/
theorem Submission.orderOf (hS : Submission tr p origin order i k)
    (h_lives : Lives Event.ptr (Event.Follows bandBps) tr) :
    origin.Evaluated bandBps ∧ OrderOf origin.signal order := by
  obtain ⟨-, -, -, h_origin⟩ := exists_evaluated h_lives hS.signalled
  refine ⟨h_origin, ?_⟩
  rcases h_lives.next hS.ordered with ⟨_, _, h_none, _⟩ |
    ⟨i', _, h_ik', h_i', _, _, h_prev, h_order⟩
  · cases h_none
  cases h_prev
  obtain rfl := hS.next.left_unique h_ik'
  cases hS.signalled.symm.trans h_i'
  exact h_order

/-- A confirm answers an order, which is the order of its signal. -/
theorem Journey.ackOf (hJ : Journey tr p origin ack h j)
    (h_lives : Lives Event.ptr (Event.Follows bandBps) tr) :
    ∃ order, origin.Evaluated bandBps ∧ OrderOf origin.signal order ∧ AckOf order ack := by
  -- the confirm follows a submission of the same message
  obtain ⟨g, i, k, order, h_g, h_i, h_k, -, h_gi, h_ik, h_kj⟩ := hJ.between
  have hS : Submission tr p origin order i k := ⟨⟨g, h_g, h_gi⟩, h_i, h_k, h_ik⟩
  obtain ⟨h_origin, h_order⟩ := hS.orderOf h_lives
  refine ⟨order, h_origin, h_order, ?_⟩
  -- its life names the event before, which is that submission
  rcases h_lives.next hJ.confirmed with ⟨_, _, h_none, _⟩ |
    ⟨k', _, h_kj', h_k', _, _, h_prev, h_ack⟩
  · cases h_none
  cases h_prev
  obtain rfl := h_kj.left_unique h_kj'
  cases h_k.symm.trans h_k'
  exact h_ack

/-- Every confirm ends a journey. -/
theorem exists_journey (h_lives : Lives Event.ptr (Event.Follows bandBps) tr)
    (h_j : tr[j]? = some (.confirmed p ack)) :
    ∃ origin order h, Journey tr p origin ack h j ∧ origin.Evaluated bandBps ∧
      OrderOf origin.signal order ∧ AckOf order ack := by
  -- backwards along the life of the slot: to the order, the signal, its tick, the acquisition
  rcases h_lives.next h_j with ⟨_, _, h_none, _⟩ | ⟨k, _, h_kj, h_k, p', order, h_prev, -⟩
  · cases h_none
  cases h_prev
  obtain rfl : p' = p := h_kj.key_eq h_k h_j
  obtain ⟨origin, i, hS⟩ := exists_submission h_lives h_k
  obtain ⟨g, h_g, h_gi⟩ := hS.evaluated
  obtain ⟨h, source, h_h, h_source, h_hg⟩ := exists_acquired h_lives h_g
  have hJ : Journey tr p' origin ack h j :=
    ⟨⟨source, h_h, h_source⟩, h_j, g, i, k, order, h_g, hS.signalled, h_k, h_hg, h_gi, hS.next,
      h_kj⟩
  obtain ⟨order, h_origin, h_order, h_ack⟩ := hJ.ackOf h_lives
  exact ⟨origin, order, h, hJ, h_origin, h_order, h_ack⟩

end

end

/-! ### What the confirm says about the tick -/

/-- The confirm tells the tick's stock, shares and price, the side the strategy gave it and
the token issued for it. -/
def Origin.OuchAck (bandBps : Kind → BitVec 32) (origin : Origin) (ack : OuchOrderAccepted) :
    Prop :=
  ∃ tick, origin.tick = .itch tick ∧
    origin.side = Strategy.evaluate origin.ref tick.price (bandBps .itch) ∧
    ack.stock = tick.stock ∧ ack.shares = tick.shares ∧ ack.price = tick.price ∧
    (origin.side = .buy ∧ ack.buySellIndicator = 0x42 ∨
      origin.side = .sell ∧ ack.buySellIndicator = 0x53) ∧
    ack.orderToken = Text.zeroPadded 14 origin.token.toNat

/-- The confirm tells the tick's token, quantity and price, and the side the strategy gave
it. -/
def Origin.NnfAck (bandBps : Kind → BitVec 32) (origin : Origin) (ack : NnfOrderConfirm) :
    Prop :=
  ∃ tick, origin.tick = .mtbt tick ∧
    origin.side = Strategy.evaluate origin.ref tick.price (bandBps .mtbt) ∧
    ack.token = tick.token ∧ ack.volume = tick.quantity ∧
    ack.totalVolRemaining = tick.quantity ∧ ack.price = tick.price ∧
    (origin.side = .buy ∧ ack.buySell = 1 ∨ origin.side = .sell ∧ ack.buySell = 2)

section

variable {bandBps : Kind → BitVec 32} {origin : Origin} {order : Order}

/-- The side of a signal is buy or sell. -/
theorem Origin.Evaluated.buy_or_sell (h : origin.Evaluated bandBps) :
    origin.side = .buy ∨ origin.side = .sell := by
  rcases Strategy.evaluate_named origin.ref origin.tick.price (bandBps origin.tick.kind) with
    h_none | h_side
  · exact absurd (h.side_eq.trans h_none) h.side_ne
  · rwa [← h.side_eq] at h_side

theorem Origin.Evaluated.ouchAck {ack : OuchOrderAccepted} (h : origin.Evaluated bandBps)
    (h_order : OrderOf origin.signal order) (h_ack : AckOf order (.ouch ack)) :
    origin.OuchAck bandBps ack := by
  -- the tick and the order are of one feed, which the signal names
  obtain ⟨tick, ref, side, token⟩ := origin
  cases order with
  | ouch req =>
    obtain ⟨h_feed, rfl⟩ := h_order
    obtain ⟨orderRef, rfl⟩ := h_ack
    cases tick with
    | itch tick =>
      refine ⟨tick, rfl, h.side_eq, rfl, rfl, rfl, ?_, formatOuchToken_eq token⟩
      rcases h.buy_or_sell with h_side | h_side
      · exact Or.inl ⟨h_side, if_pos h_side⟩
      · -- a signal that does not buy sells
        exact Or.inr ⟨h_side, if_neg fun h_buy => nomatch h_buy.symm.trans h_side⟩
    | _ => cases h_feed
  | _ => exact h_ack.elim

theorem Origin.Evaluated.nnfAck {ack : NnfOrderConfirm} (h : origin.Evaluated bandBps)
    (h_order : OrderOf origin.signal order) (h_ack : AckOf order (.nnf ack)) :
    origin.NnfAck bandBps ack := by
  obtain ⟨tick, ref, side, token⟩ := origin
  cases order with
  | nnf req =>
    obtain ⟨h_feed, traderId, rfl⟩ := h_order
    obtain ⟨orderNumber, rfl⟩ := h_ack
    cases tick with
    | mtbt tick =>
      refine ⟨tick, rfl, h.side_eq, ?_, rfl, rfl, rfl, ?_⟩
      · -- the token is copied unless it is zero, which it then is already
        show (if tick.token ≠ 0 then tick.token else 0) = tick.token
        split
        · rfl
        · next h_zero => exact (not_not.mp h_zero).symm
      · rcases h.buy_or_sell with h_side | h_side
        · exact Or.inl ⟨h_side, if_pos h_side⟩
        · exact Or.inr ⟨h_side, if_neg fun h_buy => nomatch h_buy.symm.trans h_side⟩
    | _ => cases h_feed
  | _ => exact h_ack.elim

end

/-! ### References -/

/-- A signal of the producer of a kind of tick. -/
def Event.isSignal (kind : Kind) : Event P → Bool
  | .signalled _ origin => origin.tick.kind = kind
  | _ => false

/-- The signals of the producer of a kind of tick. -/
def signalCount (kind : Kind) (tr : List (Event P)) : ℕ := tr.countP (Event.isSignal kind)

/-- Later references are larger as long as the counter has not wrapped. -/
theorem Issued.pairwise {β : Type*} [Preorder β] {f : BitVec 64 → BitVec 64}
    {refs : List (BitVec 64)} {next : BitVec 64} (v : BitVec 64 → β) (h : Issued f refs next)
    (h_lt : ∀ a b : ℕ, a < b → b ≤ refs.length →
      v (f (BitVec.ofNat 64 a)) < v (f (BitVec.ofNat 64 b))) :
    (refs.map v).Pairwise (· < ·) := by
  rw [h.refs_eq, List.map_map, List.pairwise_map]
  refine (List.pairwise_lt_range).imp_of_mem fun {a b} _ h_b h_ab => ?_
  exact h_lt (a + 1) (b + 1) (by omega) (List.mem_range.mp h_b)

section

variable {bandBps : Kind → BitVec 32} {tr : List (Event P)}

/-- There are no more confirms of a venue than signals of its feed. -/
theorem countP_confirms_le {kind : Kind} {q : Event P → Bool}
    (h_lives : Lives Event.ptr (Event.Follows bandBps) tr)
    (h_q : ∀ e, q e = true → ∃ p ack, e = .confirmed p ack ∧
      ∀ signal order, OrderOf signal order → AckOf order ack → signal.feed = kind) :
    tr.countP q ≤ signalCount kind tr := by
  -- a confirm stems from the signal two events before it about the same slot
  refine History.countP_le_countP
    (fun i j => ∃ k, Next Event.ptr tr i k ∧ Next Event.ptr tr k j) ?_ ?_
  · intro j h_j
    obtain ⟨e, h_e, h_qe⟩ := History.mem_positions.mp h_j
    obtain ⟨p, ack, rfl, h_feed⟩ := h_q e h_qe
    obtain ⟨origin, order, h, hJ, -, h_order, h_ack⟩ := exists_journey h_lives h_e
    obtain ⟨-, i, k, -, -, h_i, -, -, -, h_ik, h_kj⟩ := hJ.between
    refine ⟨i, History.mem_positions.mpr ⟨_, h_i, ?_⟩, k, h_ik, h_kj⟩
    have h_kind : origin.tick.kind = kind := by
      rw [← h_feed _ _ h_order h_ack]
      exact (Tick.signal_feed ..).symm
    exact decide_eq_true h_kind
  · rintro i j j' ⟨k, h_ik, h_kj⟩ ⟨k', h_ik', h_kj'⟩
    obtain rfl := h_ik.right_unique h_ik'
    exact h_kj.right_unique h_kj'

theorem ouchRefs_length_le (h_lives : Lives Event.ptr (Event.Follows bandBps) tr) :
    (ouchRefs tr).length ≤ signalCount .itch tr := by
  rw [ouchRefs, List.length_filterMap_eq_countP]
  refine countP_confirms_le h_lives fun e h_e => ?_
  match e with
  | .confirmed p (.ouch ack) =>
    refine ⟨p, _, rfl, fun signal order h_order h_ack => ?_⟩
    cases order with
    | ouch req => exact h_order.1
    | _ => exact h_ack.elim

theorem nnfOrderNumbers_length_le (h_lives : Lives Event.ptr (Event.Follows bandBps) tr) :
    (nnfOrderNumbers tr).length ≤ signalCount .mtbt tr := by
  rw [nnfOrderNumbers, List.length_filterMap_eq_countP]
  refine countP_confirms_le h_lives fun e h_e => ?_
  match e with
  | .confirmed p (.nnf ack) =>
    refine ⟨p, _, rfl, fun signal order h_order h_ack => ?_⟩
    cases order with
    | nnf req => exact h_order.1
    | _ => exact h_ack.elim

end

/-- A confirm in a queue was written by the event that confirmed its order. -/
theorem FaithfulInv.queued_confirm {bandBps : Kind → BitVec 32} {tr : List (Event P)}
    {w : World P cap} (hI : FaithfulInv bandBps tr w.core) (cell : Handoff.Cell cap) {p : Ptr P}
    (h_cell : w.mem.cell cell = some p)
    (h_kind : Kind.phase (w.mem.load p).kind = .confirm) :
    ∃ (ack : Confirm) (j : ℕ), tr[j]? = some (.confirmed p ack) ∧
      ack.HeldBy (w.mem.load p) := by
  have h_held : p ∈ w.core.held (some cell) := World.mem_held.mpr ⟨cell, rfl, h_cell⟩
  obtain ⟨e, h_last, h_described, h_phase⟩ := hI.last (hI.owned.exclusive.live_of_mem h_held)
  -- only a confirm leaves a message of that kind
  rw [show Kind.phase (w.core.mem.load p).kind = .confirm from h_kind] at h_phase
  cases e with
  | confirmed q ack =>
    obtain ⟨j, h_j, h_ptr, -⟩ := History.exists_of_lastAt h_last
    obtain rfl : q = p := h_ptr
    exact ⟨ack, j, h_j, h_described⟩
  | _ => cases h_phase

/-- **End-to-end fidelity.** After any calls in any order, an OUCH confirm in the confirm
queue comes from exactly one tick, an ITCH tick, and says of it what `Origin.OuchAck` lists;
an NNF confirm comes from exactly one MTBT tick, and says of it what `Origin.NnfAck` lists.
No tick gives two confirms, and as long as a producer has emitted fewer than `2 ^ 32` signals
the references of its venue increase in the order of confirmation. -/
theorem end_to_end_fidelity {config : Config} {message : Ptr P → TaggedMessage}
    {tr : List (Event P)} {w : World P cap}
    (h : (machine P cap).Reach (World.init config message) tr w)
    (h_itch : signalCount .itch tr < 2 ^ 32) (h_mtbt : signalCount .mtbt tr < 2 ^ 32) :
    (∀ slot p, (w.mem.queues .confirm).ring slot = some p →
      ((w.mem.load p).kind = .ouchConfirm → ∃ ack origin i j, (w.mem.load p).Holds ack ∧
        Journey tr p origin (.ouch ack) i j ∧ origin.OuchAck config.bandBps ack ∧
        ∀ p' origin' ack' i', Journey tr p' origin' ack' i' j → i' = i) ∧
      ((w.mem.load p).kind = .nnfConfirm → ∃ ack origin i j, (w.mem.load p).Holds ack ∧
        Journey tr p origin (.nnf ack) i j ∧ origin.NnfAck config.bandBps ack ∧
        ∀ p' origin' ack' i', Journey tr p' origin' ack' i' j → i' = i)) ∧
      (∀ p p' origin origin' ack ack' i j j', Journey tr p origin ack i j →
        Journey tr p' origin' ack' i j' → j = j') ∧
      ((ouchRefs tr).map BitVec.toNat).Pairwise (· < ·) ∧
      ((nnfOrderNumbers tr).map Double.value).Pairwise (· < ·) := by
  have hI := FaithfulInv.reach h
  refine ⟨fun slot p h_slot => ⟨fun h_kind => ?_, fun h_kind => ?_⟩, ?_, ?_, ?_⟩
  · obtain ⟨ack, j, h_j, h_held⟩ := hI.queued_confirm ⟨.confirm, slot⟩ h_slot
      (by rw [h_kind]; rfl)
    obtain ⟨origin, order, i, hJ, h_origin, h_order, h_ack⟩ := exists_journey hI.lives h_j
    cases ack with
    | ouch ack => exact ⟨ack, origin, i, j, h_held, hJ, h_origin.ouchAck h_order h_ack,
        fun _ _ _ _ hJ' => hJ'.left_unique hJ⟩
    | _ => exact absurd (h_kind.symm.trans h_held.1) (by decide)
  · obtain ⟨ack, j, h_j, h_held⟩ := hI.queued_confirm ⟨.confirm, slot⟩ h_slot
      (by rw [h_kind]; rfl)
    obtain ⟨origin, order, i, hJ, h_origin, h_order, h_ack⟩ := exists_journey hI.lives h_j
    cases ack with
    | nnf ack => exact ⟨ack, origin, i, j, h_held, hJ, h_origin.nnfAck h_order h_ack,
        fun _ _ _ _ hJ' => hJ'.left_unique hJ⟩
    | _ => exact absurd (h_kind.symm.trans h_held.1) (by decide)
  · exact fun _ _ _ _ _ _ _ _ _ hJ hJ' => hJ.right_unique hJ'
  · -- below `2 ^ 64` the references are the numbers they were issued as
    have h_length := ouchRefs_length_le hI.lives
    refine hI.ouch.pairwise BitVec.toNat fun a b h_ab h_b => ?_
    show (BitVec.ofNat 64 a).toNat < (BitVec.ofNat 64 b).toNat
    rw [BitVec.toNat_ofNat, BitVec.toNat_ofNat, Nat.mod_eq_of_lt (by omega),
      Nat.mod_eq_of_lt (by omega)]
    exact h_ab
  · -- an order number is a double, which is exact below `2 ^ 53`
    have h_length := nnfOrderNumbers_length_le hI.lives
    refine hI.nnf.pairwise Double.value fun a b h_ab h_b => ?_
    show Double.value (Double.ofNat (BitVec.ofNat 64 a).toNat) <
      Double.value (Double.ofNat (BitVec.ofNat 64 b).toNat)
    rw [BitVec.toNat_ofNat, BitVec.toNat_ofNat, Nat.mod_eq_of_lt (by omega),
      Nat.mod_eq_of_lt (by omega), Double.value_ofNat (by omega), Double.value_ofNat (by omega)]
    exact_mod_cast h_ab

/-- The round trip leaves an OUCH confirm in the first cell of the confirm queue, and it tells
the second ITCH tick. -/
theorem end_to_end_fidelity_roundTrip :
    ∃ (tr : List (Event twoPool)) (w : World twoPool fun _ => Capacity.two),
      (machine twoPool fun _ => Capacity.two).Reach
        (World.init {} fun _ => TaggedMessage.fresh) tr w ∧
      ∃ ack origin i j, (w.mem.load ⟨0, by decide⟩).Holds ack ∧
        Journey tr ⟨0, by decide⟩ origin (.ouch ack) i j ∧
        origin.OuchAck (Config.bandBps {}) ack := by
  obtain ⟨tr, w, h_reach, h_run⟩ := Machine.exists_reach_of_run
    (machine twoPool fun _ => Capacity.two) (World.init {} fun _ => TaggedMessage.fresh) roundTrip
    (fun w tr => decide ((w.mem.queues .confirm).ring ⟨0, by decide⟩ = some ⟨0, by decide⟩ ∧
      (w.mem.load ⟨0, by decide⟩).kind = .ouchConfirm ∧
      signalCount .itch tr < 2 ^ 32 ∧ signalCount .mtbt tr < 2 ^ 32)) (by decide +kernel)
  -- the confirm is in the first cell of the confirm queue
  obtain ⟨h_slot, h_kind, h_itch, h_mtbt⟩ := of_decide_eq_true h_run
  obtain ⟨ack, origin, i, j, h_held, hJ, h_ack, -⟩ :=
    ((end_to_end_fidelity h_reach h_itch h_mtbt).1 ⟨0, by decide⟩ ⟨0, by decide⟩ h_slot).1 h_kind
  exact ⟨tr, w, h_reach, ack, origin, i, j, h_held, hJ, h_ack⟩

end Trading

end Hft
