import MpmcPipeline.Machine.Exclusive
import MpmcPipeline.Trading.Drain

/-!
# Consumers that share the signal queue

Any number of consumers, of the four venues, poll one signal queue at the same time. A call
of `poll_once` is cut into the steps that other threads can see: the `try_pop`, what is done
with the message (it goes back, is released, or an order is written over it), the push to the
pending queue, and the counter. `Consumer.pollOnce_reach` is the link to the text of the
consumers: a call that nobody interrupts is these steps in a row.

Between its `try_pop` and the push or release a message is in the consumer's hand, and it is
at one place at a time: in a cell of the signal queue, in a hand, pushed or released
(`RoutedInv.exclusive`). So the signals of the start are these four together, and what is
written into a message is written by the one who holds it (`routing_conserves`).
-/

namespace Hft

open Handoff (Env Placed Taken)

namespace Trading

variable {P : PoolCapacity} {cap : Stage → Capacity}

/-! ### The consumers -/

/-- A consumer of one of the four venues. -/
inductive Consumer
  | ouch (self : OuchConsumer)
  | nnf (self : NnfConsumer)
  | sbe (self : SbeOrderEntryConsumer)
  | mcx (self : McxOrderConsumer)

namespace Consumer

/-- The feed whose signals the consumer takes. -/
def feed : Consumer → Kind
  | ouch _ => .itch
  | nnf _ => .mtbt
  | sbe _ => .sbeMarket
  | mcx _ => .mcxMarket

/-- The order a consumer builds from a signal. -/
def order (signal : StrategySignal) : Consumer → Order
  | ouch _ => .ouch (ouchOrder signal)
  | nnf self => .nnf (nnfOrder self.traderId signal)
  | sbe self => .sbe (sbeOrder self.symbolId signal)
  | mcx self => .mcx (mcxOrder self.nextSeq self.senderSubId self.simpleSecurityId signal)

/-- `orders_submitted` -/
def submitted : Consumer → BitVec 64
  | ouch self => self.submitted
  | nnf self => self.submitted
  | sbe self => self.submitted
  | mcx self => self.submitted

/-- The consumer after it has built so many orders and counted so many: of the four only the
MCX consumer counts what it builds (`next_seq_.fetch_add(1)`). -/
def after (built counted : ℕ) : Consumer → Consumer
  | ouch self => ouch { self with submitted := self.submitted + BitVec.ofNat 64 counted }
  | nnf self => nnf { self with submitted := self.submitted + BitVec.ofNat 64 counted }
  | sbe self => sbe { self with submitted := self.submitted + BitVec.ofNat 64 counted }
  | mcx self => mcx
    { self with
      nextSeq := self.nextSeq + BitVec.ofNat 32 built
      submitted := self.submitted + BitVec.ofNat 64 counted }

/-- `poll_once` -/
def pollOnce (env : Env) (mem : Memory P cap) :
    Consumer → Option (Memory P cap × Consumer × List (Event P))
  | ouch self => (self.pollOnce env mem).map fun (mem, self, es) => (mem, ouch self, es)
  | nnf self => (self.pollOnce env mem).map fun (mem, self, es) => (mem, nnf self, es)
  | sbe self => (self.pollOnce env mem).map fun (mem, self, es) => (mem, sbe self, es)
  | mcx self => (self.pollOnce env mem).map fun (mem, self, es) => (mem, mcx self, es)

@[simp] theorem after_zero (c : Consumer) : c.after 0 0 = c := by
  cases c <;> simp [after]

@[simp] theorem after_after (c : Consumer) (k m k' m' : ℕ) :
    (c.after k m).after k' m' = c.after (k + k') (m + m') := by
  cases c <;> simp [after, BitVec.ofNat_add, BitVec.add_assoc]

@[simp] theorem after_feed (c : Consumer) (k m : ℕ) : (c.after k m).feed = c.feed := by
  cases c <;> rfl

@[simp] theorem after_submitted (c : Consumer) (k m : ℕ) :
    (c.after k m).submitted = c.submitted + BitVec.ofNat 64 m := by
  cases c <;> rfl

/-- The counter of orders is in no order. -/
theorem after_order (c : Consumer) (k m : ℕ) (signal : StrategySignal) :
    (c.after k m).order signal = (c.after k 0).order signal := by
  cases c <;> rfl

/-- A consumer builds orders of its feed. -/
theorem orderOf (c : Consumer) {signal : StrategySignal} (h : signal.feed = c.feed) :
    OrderOf signal (c.order signal) := by
  cases c
  · exact ⟨h, rfl⟩
  · exact ⟨h, _, rfl⟩
  · exact ⟨h, _, rfl⟩
  · exact ⟨h, _, _, _, rfl⟩

theorem polled_map {σ τ : Type} (f : σ → τ) (self submitted : σ)
    (result : Option (Memory P cap × Bool × List (Event P))) :
    (polled self submitted result).map (fun (mem, self, es) => (mem, f self, es)) =
      polled (f self) (f submitted) result := by
  rcases result with _ | ⟨mem, _ | _, es⟩ <;> rfl

/-- All four consumers are one text. -/
theorem pollOnce_eq (c : Consumer) (env : Env) (mem : Memory P cap) :
    c.pollOnce env mem = polled c (c.after 1 1)
      (consumerPollOnce c.feed (fun signal => c.order signal) env mem) := by
  cases c <;> exact polled_map _ _ _ _

end Consumer

/-! ### The steps of a poll -/

/-- Where a `poll_once` is: outside, or with a message it has just taken, a message it has
written an order over, or an order it has pushed and not yet counted. -/
inductive PollPc (P : PoolCapacity)
  | idle
  | popped (msg : Ptr P)
  | ordered (msg : Ptr P)
  | pushed
  deriving DecidableEq

/-- The message in hand. -/
def PollPc.hand : PollPc P → List (Ptr P)
  | popped msg | ordered msg => [msg]
  | idle | pushed => []

/-- What a step does to a signal. -/
inductive PollEvent (P : PoolCapacity)
  | putBack (msg : Ptr P)
  | released (msg : Ptr P)
  | pushed (msg : Ptr P)

/-- One step of one consumer. -/
def pollStep : Threads.ThreadStep (Memory P cap) (Consumer × PollPc P) Env (PollEvent P)
  | mem, (self, .idle), _ =>
    match mem.tryPop .signal with
    | (none, mem) => some (mem, (self, .idle), [])
    | (some msg, mem) => some (mem, (self, .popped msg), [])
  | mem, (self, .popped msg), env =>
    if (mem.load msg).kind = .signal then
      let signal := Strategy.decodeSignal (mem.load msg)
      if signal.feed ≠ self.feed then
        match mem.push env .signal msg with
        | none => none
        | some mem => some (mem, (self, .idle), [.putBack msg])
      else if signal.side = .none then
        some (mem.release msg, (self, .idle), [.released msg])
      else
        -- nobody else sees the message, so building and writing the order is one step
        some (mem.write msg ((self.order signal).writeTo (mem.load msg)),
          (self.after 1 0, .ordered msg), [])
    else some (mem.release msg, (self, .idle), [.released msg])
  | mem, (self, .ordered msg), env =>
    match mem.push env .pending msg with
    | none => none
    | some mem => some (mem, (self, .pushed), [.pushed msg])
  | mem, (self, .pushed), _ => some (mem, (self.after 0 1, .idle), [])

/-- What a call does to the signal at the head of the queue. -/
def Consumer.treats (self : Consumer) (mem : Memory P cap) : List (PollEvent P) :=
  match mem.tryPop .signal with
  | (none, _) => []
  | (some msg, mem) =>
    if (mem.load msg).kind = .signal then
      let signal := Strategy.decodeSignal (mem.load msg)
      if signal.feed ≠ self.feed then [.putBack msg]
      else if signal.side = .none then [.released msg]
      else [.pushed msg]
    else [.released msg]

theorem Consumer.treats_of_pop {c : Consumer} {mem mem₁ : Memory P cap} {msg : Ptr P}
    (h : mem.tryPop .signal = (some msg, mem₁)) : c.treats mem =
      if (mem₁.load msg).kind = .signal then
        if (Strategy.decodeSignal (mem₁.load msg)).feed ≠ c.feed then [.putBack msg]
        else if (Strategy.decodeSignal (mem₁.load msg)).side = .none then [.released msg]
        else [.pushed msg]
      else [.released msg] := by
  rw [Consumer.treats, h]

/-- **Inversion.** The consumer of each venue polls in the same way, with its own feed and its own
order, and counts what it submits. -/
theorem Consumer.pollOnce_call {c c' : Consumer} {env : Env} {mem mem' : Memory P cap}
    {es : List (Event P)} (h : c.pollOnce env mem = some (mem', c', es)) :
    ∃ b, ConsumerCall c.feed (fun signal => c.order signal) env mem mem' b es ∧
      c' = cond b (c.after 1 1) c := by
  rw [Consumer.pollOnce_eq] at h
  obtain ⟨b, h_poll, h_self⟩ := polled_eq_some h
  exact ⟨b, consumerPollOnce_call h_poll, h_self⟩

/-- **A call is its steps in a row**, with no step of another consumer between them. -/
theorem Consumer.pollOnce_reach {c c' : Consumer} {env : Env} {mem mem' : Memory P cap}
    {es : List (Event P)} (h : c.pollOnce env mem = some (mem', c', es)) :
    (Threads.solo pollStep).Reach (mem, c, .idle) (c.treats mem) (mem', c', .idle) := by
  obtain ⟨b, h_call, rfl⟩ := Consumer.pollOnce_call h
  -- a call that takes a message holds it from its first step on
  have h_popped : ∀ {mem₁ : Memory P cap} {msg : Ptr P},
      mem.tryPop .signal = (some msg, mem₁) →
      pollStep mem (c, .idle) env = some (mem₁, (c, .popped msg), []) := by
    intro mem₁ msg h_pop
    rw [pollStep, h_pop]
  cases h_call with
  | empty h_pop =>
    rw [Consumer.treats, h_pop]
    exact Threads.solo_single (a := env) (by rw [pollStep, h_pop]; rfl)
  | noSignal msg h_pop h_kind =>
    rw [Consumer.treats_of_pop h_pop, if_neg h_kind]
    refine Threads.solo_head (h_popped h_pop) ?_
    exact Threads.solo_single (a := env) (by rw [pollStep, if_neg h_kind]; rfl)
  | putBack msg h_pop h_kind h_feed h_push =>
    rw [Consumer.treats_of_pop h_pop, if_pos h_kind, if_pos h_feed]
    refine Threads.solo_head (h_popped h_pop) ?_
    exact Threads.solo_single (a := env)
      (by rw [pollStep, if_pos h_kind, if_pos h_feed, h_push]; rfl)
  | noSide msg h_pop h_kind h_feed h_side =>
    rw [Consumer.treats_of_pop h_pop, if_pos h_kind, if_neg (not_not.mpr h_feed), if_pos h_side]
    refine Threads.solo_head (h_popped h_pop) ?_
    exact Threads.solo_single (a := env)
      (by rw [pollStep, if_pos h_kind, if_neg (not_not.mpr h_feed), if_pos h_side]; rfl)
  | @submit mem₁ mem' msg h_pop h_kind h_feed h_side h_push =>
    rw [Consumer.treats_of_pop h_pop, if_pos h_kind, if_neg (not_not.mpr h_feed), if_neg h_side]
    refine Threads.solo_head (h_popped h_pop) ?_
    -- three more steps: the order is written, pushed and counted
    have h_ordered : pollStep mem₁ (c, .popped msg) env = some (mem₁.write msg
        ((c.order (Strategy.decodeSignal (mem₁.load msg))).writeTo (mem₁.load msg)),
        (c.after 1 0, .ordered msg), []) := by
      rw [pollStep, if_pos h_kind, if_neg (not_not.mpr h_feed), if_neg h_side]
    have h_pushed : pollStep (mem₁.write msg
        ((c.order (Strategy.decodeSignal (mem₁.load msg))).writeTo (mem₁.load msg)))
        (c.after 1 0, .ordered msg) env =
          some (mem', (c.after 1 0, .pushed), [.pushed msg]) := by
      rw [pollStep, h_push]
    have h_counted : pollStep mem' (c.after 1 0, .pushed) env =
        some (mem', (c.after 1 1, .idle), []) := by
      rw [pollStep, Consumer.after_after]
    exact Threads.solo_head h_ordered
      ((Threads.solo_single h_pushed).trans (Threads.solo_single h_counted))

/-- Consumers polling one signal queue at the same time. -/
abbrev routing (Id : Type) [DecidableEq Id] (P : PoolCapacity) (cap : Stage → Capacity) :
    Machine (Threads Id (Memory P cap) (Consumer × PollPc P)) (Id × Env) (Id × PollEvent P) :=
  Threads.machine pollStep

/-- Consumers that have not begun to poll. -/
def Routing.init {Id : Type} (mem : Memory P cap) (consumers : Id → Consumer) :
    Threads Id (Memory P cap) (Consumer × PollPc P) :=
  ⟨mem, fun i => (consumers i, .idle)⟩

/-- **What a step does**: a poll finds nothing or takes a message, which it then puts back,
releases, or makes into an order that is pushed and counted. -/
inductive PollSteps : Memory P cap → Consumer × PollPc P → Memory P cap → Consumer × PollPc P →
    List (PollEvent P) → Prop
  | empty (mem : Memory P cap) (self : Consumer) :
      PollSteps mem (self, .idle) mem (self, .idle) []
  | pop {mem mem' : Memory P cap} (self : Consumer) (msg : Ptr P) (slot : Fin (cap .signal).val)
      (h_taken : Taken mem ⟨.signal, slot⟩ msg mem') :
      PollSteps mem (self, .idle) mem' (self, .popped msg) []
  | putBack {mem mem' : Memory P cap} (self : Consumer) (msg : Ptr P)
      (slot : Fin (cap .signal).val) (h_feed : (signalAt mem msg).feed ≠ self.feed)
      (h_placed : Placed mem ⟨.signal, slot⟩ msg mem') :
      PollSteps mem (self, .popped msg) mem' (self, .idle) [.putBack msg]
  | release (mem : Memory P cap) (self : Consumer) (msg : Ptr P)
      (h_none : (mem.load msg).kind = .signal →
        (signalAt mem msg).feed = self.feed ∧ (signalAt mem msg).side = .none) :
      PollSteps mem (self, .popped msg) { mem with pool := mem.pool.setState msg 0 }
        (self, .idle) [.released msg]
  | order (mem : Memory P cap) (self : Consumer) (msg : Ptr P)
      (h_feed : (signalAt mem msg).feed = self.feed) (h_side : (signalAt mem msg).side ≠ .none) :
      PollSteps mem (self, .popped msg)
        (mem.write msg ((self.order (signalAt mem msg)).writeTo (mem.load msg)))
        (self.after 1 0, .ordered msg) []
  | push {mem mem' : Memory P cap} (self : Consumer) (msg : Ptr P)
      (slot : Fin (cap .pending).val) (h_placed : Placed mem ⟨.pending, slot⟩ msg mem') :
      PollSteps mem (self, .ordered msg) mem' (self, .pushed) [.pushed msg]
  | count (mem : Memory P cap) (self : Consumer) :
      PollSteps mem (self, .pushed) mem (self.after 0 1, .idle) []

/-- **Inversion.** A step that is taken is one of these. -/
theorem pollStep_steps {mem mem' : Memory P cap} {l l' : Consumer × PollPc P} {env : Env}
    {es : List (PollEvent P)} (h : pollStep mem l env = some (mem', l', es)) :
    PollSteps mem l mem' l' es := by
  obtain ⟨self, pc⟩ := l
  cases pc with
  | idle =>
    simp only [pollStep] at h
    split at h
    · next h_pop =>
      cases h
      rw [Handoff.Shared.tryPop_none h_pop]
      exact .empty mem self
    · next msg mem₁ h_pop =>
      cases h
      obtain ⟨slot, h_taken⟩ := Handoff.Shared.tryPop_some h_pop
      exact .pop self msg slot h_taken
  | popped msg =>
    simp only [pollStep] at h
    split at h
    · split at h
      · next h_feed =>
        split at h
        · cases h
        -- a signal of another feed goes back to the tail of the queue
        · next h_push =>
          cases h
          obtain ⟨slot, h_placed⟩ := Handoff.Shared.push_some h_push
          exact .putBack self msg slot h_feed h_placed
      · next h_feed =>
        split at h
        -- a signal without a side makes no order
        · next h_side =>
          cases h
          rw [Handoff.Shared.release_eq]
          exact .release mem self msg fun _ => ⟨not_not.mp h_feed, h_side⟩
        · next h_side =>
          cases h
          exact .order mem self msg (not_not.mp h_feed) h_side
    -- what is no signal is released
    · next h_kind =>
      cases h
      rw [Handoff.Shared.release_eq]
      exact .release mem self msg fun h_signal => absurd h_signal h_kind
  | ordered msg =>
    simp only [pollStep] at h
    split at h
    · cases h
    · next h_push =>
      cases h
      obtain ⟨slot, h_placed⟩ := Handoff.Shared.push_some h_push
      exact .push self msg slot h_placed
  | pushed =>
    cases h
    exact .count mem self

/-! ### What a step does to signals -/

/-- The messages released. -/
def releases (es : List (PollEvent P)) : List (Ptr P) :=
  es.filterMap fun
    | .released msg => some msg
    | _ => none

/-- The messages pushed to the pending queue. -/
def pushes (es : List (PollEvent P)) : List (Ptr P) :=
  es.filterMap fun
    | .pushed msg => some msg
    | _ => none

@[simp] theorem releases_append (es es' : List (PollEvent P)) :
    releases (es ++ es') = releases es ++ releases es' := List.filterMap_append

@[simp] theorem pushes_append (es es' : List (PollEvent P)) :
    pushes (es ++ es') = pushes es ++ pushes es' := List.filterMap_append

/-- How many orders a consumer that has pushed `n` has built and counted. -/
def PollPc.Counts (n built counted : ℕ) : PollPc P → Prop
  | idle | popped _ => built = n ∧ counted = n
  | ordered _ => built = n + 1 ∧ counted = n
  | pushed => built = n ∧ counted + 1 = n

section

variable {mem mem' : Memory P cap} {l l' : Consumer × PollPc P} {es : List (PollEvent P)}
  {msg : Ptr P}

/-- A message is written when an order is built. -/
theorem PollSteps.load_eq (h : PollSteps mem l mem' l' es) (h_msg : l'.2 ≠ .ordered msg) :
    mem'.load msg = mem.load msg := by
  cases h with
  | empty | count => rfl
  | pop self p slot h_taken => rw [Handoff.Shared.load, h_taken.pool_eq]; rfl
  | putBack self p slot h_feed h_placed => rw [Handoff.Shared.load, h_placed.pool_eq]; rfl
  | push self p slot h_placed => rw [Handoff.Shared.load, h_placed.pool_eq]; rfl
  | release self p h_none => exact TaggedPool.setState_load _ _ _ _
  | order self p h_feed h_side =>
    exact Handoff.Shared.load_write_of_ne _ (fun h_eq => h_msg (by rw [h_eq])) _

/-- What is queued after a step was queued before it or has been put back. -/
theorem PollSteps.queued (h : PollSteps mem l mem' l' es) {slot : Fin (cap .signal).val}
    (h_slot : mem'.cell ⟨.signal, slot⟩ = some msg) :
    mem.cell ⟨.signal, slot⟩ = some msg ∨ l.2 = .popped msg := by
  -- only a pop and a push touch the signal queue
  cases h with
  | empty | count | release | order => exact Or.inl h_slot
  | pop self p other h_taken =>
    rw [h_taken.cell_eq] at h_slot
    -- the cell popped is empty now
    by_cases h_eq : (⟨.signal, slot⟩ : Handoff.Cell cap) = ⟨.signal, other⟩
    · rw [h_eq, Function.update_self] at h_slot
      cases h_slot
    · rw [Function.update_of_ne h_eq] at h_slot
      exact Or.inl h_slot
  | putBack self p other h_feed h_placed =>
    rw [h_placed.cell_eq] at h_slot
    -- the cell filled holds what was in hand
    by_cases h_eq : (⟨.signal, slot⟩ : Handoff.Cell cap) = ⟨.signal, other⟩
    · rw [h_eq, Function.update_self] at h_slot
      cases h_slot
      exact Or.inr rfl
    · rw [Function.update_of_ne h_eq] at h_slot
      exact Or.inl h_slot
  | push self p other h_placed =>
    rw [h_placed.cell_eq, Function.update_of_ne] at h_slot
    · exact Or.inl h_slot
    · -- the order goes into the other queue
      exact fun h_eq => Stage.noConfusion (congrArg Sigma.fst h_eq)

theorem PollSteps.popped (h : PollSteps mem l mem' l' es) (h_pc : l'.2 = .popped msg) :
    ∃ slot, mem.cell ⟨.signal, slot⟩ = some msg := by
  cases h with
  | pop self p slot h_taken =>
    cases h_pc
    exact ⟨slot, h_taken.full⟩
  | _ => cases h_pc

/-- An order is built from the signal that was popped. -/
theorem PollSteps.ordered (h : PollSteps mem l mem' l' es) (h_pc : l'.2 = .ordered msg) :
    l.2 = .popped msg ∧ (signalAt mem msg).feed = l.1.feed ∧ (signalAt mem msg).side ≠ .none ∧
      (l.1.order (signalAt mem msg)).HeldBy (mem'.load msg) ∧ es = [] := by
  cases h with
  | order self p h_feed h_side =>
    cases h_pc
    refine ⟨rfl, h_feed, h_side, ?_, rfl⟩
    rw [Handoff.Shared.load_write]
    exact Order.heldBy_writeTo _ _
  | _ => cases h_pc

/-- What is pushed is the order in hand. -/
theorem PollSteps.pushes (h : PollSteps mem l mem' l' es) :
    pushes es = [] ∨ ∃ msg, l.2 = .ordered msg ∧ pushes es = [msg] := by
  cases h with
  | push self p slot h_placed => exact Or.inr ⟨p, rfl, rfl⟩
  | _ => exact Or.inl rfl

theorem PollSteps.pending (h : PollSteps mem l mem' l' es) :
    MPMC.cells (mem'.queues .pending).ring =
      MPMC.cells (mem.queues .pending).ring + (Trading.pushes es : Multiset (Ptr P)) := by
  -- only the push of an order reaches the pending queue
  cases h with
  | empty | count | release | order => exact (add_zero _).symm
  | pop self p slot h_taken =>
    rw [Handoff.ring_of_cell_eq_of_ne h_taken.cell_eq (by decide)]
    exact (add_zero _).symm
  | putBack self p slot h_feed h_placed =>
    rw [Handoff.ring_of_cell_eq_of_ne h_placed.cell_eq (by decide)]
    exact (add_zero _).symm
  | push self p slot h_placed =>
    rw [Handoff.ring_of_cell_eq h_placed.cell_eq, MPMC.cells_update_some h_placed.empty]
    rfl

/-- A signal released is one of the consumer's own, without a side. -/
theorem PollSteps.released (h : PollSteps mem l mem' l' es) (h_mem : .released msg ∈ es) :
    l.2 = .popped msg ∧ ((mem.load msg).kind = .signal →
      (signalAt mem msg).feed = l.1.feed ∧ (signalAt mem msg).side = .none) := by
  cases h with
  | release self p h_none =>
    cases List.mem_singleton.mp h_mem
    exact ⟨rfl, h_none⟩
  | empty | pop | order | count => cases h_mem
  | putBack | push => cases List.mem_singleton.mp h_mem

/-- No step acquires a slot. -/
theorem PollSteps.free_of (h : PollSteps mem l mem' l' es)
    (h_free : (mem.pool.slots msg).state = 0 ∨ .released msg ∈ es) :
    (mem'.pool.slots msg).state = 0 := by
  cases h with
  | release self p h_none =>
    by_cases h_eq : msg = p
    · rw [h_eq, TaggedPool.setState_self]
    · rcases h_free with h_free | h_mem
      · rwa [TaggedPool.setState_of_ne _ h_eq]
      · cases List.mem_singleton.mp h_mem
        exact absurd rfl h_eq
  | empty | count => exact h_free.resolve_right List.not_mem_nil
  | pop self p slot h_taken =>
    rw [h_taken.pool_eq]
    exact h_free.resolve_right List.not_mem_nil
  | putBack self p slot h_feed h_placed =>
    rw [h_placed.pool_eq]
    exact h_free.resolve_right fun h_mem => by cases List.mem_singleton.mp h_mem
  | push self p slot h_placed =>
    rw [h_placed.pool_eq]
    exact h_free.resolve_right fun h_mem => by cases List.mem_singleton.mp h_mem
  | order self p h_feed h_side =>
    -- the message is written, not the state of its slot
    rw [Handoff.Shared.write, TaggedPool.store_state]
    exact h_free.resolve_right List.not_mem_nil

theorem PollSteps.counts (h : PollSteps mem l mem' l' es) {n built counted : ℕ}
    (h_counts : l.2.Counts n built counted) :
    ∃ k m, l'.1 = l.1.after k m ∧
      l'.2.Counts (n + (Trading.pushes es).length) (built + k) (counted + m) := by
  cases h with
  | order => exact ⟨1, 0, rfl, congrArg (· + 1) h_counts.1, h_counts.2⟩
  | push => exact ⟨0, 0, (Consumer.after_zero _).symm, h_counts.1, congrArg (· + 1) h_counts.2⟩
  | count => exact ⟨0, 1, rfl, h_counts.1, h_counts.2⟩
  | _ => exact ⟨0, 0, (Consumer.after_zero _).symm, h_counts⟩

end

/-! ### The invariant -/

/-- The places of a signal: the cells of its queue, the hands, those pushed, those released. -/
def Routing.held {Id : Type} (tr : List (Id × PollEvent P))
    (s : Threads Id (Memory P cap) (Consumer × PollPc P)) :
    Fin (cap .signal).val ⊕ Id ⊕ Bool → List (Ptr P)
  | .inl slot => (s.shared.cell ⟨.signal, slot⟩).toList
  | .inr (.inl i) => (s.loc i).2.hand
  | .inr (.inr true) => pushes (Threads.events tr)
  | .inr (.inr false) => releases (Threads.events tr)

section

variable {Id : Type} [DecidableEq Id] {tr : List (Id × PollEvent P)} {i : Id}
  {mem mem' : Memory P cap} {loc : Id → Consumer × PollPc P} {l' : Consumer × PollPc P}
  {es : List (PollEvent P)}

/-- A place that a step has nothing to do with. -/
theorem Routing.held_other {place : Fin (cap .signal).val ⊕ Id ⊕ Bool}
    (h_cell : ∀ slot, place = .inl slot → mem'.cell ⟨.signal, slot⟩ = mem.cell ⟨.signal, slot⟩)
    (h_hand : place ≠ .inr (.inl i)) (h_pushed : place = .inr (.inr true) → pushes es = [])
    (h_released : place = .inr (.inr false) → releases es = []) :
    Routing.held (tr ++ es.map fun e => (i, e)) ⟨mem', Function.update loc i l'⟩ place =
      Routing.held tr ⟨mem, loc⟩ place := by
  -- a cell, a hand, the slots released, the orders pushed
  rcases place with slot | j | _ | _
  · exact congrArg Option.toList (h_cell slot rfl)
  · -- only the hand of the moving worker changes
    have h_j : j ≠ i := fun h_eq => h_hand (by rw [h_eq])
    show (Function.update loc i l' j).2.hand = (loc j).2.hand
    rw [Function.update_of_ne h_j]
  · show releases (Threads.events _) = releases (Threads.events _)
    rw [Threads.events_append, Threads.events_map_pair, releases_append, h_released rfl,
      List.append_nil]
  · show pushes (Threads.events _) = pushes (Threads.events _)
    rw [Threads.events_append, Threads.events_map_pair, pushes_append, h_pushed rfl,
      List.append_nil]

/-- The hand that a step is about. -/
theorem Routing.held_hand :
    Routing.held (tr ++ es.map fun e => (i, e)) ⟨mem', Function.update loc i l'⟩
      (.inr (.inl i)) = l'.2.hand := by
  show (Function.update loc i l' i).2.hand = l'.2.hand
  rw [Function.update_self]

/-- **Step.** A signal moves from one place to another: between the queue and a hand, or from a hand
to the released or the pushed. -/
theorem Routing.held_step {live : Ptr P → Prop} (hI : Exclusive (Routing.held tr ⟨mem, loc⟩) live)
    (h : PollSteps mem (loc i) mem' l' es) :
    Exclusive (Routing.held (tr ++ es.map fun e => (i, e)) ⟨mem', Function.update loc i l'⟩)
      live := by
  have h_before : Routing.held tr ⟨mem, loc⟩ (.inr (.inl i)) = (loc i).2.hand := rfl
  generalize loc i = l at h h_before
  cases h with
  | empty | order | count =>
    -- no signal moves
    refine hI.congr (fun place => ?_) fun _ => Iff.rfl
    by_cases h_place : place = .inr (.inl i)
    · subst h_place
      exact .of_eq (Routing.held_hand.trans h_before.symm)
    · exact .of_eq (Routing.held_other (fun _ _ => rfl) h_place (fun _ => rfl) fun _ => rfl)
  | pop self msg slot h_taken =>
    refine hI.move (a := .inl slot) (b := .inr (.inl i)) (t := msg) (by simp) ?_ ?_
      (fun place h_cell h_hand => ?_) fun _ => Iff.rfl
    · simp [Routing.held, h_taken.full, h_taken.cell_eq]
    · rw [Routing.held_hand, h_before]
      exact List.Perm.refl _
    · refine .of_eq (Routing.held_other (fun other h_other => ?_) h_hand (fun _ => rfl)
        fun _ => rfl)
      rw [h_taken.cell_eq, Function.update_of_ne]
      rintro h_eq
      cases h_eq
      exact h_cell h_other
  | putBack self msg slot h_feed h_placed =>
    refine hI.move (a := .inr (.inl i)) (b := .inl slot) (t := msg) (by simp) ?_ ?_
      (fun place h_hand h_cell => ?_) fun _ => Iff.rfl
    · rw [Routing.held_hand, h_before]
      exact List.Perm.refl _
    · simp [Routing.held, h_placed.empty, h_placed.cell_eq]
    · refine .of_eq (Routing.held_other (fun other h_other => ?_) h_hand (fun _ => rfl)
        fun _ => rfl)
      rw [h_placed.cell_eq, Function.update_of_ne]
      rintro h_eq
      cases h_eq
      exact h_cell h_other
  | release self msg h_none =>
    refine hI.move (a := .inr (.inl i)) (b := .inr (.inr false)) (t := msg) (by simp) ?_ ?_
      (fun place h_hand h_released => ?_) fun _ => Iff.rfl
    · rw [Routing.held_hand, h_before]
      exact List.Perm.refl _
    · simp only [Routing.held, Threads.events_append, Threads.events_map_pair, releases_append]
      exact List.perm_append_comm
    · exact .of_eq (Routing.held_other (fun _ _ => rfl) h_hand (fun _ => rfl) fun h_eq =>
        absurd h_eq h_released)
  | push self msg slot h_placed =>
    refine hI.move (a := .inr (.inl i)) (b := .inr (.inr true)) (t := msg) (by simp) ?_ ?_
      (fun place h_hand h_pushed => ?_) fun _ => Iff.rfl
    · rw [Routing.held_hand, h_before]
      exact List.Perm.refl _
    · simp only [Routing.held, Threads.events_append, Threads.events_map_pair, pushes_append]
      exact List.perm_append_comm
    · refine .of_eq (Routing.held_other (fun other _ => ?_) h_hand
        (fun h_eq => absurd h_eq h_pushed) fun _ => rfl)
      -- a cell of another queue
      rw [h_placed.cell_eq, Function.update_of_ne]
      exact fun h_eq => Stage.noConfusion (congrArg Sigma.fst h_eq)

end

/-- `msg` holds the order that a consumer, having built `k` before, builds from its signal. -/
structure Built (mem₀ mem : Memory P cap) (c : Consumer) (k : ℕ) (msg : Ptr P) : Prop where
  feed_eq : (signalAt mem₀ msg).feed = c.feed
  side_ne : (signalAt mem₀ msg).side ≠ .none
  held : ((c.after k 0).order (signalAt mem₀ msg)).HeldBy (mem.load msg)

theorem Built.congr {mem₀ mem mem' : Memory P cap} {c : Consumer} {k : ℕ} {msg : Ptr P}
    (h : Built mem₀ mem c k msg) (h_load : mem'.load msg = mem.load msg) :
    Built mem₀ mem' c k msg :=
  ⟨h.feed_eq, h.side_ne, h_load ▸ h.held⟩

/-- **The invariant.** Every signal of the start is in one place; those that wait are as they were,
and those in hand or pushed hold the order their consumer builds. -/
structure RoutedInv {Id : Type} [DecidableEq Id] (mem₀ : Memory P cap) (consumers : Id → Consumer)
    (tr : List (Id × PollEvent P)) (s : Threads Id (Memory P cap) (Consumer × PollPc P)) :
    Prop where
  exclusive : Exclusive (Routing.held tr s) (· ∈ MPMC.cells (mem₀.queues .signal).ring)
  pending : MPMC.cells (s.shared.queues .pending).ring =
    MPMC.cells (mem₀.queues .pending).ring + (pushes (Threads.events tr) : Multiset (Ptr P))
  queued : ∀ slot msg, s.shared.cell ⟨.signal, slot⟩ = some msg →
    s.shared.load msg = mem₀.load msg
  popped : ∀ i msg, (s.loc i).2 = .popped msg → s.shared.load msg = mem₀.load msg
  ordered : ∀ i msg, (s.loc i).2 = .ordered msg →
    Built mem₀ s.shared (consumers i) (pushes (Threads.eventsOf i tr)).length msg
  pushed : ∀ i (k : ℕ) msg, (pushes (Threads.eventsOf i tr))[k]? = some msg →
    Built mem₀ s.shared (consumers i) k msg
  released : ∀ i msg, (i, .released msg) ∈ tr → (mem₀.load msg).kind = .signal →
    (signalAt mem₀ msg).feed = (consumers i).feed ∧ (signalAt mem₀ msg).side = .none
  free : ∀ msg ∈ releases (Threads.events tr), (s.shared.pool.slots msg).state = 0
  consumer : ∀ i, ∃ built counted, (s.loc i).1 = (consumers i).after built counted ∧
    (s.loc i).2.Counts (pushes (Threads.eventsOf i tr)).length built counted

section

variable {Id : Type} [DecidableEq Id] {mem₀ mem mem' : Memory P cap} {consumers : Id → Consumer}
  {tr : List (Id × PollEvent P)} {s : Threads Id (Memory P cap) (Consumer × PollPc P)} {i : Id}
  {loc : Id → Consumer × PollPc P} {l' : Consumer × PollPc P} {es : List (PollEvent P)}
  {msg : Ptr P}

theorem RoutedInv.init (h_nodup : (MPMC.cells (mem₀.queues .signal).ring).Nodup) :
    RoutedInv mem₀ consumers [] (Routing.init mem₀ consumers) where
  exclusive := by
    have h_cell : ∀ msg, msg ∈ MPMC.cells (mem₀.queues .signal).ring ↔
        ∃ slot, mem₀.cell ⟨.signal, slot⟩ = some msg := fun msg => MPMC.mem_cells
    refine ⟨?_, ?_, fun msg => ?_⟩
    · rintro (slot | j | _ | _)
      · exact Option.toList_nodup _
      all_goals exact List.nodup_nil
    · rintro (slot | j | _ | _) (slot' | j' | _ | _) msg h_a h_b
      · -- a message is in one cell
        rw [Routing.held, Option.mem_toList] at h_a h_b
        exact congrArg _ (MPMC.slot_unique h_nodup h_a h_b)
      all_goals first | cases h_a | cases h_b
    · rw [h_cell]
      constructor
      · rintro ⟨slot, h_slot⟩
        exact ⟨.inl slot, Option.mem_toList.mpr h_slot⟩
      · rintro ⟨slot | j | _ | _, h_mem⟩
        · exact ⟨slot, Option.mem_toList.mp h_mem⟩
        all_goals cases h_mem
  pending := by simp [Routing.init, Threads.events, pushes]
  queued _ _ _ := rfl
  popped _ _ h_pc := by cases h_pc
  ordered _ _ h_pc := by cases h_pc
  pushed _ _ _ h_k := by cases h_k
  released _ _ h_mem := absurd h_mem List.not_mem_nil
  free _ h_mem := absurd h_mem List.not_mem_nil
  consumer i := ⟨0, 0, (Consumer.after_zero _).symm, rfl, rfl⟩

/-- What a thread has pushed has been pushed. -/
theorem pushes_eventsOf_sublist (i : Id) (tr : List (Id × PollEvent P)) :
    (pushes (Threads.eventsOf i tr)).Sublist (pushes (Threads.events tr)) :=
  List.Sublist.filterMap _ (List.filter_sublist.map Prod.snd)

theorem exists_pushedBy (h : msg ∈ pushes (Threads.events tr)) :
    ∃ (i : Id) (k : ℕ), (pushes (Threads.eventsOf i tr))[k]? = some msg := by
  obtain ⟨e, h_e, h_msg⟩ := List.mem_filterMap.mp h
  obtain ⟨⟨i, e⟩, h_mem, rfl⟩ := List.mem_map.mp h_e
  have h_of : msg ∈ pushes (Threads.eventsOf i tr) := by
    refine List.mem_filterMap.mpr ⟨e, ?_, h_msg⟩
    exact List.mem_map.mpr ⟨(i, e), List.mem_filter.mpr ⟨h_mem, by simp⟩, rfl⟩
  obtain ⟨k, h_k⟩ := List.mem_iff_getElem?.mp h_of
  exact ⟨i, k, h_k⟩

/-- A step of `i` leaves the messages alone that are elsewhere than in its hand. -/
theorem RoutedInv.load_step (hI : RoutedInv mem₀ consumers tr ⟨mem, loc⟩)
    (h : PollSteps mem (loc i) mem' l' es) (place : Fin (cap .signal).val ⊕ Id ⊕ Bool)
    (h_place : place ≠ .inr (.inl i)) (h_mem : msg ∈ Routing.held (tr ++ es.map fun e => (i, e))
      ⟨mem', Function.update loc i l'⟩ place) : mem'.load msg = mem.load msg := by
  refine h.load_eq fun h_pc =>
    (Routing.held_step hI.exclusive h).not_mem_of_ne (a := .inr (.inl i)) ?_ h_place h_mem
  rw [Routing.held_hand, h_pc]
  exact List.mem_singleton_self msg

/-- The signal that `i` has popped is as it was at the start. -/
theorem RoutedInv.signalAt_popped (hI : RoutedInv mem₀ consumers tr ⟨mem, loc⟩)
    (h_pc : (loc i).2 = .popped msg) : signalAt mem msg = signalAt mem₀ msg :=
  congrArg Strategy.decodeSignal (hI.popped i msg h_pc)

/-- The feed of `i` is still that of the start. -/
theorem RoutedInv.feed_eq (hI : RoutedInv mem₀ consumers tr ⟨mem, loc⟩) (i : Id) :
    (loc i).1.feed = (consumers i).feed := by
  obtain ⟨built, counted, h_consumer, -⟩ := hI.consumer i
  rw [show (loc i).1 = _ from h_consumer, Consumer.after_feed]

/-- The order that `i` has just written. -/
theorem RoutedInv.built_step (hI : RoutedInv mem₀ consumers tr ⟨mem, loc⟩)
    (h : PollSteps mem (loc i) mem' l' es) (h_pc : l'.2 = .ordered msg) :
    Built mem₀ mem' (consumers i) (pushes (Threads.eventsOf i tr ++ es)).length msg := by
  obtain ⟨h_popped, h_feed, h_side, h_held, rfl⟩ := h.ordered h_pc
  obtain ⟨built, counted, h_consumer, h_counts⟩ := hI.consumer i
  dsimp only at h_consumer h_counts
  rw [h_popped] at h_counts
  rw [hI.signalAt_popped h_popped] at h_feed h_side h_held
  rw [hI.feed_eq] at h_feed
  rw [h_consumer, Consumer.after_order, h_counts.1] at h_held
  rw [List.append_nil]
  exact ⟨h_feed, h_side, h_held⟩

/-- The order that `i` has just pushed, and those before. -/
theorem RoutedInv.pushed_step (hI : RoutedInv mem₀ consumers tr ⟨mem, loc⟩)
    (h : PollSteps mem (loc i) mem' l' es) {k : ℕ}
    (h_k : (pushes (Threads.eventsOf i tr ++ es))[k]? = some msg) :
    Built mem₀ mem (consumers i) k msg := by
  rw [pushes_append] at h_k
  rcases h.pushes with h_none | ⟨p, h_pc, h_one⟩
  · rw [h_none, List.append_nil] at h_k
    exact hI.pushed i k msg h_k
  · rw [h_one] at h_k
    rcases Nat.lt_or_ge k (pushes (Threads.eventsOf i tr)).length with h_old | h_new
    · rw [List.getElem?_append_left h_old] at h_k
      exact hI.pushed i k msg h_k
    · -- the last one was in hand, built as the number of those before says
      rw [List.getElem?_append_right h_new, List.getElem?_singleton] at h_k
      split at h_k
      · next h_zero =>
        cases h_k
        rw [show k = (pushes (Threads.eventsOf i tr)).length by omega]
        exact hI.ordered i msg h_pc
      · cases h_k

/-- **Step.** What one consumer does leaves what is said of the others, as the message it works on
is its own. -/
theorem RoutedInv.steps (hI : RoutedInv mem₀ consumers tr ⟨mem, loc⟩)
    (h : PollSteps mem (loc i) mem' l' es) :
    RoutedInv mem₀ consumers (tr ++ es.map fun e => (i, e)) ⟨mem', Function.update loc i l'⟩ := by
  have h_loc : ∀ j, j ≠ i → Function.update loc i l' j = loc j :=
    fun j h_j => Function.update_of_ne h_j _ _
  have h_of : ∀ j, j ≠ i →
      Threads.eventsOf j (tr ++ es.map fun e => (i, e)) = Threads.eventsOf j tr := by
    intro j h_j
    rw [Threads.eventsOf_append, Threads.eventsOf_map_of_ne h_j.symm, List.append_nil]
  have h_self :
      Threads.eventsOf i (tr ++ es.map fun e => (i, e)) = Threads.eventsOf i tr ++ es := by
    rw [Threads.eventsOf_append, Threads.eventsOf_map_self]
  -- what `i` itself holds comes from its step, the rest is as it was
  refine ⟨Routing.held_step hI.exclusive h, ?_, ?_, ?_, ?_, ?_, ?_, ?_, ?_⟩
  · -- pending
    rw [h.pending, hI.pending, Threads.events_append, Threads.events_map_pair, pushes_append,
      ← Multiset.coe_add, add_assoc]
  · -- queued
    intro slot msg h_slot
    rw [hI.load_step h (.inl slot) (by simp) (Option.mem_toList.mpr h_slot)]
    rcases h.queued h_slot with h_old | h_pc
    · exact hI.queued slot msg h_old
    · exact hI.popped i msg h_pc
  · -- popped
    intro j msg (h_pc : (Function.update loc i l' j).2 = .popped msg)
    by_cases h_j : j = i
    · subst h_j
      rw [Function.update_self] at h_pc
      obtain ⟨slot, h_slot⟩ := h.popped h_pc
      rw [h.load_eq fun h_eq => by rw [h_pc] at h_eq; cases h_eq]
      exact hI.queued slot msg h_slot
    · rw [hI.load_step h (.inr (.inl j)) (by simpa using h_j)
        (by simp [Routing.held, h_pc, PollPc.hand])]
      rw [h_loc j h_j] at h_pc
      exact hI.popped j msg h_pc
  · -- ordered
    intro j msg (h_pc : (Function.update loc i l' j).2 = .ordered msg)
    by_cases h_j : j = i
    · subst h_j
      rw [Function.update_self] at h_pc
      rw [h_self]
      exact hI.built_step h h_pc
    · rw [h_of j h_j]
      have h_old : (loc j).2 = .ordered msg := by rw [← h_loc j h_j]; exact h_pc
      exact (hI.ordered j msg h_old).congr (hI.load_step h (.inr (.inl j)) (by simpa using h_j)
        (by simp [Routing.held, h_pc, PollPc.hand]))
  · -- pushed
    intro j k msg h_k
    have h_load := hI.load_step h (.inr (.inr true)) (by simp)
      ((pushes_eventsOf_sublist j _).subset (List.mem_of_getElem? h_k))
    by_cases h_j : j = i
    · subst h_j
      rw [h_self] at h_k
      exact (hI.pushed_step h h_k).congr h_load
    · rw [h_of j h_j] at h_k
      exact (hI.pushed j k msg h_k).congr h_load
  · -- released
    intro j msg h_mem h_kind
    rcases List.mem_append.mp h_mem with h_old | h_new
    · exact hI.released j msg h_old h_kind
    · obtain ⟨e, h_e, h_eq⟩ := List.mem_map.mp h_new
      cases h_eq
      obtain ⟨h_pc, h_none⟩ := h.released h_e
      rw [hI.signalAt_popped h_pc, hI.feed_eq] at h_none
      exact h_none (by rw [show mem.load msg = _ from hI.popped i msg h_pc]; exact h_kind)
  · -- free
    intro msg h_mem
    rw [Threads.events_append, Threads.events_map_pair, releases_append] at h_mem
    refine h.free_of ((List.mem_append.mp h_mem).imp (hI.free msg) fun h_new => ?_)
    obtain ⟨e, h_e, h_eq⟩ := List.mem_filterMap.mp h_new
    cases e with
    | released p =>
      cases h_eq
      exact h_e
    | putBack p | pushed p => cases h_eq
  · -- consumer
    intro j
    by_cases h_j : j = i
    · subst h_j
      obtain ⟨built, counted, h_consumer, h_counts⟩ := hI.consumer j
      obtain ⟨k, m, h_next, h_counts'⟩ := h.counts h_counts
      refine ⟨built + k, counted + m, ?_, ?_⟩
      · show (Function.update loc j l' j).1 = _
        rw [Function.update_self, h_next, show (loc j).1 = _ from h_consumer,
          Consumer.after_after]
      · show (Function.update loc j l' j).2.Counts _ _ _
        rw [Function.update_self, h_self, pushes_append, List.length_append]
        exact h_counts'
    · show ∃ built counted, (Function.update loc i l' j).1 = _ ∧
        (Function.update loc i l' j).2.Counts _ _ _
      rw [h_loc j h_j, h_of j h_j]
      exact hI.consumer j

/-- **Run.** So the invariant holds whatever the interleaving of the consumers' steps. -/
theorem RoutedInv.reach (h_nodup : (MPMC.cells (mem₀.queues .signal).ring).Nodup)
    (h : (routing Id P cap).Reach (Routing.init mem₀ consumers) tr s) :
    RoutedInv mem₀ consumers tr s := by
  refine h.inv (.init h_nodup) ?_
  rintro tr s a s' es hI - h_step
  obtain ⟨mem', l', es', h_poll, rfl, rfl⟩ := Threads.machine_step h_step
  exact hI.steps (pollStep_steps h_poll)

/-- **Routing.** Whatever the interleaving of consumers that poll one signal queue: the signals
of the start are those still queued, those in hand, those behind the orders pushed and those
released, together; a signal queued or just popped is as it was; one that was released had no
side and the feed of its consumer, and its slot is free; the order that a consumer has pushed as
its `k`-th is the one it builds from that signal after `k` others, and the signal is of its feed;
and a consumer that is not in a call has counted the orders it has pushed. -/
theorem routing_conserves [Fintype Id] (h_nodup : (MPMC.cells (mem₀.queues .signal).ring).Nodup)
    (h_kind : ∀ msg ∈ MPMC.cells (mem₀.queues .signal).ring, (mem₀.load msg).kind = .signal)
    (h : (routing Id P cap).Reach (Routing.init mem₀ consumers) tr s) :
    MPMC.cells (s.shared.queues .signal).ring + ∑ i, ((s.loc i).2.hand : Multiset (Ptr P)) +
        (pushes (Threads.events tr) : Multiset (Ptr P)) +
        (releases (Threads.events tr) : Multiset (Ptr P)) =
      MPMC.cells (mem₀.queues .signal).ring ∧
    MPMC.cells (s.shared.queues .pending).ring = MPMC.cells (mem₀.queues .pending).ring +
      (pushes (Threads.events tr) : Multiset (Ptr P)) ∧
    (∀ msg, msg ∈ MPMC.cells (s.shared.queues .signal).ring ∨ (∃ i, (s.loc i).2 = .popped msg) →
      s.shared.load msg = mem₀.load msg) ∧
    (∀ i msg, (i, .released msg) ∈ tr → (signalAt mem₀ msg).side = .none ∧
      (signalAt mem₀ msg).feed = (consumers i).feed ∧
      (s.shared.pool.slots msg).state = 0) ∧
    (∀ msg ∈ pushes (Threads.events tr), ∃ i k, (pushes (Threads.eventsOf i tr))[k]? = some msg ∧
      (signalAt mem₀ msg).feed = (consumers i).feed ∧
      (((consumers i).after k 0).order (signalAt mem₀ msg)).HeldBy (s.shared.load msg)) ∧
    ∀ i, (s.loc i).2 = .idle → (pushes (Threads.eventsOf i tr)).length ≤ (cap .signal).val ∧
      (s.loc i).1.submitted = (consumers i).submitted +
        BitVec.ofNat 64 (pushes (Threads.eventsOf i tr)).length := by
  have hI := RoutedInv.reach h_nodup h
  have h_total := hI.exclusive.sum_eq h_nodup
  -- the sum over the places, kind by kind
  rw [Fintype.sum_sum_type, Fintype.sum_sum_type, Fintype.sum_bool, ← add_assoc,
    ← add_assoc] at h_total
  have h_cells : ∑ slot, (Routing.held tr s (.inl slot) : Multiset (Ptr P)) =
      MPMC.cells (s.shared.queues .signal).ring := MPMC.sum_toList _
  rw [h_cells] at h_total
  refine ⟨h_total, hI.pending, ?_, ?_, ?_, ?_⟩
  · rintro msg (h_queued | ⟨i, h_pc⟩)
    · obtain ⟨slot, h_slot⟩ := MPMC.mem_cells.mp h_queued
      exact hI.queued slot msg h_slot
    · exact hI.popped i msg h_pc
  · intro i msg h_mem
    have h_released : msg ∈ Routing.held tr s (.inr (.inr false)) :=
      List.mem_filterMap.mpr ⟨_, List.mem_map_of_mem h_mem, rfl⟩
    obtain ⟨h_feed, h_side⟩ :=
      hI.released i msg h_mem (h_kind msg (hI.exclusive.live_of_mem h_released))
    exact ⟨h_side, h_feed, hI.free msg h_released⟩
  · intro msg h_msg
    obtain ⟨i, k, h_k⟩ := exists_pushedBy h_msg
    have h_built := hI.pushed i k msg h_k
    exact ⟨i, k, h_k, h_built.feed_eq, h_built.held⟩
  · intro i h_pc
    obtain ⟨built, counted, h_consumer, h_counts⟩ := hI.consumer i
    rw [h_pc] at h_counts
    refine ⟨?_, ?_⟩
    · -- the orders pushed are some of the signals of the start
      have h_card := congrArg Multiset.card h_total
      rw [Multiset.card_add, Multiset.card_add, Multiset.coe_card, Multiset.coe_card] at h_card
      have h_pushed : (pushes (Threads.eventsOf i tr)).length ≤
          (Routing.held tr s (.inr (.inr true))).length := (pushes_eventsOf_sublist i tr).length_le
      have h_room : Multiset.card (MPMC.cells (mem₀.queues .signal).ring) ≤ (cap .signal).val :=
        (mem₀.queues .signal).occupancy_le
      omega
    · rw [h_consumer, Consumer.after_submitted, h_counts.2]

end

/-- One consumer of each venue. -/
inductive Venue
  | ouch
  | nnf
  | sbe
  | mcx
  deriving DecidableEq

instance : Fintype Venue where
  elems := {.ouch, .nnf, .sbe, .mcx}
  complete venue := by cases venue <;> decide

/-- The consumer of a venue as it is constructed. -/
def Venue.consumer : Venue → Consumer
  | ouch => .ouch {}
  | nnf => .nnf {}
  | sbe => .sbe {}
  | mcx => .mcx {}

/-- Memory in which ticks below the reference price have become queued signals. -/
def emitted {cap : Stage → Capacity} (ticks : List Tick) : Memory threePool cap :=
  ticks.foldl (fun mem tick =>
    match producerOnTick ⟨MPMC.strong, MPMC.strong, 4⟩ mem { refPrice := 10000 } tick none with
    | none => mem
    | some (mem, _, _) => mem)
    ⟨TaggedPool.fresh fun _ => TaggedMessage.fresh, fun _ => MPMC.fresh _ _⟩

/-- An MTBT signal and an ITCH signal. -/
def twoSignals : Memory threePool fun _ => Capacity.four :=
  emitted [.mtbt { price := 9000 }, .itch { price := 9000 }]

/-- Each is first popped by the consumer of the other and put back, and then both orders are
built before either is pushed. -/
theorem routing_conserves_crossed :
    ∃ (tr : List (Venue × PollEvent threePool)) (s : Threads Venue _ _),
      (routing Venue threePool fun _ => Capacity.four).Reach
        (Routing.init twoSignals Venue.consumer) tr s ∧
      (∀ msg, msg = ⟨0, by decide⟩ ∨ msg = ⟨1, by decide⟩ → ∃ i k,
        (pushes (Threads.eventsOf i tr))[k]? = some msg ∧
          (signalAt twoSignals msg).feed = i.consumer.feed ∧
          ((i.consumer.after k 0).order (signalAt twoSignals msg)).HeldBy (s.shared.load msg)) ∧
      (s.loc .ouch).1.submitted = 1 ∧ (s.loc .nnf).1.submitted = 1 := by
  obtain ⟨tr, s, h_reach, h_run⟩ := Machine.exists_reach_of_run
    (routing Venue threePool fun _ => Capacity.four)
    (Routing.init twoSignals Venue.consumer)
    (([.ouch, .nnf, .ouch, .nnf, .nnf, .ouch, .nnf, .ouch, .ouch, .nnf, .ouch, .nnf] :
      List Venue).map fun venue => (venue, ⟨MPMC.strong, MPMC.strong, 4⟩))
    -- the run leaves both orders pushed and both consumers idle
    (fun s tr => decide (pushes (Threads.events tr) = [⟨1, by decide⟩, ⟨0, by decide⟩] ∧
      ((s.loc .ouch).2 = .idle ∧ pushes (Threads.eventsOf .ouch tr) = [⟨1, by decide⟩]) ∧
      (s.loc .nnf).2 = .idle ∧ pushes (Threads.eventsOf .nnf tr) = [⟨0, by decide⟩]))
    (by decide +kernel)
  obtain ⟨h_pushes, ⟨h_ouch, h_ouch_pushes⟩, h_nnf, h_nnf_pushes⟩ := of_decide_eq_true h_run
  obtain ⟨-, -, -, -, h_orders, h_counts⟩ :=
    routing_conserves (by decide +kernel) (by decide +kernel) h_reach
  -- each consumer has counted what it has pushed
  have h_ouch_count := (h_counts .ouch h_ouch).2
  have h_nnf_count := (h_counts .nnf h_nnf).2
  rw [h_ouch_pushes] at h_ouch_count
  rw [h_nnf_pushes] at h_nnf_count
  refine ⟨tr, s, h_reach, fun msg h_msg => h_orders msg ?_, h_ouch_count, h_nnf_count⟩
  rw [h_pushes]
  rcases h_msg with rfl | rfl <;> decide

end Trading

end Hft
