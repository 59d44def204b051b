import Mathlib.Data.Nat.Prime.Basic
import MpmcPipeline.Machine.Rotation
import MpmcPipeline.Trading.Moves

/-!
# Draining the signal queue

`drain_signals` polls the three consumers of `main` in turn, and a consumer that finds a
signal of another feed at the head puts it back at the tail. On a queue that holds signals
of the three feeds, with nobody else at work and no compare-exchange failing spuriously,
that is the rotation of `Machine/Rotation.lean` with three servers: every poll does to the
list of queued signals what `Rotation.poll` does, and what has left the list has become an
order (`Draining`).

So the queue is drained unless some pass over it leaves it blocked: a multiple of three
signals of which none stands opposite its own consumer (`drainSignals_drains_iff`). Three
signals can be enough (`drainSignals_blocked`).
-/

namespace Hft

open Function (update)
open Handoff (Env)

namespace Trading

variable {P : PoolCapacity} {cap : Stage → Capacity}

/-! ### The setting -/

/-- The place of a feed's consumer in a round of `drain_signals`. -/
def Kind.server : Kind → ℕ
  | .itch => 0
  | .mtbt => 1
  | _ => 2

/-- The feeds of the three consumers. -/
def Kind.Served (feed : Kind) : Prop := feed = .itch ∨ feed = .mtbt ∨ feed = .mcxMarket

/-- A feed's turn is its consumer's. -/
theorem Kind.server_modEq_iff {feed feed' : Kind} (h : Kind.Served feed)
    (h' : Kind.Served feed') : Kind.server feed ≡ Kind.server feed' [MOD 3] ↔ feed = feed' := by
  rcases h with rfl | rfl | rfl <;> rcases h' with rfl | rfl | rfl <;> decide

/-- The signal in a message. -/
def signalAt (mem : Memory P cap) (p : Ptr P) : StrategySignal :=
  Strategy.decodeSignal (mem.load p)

/-- The place of the consumer of a signal. -/
def serverAt (mem : Memory P cap) (p : Ptr P) : ℕ := Kind.server (signalAt mem p).feed

/-- The signal queue holds the signals `ptrs`, in order, and the pending queue has room for
their orders. -/
structure Queued (mem : Memory P cap) (ptrs : List (Ptr P)) : Prop where
  queue : (mem.queues .signal).Represents ptrs
  nodup : ptrs.Nodup
  kind : ∀ p ∈ ptrs, (mem.load p).kind = .signal
  side : ∀ p ∈ ptrs, (signalAt mem p).side = .buy ∨ (signalAt mem p).side = .sell
  feed : ∀ p ∈ ptrs, Kind.Served (signalAt mem p).feed
  room : (mem.queues .pending).occupancy + ptrs.length ≤ (cap .pending).val

/-- The signals are asked one by one, not the slots of the pool. -/
instance {q : Ptr P → Prop} [DecidablePred q] (ptrs : List (Ptr P)) :
    Decidable (∀ p ∈ ptrs, q p) := List.decidableBAll q ptrs

instance (mem : Memory P cap) (ptrs : List (Ptr P)) : Decidable (Queued mem ptrs) :=
  decidable_of_iff ((mem.queues .signal).Represents ptrs ∧ ptrs.Nodup ∧
      (∀ p ∈ ptrs, (mem.load p).kind = .signal) ∧
      (∀ p ∈ ptrs, (signalAt mem p).side = .buy ∨ (signalAt mem p).side = .sell) ∧
      (∀ p ∈ ptrs, (signalAt mem p).feed = .itch ∨ (signalAt mem p).feed = .mtbt ∨
        (signalAt mem p).feed = .mcxMarket) ∧
      (mem.queues .pending).occupancy + ptrs.length ≤ (cap .pending).val)
    ⟨fun ⟨h_queue, h_nodup, h_kind, h_side, h_feed, h_room⟩ =>
        ⟨h_queue, h_nodup, h_kind, h_side, h_feed, h_room⟩,
      fun h => ⟨h.queue, h.nodup, h.kind, h.side, h.feed, h.room⟩⟩

/-- Compare-exchanges fail on occupied cells only, and a push may probe every cell. -/
structure Calm (cap : Stage → Capacity) (env : Env) : Prop where
  strong : env.push = MPMC.strong
  signal_le : (cap .signal).val ≤ env.fuel
  pending_le : (cap .pending).val ≤ env.fuel

/-- The signal queue is empty, and every signal has become one order in the pending queue. -/
structure Drained (mem : Memory P cap) (ptrs : List (Ptr P)) (mem' : Memory P cap) : Prop where
  empty : ∀ slot, (mem'.queues .signal).ring slot = none
  pushed : MPMC.cells (mem'.queues .pending).ring = MPMC.cells (mem.queues .pending).ring + ptrs
  orders : ∀ p ∈ ptrs, ∃ order, OrderOf (signalAt mem p) order ∧ order.HeldBy (mem'.load p)

/-- **The simulation.** The signals `l` are left, in order and untouched; the others have
become one order each. -/
structure Draining (mem₀ : Memory P cap) (ptrs l : List (Ptr P)) (mem : Memory P cap) : Prop where
  queue : (mem.queues .signal).Represents l
  kept : ∀ p ∈ l, mem.load p = mem₀.load p
  ordered : ∃ done : List (Ptr P), (done ++ l).Perm ptrs ∧
    MPMC.cells (mem.queues .pending).ring = MPMC.cells (mem₀.queues .pending).ring + done ∧
    ∀ p ∈ done, ∃ order, OrderOf (signalAt mem₀ p) order ∧ order.HeldBy (mem.load p)

section

variable {env : Env} {mem₀ mem : Memory P cap} {ptrs l : List (Ptr P)} {p : Ptr P}

theorem Draining.start (h : Queued mem ptrs) : Draining mem ptrs ptrs mem :=
  ⟨h.queue, fun _ _ => rfl, [], List.Perm.refl _, by simp, fun _ h_p => nomatch h_p⟩

/-- A signal of another feed goes back to the tail. -/
theorem Draining.requeue (h : Draining mem₀ ptrs (p :: l) mem) (h_env : Calm cap env)
    {queue : MPMC (cap .signal) (Ptr P)} (h_queue : queue.Represents l) :
    ∃ mem', (mem.setQueue .signal queue).push env .signal p = some mem' ∧
      Draining mem₀ ptrs (l ++ [p]) mem' := by
  obtain ⟨queue', h_queue', h_push⟩ := Handoff.Shared.push_snoc
    (mem.setQueue .signal queue) .signal p
    (by rwa [Handoff.Shared.setQueue_self]) h.queue.fits h_env.strong h_env.signal_le
  refine ⟨_, h_push, ?_, fun q h_q => h.kept q ?_, ?_⟩
  · rwa [Handoff.Shared.setQueue_self]
  · simpa [or_comm] using h_q
  · obtain ⟨done, h_perm, h_cells, h_orders⟩ := h.ordered
    refine ⟨done, ?_, h_cells, h_orders⟩
    exact (List.perm_append_singleton p l).append_left done |>.trans h_perm

/-- A signal becomes an order. -/
theorem Draining.submit (h₀ : Queued mem₀ ptrs) (h : Draining mem₀ ptrs (p :: l) mem)
    (h_env : Calm cap env) {queue : MPMC (cap .signal) (Ptr P)} (h_queue : queue.Represents l)
    {order : Order} (h_order : OrderOf (signalAt mem₀ p) order) (m : TaggedMessage) :
    ∃ mem', ((mem.setQueue .signal queue).write p (order.writeTo m)).push env .pending p =
        some mem' ∧ Draining mem₀ ptrs l mem' := by
  obtain ⟨done, h_perm, h_cells, h_orders⟩ := h.ordered
  have h_nodup : (done ++ p :: l).Nodup := h_perm.nodup_iff.mpr h₀.nodup
  have h_queues : ((mem.setQueue .signal queue).write p (order.writeTo m)).queues .pending =
      mem.queues .pending := by
    rw [Handoff.Shared.write_queues, Handoff.Shared.setQueue_of_ne _ (by decide)]
  -- orders so far and signals left are as many as the signals at the start
  have h_room : (mem.queues .pending).occupancy < (cap .pending).val := by
    have h_total := h₀.room
    have h_length := h_perm.length_eq
    rw [List.length_append, List.length_cons] at h_length
    rw [MPMC.occupancy, h_cells, Multiset.card_add, Multiset.coe_card]
    rw [MPMC.occupancy] at h_total
    omega
  obtain ⟨queue', h_cells', h_push⟩ := Handoff.Shared.push_room
    ((mem.setQueue .signal queue).write p (order.writeTo m)) .pending p
    (by rwa [h_queues]) h_env.strong h_env.pending_le
  rw [h_queues, h_cells] at h_cells'
  -- the other messages stay
  have h_load : ∀ q, q ≠ p →
      ((mem.setQueue .signal queue).write p (order.writeTo m)).load q = mem.load q :=
    fun q h_q => Handoff.Shared.load_write_of_ne _ h_q _
  refine ⟨_, h_push, ?_, fun q h_q => ?_, done ++ [p], ?_, ?_, fun q h_q => ?_⟩
  · rwa [Handoff.Shared.setQueue_of_ne _ (by decide), Handoff.Shared.write_queues,
      Handoff.Shared.setQueue_self]
  · have h_ne : q ≠ p := by
      rintro rfl
      exact (List.nodup_cons.mp h_nodup.of_append_right).1 h_q
    rw [Handoff.Shared.setQueue_load, h_load q h_ne]
    exact h.kept q (List.mem_cons_of_mem p h_q)
  · rwa [List.append_assoc]
  · rw [Handoff.Shared.setQueue_self, h_cells', add_assoc]
    rfl
  · rcases List.mem_append.mp h_q with h_done | h_p
    · -- an earlier order, in another message
      have h_ne : q ≠ p := by
        rintro rfl
        exact (List.disjoint_of_nodup_append h_nodup) h_done List.mem_cons_self
      obtain ⟨order', h_order', h_held⟩ := h_orders q h_done
      refine ⟨order', h_order', ?_⟩
      rw [Handoff.Shared.setQueue_load, h_load q h_ne]
      exact h_held
    · obtain rfl := List.mem_singleton.mp h_p
      refine ⟨order, h_order, ?_⟩
      rw [Handoff.Shared.setQueue_load, Handoff.Shared.load_write]
      exact Order.heldBy_writeTo order m

/-- **Step.** A poll of the consumer whose turn it is does to the signals that are left what
`Rotation.poll` does. -/
theorem Draining.poll {t : ℕ} {feed : Kind} (order : StrategySignal → Order)
    (h₀ : Queued mem₀ ptrs) (h : Draining mem₀ ptrs l mem) (h_env : Calm cap env)
    (h_served : Kind.Served feed) (h_turn : Kind.server feed ≡ t [MOD 3])
    (h_order : ∀ signal : StrategySignal, signal.feed = feed → OrderOf signal (order signal)) :
    ∃ mem' submitted es, consumerPollOnce feed order env mem = some (mem', submitted, es) ∧
      Draining mem₀ ptrs (Rotation.poll 3 (serverAt mem₀) t l) mem' := by
  unfold consumerPollOnce
  cases l with
  | nil =>
    rw [Handoff.Shared.tryPop_nil h.queue]
    exact ⟨_, _, _, rfl, h⟩
  | cons p l =>
    obtain ⟨queue, h_queue, h_pop⟩ := Handoff.Shared.tryPop_cons h.queue
    have h_mem : p ∈ ptrs := by
      obtain ⟨done, h_perm, -⟩ := h.ordered
      exact h_perm.mem_iff.mp (List.mem_append_right _ List.mem_cons_self)
    have h_load : (mem.setQueue .signal queue).load p = mem₀.load p :=
      h.kept p List.mem_cons_self
    have h_own : serverAt mem₀ p ≡ t [MOD 3] ↔ (signalAt mem₀ p).feed = feed := by
      rw [← Kind.server_modEq_iff (h₀.feed p h_mem) h_served]
      exact ⟨fun h_eq => h_eq.trans h_turn.symm, fun h_eq => h_eq.trans h_turn⟩
    have h_side : (signalAt mem₀ p).side ≠ .none := by
      rcases h₀.side p h_mem with h_side | h_side <;> rw [h_side] <;> decide
    rw [h_pop, Rotation.poll]
    dsimp only
    rw [h_load, if_pos (h₀.kind p h_mem),
      show Strategy.decodeSignal (mem₀.load p) = signalAt mem₀ p from rfl]
    -- the consumer's test and the rotation's agree, by `h_own`
    by_cases h_feed : (signalAt mem₀ p).feed = feed
    · obtain ⟨mem', h_push, h'⟩ := h.submit h₀ h_env h_queue (h_order _ h_feed) (mem₀.load p)
      refine ⟨mem', true, [.ordered p (order (signalAt mem₀ p))], ?_, ?_⟩
      · rw [if_neg (not_not.mpr h_feed), if_neg h_side, h_push]
      · rwa [if_pos (h_own.mpr h_feed)]
    · obtain ⟨mem', h_push, h'⟩ := h.requeue h_env h_queue
      refine ⟨mem', false, [], ?_, ?_⟩
      · rw [if_pos h_feed, h_push]
      · rwa [if_neg fun h_eq => h_feed (h_own.mp h_eq)]

/-- A round is three polls. -/
theorem Draining.round {t : ℕ} (h₀ : Queued mem₀ ptrs) (h : Draining mem₀ ptrs l mem)
    (h_env : Calm cap env) (h_t : t ≡ 0 [MOD 3]) (self : Consumers) :
    ∃ mem' self' es, drainRound env mem self = some (mem', self', es) ∧
      Draining mem₀ ptrs (Rotation.polls 3 (serverAt mem₀) 3 t l) mem' := by
  -- the three consumers in turn, each against the front of what is left
  obtain ⟨mem₁, _, es₁, h_ouch, h₁⟩ := h.poll (fun signal => .ouch (ouchOrder signal)) h₀ h_env
    (Or.inl rfl) h_t.symm fun _ h_feed => ⟨h_feed, rfl⟩
  obtain ⟨mem₂, _, es₂, h_nnf, h₂⟩ := h₁.poll
    (fun signal => .nnf (nnfOrder self.nnf.traderId signal)) h₀ h_env
    (Or.inr (Or.inl rfl)) (h_t.symm.add_right 1) fun _ h_feed => ⟨h_feed, _, rfl⟩
  obtain ⟨mem₃, _, es₃, h_mcx, h₃⟩ := h₂.poll
    (fun signal => .mcx (mcxOrder self.mcx.nextSeq self.mcx.senderSubId
      self.mcx.simpleSecurityId signal)) h₀ h_env
    (Or.inr (Or.inr rfl)) (h_t.symm.add_right 2) fun _ h_feed => ⟨h_feed, _, _, _, rfl⟩
  -- a poll that works on the memory is a poll of the consumer with its members
  obtain ⟨ouch, h_ouch⟩ : ∃ ouch, self.ouch.pollOnce env mem = some (mem₁, ouch, es₁) :=
    exists_polled _ _ h_ouch
  obtain ⟨nnf, h_nnf⟩ : ∃ nnf, self.nnf.pollOnce env mem₁ = some (mem₂, nnf, es₂) :=
    exists_polled _ _ h_nnf
  obtain ⟨mcx, h_mcx⟩ : ∃ mcx, self.mcx.pollOnce env mem₂ = some (mem₃, mcx, es₃) :=
    exists_polled _ _ h_mcx
  refine ⟨mem₃, ⟨ouch, nnf, mcx⟩, es₁ ++ es₂ ++ es₃, ?_, h₃⟩
  unfold drainRound
  rw [h_ouch]
  dsimp only
  rw [h_nnf]
  dsimp only
  rw [h_mcx]

/-- **Run.** `drain_signals` is three polls a round, so what it leaves is what as many polls of the
rotation leave. -/
theorem Draining.rounds {t : ℕ} (h₀ : Queued mem₀ ptrs) (h : Draining mem₀ ptrs l mem)
    (h_env : Calm cap env) (h_t : t ≡ 0 [MOD 3]) (rounds : ℕ) (self : Consumers) :
    ∃ mem' self' es, drainSignals env rounds mem self = some (mem', self', es) ∧
      Draining mem₀ ptrs (Rotation.polls 3 (serverAt mem₀) (3 * rounds) t l) mem' := by
  -- induction on the rounds, each from the time the ones before it took
  induction rounds generalizing t l mem self with
  | zero => exact ⟨mem, self, [], rfl, h⟩
  | succ rounds ih =>
    obtain ⟨mem₁, self₁, es₁, h_round, h₁⟩ := h.round h₀ h_env h_t self
    have h_t' : t + 3 ≡ 0 [MOD 3] := by
      rw [Nat.ModEq, Nat.add_mod_right]
      exact h_t
    obtain ⟨mem₂, self₂, es₂, h_rest, h₂⟩ := ih h₁ h_t' self₁
    refine ⟨mem₂, self₂, es₁ ++ es₂, ?_, ?_⟩
    · rw [drainSignals, h_round]
      dsimp only
      rw [h_rest]
    · rwa [show 3 * (rounds + 1) = 3 + 3 * rounds by ring, Rotation.polls_add]

/-- The queue is drained when no signal is left. -/
theorem Draining.drained_iff (h : Draining mem₀ ptrs l mem) :
    Drained mem₀ ptrs mem ↔ l = [] := by
  constructor
  · intro h_drained
    -- a signal left is a full cell
    by_contra h_left
    obtain ⟨slot, h_full⟩ := h.queue.exists_full_iff.mpr h_left
    exact h_full (h_drained.empty slot)
  · rintro rfl
    obtain ⟨done, h_perm, h_cells, h_orders⟩ := h.ordered
    -- with none left, what has been done is all there was
    rw [List.append_nil] at h_perm
    refine ⟨fun slot => ?_, ?_, fun p h_p => h_orders p (h_perm.mem_iff.mpr h_p)⟩
    · by_contra h_full
      exact h.queue.exists_full_iff.mp ⟨slot, h_full⟩ rfl
    · rw [h_cells, Multiset.coe_eq_coe.mpr h_perm]

end

/-! ### When the queue is drained -/

/-- A pass that begins at time `s.1` finds signals left, as many as a multiple of three, and
none stands opposite its own consumer. -/
structure Blocked (server : Ptr P → ℕ) (s : ℕ × List (Ptr P)) : Prop where
  left : s.2 ≠ []
  three : 3 ∣ s.2.length
  foreign : ∀ i p, s.2[i]? = some p → ¬server p ≡ s.1 + i [MOD 3]

/-- With three consumers a blocked queue is a stuck one. -/
theorem blocked_iff {server : Ptr P → ℕ} {s : ℕ × List (Ptr P)} :
    Blocked server s ↔ Rotation.Stuck 3 server s := by
  constructor
  · intro h
    have h_gcd : s.2.length.gcd 3 = 3 := Nat.gcd_eq_right h.three
    exact ⟨h.left, by rw [h_gcd]; exact h.foreign⟩
  · intro h
    -- modulo one, every signal meets its consumer
    have h_gcd : s.2.length.gcd 3 = 3 := by
      have h_dvd : s.2.length.gcd 3 ∣ 3 := Nat.gcd_dvd_right s.2.length 3
      rcases (Nat.dvd_prime Nat.prime_three).mp h_dvd with h_one | h_three
      · obtain ⟨p, rest, h_s⟩ := List.exists_cons_of_ne_nil h.ne_nil
        have h_unmet := h.unmet 0 p (by rw [h_s]; rfl)
        rw [h_one] at h_unmet
        exact absurd (Nat.modEq_one) h_unmet
      · exact h_three
    refine ⟨h.ne_nil, ?_, ?_⟩
    · rw [← h_gcd]
      exact Nat.gcd_dvd_left _ _
    · have h_unmet := h.unmet
      rwa [h_gcd] at h_unmet

/-- Fewer than three signals are never blocked. -/
theorem not_blocked_of_length_lt {server : Ptr P → ℕ} {s : ℕ × List (Ptr P)}
    (h : s.2.length < 3) (k : ℕ) : ¬Blocked server ((Rotation.pass 3 server)^[k] s) := by
  intro h_blocked
  have h_three := Nat.le_of_dvd (List.length_pos_iff.mpr h_blocked.left) h_blocked.three
  have h_shorter := Rotation.iterate_length_le 3 server k s
  omega

section

variable {env : Env} {mem : Memory P cap} {ptrs : List (Ptr P)}

/-- Draining the queue is draining the rotation. -/
theorem drains_iff_polls (h : Queued mem ptrs) (h_env : Calm cap env) (self : Consumers) :
    (∃ R, ∀ rounds, R ≤ rounds → ∃ mem' self' es,
      drainSignals env rounds mem self = some (mem', self', es) ∧ Drained mem ptrs mem') ↔
      ∃ n, Rotation.polls 3 (serverAt mem) n 0 ptrs = [] := by
  have h_rounds := fun rounds =>
    (Draining.start h).rounds h h_env (Nat.ModEq.refl 0) rounds self
  constructor
  · rintro ⟨R, h_R⟩
    obtain ⟨mem', self', es, h_drain, h_drained⟩ := h_R R le_rfl
    obtain ⟨mem₁, self₁, es₁, h_drain₁, h₁⟩ := h_rounds R
    rw [h_drain] at h_drain₁
    cases h_drain₁
    exact ⟨3 * R, h₁.drained_iff.mp h_drained⟩
  · rintro ⟨n, h_n⟩
    -- `n` rounds are more than `n` polls, and an empty queue stays empty
    refine ⟨n, fun rounds h_le => ?_⟩
    obtain ⟨mem', self', es, h_drain, h'⟩ := h_rounds rounds
    refine ⟨mem', self', es, h_drain, h'.drained_iff.mpr ?_⟩
    exact Rotation.polls_eq_nil_of_le 3 (serverAt mem) h_n (by omega)

/-- **When the queue is drained.** Some number of rounds suffices exactly if no pass over the
queue leaves it blocked: starting with all signals at time zero, strike out the signals that
stand opposite their own consumer, go on with those left at the time the pass took, and never
find a multiple of three signals none of which can be struck out. -/
theorem drainSignals_drains_iff (h : Queued mem ptrs) (h_env : Calm cap env) (self : Consumers) :
    (∃ R, ∀ rounds, R ≤ rounds → ∃ mem' self' es,
      drainSignals env rounds mem self = some (mem', self', es) ∧ Drained mem ptrs mem') ↔
      ∀ k, ¬Blocked (serverAt mem) ((Rotation.pass 3 (serverAt mem))^[k] (0, ptrs)) := by
  simp only [blocked_iff]
  exact (drains_iff_polls h h_env self).trans
    (Rotation.exists_polls_eq_nil_iff (by norm_num) 0 ptrs)

end

/-- Two ticks for each of three producers; the second of each makes a signal. -/
def threeSignals : List Action :=
  [.onMtbtTick { price := 250000 }, .onMtbtTick { price := 240000 },
    .onMcxTick { bidPrice := 7200000, askPrice := 7200100 },
    .onMcxTick { bidPrice := 7100000, askPrice := 7100100 },
    .onItchTick { price := 10000 }, .onItchTick { price := 9000 }].map fun op =>
      ⟨op, fun _ => ⟨MPMC.strong, MPMC.strong, 4⟩⟩

theorem calm_four : Calm (fun _ => Capacity.four) ⟨MPMC.strong, MPMC.strong, 4⟩ :=
  ⟨rfl, le_rfl, le_rfl⟩

/-- The slots of the pool. -/
def threePtrs : List (Ptr threePool) := [⟨0, by decide⟩, ⟨1, by decide⟩, ⟨2, by decide⟩]

/-- The same ticks, those of ITCH before those of MCX and MTBT: the last two signals are put back
once, and then all three are drained. -/
theorem drainSignals_drains_three :
    ∃ (tr : List (Event threePool)) (w : World threePool fun _ => Capacity.four),
      (machine threePool fun _ => Capacity.four).Reach
        (World.init {} fun _ => TaggedMessage.fresh) tr w ∧
      threePtrs.map (fun p => (signalAt w.mem p).feed) = [.itch, .mcxMarket, .mtbt] ∧
      ∃ R, ∀ rounds, R ≤ rounds → ∃ mem' self' es,
        drainSignals ⟨MPMC.strong, MPMC.strong, 4⟩ rounds w.mem w.consumers =
          some (mem', self', es) ∧ Drained w.mem threePtrs mem' := by
  obtain ⟨tr, w, h_reach, h_run⟩ := Machine.exists_reach_of_run
    (machine threePool fun _ => Capacity.four) (World.init {} fun _ => TaggedMessage.fresh)
    (threeSignals.drop 4 ++ (threeSignals.drop 2).take 2 ++ threeSignals.take 2)
    (fun w _ => decide (Queued w.mem threePtrs ∧
      threePtrs.map (fun p => (signalAt w.mem p).feed) = [.itch, .mcxMarket, .mtbt] ∧
      threePtrs.map (serverAt w.mem) = [0, 2, 1] ∧
      (Rotation.pass 3 (serverAt w.mem) (0, threePtrs)).2.length = 2)) (by decide +kernel)
  obtain ⟨h_queued, h_feeds, h_servers, h_pass⟩ := of_decide_eq_true h_run
  refine ⟨tr, w, h_reach, h_feeds, (drainSignals_drains_iff h_queued calm_four w.consumers).mpr ?_⟩
  intro k
  cases k with
  | zero =>
    -- the first signal stands opposite its own consumer
    intro h_blocked
    have h_first : serverAt w.mem ⟨0, by decide⟩ = 0 := (List.cons.inj h_servers).1
    refine h_blocked.foreign 0 ⟨0, by decide⟩ rfl ?_
    rw [h_first]
    rfl
  | succ k =>
    -- two are left after the first pass
    rw [Function.iterate_succ_apply]
    exact not_blocked_of_length_lt (by rw [h_pass]; norm_num) k

/-- After all six ticks the signals are those of MTBT, MCX and ITCH, in this order. Each is
always offered to the consumer before its own, so that no number of rounds drains the queue. -/
theorem drainSignals_blocked :
    ∃ (tr : List (Event threePool)) (w : World threePool fun _ => Capacity.four),
      (machine threePool fun _ => Capacity.four).Reach
        (World.init {} fun _ => TaggedMessage.fresh) tr w ∧
      Queued w.mem threePtrs ∧
      threePtrs.map (fun p => (signalAt w.mem p).feed) = [.mtbt, .mcxMarket, .itch] ∧
      ¬∃ R, ∀ rounds, R ≤ rounds → ∃ mem' self' es,
        drainSignals ⟨MPMC.strong, MPMC.strong, 4⟩ rounds w.mem w.consumers =
          some (mem', self', es) ∧ Drained w.mem threePtrs mem' := by
  obtain ⟨tr, w, h_reach, h_run⟩ := Machine.exists_reach_of_run
    (machine threePool fun _ => Capacity.four) (World.init {} fun _ => TaggedMessage.fresh)
    threeSignals (fun w _ => decide (Queued w.mem threePtrs ∧
      threePtrs.map (fun p => (signalAt w.mem p).feed) = [.mtbt, .mcxMarket, .itch]))
    (by decide +kernel)
  obtain ⟨h_queued, h_feeds⟩ := of_decide_eq_true h_run
  refine ⟨tr, w, h_reach, h_queued, h_feeds, ?_⟩
  rw [drains_iff_polls h_queued calm_four, Rotation.exists_polls_eq_nil_iff (by norm_num)]
  -- after three polls the queue looks as before, with each signal one consumer off
  have h_blocked : Blocked (serverAt w.mem) (0, threePtrs) := by
    refine ⟨List.cons_ne_nil _ _, ⟨1, rfl⟩, fun i p h_p h_own => ?_⟩
    have h_feed : [Kind.mtbt, .mcxMarket, .itch][i]? = some (signalAt w.mem p).feed := by
      rw [← h_feeds, List.getElem?_map, h_p]
      rfl
    rw [serverAt] at h_own
    generalize (signalAt w.mem p).feed = feed at h_feed h_own
    match i, h_feed with
    -- the three feeds against the three consumers that come to them
    | 0, rfl => exact absurd h_own (by decide : ¬1 ≡ 0 [MOD 3])
    | 1, rfl => exact absurd h_own (by decide : ¬2 ≡ 1 [MOD 3])
    | 2, rfl => exact absurd h_own (by decide : ¬0 ≡ 2 [MOD 3])
  exact fun h_never => h_never 0 (blocked_iff.mp h_blocked)

end Trading

end Hft
