import MpmcPipeline.Mpmc.Search
import MpmcPipeline.Trading.Ingestion

/-!
# Frames without a consumer

Until the reader is stopped, nothing takes messages out of the market queue, so the ticks of the
frames pile up in it. A tick that finds no free slot is skipped and counted; `push` has no such
answer, and probes on until a cell is empty.

`filled` is the number of cells that are full once more ticks have come. A call leaves it as it
is, apart from ticks that a spurious failure of `acquire` has lost, so the calls on a sequence of
frames return exactly when it is at most `Capacity` (`returns_iff`).
-/

namespace Hft

open Handoff (Env)

namespace Trading

variable {P : PoolCapacity} {cap : Stage → Capacity}

/-! ### The calls -/

/-- An MTBT frame: packets with their own lengths and a tail that begins no packet. -/
structure MtbtFrame where
  packets : List (List Byte)
  tail : List Byte
  packets_ok : ∀ packet ∈ packets, MtbtPacket packet
  tail_ok : MtbtTail tail
  fits : (packets.flatten ++ tail).length + 2 ^ 15 ≤ 2 ^ 64

/-- The bytes of the frame. -/
def MtbtFrame.bytes (frame : MtbtFrame) : List Byte := frame.packets.flatten ++ frame.tail

/-- A frame and the function it is fed to; `none` is `nullptr`. -/
inductive FedFrame
  | itch (frame : Option (List Byte))
  | mtbt (frame : Option MtbtFrame)
  | mcx (frame : Option (List Byte))

/-- The messages of a frame, each with the tick it decodes to or none. -/
def FedFrame.messages : FedFrame → List (Option Tick)
  | itch (some frame) => (handedOver frame).map itchTick
  | mtbt (some frame) => frame.packets.map mtbtTick
  | mcx (some frame) => [mcxTick frame]
  | itch none | mtbt none | mcx none => []

/-- The ingest call. -/
def FedFrame.ingest (envs : ℕ → Env) (mem : Memory P cap) : FedFrame → Option (Memory P cap × Stats)
  | itch frame => (ingestItchFrame envs mem frame).map fun r => (r.1, r.2.1)
  | mtbt none => (ingestMtbtFrame envs 1 mem none).map fun r => (r.1, r.2.1)
  | mtbt (some frame) =>
    (ingestMtbtFrame envs (frame.packets.length + 1) mem (some frame.bytes)).map
      fun r => (r.1, r.2.1)
  | mcx frame => (ingestMcxTobFrame (envs 0) mem frame).map fun r => (r.1, r.2.1)

/-- The call counts a message that is not saved as skipped; the call on a tick has no such
count. -/
def FedFrame.Reports (stats : Stats) : FedFrame → Prop
  | mcx _ => stats.skipped = 0
  | frame => stats.saved + stats.skipped = frame.messages.length

/-- The calls on one frame after the other; `envs i k` is the environment of the `k`-th handler
call for the `i`-th frame. -/
def feed : (ℕ → ℕ → Env) → List FedFrame → Memory P cap → Option (Memory P cap × List Stats)
  | _, [], mem => some (mem, [])
  | envs, frame :: frames, mem =>
    match frame.ingest (envs 0) mem with
    | none => none
    | some (mem, stats) =>
      (feed (fun i => envs (i + 1)) frames mem).map fun r => (r.1, stats :: r.2)

/-- The ticks in a sequence of frames. -/
def ticksOf (frames : List FedFrame) : List Tick :=
  frames.flatMap fun frame => frame.messages.reduceOption

/-- **Ingestion never blocks its caller**: without a consumer, and whichever compare-exchanges fail
spuriously as long as none does so forever, every call returns; the messages reported as saved are
in the queue, and the others are reported as skipped. -/
def Returns (mem : Memory P cap) (frames : List FedFrame) : Prop :=
  ∀ envs : ℕ → ℕ → Env, (∀ i k, MPMC.Fair (cap .market) (envs i k).push (envs i k).fuel) →
    ∃ mem' stats, feed envs frames mem = some (mem', stats) ∧
      List.Forall₂ FedFrame.Reports stats frames ∧
      (mem'.queues .market).occupancy =
        (mem.queues .market).occupancy + (stats.map Stats.saved).sum

/-- How many cells are full once `n` more ticks have been stored as far as slots are free. -/
def filled (mem : Memory P cap) (n : ℕ) : ℕ :=
  (mem.queues .market).occupancy + min mem.pool.free n

/-! ### One tick -/

section

variable {env : Env} {mem mem' : Memory P cap} {tick : Tick} {stored : Bool} {es : List (Event P)}

/-- A tick that is stored takes a slot and fills a cell. -/
theorem storeTick_counts (h : storeTick env mem tick = some (mem', stored, es)) :
    (mem'.queues .market).occupancy = (mem.queues .market).occupancy + stored.toNat ∧
      mem'.pool.free + stored.toNat = mem.pool.free := by
  unfold storeTick at h
  split at h
  · -- no slot, so the tick is dropped and nothing counts
    next h_acquire =>
    cases h
    rw [acquireFilled_none h_acquire]
    exact ⟨rfl, rfl⟩
  · -- a slot, and then the call returns only if the push does
    next p mem₁ h_acquire =>
    obtain ⟨h_free, rfl⟩ := acquireFilled_some h_acquire
    split at h
    · cases h
    · next mem₂ h_push =>
      cases h
      rw [Handoff.Shared.push] at h_push
      split at h_push
      · cases h_push
      · next queue h_queue =>
        cases h_push
        rw [Handoff.Shared.setQueue_self]
        exact ⟨MPMC.push_occupancy h_queue, TaggedPool.free_acquired h_free tick.image⟩

/-- A tick is stored or skipped if the queue has room for all that are to come. -/
theorem storeTick_fair (h_fair : MPMC.Fair (cap .market) env.push env.fuel) (tick : Tick) {n : ℕ}
    (h_room : filled mem (n + 1) ≤ (cap .market).val) :
    ∃ mem' stored es, storeTick env mem tick = some (mem', stored, es) ∧
      filled mem' n ≤ (cap .market).val := by
  have h_some : ∃ r, storeTick env mem tick = some r := by
    unfold storeTick
    cases h_acquire : tick.acquireFilled env mem with
    | mk result mem₁ =>
      cases result with
      | none => exact ⟨_, rfl⟩
      | some p =>
        obtain ⟨h_free, rfl⟩ := acquireFilled_some h_acquire
        -- the slot was free, so this tick is one of those there is room for
        have h_count := TaggedPool.free_acquired h_free tick.image
        have h_cell : (mem.queues .market).occupancy < (cap .market).val := by
          rw [filled] at h_room
          omega
        obtain ⟨i, h_empty⟩ := MPMC.exists_empty_of_room h_cell
        obtain ⟨queue, h_queue⟩ := MPMC.push_fair (mem.queues .market) p h_empty h_fair
        dsimp only [Handoff.Shared.push]
        rw [h_queue]
        exact ⟨_, rfl⟩
  obtain ⟨⟨mem', stored, es⟩, h_store⟩ := h_some
  obtain ⟨h_occupancy, h_free⟩ := storeTick_counts h_store
  have h_one := Bool.toNat_le stored
  refine ⟨mem', stored, es, h_store, ?_⟩
  rw [filled] at h_room ⊢
  omega

/-- A strong `acquire` skips a tick on an exhausted pool only. -/
theorem storeTick_strong (h_strong : env.acquire = MPMC.strong)
    (h : storeTick env mem tick = some (mem', stored, es)) (n : ℕ) :
    filled mem' n = filled mem (n + 1) := by
  have h_stored : stored = false → mem.pool.free = 0 := by
    rintro rfl
    -- with a slot free, `acquire` finds one, and then the tick is stored
    by_contra h_free
    obtain ⟨p, mem₁, h_acquire⟩ := exists_acquireFilled tick h_strong h_free
    unfold storeTick at h
    rw [h_acquire] at h
    dsimp only at h
    split at h
    · cases h
    · cases h
  obtain ⟨h_occupancy, h_free⟩ := storeTick_counts h
  have h_one := Bool.toNat_le stored
  have h_zero : stored.toNat = 0 → mem.pool.free = 0 := fun h_eq =>
    h_stored (Bool.toNat_eq_zero.mp h_eq)
  rw [filled, filled]
  omega

end

/-! ### One frame -/

section

variable {envs : ℕ → Env}

/-- The handler's run over a frame's messages returns if the queue has room for these ticks and
the `n` after them. -/
theorem handle_fair (h_fair : ∀ k, MPMC.Fair (cap .market) (envs k).push (envs k).fuel)
    (decoded : List (Option Tick)) {n : ℕ} (s : Ingest P cap)
    (h_room : filled s.mem (decoded.reduceOption.length + n) ≤ (cap .market).val) :
    ∃ s' answers, Splitter.handle (Ingest.store envs) decoded s = some (s', answers) ∧
      filled s'.mem n ≤ (cap .market).val ∧
      (s'.mem.queues .market).occupancy =
        (s.mem.queues .market).occupancy + answers.count true := by
  -- induction on the messages; the invariant is that there is room for all ticks to come
  induction decoded generalizing s with
  | nil =>
    rw [List.reduceOption_nil, List.length_nil, Nat.zero_add] at h_room
    exact ⟨s, [], rfl, h_room, rfl⟩
  | cons first decoded ih =>
    cases first with
    | none =>
      rw [List.reduceOption_cons_of_none] at h_room
      obtain ⟨s', answers, h_handle, h_left, h_count⟩ := ih { s with calls := s.calls + 1 } h_room
      refine ⟨s', false :: answers, ?_, h_left, ?_⟩
      · rw [handle_skip, h_handle]
        rfl
      · rwa [List.count_cons_of_ne (by decide)]
    | some tick =>
      rw [List.reduceOption_cons_of_some, List.length_cons, Nat.succ_add] at h_room
      obtain ⟨mem', stored, es, h_store, h_next⟩ :=
        storeTick_fair (h_fair s.calls) tick h_room
      obtain ⟨h_occupancy, -⟩ := storeTick_counts h_store
      obtain ⟨s', answers, h_handle, h_left, h_count⟩ :=
        ih ⟨s.calls + 1, mem', s.shown ++ es⟩ h_next
      refine ⟨s', stored :: answers, ?_, h_left, ?_⟩
      · rw [handle_store h_store, h_handle]
        rfl
      · rw [h_count, h_occupancy, List.count_cons]
        cases stored with
        | false => rfl
        | true => exact Nat.add_right_comm _ _ _

/-- A run that returns has stored what slots were free for. -/
theorem handle_strong (h_strong : ∀ k, (envs k).acquire = MPMC.strong)
    {decoded : List (Option Tick)} {s s' : Ingest P cap} {answers : List Bool}
    (h : Splitter.handle (Ingest.store envs) decoded s = some (s', answers)) (n : ℕ) :
    filled s'.mem n = filled s.mem (decoded.reduceOption.length + n) := by
  -- message by message, with the number of the call in the state
  induction decoded generalizing s answers with
  | nil =>
    cases h
    rw [List.reduceOption_nil, List.length_nil, Nat.zero_add]
  | cons first decoded ih =>
    cases first with
    | none =>
      -- a message that is no tick costs a call, but neither slot nor cell
      rw [handle_skip] at h
      obtain ⟨⟨s₂, rest⟩, h_rest, h_eq⟩ := Option.map_eq_some_iff.mp h
      cases h_eq
      rw [List.reduceOption_cons_of_none]
      exact ih (s := { s with calls := s.calls + 1 }) h_rest
    | some tick =>
      rw [List.reduceOption_cons_of_some, List.length_cons, Nat.succ_add]
      cases h_store : storeTick (envs s.calls) s.mem tick with
      | none =>
        -- the store does not return
        rw [Splitter.handle, Ingest.store, h_store] at h
        cases h
      | some r =>
        -- the store takes the slot if one is free
        obtain ⟨mem', stored, es⟩ := r
        rw [handle_store h_store] at h
        obtain ⟨⟨s₂, rest⟩, h_rest, h_eq⟩ := Option.map_eq_some_iff.mp h
        cases h_eq
        rw [ih h_rest]
        exact storeTick_strong (h_strong s.calls) h_store _

/-- **A call is the handler's run over the messages of its frame**, with the answers reported. -/
theorem FedFrame.ingest_eq (envs : ℕ → Env) (mem : Memory P cap) (frame : FedFrame) :
    ∃ report : List Bool → Stats,
      (∀ answers, answers.length = frame.messages.length →
        (report answers).saved = answers.count true ∧ frame.Reports (report answers)) ∧
      frame.ingest envs mem =
        (Splitter.handle (Ingest.store envs) frame.messages ⟨0, mem, []⟩).map
          fun r => (r.1.mem, report r.2) := by
  -- the splitters report as many messages saved and skipped as answers are given
  have h_after : ∀ (messages : List (Option Tick)) (consumed : ℕ) (answers : List Bool),
      answers.length = messages.length →
        (Stats.after {} answers consumed).saved = answers.count true ∧
          (Stats.after {} answers consumed).saved + (Stats.after {} answers consumed).skipped =
            messages.length := by
    intro messages consumed answers h_length
    obtain ⟨h_saved, h_total⟩ := Stats.after_total answers consumed
    exact ⟨h_saved, h_total.trans h_length⟩
  cases frame with
  | itch frame =>
    cases frame with
    | none => exact ⟨fun answers => Stats.after {} answers 0, h_after [] 0, rfl⟩
    | some frame =>
      -- an ITCH frame is handed over along its parse
      obtain ⟨bodies, rest, h_parse⟩ := exists_itchParse frame
      refine ⟨_, h_after _ (itchConsumed bodies rest), ?_⟩
      rw [ingest, messages, h_parse.ingestItchFrame_eq, h_parse.handedOver_eq, Option.map_map]
      rfl
  | mtbt frame =>
    cases frame with
    | none => exact ⟨fun answers => Stats.after {} answers 0, h_after [] 0, rfl⟩
    | some frame =>
      -- an MTBT frame is handed over packet by packet
      refine ⟨_, h_after _ frame.packets.flatten.length, ?_⟩
      rw [ingest, messages, MtbtFrame.bytes, ingestMtbtFrame_packets frame.packets_ok frame.tail_ok
        frame.fits (Nat.lt_succ_self _), Option.map_map]
      rfl
  | mcx frame =>
    cases frame with
    | none => exact ⟨mcxStats, fun answers _ => ⟨rfl, rfl⟩, rfl⟩
    | some frame =>
      -- an MCX frame is one message, so the report is made of one answer
      refine ⟨mcxStats, fun answers _ => ⟨rfl, rfl⟩, ?_⟩
      rw [ingest, messages, ingestMcxTobFrame_eq, Option.map_map]
      rfl

end

/-! ### All frames -/

/-- The calls return if the queue has room for the ticks of their frames. -/
theorem feed_fair {envs : ℕ → ℕ → Env}
    (h_fair : ∀ i k, MPMC.Fair (cap .market) (envs i k).push (envs i k).fuel)
    (frames : List FedFrame) (mem : Memory P cap)
    (h_room : filled mem (ticksOf frames).length ≤ (cap .market).val) :
    ∃ mem' stats, feed envs frames mem = some (mem', stats) ∧
      List.Forall₂ FedFrame.Reports stats frames ∧
      (mem'.queues .market).occupancy =
        (mem.queues .market).occupancy + (stats.map Stats.saved).sum := by
  induction frames generalizing envs mem with
  | nil => exact ⟨mem, [], rfl, .nil, rfl⟩
  | cons frame frames ih =>
    rw [ticksOf, List.flatMap_cons, List.length_append] at h_room
    obtain ⟨report, h_report, h_ingest⟩ := frame.ingest_eq (envs 0) mem
    -- the first frame finds room, and leaves room for the others
    obtain ⟨s', answers, h_handle, h_left, h_count⟩ :=
      handle_fair (h_fair 0) frame.messages ⟨0, mem, []⟩ h_room
    obtain ⟨h_saved, h_reports⟩ := h_report answers (Splitter.handle_length h_handle)
    obtain ⟨mem', stats, h_feed, h_all, h_sum⟩ := ih (fun i => h_fair (i + 1)) s'.mem h_left
    refine ⟨mem', report answers :: stats, ?_, .cons h_reports h_all, ?_⟩
    · rw [feed, h_ingest, h_handle]
      dsimp only [Option.map_some]
      rw [h_feed]
      rfl
    · rw [h_sum, h_count, List.map_cons, List.sum_cons, h_saved, Nat.add_assoc]

/-- Calls that return have stored what slots were free for. -/
theorem feed_strong {envs : ℕ → ℕ → Env} (h_strong : ∀ i k, (envs i k).acquire = MPMC.strong)
    {frames : List FedFrame} {mem mem' : Memory P cap} {stats : List Stats}
    (h : feed envs frames mem = some (mem', stats)) :
    (mem'.queues .market).occupancy = filled mem (ticksOf frames).length := by
  induction frames generalizing envs mem stats with
  | nil =>
    cases h
    rw [ticksOf, List.flatMap_nil, List.length_nil, filled, Nat.min_zero, Nat.add_zero]
  | cons frame frames ih =>
    -- the first frame has filled its share, and the others go on from there
    obtain ⟨report, -, h_ingest⟩ := frame.ingest_eq (envs 0) mem
    rw [feed, h_ingest] at h
    cases h_handle : Splitter.handle (Ingest.store (envs 0)) frame.messages ⟨0, mem, []⟩ with
    | none =>
      rw [h_handle] at h
      cases h
    | some r =>
      obtain ⟨s', answers⟩ := r
      rw [h_handle] at h
      obtain ⟨⟨mem₂, rest⟩, h_rest, h_eq⟩ := Option.map_eq_some_iff.mp h
      cases h_eq
      rw [ih (fun i => h_strong (i + 1)) h_rest, handle_strong (h_strong 0) h_handle, ticksOf,
        ticksOf, List.flatMap_cons, List.length_append]

/-- More ticks than the queue has room for block a call. -/
theorem feed_blocks {envs : ℕ → ℕ → Env} (h_strong : ∀ i k, (envs i k).acquire = MPMC.strong)
    {frames : List FedFrame} {mem : Memory P cap}
    (h_full : (cap .market).val < filled mem (ticksOf frames).length) :
    feed envs frames mem = none := by
  rw [Option.eq_none_iff_forall_ne_some]
  rintro ⟨mem', stats⟩ h_feed
  have h_le := (mem'.queues .market).occupancy_le
  rw [feed_strong h_strong h_feed] at h_le
  exact absurd h_full (Nat.not_lt.mpr h_le)

/-- Nothing fails spuriously, and a call makes one round of probes. -/
def calmEnvs (C : Capacity) (_ _ : ℕ) : Env := ⟨MPMC.strong, MPMC.strong, C.val⟩

theorem calmEnvs_fair (C : Capacity) (i k : ℕ) :
    MPMC.Fair C (calmEnvs C i k).push (calmEnvs C i k).fuel :=
  ⟨0, fun _ _ => rfl, Nat.le_of_eq (Nat.zero_add _)⟩

/-- **When ingestion does not block.** Without a consumer, the calls on a sequence of frames return
exactly when the full cells and the ticks that find a slot are at most `Capacity`; if they are
more, a call blocks whatever the environment, short of an `acquire` that fails spuriously. -/
theorem returns_iff (mem : Memory P cap) (frames : List FedFrame) :
    (Returns mem frames ↔
      (mem.queues .market).occupancy + min mem.pool.free (ticksOf frames).length ≤
        (cap .market).val) ∧
    ((cap .market).val <
        (mem.queues .market).occupancy + min mem.pool.free (ticksOf frames).length →
      ∀ envs : ℕ → ℕ → Env, (∀ i k, (envs i k).acquire = MPMC.strong) →
        feed envs frames mem = none) := by
  refine ⟨⟨fun h => ?_, fun h envs h_fair => feed_fair h_fair frames mem h⟩,
    fun h_full envs h_strong => feed_blocks h_strong h_full⟩
  -- an environment in which nothing fails spuriously is fair, and there the calls block
  obtain ⟨mem', stats, h_feed, -⟩ := h (calmEnvs (cap .market)) (calmEnvs_fair _)
  by_contra h_full
  rw [feed_blocks (fun _ _ => rfl) (Nat.not_le.mp h_full)] at h_feed
  cases h_feed

/-! ### Any number of frames -/

/-- `n` ITCH frames of one add order. -/
def orderFrames (n : ℕ) : List FedFrame :=
  List.replicate n (.itch (some (itchStream [addOrder])))

theorem orderFrames_ticks (n : ℕ) : (ticksOf (orderFrames n)).length = n := by
  have h_one : (FedFrame.itch (some (itchStream [addOrder]))).messages.reduceOption.length = 1 := by
    decide +kernel
  rw [ticksOf, List.length_flatMap, orderFrames, List.map_replicate, h_one,
    List.sum_replicate_nat, Nat.mul_one]

/-- Every sequence of frames returns exactly when the full cells and the free slots are at most
`Capacity`, so that the pool runs out before the queue is full. -/
theorem returns_always_iff (mem : Memory P cap) :
    (∀ frames, Returns mem frames) ↔
      (mem.queues .market).occupancy + mem.pool.free ≤ (cap .market).val := by
  constructor
  · intro h
    -- with one tick more than there is room for, as many as slots are free
    by_contra h_full
    obtain ⟨mem', stats, h_feed, -⟩ :=
      h (orderFrames mem.pool.free) (calmEnvs (cap .market)) (calmEnvs_fair _)
    have h_filled :
        (cap .market).val < filled mem (ticksOf (orderFrames mem.pool.free)).length := by
      rw [orderFrames_ticks, filled, min_self]
      exact Nat.not_le.mp h_full
    rw [feed_blocks (fun _ _ => rfl) h_filled] at h_feed
    cases h_feed
  · -- never more ticks are stored than slots are free
    intro h frames envs h_fair
    exact feed_fair h_fair frames mem (le_trans (Nat.add_le_add_left (min_le_left _ _) _) h)

/-- The memory `main` starts with: every slot free and every queue empty. -/
def started (P : PoolCapacity) (cap : Stage → Capacity) : Memory P cap :=
  ⟨.fresh fun _ => TaggedMessage.fresh, fun stage => .fresh (cap stage) _⟩

theorem started_filled (n : ℕ) : filled (started P cap) n = min P.val n := by
  have h_all : ∀ p ∈ Finset.univ, ((started P cap).pool.slots p).state = 0 := fun _ _ => rfl
  have h_free : (started P cap).pool.free = P.val := by
    rw [TaggedPool.free, Finset.filter_true_of_mem h_all, Finset.card_univ, Fintype.card_fin]
  rw [filled, h_free, MPMC.occupancy_of_empty fun _ => rfl, Nat.zero_add]

/-- `kQueueCap` -/
def kQueueCap : Capacity := ⟨4096, by decide, by decide, by decide⟩

/-- `kPoolCap`, in a region that starts at the second page. -/
def kPoolCap : PoolCapacity := ⟨16384, by decide, 4096, by decide, by decide⟩

/-- The pool of `main` is larger than its queue, so it does not run out in time, and one order more
than the queue holds blocks the reader. -/
theorem orderFrames_block :
    ¬Returns (started kPoolCap fun _ => kQueueCap) (orderFrames 4097) ∧
    ∀ envs : ℕ → ℕ → Env, (∀ i k, (envs i k).acquire = MPMC.strong) →
      feed envs (orderFrames 4097) (started kPoolCap fun _ => kQueueCap) = none := by
  have h_full : kQueueCap.val <
      filled (started kPoolCap fun _ => kQueueCap) (ticksOf (orderFrames 4097)).length := by
    rw [started_filled, orderFrames_ticks]
    decide
  refine ⟨fun h => ?_, fun envs h_strong => feed_blocks h_strong h_full⟩
  obtain ⟨mem', stats, h_feed, -⟩ := h (calmEnvs kQueueCap) (calmEnvs_fair _)
  rw [feed_blocks (fun _ _ => rfl) h_full] at h_feed
  cases h_feed

end Trading

end Hft
