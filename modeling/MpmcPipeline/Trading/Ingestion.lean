import Mathlib.Data.List.ReduceOption
import MpmcPipeline.Trading.ItchFrames
import MpmcPipeline.Trading.Moves
import MpmcPipeline.Trading.MtbtFrames

/-!
# What an ingest call does to memory

With no other thread running and strong exchanges, `acquire` fails on an exhausted pool only and
`push` fills the first empty cell, so an ingest call is determined by its frame and by the number
of free slots: it stores the messages of the frame that decode, in order, as long as slots are
left, and skips all others (`ingest_effect`).

`Ingested` says what stored messages have done to memory. It grows by one message at a time
(`Ingested.store`), and a run of the handler over any messages keeps it (`Ingested.handle`).
-/

namespace Hft

open Handoff (Env)
open Splitter (handle)

namespace Trading

/-- An acquired slot filled with a tick: the tag, the bytes of the record, and zeros. -/
def Tick.image : Tick → TaggedMessage
  | itch tick => TaggedMessage.fresh.fill tick
  | mtbt tick => TaggedMessage.fresh.fill tick
  | sbe tick => TaggedMessage.fresh.fill tick
  | mcx tick => TaggedMessage.fresh.fill tick

/-- The tick in the body of an ITCH message: an add order, of 36 bytes and type `A`. -/
def itchTick (body : List Byte) : Option Tick :=
  let order := ItchAddOrder.codec.get (frameMemory body)
  if body.length = 36 ∧ order.messageType = 0x41 then some (.itch order) else none

/-- The tick in an MTBT packet: an order, of 34 bytes and type `N`, `M` or `X`. -/
def mtbtTick (packet : List Byte) : Option Tick :=
  let order := MtbtNewOrder.codec.get (frameMemory (packet.drop 8))
  if packet.length = 34 ∧
      (order.messageType = 0x4E ∨ order.messageType = 0x4D ∨ order.messageType = 0x58)
  then some (.mtbt order) else none

/-- The tick in a frame of top of book: the frame itself, of 56 bytes. -/
def mcxTick (frame : List Byte) : Option Tick :=
  if frame.length = 56 then some (.mcx (TopOfBook.codec.get (frameMemory frame))) else none

/-! ### The decoders -/

theorem frameMemory_left {bytes behind : List Byte} {k : ℕ} (h : k < bytes.length) :
    frameMemory (bytes ++ behind) k = frameMemory bytes k := List.getD_append _ _ _ _ h

/-- The handler looks at the body only, whatever is behind it. -/
theorem decodeItchAddOrder_eq (body behind : List Byte) :
    (decodeItchAddOrder (body ++ behind) body.length).map .itch = itchTick body := by
  rw [decodeItchAddOrder, itchTick]
  -- a body of 36 bytes is copied, and the copy reads nothing behind it
  by_cases h_len : body.length = 36
  · have h_get : ItchAddOrder.codec.get (frameMemory (body ++ behind)) =
        ItchAddOrder.codec.get (frameMemory body) := by
      refine ItchAddOrder.codec.get_congr fun k h_k => ?_
      have h_size : ItchAddOrder.codec.size = 36 := rfl
      exact frameMemory_left (by omega)
    rw [if_neg (not_not.mpr h_len), h_get]
    by_cases h_type : (ItchAddOrder.codec.get (frameMemory body)).messageType = 0x41
    · rw [if_pos h_type, if_pos ⟨h_len, h_type⟩]
      rfl
    · rw [if_neg h_type, if_neg fun h => h_type h.2]
      rfl
  · rw [if_pos h_len, if_neg fun h => h_len h.1]
    rfl

theorem decodeMtbtOrder_eq {packet : List Byte} (h : MtbtPacket packet) (behind : List Byte) :
    (decodeMtbtOrder (packet ++ behind) packet.length).map (fun decoded => .mtbt decoded.order) =
      mtbtTick packet := by
  -- the header is read from the packet's own first bytes
  have h_header : decodeMtbtStreamHeader (packet ++ behind) packet.length =
      some (headerOf packet) := by
    rw [← headerOf_append h.long behind]
    exact if_neg (Nat.not_lt.mpr h.long)
  -- the length in the header is that of the packet
  have h_msgLen : (headerOf packet).msgLen = 34 ↔ packet.length = 34 := by
    rw [← BitVec.toInt_inj, h.msgLen]
    exact Int.ofNat_inj
  rw [decodeMtbtOrder, h_header, mtbtTick]
  -- a packet of 34 bytes carries a body, and the copy stays within the packet
  by_cases h_len : packet.length = 34
  · have h_get : MtbtNewOrder.codec.get (frameMemory ((packet ++ behind).drop 8)) =
        MtbtNewOrder.codec.get (frameMemory (packet.drop 8)) := by
      refine MtbtNewOrder.codec.get_congr fun k h_k => ?_
      have h_size : MtbtNewOrder.codec.size = 26 := rfl
      rw [List.drop_append_of_le_length h.long]
      exact frameMemory_left (by rw [List.length_drop]; omega)
    have h_body : ¬packet.length - 8 < 26 := by omega
    dsimp only
    rw [if_neg (by omega), if_neg (not_not.mpr (h_msgLen.mpr h_len)), decodeMtbtOrderBody,
      if_neg h_body, h_get]
    dsimp only
    by_cases h_type :
        (MtbtNewOrder.codec.get (frameMemory (packet.drop 8))).messageType = 0x4E ∨
        (MtbtNewOrder.codec.get (frameMemory (packet.drop 8))).messageType = 0x4D ∨
        (MtbtNewOrder.codec.get (frameMemory (packet.drop 8))).messageType = 0x58
    · rw [if_pos h_type, if_pos ⟨h_len, h_type⟩]
      rfl
    · rw [if_neg h_type, if_neg fun h => h_type h.2]
      rfl
  · dsimp only
    rw [if_pos fun h_eq => h_len (h_msgLen.mp h_eq), ite_self, if_neg fun h => h_len h.1]
    rfl

/-! ### One message -/

variable {P : PoolCapacity} {cap : Stage → Capacity}

/-- What the messages of `ticks` have done to memory: they are in the slots `ptrs`, which were
free and are acquired, and these are pushed into the market queue in order; no other slot, no
other cell and no other queue has changed. -/
structure Ingested (mem : Memory P cap) (ticks : List Tick) (ptrs : List (Ptr P))
    (mem' : Memory P cap) : Prop where
  nodup : ptrs.Nodup
  was_free : ∀ p ∈ ptrs, (mem.pool.slots p).state = 0
  stored : ptrs.map mem'.pool.slots = ticks.map fun tick => ⟨tick.image, 1⟩
  others : ∀ p ∉ ptrs, mem'.pool.slots p = mem.pool.slots p
  free_eq : mem'.pool.free + ptrs.length = mem.pool.free
  pushed : ∃ ns, (mem.queues .market).Appended ptrs ns (mem'.queues .market)
  queues : ∀ q ≠ .market, mem'.queues q = mem.queues q

theorem Ingested.nil (mem : Memory P cap) : Ingested mem [] [] mem where
  nodup := List.nodup_nil
  was_free _ h := absurd h List.not_mem_nil
  stored := rfl
  others _ _ := rfl
  free_eq := rfl
  pushed := ⟨[], .nil _⟩
  queues _ _ := rfl

section

variable {env : Env} {mem mem₁ mem₂ : Memory P cap} {tick : Tick} {ticks : List Tick}
  {ptrs : List (Ptr P)}

theorem acquireFilled_some {p : Ptr P} (h : tick.acquireFilled env mem = (some p, mem₁)) :
    (mem.pool.slots p).state = 0 ∧
      mem₁ = { mem with pool := (mem.pool.setState p 1).store p tick.image } := by
  cases tick <;> exact Handoff.Shared.acquireFilled_some h

/-- A strong `acquire_filled` finds a slot as long as one is free. -/
theorem exists_acquireFilled (tick : Tick) (h_strong : env.acquire = MPMC.strong)
    (h_free : mem.pool.free ≠ 0) : ∃ p mem', tick.acquireFilled env mem = (some p, mem') := by
  have h_none : ∀ mem', tick.acquireFilled env mem ≠ (none, mem') := by
    intro mem' h_eq
    cases tick
    all_goals
      simp only [Tick.acquireFilled, Handoff.Shared.acquireFilled, h_strong, Prod.mk.injEq] at h_eq
      exact h_free (TaggedPool.acquireFilled_strong_eq_none (Prod.ext h_eq.1 rfl))
  cases h_eq : tick.acquireFilled env mem with
  | mk result mem' =>
    cases result with
    | none => exact absurd h_eq (h_none mem')
    | some p => exact ⟨p, mem', rfl⟩

/-- On an exhausted pool a message is skipped. -/
theorem storeTick_exhausted (h : mem.pool.free = 0) :
    storeTick env mem tick = some (mem, false, []) := by
  unfold storeTick
  cases h_acquire : tick.acquireFilled env mem with
  | mk result mem' =>
    cases result with
    | none => rw [acquireFilled_none h_acquire]
    | some p =>
      exact absurd (acquireFilled_some h_acquire).1 (TaggedPool.free_eq_zero_iff.mp h p)

theorem Ingested.length_eq (h : Ingested mem ticks ptrs mem₁) : ptrs.length = ticks.length := by
  have h_map := congrArg List.length h.stored
  rwa [List.length_map, List.length_map] at h_map

/-- The slots after one more has been acquired and filled. -/
theorem Ingested.acquire (h : Ingested mem ticks ptrs mem₁) (tick : Tick) {p : Ptr P}
    (h_free : (mem₁.pool.slots p).state = 0) :
    p ∉ ptrs ∧ (mem.pool.slots p).state = 0 ∧
      (ptrs ++ [p]).map ((mem₁.pool.setState p 1).store p tick.image).slots =
        (ticks ++ [tick]).map (fun tick => (⟨tick.image, 1⟩ : Slot)) ∧
      ∀ q ∉ ptrs ++ [p],
        ((mem₁.pool.setState p 1).store p tick.image).slots q = mem.pool.slots q := by
  have h_new : p ∉ ptrs := by
    intro h_mem
    -- the slots of stored messages are acquired
    have h_slot : mem₁.pool.slots p ∈ ticks.map fun tick => (⟨tick.image, 1⟩ : Slot) :=
      h.stored ▸ List.mem_map_of_mem h_mem
    obtain ⟨tick', -, h_eq⟩ := List.mem_map.mp h_slot
    rw [← h_eq] at h_free
    exact absurd h_free (by decide : (1 : Byte) ≠ 0)
  have h_other : ∀ q, q ≠ p →
      ((mem₁.pool.setState p 1).store p tick.image).slots q = mem₁.pool.slots q :=
    fun q h_q => mem₁.pool.acquired_slots_of_ne h_q tick.image
  have h_self : ((mem₁.pool.setState p 1).store p tick.image).slots p = ⟨tick.image, 1⟩ := by
    rw [TaggedPool.store, TaggedPool.set_self]
    exact Slot.ext rfl (TaggedPool.setState_self ..)
  refine ⟨h_new, h.others p h_new ▸ h_free, ?_, fun q h_q => ?_⟩
  · rw [List.map_append, List.map_append, List.map_singleton, List.map_singleton, h_self,
      ← h.stored]
    refine congrArg (· ++ _) (List.map_congr_left fun q h_q => h_other q ?_)
    rintro rfl
    exact h_new h_q
  · obtain ⟨h_q, h_p⟩ := not_or.mp fun h_or => h_q (List.mem_append.mpr h_or)
    rw [h_other q fun h_eq => h_p (List.mem_singleton.mpr h_eq), h.others q h_q]

/-- **One more message**, while a slot is free and a cell is empty. -/
theorem Ingested.store (h : Ingested mem ticks ptrs mem₁) (tick : Tick)
    (h_acquire : env.acquire = MPMC.strong) (h_push : env.push = MPMC.strong)
    (h_fuel : (cap .market).val ≤ env.fuel) (h_free : mem₁.pool.free ≠ 0)
    (h_room : (mem.queues .market).occupancy + ptrs.length < (cap .market).val) :
    ∃ p mem₂ es, storeTick env mem₁ tick = some (mem₂, true, es) ∧
      Ingested mem (ticks ++ [tick]) (ptrs ++ [p]) mem₂ := by
  -- a slot is found, as one is free
  obtain ⟨p, mem', h_some⟩ := exists_acquireFilled tick h_acquire h_free
  obtain ⟨h_state, rfl⟩ := acquireFilled_some h_some
  obtain ⟨h_new, h_was_free, h_stored, h_others⟩ := h.acquire tick h_state
  obtain ⟨ns, h_pushed⟩ := h.pushed
  have h_occupancy : (mem₁.queues .market).occupancy < (cap .market).val := by
    -- and the push finds a cell, as one is empty
    rw [MPMC.occupancy, h_pushed.cells_eq, Multiset.card_add, Multiset.coe_card]
    exact h_room
  obtain ⟨n, queue, h_queue, h_appended⟩ := h_pushed.push p h_fuel h_occupancy
  have h_store : storeTick env mem₁ tick = some (Handoff.Shared.setQueue
      { mem₁ with pool := (mem₁.pool.setState p 1).store p tick.image } .market queue, true,
      [.acquired p (some tick)]) := by
    unfold storeTick
    rw [h_some]
    dsimp only [Handoff.Shared.push]
    rw [h_push, h_queue]
  -- the slot is new, so the messages ingested before keep theirs
  refine ⟨p, _, _, h_store, ?_, ?_, h_stored, h_others, ?_, ⟨ns ++ [n], ?_⟩, fun q h_q => ?_⟩
  · exact List.nodup_append.mpr ⟨h.nodup, List.nodup_singleton p, fun q h_q q' h_q' h_eq =>
      h_new (List.mem_singleton.mp h_q' ▸ h_eq ▸ h_q)⟩
  · rw [List.forall_mem_append, List.forall_mem_singleton]
    exact ⟨h.was_free, h_was_free⟩
  · have h_count := TaggedPool.free_acquired h_state tick.image
    have h_eq := h.free_eq
    rw [List.length_append, List.length_singleton]
    dsimp only [Handoff.Shared.setQueue]
    omega
  · rw [Handoff.Shared.setQueue_self]
    exact h_appended
  · rw [Handoff.Shared.setQueue_of_ne _ h_q]
    exact h.queues q h_q

end

/-! ### A run of messages -/

section

variable {envs : ℕ → Env} {mem : Memory P cap}

/-- A handler call with a tick, and the calls after it. -/
theorem handle_store {s : Ingest P cap} {tick : Tick} {mem' : Memory P cap} {stored : Bool}
    {es : List (Event P)} (h : storeTick (envs s.calls) s.mem tick = some (mem', stored, es))
    (decoded : List (Option Tick)) :
    Splitter.handle (Ingest.store envs) (some tick :: decoded) s =
      (Splitter.handle (Ingest.store envs) decoded ⟨s.calls + 1, mem', s.shown ++ es⟩).map
        fun r => (r.1, stored :: r.2) := by
  rw [Splitter.handle, Ingest.store, h]

/-- A handler call with nothing, and the calls after it. -/
theorem handle_skip (s : Ingest P cap) (decoded : List (Option Tick)) :
    Splitter.handle (Ingest.store envs) (none :: decoded) s =
      (Splitter.handle (Ingest.store envs) decoded { s with calls := s.calls + 1 }).map
        fun r => (r.1, false :: r.2) := rfl

/-- **The handler on a frame's messages**, each with the tick it decodes to or none: the ticks are
stored as long as slots are left. -/
theorem Ingested.handle (h_acquire : ∀ i, (envs i).acquire = MPMC.strong)
    (h_push : ∀ i, (envs i).push = MPMC.strong) (h_fuel : ∀ i, (cap .market).val ≤ (envs i).fuel)
    (decoded : List (Option Tick)) {ticks : List Tick} {ptrs : List (Ptr P)} {s : Ingest P cap}
    (h : Ingested mem ticks ptrs s.mem)
    (h_room : (mem.queues .market).occupancy +
      min mem.pool.free (ticks ++ decoded.reduceOption).length ≤ (cap .market).val) :
    ∃ s' answers ptrs', Splitter.handle (Ingest.store envs) decoded s = some (s', answers) ∧
      Ingested mem ((ticks ++ decoded.reduceOption).take mem.pool.free) ptrs' s'.mem ∧
      answers.count true + ticks.length =
        min mem.pool.free (ticks ++ decoded.reduceOption).length := by
  have h_le : ticks.length ≤ mem.pool.free := by
    rw [← h.free_eq, h.length_eq]
    exact Nat.le_add_left _ _
  induction decoded generalizing s ticks ptrs with
  | nil =>
    refine ⟨s, [], ptrs, rfl, ?_, ?_⟩
    · rw [List.reduceOption_nil, List.append_nil, List.take_of_length_le h_le]
      exact h
    · rw [List.reduceOption_nil, List.append_nil, min_eq_right h_le]
      exact Nat.zero_add _
  | cons first decoded ih =>
    cases first with
    | none =>
      -- nothing to store
      rw [List.reduceOption_cons_of_none] at h_room ⊢
      obtain ⟨s', answers, ptrs', h_handle, h_ingested, h_count⟩ :=
        ih (s := { s with calls := s.calls + 1 }) h h_room h_le
      refine ⟨s', false :: answers, ptrs', ?_, h_ingested, ?_⟩
      · rw [handle_skip, h_handle]
        rfl
      · rwa [List.count_cons_of_ne (by decide)]
    | some tick =>
      rw [List.reduceOption_cons_of_some] at h_room ⊢
      by_cases h_free : s.mem.pool.free = 0
      · -- no slot is left, now and for the rest of the frame
        have h_full : ticks.length = mem.pool.free := by
          rw [← h.free_eq, h_free, h.length_eq, Nat.zero_add]
        have h_take : (ticks ++ tick :: decoded.reduceOption).take mem.pool.free =
            (ticks ++ decoded.reduceOption).take mem.pool.free := by
          rw [List.take_append_of_le_length h_full.ge, List.take_append_of_le_length h_full.ge]
        have h_min : min mem.pool.free (ticks ++ tick :: decoded.reduceOption).length =
            min mem.pool.free (ticks ++ decoded.reduceOption).length := by
          rw [min_eq_left, min_eq_left] <;> rw [List.length_append] <;> omega
        rw [h_min] at h_room
        rw [h_take, h_min]
        obtain ⟨s', answers, ptrs', h_handle, h_ingested, h_count⟩ :=
          ih (s := ⟨s.calls + 1, s.mem, s.shown ++ []⟩) h h_room h_le
        refine ⟨s', false :: answers, ptrs', ?_, h_ingested, ?_⟩
        · rw [handle_store (storeTick_exhausted h_free), h_handle]
          rfl
        · rwa [List.count_cons_of_ne (by decide)]
      · have h_lt : ticks.length < mem.pool.free := by
          rw [← h.free_eq, h.length_eq]
          omega
        have h_cell : (mem.queues .market).occupancy + ptrs.length < (cap .market).val := by
          rw [List.length_append, List.length_cons] at h_room
          rw [h.length_eq]
          omega
        obtain ⟨p, mem₂, es, h_store, h_ingested⟩ :=
          h.store tick (h_acquire s.calls) (h_push s.calls) (h_fuel s.calls) h_free h_cell
        have h_append : ticks ++ tick :: decoded.reduceOption =
            (ticks ++ [tick]) ++ decoded.reduceOption := by
          rw [List.append_assoc, List.singleton_append]
        rw [h_append] at h_room ⊢
        obtain ⟨s', answers, ptrs', h_handle, h_result, h_count⟩ :=
          ih (s := ⟨s.calls + 1, mem₂, s.shown ++ es⟩) h_ingested h_room
            (by rw [List.length_append]; exact h_lt)
        refine ⟨s', true :: answers, ptrs', ?_, h_result, ?_⟩
        · rw [handle_store h_store, h_handle]
          rfl
        · rw [List.length_append, List.length_singleton] at h_count
          rw [List.count_cons_self]
          omega

/-! ### The two calls -/

/-- What is to come of a frame whose messages decode to `decoded`, each to a tick or to none: as
many ticks are stored as slots are free, each counts as saved, and every other message as
skipped. -/
def StoresFirst (mem : Memory P cap) (decoded : List (Option Tick))
    (result : Option (Memory P cap × Stats × List (Event P))) : Prop :=
  ∃ mem' stats es ptrs, result = some (mem', stats, es) ∧
    Ingested mem (decoded.reduceOption.take mem.pool.free) ptrs mem' ∧
    stats.saved = min mem.pool.free decoded.reduceOption.length ∧
    stats.skipped = decoded.length - min mem.pool.free decoded.reduceOption.length

theorem ItchParse.ingestItchFrame_eq {frame rest : List Byte} {bodies : List (List Byte)}
    (h : ItchParse frame bodies rest) :
    ingestItchFrame envs mem (some frame) =
      (Splitter.handle (Ingest.store envs) (bodies.map itchTick) ⟨0, mem, []⟩).map fun r =>
        Ingest.result (r.1, Stats.after {} r.2 (itchConsumed bodies rest)) := by
  have h_call : ∀ (s : Ingest P cap), ∀ slice ∈ itchSlices 0 bodies,
      itchCall (fun s body len =>
          Ingest.store envs s ((decodeItchAddOrder body len).map .itch)) frame s slice =
        Ingest.store envs s (itchTick (sliceOf frame slice)) := by
    intro s slice h_slice
    -- the slice lies in the frame, so it has its length
    have h_within := (itchSlices_within h_slice).2
    have h_frame := h.length_eq
    have h_len : (sliceOf frame slice).length = slice.2 := by
      rw [sliceOf, List.length_take, List.length_drop]
      omega
    have h_decode := decodeItchAddOrder_eq (sliceOf frame slice)
      ((frame.drop slice.1).drop slice.2)
    rw [h_len, sliceOf, List.take_append_drop] at h_decode
    rw [itchCall, h_decode, sliceOf]
  have h_ticks : (itchSlices 0 bodies).map (fun slice => itchTick (sliceOf frame slice)) =
      bodies.map itchTick := by
    have h_contents := congrArg (List.map itchTick) h.contents
    rwa [List.map_map] at h_contents
  rw [ingestItchFrame, h.splitItchFrame_eq, Splitter.handle_congr h_call,
    Splitter.handle_map (Ingest.store envs) fun slice => itchTick (sliceOf frame slice),
    h_ticks, Option.map_map]
  rfl

theorem ingestMtbtFrame_packets {packets : List (List Byte)} {tail : List Byte}
    (h_packets : ∀ packet ∈ packets, MtbtPacket packet) (h_tail : MtbtTail tail)
    (h_frame : (packets.flatten ++ tail).length + 2 ^ 15 ≤ 2 ^ 64) {fuel : ℕ}
    (h_fuel : packets.length < fuel) :
    ingestMtbtFrame envs fuel mem (some (packets.flatten ++ tail)) =
      (Splitter.handle (Ingest.store envs) (packets.map mtbtTick) ⟨0, mem, []⟩).map fun r =>
        Ingest.result (r.1, Stats.after {} r.2 packets.flatten.length) := by
  -- the handler is called with the rest of the frame, but looks at the packet only
  have h_call : ∀ (s : Ingest P cap), ∀ call ∈ mtbtCalls packets tail,
      Ingest.store envs s ((decodeMtbtOrder call.1 call.2.1).map fun decoded =>
          .mtbt decoded.order) =
        Ingest.store envs s (mtbtTick (call.1.take call.2.1)) := by
    intro s call h_mem
    obtain ⟨packet, h_packet, behind, rfl⟩ := exists_of_mem_mtbtCalls h_mem
    rw [decodeMtbtOrder_eq (h_packets packet h_packet), List.take_left]
  -- what it looks at are the packets in order
  have h_ticks : (mtbtCalls packets tail).map (fun call => mtbtTick (call.1.take call.2.1)) =
      packets.map mtbtTick := by
    have h_contents := congrArg (List.map fun call => mtbtTick call.1)
      (mtbtCalls_contents packets tail)
    rwa [List.map_map, List.map_map] at h_contents
  rw [ingestMtbtFrame, splitMtbtFrame_packets h_packets h_tail h_frame _ _ h_fuel,
    Splitter.handle_congr h_call,
    Splitter.handle_map (Ingest.store envs) fun call : List Byte × ℕ × MtbtStreamHeader =>
      mtbtTick (call.1.take call.2.1), h_ticks, Option.map_map]
  rfl

/-- More iterations do not change what a call that returns has done. -/
theorem ingestMtbtFrame_mono {fuel fuel' : ℕ} (h_le : fuel ≤ fuel') {frame : Option (List Byte)}
    {r : Memory P cap × Stats × List (Event P)}
    (h : ingestMtbtFrame envs fuel mem frame = some r) :
    ingestMtbtFrame envs fuel' mem frame = some r := by
  obtain ⟨split, h_split, rfl⟩ := Option.map_eq_some_iff.mp h
  rw [ingestMtbtFrame, splitMtbtFrame_mono h_le h_split, Option.map_some]

/-- What the call on a tick reports: a tick that is not stored counts nowhere. -/
def mcxStats (answers : List Bool) : Stats := ⟨answers.count true, 0, answers.count true * 56⟩

/-- A frame of top of book is one message. -/
theorem ingestMcxTobFrame_eq (frame : List Byte) :
    ingestMcxTobFrame (envs 0) mem (some frame) =
      (Splitter.handle (Ingest.store envs) [mcxTick frame] ⟨0, mem, []⟩).map fun r =>
        Ingest.result (r.1, mcxStats r.2) := by
  rw [ingestMcxTobFrame, Splitter.handle, mcxTick]
  by_cases h_len : frame.length = 56
  · rw [if_neg (not_not.mpr h_len), if_pos h_len, Ingest.store]
    dsimp only
    cases storeTick (envs 0) mem (.mcx (TopOfBook.codec.get (frameMemory frame))) with
    | none => rfl
    | some r =>
      obtain ⟨mem', stored, es⟩ := r
      cases stored with
      | false => rfl
      | true =>
        -- what is consumed is the frame
        dsimp only
        rw [h_len]
        rfl
  · rw [if_pos h_len, if_neg h_len]
    rfl

/-- An ITCH frame is the messages the splitter hands over. -/
theorem ingestItchFrame_mem (frame : List Byte) :
    (ingestItchFrame envs mem (some frame)).map Prod.fst =
      (Splitter.handle (Ingest.store envs) ((handedOver frame).map itchTick) ⟨0, mem, []⟩).map
        fun r => r.1.mem := by
  obtain ⟨bodies, rest, h_parse⟩ := exists_itchParse frame
  rw [h_parse.ingestItchFrame_eq, h_parse.handedOver_eq, Option.map_map]
  rfl

/-- Messages of which none decodes leave memory alone. -/
theorem handle_nothing {decoded : List (Option Tick)} (h : decoded.reduceOption = [])
    (s : Ingest P cap) :
    (Splitter.handle (Ingest.store envs) decoded s).map (fun r => r.1.mem) = some s.mem := by
  -- only messages that decode store anything
  induction decoded generalizing s with
  | nil => rfl
  | cons first decoded ih =>
    cases first with
    | none =>
      rw [List.reduceOption_cons_of_none] at h
      rw [handle_skip, Option.map_map]
      exact ih h { s with calls := s.calls + 1 }
    | some tick =>
      rw [List.reduceOption_cons_of_some] at h
      exact absurd h (List.cons_ne_nil _ _)

/-- The handler's run over a frame's messages, counted. -/
theorem storesFirst (h_acquire : ∀ i, (envs i).acquire = MPMC.strong)
    (h_push : ∀ i, (envs i).push = MPMC.strong) (h_fuel : ∀ i, (cap .market).val ≤ (envs i).fuel)
    {decoded : List (Option Tick)}
    (h_room : (mem.queues .market).occupancy +
      min mem.pool.free decoded.reduceOption.length ≤ (cap .market).val) (consumed : ℕ) :
    StoresFirst mem decoded
      ((Splitter.handle (Ingest.store envs) decoded ⟨0, mem, []⟩).map fun r =>
        Ingest.result (r.1, Stats.after {} r.2 consumed)) := by
  obtain ⟨s', answers, ptrs, h_handle, h_ingested, h_count⟩ :=
    -- the run stores as long as slots are free
    Ingested.handle h_acquire h_push h_fuel decoded (s := ⟨0, mem, []⟩) (.nil mem) h_room
  rw [List.nil_append] at h_ingested h_count
  obtain ⟨h_saved, h_total⟩ := Stats.after_total answers consumed
  -- every message is answered once, so what is not saved is skipped
  rw [Splitter.handle_length h_handle] at h_total
  rw [List.length_nil, Nat.add_zero] at h_count
  rw [h_saved, h_count] at h_total
  rw [h_handle]
  exact ⟨s'.mem, _, s'.shown, ptrs, rfl, h_ingested, h_saved.trans h_count,
    Nat.eq_sub_of_add_eq' h_total⟩

end

/-- **The effect of an ingest call.** With no other thread running, exchanges that fail on a
mismatch only and enough empty cells, a call on an ITCH frame, or on a frame of MTBT packets
with their own lengths and a tail, stores the messages that decode, in order, as long as slots
are free, and skips all others. -/
theorem ingest_effect {envs : ℕ → Env} (h_acquire : ∀ i, (envs i).acquire = MPMC.strong)
    (h_push : ∀ i, (envs i).push = MPMC.strong) (h_fuel : ∀ i, (cap .market).val ≤ (envs i).fuel)
    (mem : Memory P cap) :
    (∀ (frame : List Byte) (bodies : List (List Byte)), ItchLongest bodies frame →
      (mem.queues .market).occupancy +
        min mem.pool.free (bodies.map itchTick).reduceOption.length ≤ (cap .market).val →
      StoresFirst mem (bodies.map itchTick) (ingestItchFrame envs mem (some frame))) ∧
    ∀ (packets : List (List Byte)) (tail : List Byte) (fuel : ℕ),
      (∀ packet ∈ packets, MtbtPacket packet) → MtbtTail tail →
      (packets.flatten ++ tail).length + 2 ^ 15 ≤ 2 ^ 64 → packets.length < fuel →
      (mem.queues .market).occupancy +
        min mem.pool.free (packets.map mtbtTick).reduceOption.length ≤ (cap .market).val →
      StoresFirst mem (packets.map mtbtTick)
        (ingestMtbtFrame envs fuel mem (some (packets.flatten ++ tail))) := by
  refine ⟨fun frame bodies h_longest h_room => ?_,
    fun packets tail fuel h_packets h_tail h_frame h_iterations h_room => ?_⟩
  · -- the ITCH bodies are what the frame's parse hands over
    obtain ⟨rest, h_parse⟩ := h_longest.exists_parse
    rw [h_parse.ingestItchFrame_eq]
    exact storesFirst h_acquire h_push h_fuel h_room _
  · -- the MTBT packets are cut one by one
    rw [ingestMtbtFrame_packets h_packets h_tail h_frame h_iterations]
    exact storesFirst h_acquire h_push h_fuel h_room _

/-- An empty memory of one slot and queues of two cells. -/
def oneSlot : Memory onePool fun _ : Stage => Capacity.two :=
  ⟨.fresh fun _ => TaggedMessage.fresh, fun _ => .fresh _ _⟩

/-- Exchanges that fail on a mismatch only, and two probes. -/
def strongEnvs (_ : ℕ) : Env := ⟨MPMC.strong, MPMC.strong, 2⟩

/-- The body of an add order, all zero but for its type. -/
def addOrder : List Byte := 0x41 :: List.replicate 35 0

/-- Two add orders and a message that is none, and a packet with an order behind a packet with
none, on one slot: one tick is stored each time. -/
theorem ingest_effect_exhausted :
    StoresFirst oneSlot ([addOrder, [7], addOrder].map itchTick)
      (ingestItchFrame strongEnvs oneSlot (some (itchStream [addOrder, [7], addOrder]))) ∧
    StoresFirst oneSlot ([[8, 0, 0, 0, 0, 0, 0, 0],
        34 :: List.replicate 7 0 ++ 0x4E :: List.replicate 25 0].map mtbtTick)
      (ingestMtbtFrame strongEnvs 3 oneSlot
        (some ([[8, 0, 0, 0, 0, 0, 0, 0],
          34 :: List.replicate 7 0 ++ 0x4E :: List.replicate 25 0].flatten ++ [9]))) := by
  have h_acquire : ∀ i, (strongEnvs i).acquire = MPMC.strong := fun _ => rfl
  have h_push : ∀ i, (strongEnvs i).push = MPMC.strong := fun _ => rfl
  have h_effect := ingest_effect h_acquire h_push (fun _ => le_rfl) oneSlot
  constructor
  · have h_valid : ∀ body ∈ [addOrder, [7], addOrder], ItchBody body := by
      unfold ItchBody
      decide
    have h_parse : ItchParse (itchStream [addOrder, [7], addOrder]) [addOrder, [7], addOrder] [] :=
      ⟨h_valid, (List.append_nil _).symm, fun body behind _ h_eq => by
        have h_len := congrArg List.length h_eq
        rw [List.length_append, itchMessage_length, List.length_nil] at h_len
        omega⟩
    -- both frames fit, by evaluation
    exact h_effect.1 _ _ ⟨⟨h_valid, List.prefix_rfl⟩, fun bodies' h =>
      h_parse.longest h.valid h.isPrefix⟩ (by decide +kernel)
  · refine h_effect.2 [[8, 0, 0, 0, 0, 0, 0, 0],
        34 :: List.replicate 7 0 ++ 0x4E :: List.replicate 25 0] [9] 3 ?_ (Or.inl (by decide))
      (by decide) (by decide) (by decide +kernel)
    exact List.forall_mem_cons.mpr ⟨⟨by decide, by decide, by decide +kernel⟩,
      List.forall_mem_singleton.mpr ⟨by decide, by decide, by decide +kernel⟩⟩

end Trading

end Hft
