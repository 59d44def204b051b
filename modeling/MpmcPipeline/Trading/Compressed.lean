import MpmcPipeline.Feed.SoleWriter
import MpmcPipeline.Trading.Ingestion

/-!
# Compressed frames

What `Reader::run` does with a slot that has been published with `lz4_compressed`: an iteration
on the slot comes to the outcome `deliver` (`FrameSlot.read_publish`), and an outcome has its
effect on pool and queue (`effect`).

`NeverRaw` asks that the frame is dropped or has the effect of the decompressed bytes. The reader
looks at the flag for one kind only, so an ITCH frame or a tick is parsed as it stands
(`neverRaw_iff`).
-/

namespace Hft

open Handoff (Env)

namespace Feed

/-! ### One iteration -/

/-- The six fields and the bytes, written by `publish` into a slot. -/
def FrameSlot.publish (slot : FrameSlot) (frame : Frame) : FrameSlot :=
  (List.range frame.writes).foldl (fun slot n => slot.put frame n) slot

theorem FrameSlot.publish_holds (slot : FrameSlot) (frame : Frame) :
    (slot.publish frame).Holds frame := by
  have h_written : ∀ n, ((List.range n).foldl (fun slot n => slot.put frame n) slot).Written
      frame n := by
    intro n
    induction n with
    | zero => exact fun k h_k => absurd h_k (Nat.not_lt_zero k)
    | succ n ih =>
      rw [List.range_succ, List.foldl_append]
      exact ih.put
  exact (h_written frame.writes).holds (lt_irrefl _)

/-- The steps of the reader from where it is, up to being done with a frame. -/
def Reader.readOn (lz4 : Lz4) (inlet : SharedInlet) : ℕ → Reader → Option Outcome
  | 0, _ => none
  | fuel + 1, reader =>
    match reader.step lz4 true inlet with
    | some (_, _, [o]) => some o
    | some (_, reader, _) => readOn lz4 inlet fuel reader
    | none => none

/-- What `Reader::run` does with a slot it has found, while nobody writes to it. -/
def FrameSlot.read (lz4 : Lz4) (slot : FrameSlot) : Option Outcome :=
  Reader.readOn lz4 { SharedInlet.fresh with slots := fun _ => slot } (kCapacity + 8)
    ⟨.readMagic 1 0, 0⟩

theorem ReaderPc.ne_of_reading {pc : ReaderPc} {x : BitVec 64 × Fin 2} (h : pc.reading = some x) :
    pc ≠ .exited ∧ pc ≠ .starting := by
  constructor
  · rintro rfl
    cases h
  · rintro rfl
    cases h

/-- Inside an iteration the reader reads on to the end, and does with the frame what is to be
done with it. -/
theorem Reader.readOn_eq {lz4 : Lz4} {inlet : SharedInlet} {reader : Reader} {frame : Frame}
    {sequence : BitVec 64} {slot : Fin 2} (h_holds : (inlet.slots slot).Holds frame)
    (h_reading : reader.pc.reading = some (sequence, slot))
    (h_progress : Progress lz4 frame reader.pc) {fuel : ℕ} (h_fuel : reader.pc.fuel < fuel) :
    reader.readOn lz4 inlet fuel = some (deliver lz4 frame) := by
  -- induction on the steps; `Progress` carries what has been read of the frame
  induction fuel generalizing reader with
  | zero => exact absurd h_fuel (Nat.not_lt_zero _)
  | succ fuel ih =>
    obtain ⟨inlet', reader', os, h_step⟩ :=
      Reader.step_isSome lz4 true inlet (ReaderPc.ne_of_reading h_reading)
    rw [readOn, h_step]
    have h_move := Reader.step_move h_step
    -- of the moves, two start inside an iteration
    cases h_move with
    | scan sequence' slot' pc h_pc h_pc' h_less h_frame =>
      obtain ⟨-, rfl⟩ := Prod.mk.inj (Option.some.inj (h_pc.symm.trans h_reading))
      have h_rest : pc.fuel < fuel := lt_of_lt_of_le h_less (Nat.lt_succ_iff.mp h_fuel)
      have h_inside : (Reader.mk pc reader.last_sequence).pc.reading = some (sequence, slot') :=
        h_pc'.trans (h_pc.symm.trans h_reading)
      exact ih h_inside (h_frame frame h_holds h_progress) h_rest
    | finish sequence' slot' o h_pc h_frame =>
      obtain ⟨-, rfl⟩ := Prod.mk.inj (Option.some.inj (h_pc.symm.trans h_reading))
      exact congrArg some (h_frame frame h_holds h_progress)
    | check _ h_pc | again h_pc | notice h_pc | fetch _ h_pc | acknowledge _ h_pc =>
      rw [h_pc] at h_reading
      cases h_reading

/-- **An iteration on a published slot delivers the frame.** -/
theorem FrameSlot.read_publish (lz4 : Lz4) (slot : FrameSlot) (frame : Frame) :
    (slot.publish frame).read lz4 = some (deliver lz4 frame) := by
  have h_start : Progress lz4 frame (.readMagic 1 0) := trivial
  exact Reader.readOn_eq (slot.publish_holds frame) rfl h_start (Nat.lt_succ_self (kCapacity + 7))

end Feed

namespace Trading

open Feed

variable {P : PoolCapacity} {cap : Stage → Capacity}

/-! ### The effect of an iteration -/

/-- What an outcome does to pool and queue. -/
def effect (envs : ℕ → Env) (fuel : ℕ) (mem : Memory P cap) : Outcome → Option (Memory P cap)
  | .ingested .itch bytes => (ingestItchFrame envs mem (some bytes)).map Prod.fst
  | .ingested .mtbt bytes => (ingestMtbtFrame envs fuel mem (some bytes)).map Prod.fst
  | .ingested .mcx bytes => (ingestMcxTobFrame (envs 0) mem (some bytes)).map Prod.fst
  | _ => some mem

/-- The effect of an iteration of `Reader::run` on a slot. -/
def slotEffect (lz4 : Lz4) (envs : ℕ → Env) (fuel : ℕ) (mem : Memory P cap) (slot : FrameSlot) :
    Option (Memory P cap) :=
  (slot.read lz4).bind (effect envs fuel mem)

/-- Two slots have the same effect, on every pool and queue and in every environment. -/
def SameEffect (lz4 : Lz4) (slot slot' : FrameSlot) : Prop :=
  ∀ (P : PoolCapacity) (cap : Stage → Capacity) (envs : ℕ → Env) (fuel : ℕ) (mem : Memory P cap),
    slotEffect lz4 envs fuel mem slot = slotEffect lz4 envs fuel mem slot'

/-- The slot leaves pool and queue alone. -/
def Untouched (lz4 : Lz4) (slot : FrameSlot) : Prop :=
  ∀ (P : PoolCapacity) (cap : Stage → Capacity) (envs : ℕ → Env) (fuel : ℕ) (mem : Memory P cap),
    slotEffect lz4 envs fuel mem slot = some mem

/-- **A frame is never parsed raw**: a slot it is published into leaves pool and queue alone, or
has the effect of the decompressed bytes published as a plain frame of its kind; and the former
when the decompressed length is not the announced one. -/
structure NeverRaw (lz4 : Lz4) (frame : Frame) : Prop where
  decompressed : (∀ slot, Untouched lz4 (FrameSlot.publish slot frame)) ∨
    ∃ plain : Frame, plain.kind = frame.kind ∧ plain.flags = 0 ∧
      lz4.decompress frame.bytes kCapacity = some plain.bytes ∧
      ∀ slot slot', SameEffect lz4 (FrameSlot.publish slot frame) (FrameSlot.publish slot' plain)
  announced : ∀ decoded, lz4.decompress frame.bytes kCapacity = some decoded →
    decoded.length ≠ frame.uncompressedLen.toNat →
      ∀ slot, Untouched lz4 (FrameSlot.publish slot frame)

/-- The ticks in the payload as it stands, when it is an ITCH frame or a tick. -/
def rawTicks (frame : Frame) : List Tick :=
  match frame.kind with
  | .itch => ((handedOver frame.bytes).map itchTick).reduceOption
  | .mcx => [mcxTick frame.bytes].reduceOption
  | _ => []

/-- LZ4 makes of the payload as many bytes as announced. -/
def Decodes (lz4 : Lz4) (frame : Frame) : Prop :=
  ∃ decoded, lz4.decompress frame.bytes kCapacity = some decoded ∧
    decoded.length = frame.uncompressedLen.toNat

theorem slotEffect_publish (lz4 : Lz4) (envs : ℕ → Env) (fuel : ℕ) (mem : Memory P cap)
    (slot : FrameSlot) (frame : Frame) :
    slotEffect lz4 envs fuel mem (slot.publish frame) =
      effect envs fuel mem (deliver lz4 frame) := by
  rw [slotEffect, FrameSlot.read_publish]
  rfl

section

variable {lz4 : Lz4} {frame : Frame}

/-- A frame whose payload does not decode can only be left alone. -/
theorem NeverRaw.untouched (h : NeverRaw lz4 frame) (h_fails : ¬Decodes lz4 frame)
    (slot : FrameSlot) : Untouched lz4 (slot.publish frame) := by
  rcases h.decompressed with h_untouched | ⟨plain, -, -, h_decoded, -⟩
  · exact h_untouched slot
  · exact h.announced plain.bytes h_decoded (fun h_len => h_fails ⟨_, h_decoded, h_len⟩) slot

/-- An ITCH frame or a tick is its raw messages, whatever its flags. -/
theorem effect_raw (lz4 : Lz4) (h_kind : frame.kind = .itch ∨ frame.kind = .mcx) :
    ∃ decoded : List (Option Tick), decoded.reduceOption = rawTicks frame ∧
      ∀ (P : PoolCapacity) (cap : Stage → Capacity) (envs : ℕ → Env) (fuel : ℕ)
        (mem : Memory P cap), effect envs fuel mem (deliver lz4 frame) =
          (Splitter.handle (Ingest.store envs) decoded ⟨0, mem, []⟩).map fun r => r.1.mem := by
  by_cases h_nil : frame.bytes = []
  · -- an empty payload is dropped, and has no message
    refine ⟨[], ?_, fun P cap envs fuel mem => ?_⟩
    · rcases h_kind with h_kind | h_kind
      · simp only [rawTicks, h_kind, h_nil]
        rfl
      · simp only [rawTicks, h_kind, h_nil]
        rfl
    · rw [deliver, if_pos h_nil]
      rfl
  · have h_deliver : deliver lz4 frame = .ingested frame.kind frame.bytes := by
      rw [deliver_of_pos lz4 (List.length_pos_of_ne_nil h_nil)]
      rcases h_kind with h_kind | h_kind
      · rw [h_kind]
        rfl
      · rw [h_kind]
        rfl
    rcases h_kind with h_kind | h_kind
    · refine ⟨(handedOver frame.bytes).map itchTick, ?_, fun P cap envs fuel mem => ?_⟩
      · simp only [rawTicks, h_kind]
      · rw [h_deliver, h_kind]
        exact ingestItchFrame_mem frame.bytes
    · refine ⟨[mcxTick frame.bytes], ?_, fun P cap envs fuel mem => ?_⟩
      · simp only [rawTicks, h_kind]
      · rw [h_deliver, h_kind, effect, ingestMcxTobFrame_eq, Option.map_map]
        rfl

/-- A frame that leaves an empty pool and queue alone has no raw tick. -/
theorem rawTicks_eq_nil {slot : FrameSlot} (h : Untouched lz4 (slot.publish frame))
    (h_kind : frame.kind = .itch ∨ frame.kind = .mcx) : rawTicks frame = [] := by
  obtain ⟨decoded, h_ticks, h_effect⟩ := effect_raw lz4 h_kind
  have h_room : (oneSlot.queues .market).occupancy +
      min oneSlot.pool.free ([] ++ decoded.reduceOption).length ≤ Capacity.two.val := by
    have h_free : oneSlot.pool.free = 1 := by decide
    have h_empty : (oneSlot.queues .market).occupancy = 0 := by decide
    have h_cap : Capacity.two.val = 2 := rfl
    omega
  have h_acquire : ∀ i, (strongEnvs i).acquire = MPMC.strong := fun _ => rfl
  have h_push : ∀ i, (strongEnvs i).push = MPMC.strong := fun _ => rfl
  obtain ⟨s', answers, ptrs, h_handle, h_ingested, -⟩ :=
    Ingested.handle h_acquire h_push (fun _ => le_rfl) decoded (s := ⟨0, oneSlot, []⟩)
      (.nil oneSlot) h_room
  -- what is stored takes a slot, and none has been taken
  have h_same : s'.mem = oneSlot := by
    have h_some := h onePool (fun _ => Capacity.two) strongEnvs 0 oneSlot
    rw [slotEffect_publish, h_effect, h_handle] at h_some
    exact Option.some.inj h_some
  have h_free := h_ingested.free_eq
  have h_length := h_ingested.length_eq
  have h_one : oneSlot.pool.free = 1 := by decide
  rw [h_same, h_one] at h_free
  rw [List.nil_append, List.length_take, h_one, h_ticks] at h_length
  exact List.eq_nil_of_length_eq_zero (by omega)

/-- Raw messages without a tick leave pool and queue alone. -/
theorem untouched_of_rawTicks (lz4 : Lz4) (h_kind : frame.kind = .itch ∨ frame.kind = .mcx)
    (h : rawTicks frame = []) (slot : FrameSlot) : Untouched lz4 (slot.publish frame) := by
  intro P cap envs fuel mem
  obtain ⟨decoded, h_ticks, h_effect⟩ := effect_raw lz4 h_kind
  rw [slotEffect_publish, h_effect]
  exact handle_nothing (h_ticks.trans h) _

/-- A frame that is dropped leaves pool and queue alone. -/
theorem untouched_of_dropped (h : deliver lz4 frame = .dropped) (slot : FrameSlot) :
    Untouched lz4 (slot.publish frame) := by
  intro P cap envs fuel mem
  rw [slotEffect_publish, h]
  rfl

/-- A compressed MTBT frame is dropped, or what it decompresses to is ingested, of the announced
length. -/
theorem deliver_compressed (lz4 : Lz4) (h_flag : hasFlag frame.flags lz4Compressed)
    (h_kind : frame.kind = .mtbt) :
    deliver lz4 frame = .dropped ∨ ∃ decoded,
      deliver lz4 frame = .ingested .mtbt decoded ∧
      lz4.decompress frame.bytes kCapacity = some decoded ∧
      decoded.length = frame.uncompressedLen.toNat ∧ 0 < decoded.length ∧
      decoded.length ≤ kCapacity := by
  -- a frame without payload is dropped before its flags matter
  by_cases h_nil : frame.bytes = []
  · exact Or.inl (if_pos h_nil)
  have h_deliver : deliver lz4 frame =
      if frame.uncompressedLen = 0 ∨ kCapacity < frame.uncompressedLen.toNat then .dropped
      else (Source.compressed frame.uncompressedLen).outcome lz4 frame.bytes := by
    rw [deliver_of_pos lz4 (List.length_pos_of_ne_nil h_nil), h_kind]
    exact if_pos h_flag
  rw [h_deliver]
  -- so is one that announces no length, or too great a one
  by_cases h_bad : frame.uncompressedLen = 0 ∨ kCapacity < frame.uncompressedLen.toNat
  · exact Or.inl (if_pos h_bad)
  rw [if_neg h_bad, Source.outcome]
  cases h_decoded : lz4.decompress frame.bytes kCapacity with
  | none => exact Or.inl rfl
  | some decoded =>
    -- and one whose decompressed bytes are not as many as announced
    by_cases h_len : decoded.length = frame.uncompressedLen.toNat
    · obtain ⟨h_ne, h_le⟩ := not_or.mp h_bad
      refine Or.inr ⟨decoded, if_pos h_len, rfl, h_len, ?_, h_len ▸ Nat.not_lt.mp h_le⟩
      rw [h_len]
      exact Nat.pos_of_ne_zero fun h_zero => h_ne (BitVec.eq_of_toNat_eq h_zero)
    · exact Or.inl (if_neg h_len)

/-- A compressed MTBT frame is dropped or has the effect of its decompressed bytes. -/
theorem neverRaw_mtbt (h_flag : hasFlag frame.flags lz4Compressed) (h_kind : frame.kind = .mtbt) :
    NeverRaw lz4 frame := by
  rcases deliver_compressed lz4 h_flag h_kind with
    h_dropped | ⟨decoded, h_deliver, h_decoded, h_len, h_pos, h_le⟩
  · exact ⟨Or.inl (untouched_of_dropped h_dropped), fun _ _ _ => untouched_of_dropped h_dropped⟩
  · -- the same bytes as an uncompressed frame
    let plain : Frame := ⟨.mtbt, 0, decoded, 0, h_le⟩
    have h_flags : ¬hasFlag 0 lz4Compressed := by decide
    have h_bytes : 0 < plain.bytes.length := h_pos
    have h_plain : deliver lz4 plain = .ingested .mtbt decoded :=
      (deliver_of_pos lz4 h_bytes).trans (if_neg h_flags)
    refine ⟨Or.inr ⟨plain, h_kind.symm, rfl, h_decoded, ?_⟩, ?_⟩
    · intro slot slot' P cap envs fuel mem
      rw [slotEffect_publish, slotEffect_publish, h_deliver, h_plain]
    · -- bytes of another length than the announced one are not what was ingested
      intro decoded' h_decoded' h_len'
      obtain rfl := Option.some.inj (h_decoded.symm.trans h_decoded')
      exact absurd h_len h_len'

theorem not_decodes_noLz4 (frame : Frame) : ¬Decodes noLz4 frame := by
  rintro ⟨decoded, h_decoded, -⟩
  rw [Lz4.decompress] at h_decoded
  split at h_decoded
  · cases h_decoded
  · cases h_decoded

/-- What is not MTBT but known is an ITCH frame or a tick. -/
theorem known_not_mtbt (h_known : frame.kind.known) (h_kind : frame.kind ≠ .mtbt) :
    frame.kind = .itch ∨ frame.kind = .mcx := by
  cases h_eq : frame.kind with
  | itch => exact Or.inl rfl
  | mcx => exact Or.inr rfl
  | mtbt => exact absurd h_eq h_kind
  | none | unnamed b =>
    rw [h_eq] at h_known
    cases h_known

end

/-- **Compressed frames that are not parsed raw.** Whatever LZ4 does, a published compressed frame
is dropped or has the effect of its decompressed bytes exactly when it is an MTBT frame, or when
its payload as it stands has no tick; and this decides it for every LZ4 that does not make of the
payload as many bytes as announced. -/
theorem neverRaw_iff {frame : Frame} (h_flag : hasFlag frame.flags lz4Compressed)
    (h_known : frame.kind.known) :
    ((∀ lz4, NeverRaw lz4 frame) ↔ frame.kind = .mtbt ∨ rawTicks frame = []) ∧
    ∀ lz4, ¬Decodes lz4 frame →
      (NeverRaw lz4 frame ↔ frame.kind = .mtbt ∨ rawTicks frame = []) := by
  have h_holds : ∀ lz4, frame.kind = .mtbt ∨ rawTicks frame = [] → NeverRaw lz4 frame := by
    intro lz4 h
    by_cases h_kind : frame.kind = .mtbt
    · exact neverRaw_mtbt h_flag h_kind
    · have h_raw := known_not_mtbt h_known h_kind
      have h_untouched := untouched_of_rawTicks lz4 h_raw (h.resolve_left h_kind)
      exact ⟨Or.inl h_untouched, fun _ _ _ => h_untouched⟩
  have h_fails : ∀ lz4, ¬Decodes lz4 frame → NeverRaw lz4 frame →
      frame.kind = .mtbt ∨ rawTicks frame = [] := by
    intro lz4 h_decodes h
    by_cases h_kind : frame.kind = .mtbt
    · exact Or.inl h_kind
    -- then the frame is left alone, and a raw tick would not have been
    · exact Or.inr (rawTicks_eq_nil (h.untouched h_decodes .fresh) (known_not_mtbt h_known h_kind))
  refine ⟨⟨fun h => h_fails noLz4 ?_ (h noLz4), fun h lz4 => h_holds lz4 h⟩, fun lz4 h_decodes =>
    ⟨h_fails lz4 h_decodes, h_holds lz4⟩⟩
  exact not_decodes_noLz4 frame

/-- An MTBT frame of one byte, announced to decompress to 34. -/
def shortMtbt : Frame := ⟨.mtbt, lz4Compressed, [7], 34, by decide⟩

theorem neverRaw_iff_mtbt :
    (∀ lz4, NeverRaw lz4 shortMtbt) ∧ (NeverRaw noLz4 shortMtbt ↔
      shortMtbt.kind = .mtbt ∨ rawTicks shortMtbt = []) := by
  have h_flag : hasFlag shortMtbt.flags lz4Compressed := rfl
  exact ⟨(neverRaw_iff h_flag rfl).1.mpr (Or.inl rfl),
    (neverRaw_iff h_flag rfl).2 noLz4 (not_decodes_noLz4 shortMtbt)⟩

/-- A frame with the flag and the ITCH message of an add order. -/
def flaggedItch : Frame := ⟨.itch, lz4Compressed, itchStream [addOrder], 36, by decide⟩

/-- **Parsed raw.** The order in such a frame is stored as it stands, though the payload does not
decompress: the reader looks at the flag of MTBT frames only. -/
theorem flaggedItch_parsed :
    hasFlag flaggedItch.flags lz4Compressed ∧ flaggedItch.kind.known ∧
      noLz4.decompress flaggedItch.bytes kCapacity = none ∧ ¬NeverRaw noLz4 flaggedItch := by
  refine ⟨rfl, rfl, rfl, fun h => ?_⟩
  have h_nil := rawTicks_eq_nil (h.untouched (not_decodes_noLz4 flaggedItch) .fresh) (Or.inl rfl)
  exact absurd h_nil (by decide +kernel)

end Trading

end Hft
