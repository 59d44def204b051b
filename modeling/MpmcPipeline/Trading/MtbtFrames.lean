import Mathlib.Logic.Relation
import MpmcPipeline.Trading.Ingress

/-!
# What is split off an MTBT frame

A packet begins with a header, whose first field is the length of the whole packet: a signed
16-bit number, converted to `size_t` before it is compared with what is left of the frame. A
negative length becomes one close to `2 ^ 64`, and its sum with the offset may wrap and pass for
one inside the frame. The splitter then hands over a packet that is longer than the frame and
goes back to an offset it has seen. `NoWrap` excludes this, at the offsets that are reached over
whole packets, and it is exactly what the splitter needs to end, to advance and to stay inside
the frame (`mtbt_splits_iff`).

Of packets with their own lengths and a tail that does not begin with one, the splitter hands
over the packets and stops at the tail (`mtbt_round_trip`).
-/

namespace Hft

namespace Trading

open Splitter (Next Splits handle)

/-- The header at the beginning of some bytes. -/
def headerOf (bytes : List Byte) : MtbtStreamHeader :=
  MtbtStreamHeader.codec.get (frameMemory bytes)

/-- `msg_len` as `size_t`. -/
def packetLen (header : MtbtStreamHeader) : ℕ := (header.msgLen.signExtend 64).toNat

/-- A length that is not negative is what it was, a negative one has wrapped. -/
theorem packetLen_eq (header : MtbtStreamHeader) :
    (packetLen header : ℤ) =
      if 0 ≤ header.msgLen.toInt then header.msgLen.toInt else header.msgLen.toInt + 2 ^ 64 := by
  have h_int : (header.msgLen.signExtend 64).toInt = header.msgLen.toInt :=
    BitVec.toInt_signExtend_of_le (by decide)
  rw [← h_int, BitVec.toInt_eq_toNat_cond, packetLen]
  have h_lt := (header.msgLen.signExtend 64).isLt
  split <;> split <;> omega

theorem msgLen_bounds (header : MtbtStreamHeader) :
    -2 ^ 15 ≤ header.msgLen.toInt ∧ header.msgLen.toInt < 2 ^ 15 :=
  ⟨BitVec.le_toInt _, BitVec.toInt_lt⟩

/-! ### One iteration -/

section

variable {frame : List Byte} {offset : ℕ}

/-- **What an iteration does**, on a frame whose length is a `size_t`: it takes a packet whose
header is there and whose end, computed modulo `2 ^ 64`, is not behind the frame. -/
theorem mtbtCut_eq (h_frame : frame.length < 2 ^ 64) (h_offset : offset ≤ frame.length) :
    mtbtCut frame offset =
      if offset + 8 ≤ frame.length ∧ 8 ≤ packetLen (headerOf (frame.drop offset)) ∧
          (offset + packetLen (headerOf (frame.drop offset))) % 2 ^ 64 ≤ frame.length then
        .call (offset, packetLen (headerOf (frame.drop offset)), headerOf (frame.drop offset))
          ((offset + packetLen (headerOf (frame.drop offset))) % 2 ^ 64)
      else .stop offset := by
  -- `len - offset` does not wrap, `offset + msg_len` may
  have h_left : (frame.length + (2 ^ 64 - offset)) % 2 ^ 64 = frame.length - offset := by omega
  rw [mtbtCut, h_left]
  by_cases h_header : offset + 8 ≤ frame.length
  · have h_decode : decodeMtbtStreamHeader (frame.drop offset) (frame.length - offset) =
        some (headerOf (frame.drop offset)) := if_neg (by omega)
    rw [if_pos (by omega), h_decode]
    dsimp only
    rw [← packetLen]
    by_cases h_packet : 8 ≤ packetLen (headerOf (frame.drop offset)) ∧
        (offset + packetLen (headerOf (frame.drop offset))) % 2 ^ 64 ≤ frame.length
    · rw [if_neg (by omega), if_pos ⟨h_header, h_packet⟩]
    · rw [if_pos (by omega), if_neg fun h => h_packet h.2]
  · -- the sum may wrap here too, but then there is no header
    have h_decode : decodeMtbtStreamHeader (frame.drop offset) (frame.length - offset) = none :=
      if_pos (by omega)
    rw [h_decode, if_neg fun h_all : _ ∧ _ => h_header h_all.1]
    exact ite_self _

end

/-! ### Where the splitter stays in the frame -/

section

variable (frame : List Byte)

/-- An offset that the loop comes to. -/
def Visited (offset : ℕ) : Prop := Relation.ReflTransGen (Next (mtbtCut frame)) 0 offset

/-- The splitter ends, whatever the handler, advances in each iteration and hands over packets
inside the frame. -/
structure SplitsInside : Prop where
  ends : ∀ (σ : Type) (onPacket : σ → List Byte → ℕ → MtbtStreamHeader → Option (σ × Bool))
    (s : σ), (∀ s packet len header, (onPacket s packet len header).isSome) →
      ∃ fuel, (splitMtbtFrame onPacket fuel s (some frame)).isSome
  advances : ∀ offset next, Visited frame offset → Next (mtbtCut frame) offset next →
    offset < next
  inside : ∀ offset packet next, Visited frame offset →
    mtbtCut frame offset = .call packet next → packet.1 + packet.2.1 ≤ frame.length

/-- An offset that is reached over whole packets. -/
inductive Whole : ℕ → Prop
  | start : Whole 0
  | packet {offset : ℕ} (h : Whole offset) (h_header : offset + 8 ≤ frame.length)
      (h_len : 8 ≤ packetLen (headerOf (frame.drop offset)))
      (h_inside : offset + packetLen (headerOf (frame.drop offset)) ≤ frame.length) :
      Whole (offset + packetLen (headerOf (frame.drop offset)))

/-- A length that leads out of the frame does so modulo `2 ^ 64` too. -/
def NoWrap : Prop :=
  ∀ offset, Whole frame offset → offset + 8 ≤ frame.length →
    8 ≤ packetLen (headerOf (frame.drop offset)) →
    frame.length < offset + packetLen (headerOf (frame.drop offset)) →
    frame.length < (offset + packetLen (headerOf (frame.drop offset))) % 2 ^ 64

end

section

variable {frame : List Byte}

theorem Whole.le {offset : ℕ} (h : Whole frame offset) : offset ≤ frame.length := by
  cases h with
  | start => exact Nat.zero_le _
  | packet _ _ _ h_inside => exact h_inside

/-- Where nothing wraps, an iteration goes over a whole packet. -/
theorem Whole.next (h_frame : frame.length < 2 ^ 64) (h_wrap : NoWrap frame) {offset next : ℕ}
    {packet : ℕ × ℕ × MtbtStreamHeader} (h : Whole frame offset)
    (h_cut : mtbtCut frame offset = .call packet next) :
    Whole frame next ∧ offset < next ∧ packet.1 + packet.2.1 = next ∧ next ≤ frame.length := by
  rw [mtbtCut_eq h_frame h.le] at h_cut
  split at h_cut
  · next h_packet =>
    obtain ⟨h_header, h_len, h_mod⟩ := h_packet
    cases h_cut
    -- a packet that reaches beyond the frame would have to wrap to pass the test
    have h_inside : offset + packetLen (headerOf (frame.drop offset)) ≤ frame.length := by
      by_contra h_out
      exact absurd h_mod (Nat.not_le.mpr (h_wrap offset h h_header h_len (Nat.not_le.mp h_out)))
    -- inside the frame nothing wraps
    have h_exact : (offset + packetLen (headerOf (frame.drop offset))) % 2 ^ 64 =
        offset + packetLen (headerOf (frame.drop offset)) := Nat.mod_eq_of_lt (by omega)
    rw [h_exact]
    exact ⟨.packet h h_header h_len h_inside, by omega, rfl, h_inside⟩
  · cases h_cut

theorem Visited.whole (h_frame : frame.length < 2 ^ 64) (h_wrap : NoWrap frame) {offset : ℕ}
    (h : Visited frame offset) : Whole frame offset := by
  induction h with
  | refl => exact .start
  | tail _ h_next ih =>
    obtain ⟨packet, h_cut⟩ := h_next
    exact (ih.next h_frame h_wrap h_cut).1

/-- The loop goes over whole packets. -/
theorem Whole.visited (h_frame : frame.length < 2 ^ 64) {offset : ℕ} (h : Whole frame offset) :
    Visited frame offset := by
  induction h with
  | start => exact .refl
  | @packet offset h h_header h_len h_inside ih =>
    let header := headerOf (frame.drop offset)
    refine ih.tail ⟨(offset, packetLen header, header), ?_⟩
    have h_exact : (offset + packetLen (headerOf (frame.drop offset))) % 2 ^ 64 =
        offset + packetLen (headerOf (frame.drop offset)) := Nat.mod_eq_of_lt (by omega)
    rw [mtbtCut_eq h_frame h.le, h_exact, if_pos ⟨h_header, h_len, h_inside⟩]

theorem NoWrap.splitsInside (h_frame : frame.length < 2 ^ 64) (h_wrap : NoWrap frame) :
    SplitsInside frame where
  ends σ onPacket s h_total := by
    -- the offset grows and stays in the frame
    obtain ⟨pieces, consumed, h_splits⟩ : ∃ pieces consumed,
        Splits (mtbtCut frame) 0 pieces consumed := by
      refine Splitter.exists_splits_of_growing frame.length (I := Whole frame) ?_ .start
      rintro offset next h_whole ⟨packet, h_cut⟩
      obtain ⟨h_next, h_grows, -, h_limit⟩ := h_whole.next h_frame h_wrap h_cut
      exact ⟨h_next, h_grows, h_limit⟩
    refine ⟨pieces.length + 1, ?_⟩
    rw [splitMtbtFrame, splitMtbtLoop_eq, h_splits.run (Nat.lt_succ_self _), Option.isSome_map,
      Option.isSome_map]
    exact Splitter.handle_isSome (fun s packet _ => h_total s _ _ _) s
  advances offset next h_visited h_next := by
    obtain ⟨packet, h_cut⟩ := h_next
    exact ((h_visited.whole h_frame h_wrap).next h_frame h_wrap h_cut).2.1
  inside offset packet next h_visited h_cut := by
    obtain ⟨-, -, h_end, h_limit⟩ := (h_visited.whole h_frame h_wrap).next h_frame h_wrap h_cut
    exact h_end.trans_le h_limit

/-- A packet that wraps is handed over, and does not lie in the frame. -/
theorem SplitsInside.noWrap (h_frame : frame.length < 2 ^ 64) (h : SplitsInside frame) :
    NoWrap frame := by
  intro offset h_whole h_header h_len h_out
  by_contra h_mod
  have h_cut := mtbtCut_eq h_frame h_whole.le
  rw [if_pos ⟨h_header, h_len, Nat.not_lt.mp h_mod⟩] at h_cut
  exact absurd (h.inside offset _ _ (h_whole.visited h_frame) h_cut) (Nat.not_le.mpr h_out)

/-- In a frame of ordinary size only a negative length can wrap, and it does so when it leads
back to an offset of the frame. -/
theorem noWrap_iff (h_frame : frame.length + 2 ^ 15 ≤ 2 ^ 64) :
    NoWrap frame ↔ ∀ offset : ℕ, Whole frame offset → offset + 8 ≤ frame.length →
      0 ≤ (headerOf (frame.drop offset)).msgLen.toInt ∨
        (offset : ℤ) + (headerOf (frame.drop offset)).msgLen.toInt < 0 := by
  have h_cases : ∀ offset : ℕ, offset ≤ frame.length →
      ((8 ≤ packetLen (headerOf (frame.drop offset)) →
        frame.length < offset + packetLen (headerOf (frame.drop offset)) →
        frame.length < (offset + packetLen (headerOf (frame.drop offset))) % 2 ^ 64) ↔
      (0 ≤ (headerOf (frame.drop offset)).msgLen.toInt ∨
        (offset : ℤ) + (headerOf (frame.drop offset)).msgLen.toInt < 0)) := by
    intro offset h_offset
    have h_eq := packetLen_eq (headerOf (frame.drop offset))
    obtain ⟨h_low, h_high⟩ := msgLen_bounds (headerOf (frame.drop offset))
    generalize packetLen (headerOf (frame.drop offset)) = p at h_eq ⊢
    generalize (headerOf (frame.drop offset)).msgLen.toInt = msgLen at h_eq h_low h_high ⊢
    by_cases h_nonneg : 0 ≤ msgLen
    · -- less than `2 ^ 15`, which is too small to wrap
      rw [if_pos h_nonneg] at h_eq
      refine ⟨fun _ => Or.inl h_nonneg, fun _ _ h_out => ?_⟩
      rwa [Nat.mod_eq_of_lt (by omega)]
    · -- `2 ^ 64` and something negative: the sum wraps unless it stays below 0
      rw [if_neg h_nonneg] at h_eq
      constructor
      · intro h_wrap
        refine Or.inr (Int.not_le.mp fun h_back => ?_)
        have h_mod := h_wrap (by omega) (by omega)
        omega
      · rintro (h_pos | h_before) _ h_out
        · exact absurd h_pos h_nonneg
        · rwa [Nat.mod_eq_of_lt (by omega)]
  exact ⟨fun h o h_whole h_header => (h_cases o h_whole.le).mp (h o h_whole h_header),
    fun h o h_whole h_header => (h_cases o h_whole.le).mpr (h o h_whole h_header)⟩

/-- **Exactly when the splitter ends, advances and stays in the frame**: when no length that
leads out of the frame wraps; in a frame of ordinary size, when no header has a negative length
that leads back to an offset of the frame. -/
theorem mtbt_splits_iff (h_frame : frame.length < 2 ^ 64) :
    (SplitsInside frame ↔ NoWrap frame) ∧
    (frame.length + 2 ^ 15 ≤ 2 ^ 64 →
      (SplitsInside frame ↔ ∀ offset : ℕ, Whole frame offset → offset + 8 ≤ frame.length →
        0 ≤ (headerOf (frame.drop offset)).msgLen.toInt ∨
          (offset : ℤ) + (headerOf (frame.drop offset)).msgLen.toInt < 0)) := by
  have h_iff : SplitsInside frame ↔ NoWrap frame :=
    ⟨fun h => h.noWrap h_frame, fun h => h.splitsInside h_frame⟩
  exact ⟨h_iff, fun h_ordinary => h_iff.trans (noWrap_iff h_ordinary)⟩

/-- A header with the length `-1` at the beginning of a frame. -/
theorem mtbt_splits_negative : SplitsInside [0xff, 0xff, 0, 0, 0, 0, 0, 0] := by
  refine ((mtbt_splits_iff (by decide)).2 (by decide)).mpr fun offset h_whole h_header => ?_
  have h_zero : offset = 0 := by
    change offset + 8 ≤ 8 at h_header
    omega
  subst h_zero
  decide +kernel

/-- A packet of 34 bytes and, behind it, a header with the length `-34`. -/
def wrappingFrame : List Byte :=
  [34, 0] ++ List.replicate 32 0 ++ [0xde, 0xff, 0, 0, 0, 0, 0, 0]

/-- Its two packets lead to each other. -/
theorem wrappingFrame_cuts : ∃ header header',
    mtbtCut wrappingFrame 0 = .call (0, 34, header) 34 ∧
      mtbtCut wrappingFrame 34 = .call (34, 2 ^ 64 - 34, header') 0 := ⟨_, _, rfl, rfl⟩

theorem splitMtbtFrame_wrapping {σ : Type*}
    (onPacket : σ → List Byte → ℕ → MtbtStreamHeader → Option (σ × Bool)) (s : σ) (fuel : ℕ) :
    splitMtbtFrame onPacket fuel s (some wrappingFrame) = none := by
  obtain ⟨header, header', h_first, h_second⟩ := wrappingFrame_cuts
  -- neither offset stops
  have h_walk : ∀ {offset consumed pieces},
      Splits (mtbtCut wrappingFrame) offset pieces consumed → offset ≠ 0 ∧ offset ≠ 34 := by
    intro offset consumed pieces h_splits
    induction h_splits with
    | stop h =>
      constructor
      · rintro rfl
        cases h_first.symm.trans h
      · rintro rfl
        cases h_second.symm.trans h
    | call h h_rest ih =>
      constructor
      · rintro rfl
        cases h_first.symm.trans h
        exact ih.2 rfl
      · rintro rfl
        cases h_second.symm.trans h
        exact ih.1 rfl
  rw [splitMtbtFrame, splitMtbtLoop_eq, Option.map_eq_none_iff, Option.eq_none_iff_forall_ne_some]
  rintro ⟨s', answers, consumed⟩ h_run
  obtain ⟨pieces, h_splits, -⟩ := Splitter.exists_splits h_run
  exact (h_walk h_splits).1 rfl

/-- **The splitter loops.** The second packet of this frame is 18446744073709551582 bytes long,
and behind it the splitter is at the beginning of the frame again: whatever the handler, it does
not end. -/
theorem mtbt_splits_wrapping :
    ¬SplitsInside wrappingFrame ∧
      (∃ header, mtbtCut wrappingFrame 34 = .call (34, 2 ^ 64 - 34, header) 0) ∧
      ∀ (σ : Type) (onPacket : σ → List Byte → ℕ → MtbtStreamHeader → Option (σ × Bool)) (s : σ)
        (fuel : ℕ), splitMtbtFrame onPacket fuel s (some wrappingFrame) = none := by
  obtain ⟨header, header', h_first, h_second⟩ := wrappingFrame_cuts
  have h_visited : Visited wrappingFrame 34 := Relation.ReflTransGen.single ⟨_, h_first⟩
  refine ⟨fun h => ?_, ⟨header', h_second⟩, fun σ => splitMtbtFrame_wrapping⟩
  exact absurd (h.advances 34 0 h_visited ⟨_, h_second⟩) (by decide)

end

/-! ### Packets with their own lengths -/

/-- Bytes whose header announces them. -/
structure MtbtPacket (packet : List Byte) : Prop where
  long : 8 ≤ packet.length
  short : packet.length < 2 ^ 15
  msgLen : (headerOf packet).msgLen.toInt = packet.length

/-- Bytes that do not begin with a packet: less than a header, or a header whose length is too
small for it, or one that is larger than what is there. -/
def MtbtTail (tail : List Byte) : Prop :=
  tail.length < 8 ∨
    (0 ≤ (headerOf tail).msgLen.toInt ∧ (headerOf tail).msgLen.toInt ≤ 7) ∨
    (8 ≤ (headerOf tail).msgLen.toInt ∧ (tail.length : ℤ) < (headerOf tail).msgLen.toInt)

/-- The calls that packets should give: where each begins in the frame, its length and its
header. -/
def mtbtCalls : List (List Byte) → List Byte → List (List Byte × ℕ × MtbtStreamHeader)
  | [], _ => []
  | packet :: packets, tail =>
    (packet ++ (packets.flatten ++ tail), packet.length, headerOf packet) ::
      mtbtCalls packets tail

/-- Where the packets of a frame are that begin at an offset. -/
def mtbtSlices : ℕ → List (List Byte) → List (ℕ × ℕ × MtbtStreamHeader)
  | _, [] => []
  | offset, packet :: packets =>
    (offset, packet.length, headerOf packet) :: mtbtSlices (offset + packet.length) packets

section

variable {packets : List (List Byte)} {tail : List Byte}

/-- The packets of the calls are the packets. -/
theorem mtbtCalls_contents (packets : List (List Byte)) (tail : List Byte) :
    (mtbtCalls packets tail).map (fun call => (call.1.take call.2.1, call.2.2)) =
      packets.map fun packet => (packet, headerOf packet) := by
  induction packets with
  | nil => rfl
  | cons packet packets ih => rw [mtbtCalls, List.map_cons, List.map_cons, ih, List.take_left]

theorem exists_of_mem_mtbtCalls {call : List Byte × ℕ × MtbtStreamHeader}
    (h : call ∈ mtbtCalls packets tail) : ∃ packet ∈ packets, ∃ behind,
      call = (packet ++ behind, packet.length, headerOf packet) := by
  induction packets with
  | nil => exact absurd h List.not_mem_nil
  | cons packet packets ih =>
    obtain rfl | h_later := List.mem_cons.mp h
    · exact ⟨packet, List.mem_cons_self, _, rfl⟩
    · obtain ⟨packet', h_mem, h_eq⟩ := ih h_later
      exact ⟨packet', List.mem_cons_of_mem _ h_mem, h_eq⟩

theorem mtbtSlices_calls (before : List Byte) (packets : List (List Byte)) (tail : List Byte) :
    (mtbtSlices before.length packets).map (fun slice =>
        ((before ++ (packets.flatten ++ tail)).drop slice.1, slice.2)) =
      mtbtCalls packets tail := by
  induction packets generalizing before with
  | nil => rfl
  | cons packet packets ih =>
    have h_ih := ih (before ++ packet)
    rw [List.length_append, List.append_assoc] at h_ih
    rw [mtbtSlices, mtbtCalls, List.map_cons, List.flatten_cons, List.append_assoc, h_ih,
      List.drop_left]

theorem mtbtSlices_length (offset : ℕ) (packets : List (List Byte)) :
    (mtbtSlices offset packets).length = packets.length := by
  induction packets generalizing offset with
  | nil => rfl
  | cons packet packets ih => rw [mtbtSlices, List.length_cons, ih, List.length_cons]

/-- A header does not depend on what is behind it. -/
theorem headerOf_append {packet : List Byte} (h : 8 ≤ packet.length) (behind : List Byte) :
    headerOf (packet ++ behind) = headerOf packet := by
  refine MtbtStreamHeader.codec.get_congr fun k h_k => ?_
  have h_size : MtbtStreamHeader.codec.size = 8 := rfl
  exact List.getD_append _ _ _ _ (by omega)

theorem MtbtPacket.packetLen_eq {packet : List Byte} (h : MtbtPacket packet) :
    packetLen (headerOf packet) = packet.length := by
  have h_eq := Trading.packetLen_eq (headerOf packet)
  rw [h.msgLen, if_pos (Int.natCast_nonneg _)] at h_eq
  exact Int.ofNat_inj.mp h_eq

/-- An iteration at a packet calls the handler with it. -/
theorem mtbtCut_packet {packet : List Byte} (h : MtbtPacket packet) (before behind : List Byte)
    (h_frame : (before ++ (packet ++ behind)).length < 2 ^ 64) :
    mtbtCut (before ++ (packet ++ behind)) before.length =
      .call (before.length, packet.length, headerOf packet) (before.length + packet.length) := by
  have h_long := h.long
  have h_len : (before ++ (packet ++ behind)).length =
      before.length + (packet.length + behind.length) := by
    rw [List.length_append, List.length_append]
  have h_exact : (before.length + packet.length) % 2 ^ 64 = before.length + packet.length :=
    Nat.mod_eq_of_lt (by omega)
  rw [mtbtCut_eq h_frame (by omega), List.drop_left, headerOf_append h.long, h.packetLen_eq,
    h_exact, if_pos (by omega)]

/-- An iteration at a tail ends the loop. -/
theorem mtbtCut_tail (h : MtbtTail tail) (before : List Byte)
    (h_frame : (before ++ tail).length + 2 ^ 15 ≤ 2 ^ 64) :
    mtbtCut (before ++ tail) before.length = .stop before.length := by
  have h_len : (before ++ tail).length = before.length + tail.length := List.length_append
  have h_eq := packetLen_eq (headerOf tail)
  obtain ⟨-, h_high⟩ := msgLen_bounds (headerOf tail)
  rw [mtbtCut_eq (by omega) (by omega), List.drop_left]
  refine if_neg ?_
  rintro ⟨h_header, h_long, h_mod⟩
  -- the three kinds of tail: shorter than a header, too short a length, too long a one
  obtain h_short | ⟨h_nonneg, h_small⟩ | ⟨h_pos, h_large⟩ := h
  · omega
  · rw [if_pos h_nonneg] at h_eq
    omega
  · rw [if_pos (by omega)] at h_eq
    rw [Nat.mod_eq_of_lt (by omega)] at h_mod
    omega

theorem mtbtPackets_splits (before : List Byte) (h_packets : ∀ packet ∈ packets, MtbtPacket packet)
    (h_tail : MtbtTail tail)
    (h_frame : (before ++ (packets.flatten ++ tail)).length + 2 ^ 15 ≤ 2 ^ 64) :
    Splits (mtbtCut (before ++ (packets.flatten ++ tail))) before.length
      (mtbtSlices before.length packets) (before.length + packets.flatten.length) := by
  -- induction on the packets; what is behind the first has one packet more before it
  induction packets generalizing before with
  | nil => exact .stop (mtbtCut_tail h_tail before h_frame)
  | cons packet packets ih =>
    obtain ⟨h_packet, h_rest⟩ := List.forall_mem_cons.mp h_packets
    rw [List.flatten_cons, List.append_assoc] at h_frame ⊢
    have h_ih := ih (before ++ packet) h_rest (by rwa [List.append_assoc])
    rw [List.length_append, List.append_assoc, Nat.add_assoc before.length] at h_ih
    rw [List.length_append]
    exact .call (mtbtCut_packet h_packet before _ (by omega)) h_ih

/-- More iterations do not change what a call that returns has done. -/
theorem splitMtbtFrame_mono {σ : Type*}
    {onPacket : σ → List Byte → ℕ → MtbtStreamHeader → Option (σ × Bool)} {s : σ}
    {fuel fuel' : ℕ} (h_le : fuel ≤ fuel') {frame : Option (List Byte)} {r : σ × Stats}
    (h : splitMtbtFrame onPacket fuel s frame = some r) :
    splitMtbtFrame onPacket fuel' s frame = some r := by
  cases frame with
  | none => exact h
  | some frame =>
    rw [splitMtbtFrame, splitMtbtLoop_eq] at h ⊢
    obtain ⟨result, h_run, h_eq⟩ := Option.map_eq_some_iff.mp h
    rw [Splitter.run_mono h_le h_run, Option.map_some, h_eq]

/-- The splitter on packets and a tail is the handler on the calls they should give. -/
theorem splitMtbtFrame_packets (h_packets : ∀ packet ∈ packets, MtbtPacket packet)
    (h_tail : MtbtTail tail) (h_frame : (packets.flatten ++ tail).length + 2 ^ 15 ≤ 2 ^ 64)
    {σ : Type*} (onPacket : σ → List Byte → ℕ → MtbtStreamHeader → Option (σ × Bool)) (s : σ)
    {fuel : ℕ} (h_fuel : packets.length < fuel) :
    splitMtbtFrame onPacket fuel s (some (packets.flatten ++ tail)) =
      (handle (fun s call => onPacket s call.1 call.2.1 call.2.2) (mtbtCalls packets tail) s).map
        fun r => (r.1, Stats.after {} r.2 packets.flatten.length) := by
  -- the walk over the packets, from the frame's start
  have h_splits := mtbtPackets_splits [] h_packets h_tail h_frame
  have h_calls := mtbtSlices_calls [] packets tail
  rw [List.nil_append, List.length_nil, Nat.zero_add] at h_splits
  rw [List.nil_append, List.length_nil] at h_calls
  -- the loop is the handler on the walk's slices, and these are the calls
  rw [splitMtbtFrame, splitMtbtLoop_eq, h_splits.run (by rwa [mtbtSlices_length]), Option.map_map,
    ← h_calls, ← Splitter.handle_map]
  rfl

end

/-- **MTBT framing round trip.** Of packets with their own lengths and a tail that does not begin
with one, the splitter hands over the packets in order with their headers, and nothing else,
counts each and consumes their total length. No object has `2 ^ 63` bytes, so the offset of a
header plus its length is a `size_t`. -/
theorem mtbt_round_trip {packets : List (List Byte)} {tail : List Byte}
    (h_packets : ∀ packet ∈ packets, MtbtPacket packet) (h_tail : MtbtTail tail)
    (h_frame : (packets.flatten ++ tail).length + 2 ^ 15 ≤ 2 ^ 64) {σ : Type}
    (onPacket : σ → List Byte → ℕ → MtbtStreamHeader → Option (σ × Bool)) (s : σ) {fuel : ℕ}
    (h_fuel : packets.length < fuel) :
    splitMtbtFrame onPacket fuel s (some (packets.flatten ++ tail)) =
        (handle (fun s call => onPacket s call.1 call.2.1 call.2.2) (mtbtCalls packets tail) s).map
          (fun r => (r.1, Stats.after {} r.2 packets.flatten.length)) ∧
      (mtbtCalls packets tail).map (fun call => (call.1.take call.2.1, call.2.2)) =
        packets.map (fun packet => (packet, headerOf packet)) ∧
      ∀ s' stats, splitMtbtFrame onPacket fuel s (some (packets.flatten ++ tail)) =
          some (s', stats) →
        stats.saved + stats.skipped = packets.length ∧ stats.consumed = packets.flatten.length := by
  have h_split := splitMtbtFrame_packets h_packets h_tail h_frame onPacket s h_fuel
  refine ⟨h_split, mtbtCalls_contents packets tail, fun s' stats h_some => ?_⟩
  rw [h_split] at h_some
  obtain ⟨⟨s₁, answers⟩, h_handle, h_eq⟩ := Option.map_eq_some_iff.mp h_some
  cases h_eq
  -- one call for each packet
  have h_calls : (mtbtCalls packets tail).length = packets.length := by
    have h_contents := congrArg List.length (mtbtCalls_contents packets tail)
    rwa [List.length_map, List.length_map] at h_contents
  refine ⟨?_, rfl⟩
  rw [(Stats.after_total answers _).2, Splitter.handle_length h_handle, h_calls]

/-- Two packets and the first bytes of a third. -/
theorem mtbt_round_trip_two :
    ∃ stats, splitMtbtFrame (fun n _ _ _ => some (n + 1, true)) 3 0
        (some ([[8, 0, 0, 0, 0, 0, 0, 0], [9, 0, 0, 0, 0, 0, 0, 0, 7]].flatten ++ [34, 0])) =
          some (2, stats) ∧
      stats.saved + stats.skipped = 2 ∧ stats.consumed = 17 := by
  have h_packets : ∀ packet ∈ ([[8, 0, 0, 0, 0, 0, 0, 0], [9, 0, 0, 0, 0, 0, 0, 0, 7]] :
      List (List Byte)), MtbtPacket packet :=
    List.forall_mem_cons.mpr ⟨⟨by decide, by decide, by decide +kernel⟩,
      List.forall_mem_singleton.mpr ⟨by decide, by decide, by decide +kernel⟩⟩
  have h_tail : MtbtTail [34, 0] := Or.inl (by decide)
  have h_fuel : ([[8, 0, 0, 0, 0, 0, 0, 0], [9, 0, 0, 0, 0, 0, 0, 0, 7]] :
      List (List Byte)).length < 3 := by decide
  -- two iterations for the packets and one for what is left
  obtain ⟨h_split, -, h_stats⟩ := mtbt_round_trip h_packets h_tail (by decide)
    (fun n _ _ _ => some (n + 1, true)) 0 h_fuel
  exact ⟨_, h_split, h_stats _ _ h_split⟩

end Trading

end Hft
