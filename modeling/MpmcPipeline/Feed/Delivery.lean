import MpmcPipeline.Feed.Inlet

/-!
# What the reader makes of a published slot

A slot *holds* a frame when every plain write of its `publish` has been made
(`FrameSlot.Holds`). Reading such a slot field by field and byte by byte, the reader
does exactly what `deliver` says with the frame: `Progress` relates each program point
inside an iteration to what is left to do, and `ReaderMove` is the inversion of the
reader's step, with one rule for each thing a step can do.

The last section says what the sequential meaning is: `deliver` drops a frame exactly
when it is malformed.
-/

namespace Hft

namespace Feed

/-! ### Slots and frames -/

/-- The `n`-th plain write of `publish` shows in the slot. -/
def FrameSlot.Agrees (slot : FrameSlot) (frame : Frame) : ℕ → Prop
  | 0 => slot.magic = kMagic
  | 1 => slot.kind = frame.kind
  | 2 => slot.flags = frame.flags
  | 3 => slot.payloadLen = BitVec.ofNat 32 frame.bytes.length
  | 4 => slot.uncompressedLen = frame.uncompressedLen
  | 5 => slot.reserved = 0
  | k + 6 => ∀ h : k < frame.bytes.length,
      slot.payload ⟨k, Frame.lt_capacity h⟩ = frame.bytes[k]

/-- The first `n` plain writes have been made. -/
def FrameSlot.Written (slot : FrameSlot) (frame : Frame) (n : ℕ) : Prop :=
  ∀ k < n, slot.Agrees frame k

/-- The slot holds the frame. -/
def FrameSlot.Holds (slot : FrameSlot) (frame : Frame) : Prop := ∀ k, slot.Agrees frame k

theorem FrameSlot.put_agrees (slot : FrameSlot) (frame : Frame) (n : ℕ) :
    (slot.put frame n).Agrees frame n := by
  rcases n with _ | _ | _ | _ | _ | _ | k
  case succ.succ.succ.succ.succ.succ =>
    intro h_k
    simp only [put, dif_pos h_k, Function.update_self]
  all_goals rfl

/-- A write of a frame undoes no other write of the same frame. -/
theorem FrameSlot.put_keeps {slot : FrameSlot} {frame : Frame} {k : ℕ} (n : ℕ)
    (h : slot.Agrees frame k) : (slot.put frame n).Agrees frame k := by
  by_cases h_eq : k = n
  · rw [h_eq]
    exact slot.put_agrees frame n
  -- two bytes are at different places, and a field is not a byte
  rcases n with _ | _ | _ | _ | _ | _ | n
  case neg.succ.succ.succ.succ.succ.succ =>
    by_cases h_n : n < frame.bytes.length
    · simp only [put, dif_pos h_n]
      rcases k with _ | _ | _ | _ | _ | _ | k
      case succ.succ.succ.succ.succ.succ =>
        intro h_k
        have h_ne : (⟨k, Frame.lt_capacity h_k⟩ : Fin kCapacity) ≠
            ⟨n, Frame.lt_capacity h_n⟩ := fun h_fin => by
          have h_kn : k = n := congrArg Fin.val h_fin
          exact h_eq (by rw [h_kn])
        exact (Function.update_of_ne h_ne ..).trans (h h_k)
      all_goals exact h
    · simp only [put, dif_neg h_n]
      exact h
  all_goals
    rcases k with _ | _ | _ | _ | _ | _ | k
    all_goals first | exact h | exact absurd rfl h_eq

theorem FrameSlot.Written.put {slot : FrameSlot} {frame : Frame} {n : ℕ}
    (h : slot.Written frame n) : (slot.put frame n).Written frame (n + 1) := by
  intro k h_k
  rcases Nat.lt_succ_iff_lt_or_eq.mp h_k with h_lt | rfl
  · exact put_keeps n (h k h_lt)
  · exact slot.put_agrees frame k

/-- After the last write the slot holds the frame. -/
theorem FrameSlot.Written.holds {slot : FrameSlot} {frame : Frame} {n : ℕ}
    (h : slot.Written frame n) (h_n : ¬n < frame.writes) : slot.Holds frame := by
  intro k
  by_cases h_k : k < n
  · exact h k h_k
  · -- a byte past the end, of which nothing is asked
    have h_past : ∃ j, k = j + 6 ∧ ¬j < frame.bytes.length :=
      ⟨k - 6, by simp only [Frame.writes] at h_n; omega⟩
    obtain ⟨j, rfl, h_j⟩ := h_past
    exact fun h_lt => absurd h_lt h_j

/-! ### The reader inside an iteration -/

/-- The sequence number and the slot of the frame being read. -/
def ReaderPc.reading : ReaderPc → Option (BitVec 64 × Fin 2)
  | readMagic sequence slot | readKind sequence slot | readFlags sequence slot _
  | readLen sequence slot _ _ | readExpected sequence slot _
  | readByte sequence slot _ _ _ => some (sequence, slot)
  | _ => none

/-- What the reader has read of a frame, and what is left to do. -/
def Progress (lz4 : Lz4) (frame : Frame) : ReaderPc → Prop
  | .readFlags _ _ kind => kind = frame.kind
  | .readLen _ _ kind flags => kind = frame.kind ∧ flags = frame.flags
  | .readExpected _ _ len => len.val = frame.bytes.length ∧
      deliver lz4 frame =
        if frame.uncompressedLen = 0 ∨ kCapacity < frame.uncompressedLen.toNat then .dropped
        else (Source.compressed frame.uncompressedLen).outcome lz4 frame.bytes
  | .readByte _ _ source len bytes => len.val = frame.bytes.length ∧
      bytes = frame.bytes.take bytes.length ∧
      deliver lz4 frame = source.outcome lz4 frame.bytes
  | _ => True

/-- A bound on the steps to the end of the next iteration that finds a frame. -/
def ReaderPc.fuel : ReaderPc → ℕ
  | acknowledge _ => kCapacity + 11
  | loop => kCapacity + 10
  | loadSequence => kCapacity + 9
  | loadPublished _ => kCapacity + 8
  | readMagic _ _ => kCapacity + 7
  | readKind _ _ => kCapacity + 6
  | readFlags _ _ _ => kCapacity + 5
  | readLen _ _ _ _ => kCapacity + 4
  | readExpected _ _ _ => kCapacity + 3
  | readByte _ _ _ _ bytes => kCapacity + 2 - bytes.length
  | exited | starting => 0

/-- **What a step of the reader can do**, seen from outside: it looks whether to go on, looks for a
change, takes up a frame, reads in it, is done with it, or acknowledges it. -/
inductive ReaderMove (lz4 : Lz4) (running : Bool) (inlet : SharedInlet) (reader : Reader) :
    SharedInlet → Reader → List Outcome → Prop
  /-- Looking whether to go on. -/
  | check (pc : ReaderPc) (h_pc : reader.pc = .loop)
      (h_pc' : running = true ∧ pc = .loadSequence ∨ running = false ∧ pc = .exited) :
      ReaderMove lz4 running inlet reader inlet { reader with pc } []
  /-- Finding no change of the sequence. -/
  | again (h_pc : reader.pc = .loadSequence) (h_old : inlet.sequence = reader.last_sequence) :
      ReaderMove lz4 running inlet reader inlet { reader with pc := .loop } []
  /-- Finding a change. -/
  | notice (h_pc : reader.pc = .loadSequence) (h_new : inlet.sequence ≠ reader.last_sequence) :
      ReaderMove lz4 running inlet reader inlet
        { reader with pc := .loadPublished inlet.sequence } []
  /-- Choosing the slot. -/
  | fetch (sequence : BitVec 64) (h_pc : reader.pc = .loadPublished sequence) :
      ReaderMove lz4 running inlet reader inlet
        { reader with pc := .readMagic sequence (slotIndex inlet.published) } []
  /-- Reading a field or a byte. -/
  | scan (sequence : BitVec 64) (slot : Fin 2) (pc : ReaderPc)
      (h_pc : reader.pc.reading = some (sequence, slot))
      (h_pc' : pc.reading = some (sequence, slot)) (h_fuel : pc.fuel < reader.pc.fuel)
      (h_frame : ∀ frame, (inlet.slots slot).Holds frame → Progress lz4 frame reader.pc →
        Progress lz4 frame pc) :
      ReaderMove lz4 running inlet reader inlet { reader with pc } []
  /-- Being done with the frame. -/
  | finish (sequence : BitVec 64) (slot : Fin 2) (o : Outcome)
      (h_pc : reader.pc.reading = some (sequence, slot))
      (h_frame : ∀ frame, (inlet.slots slot).Holds frame → Progress lz4 frame reader.pc →
        o = deliver lz4 frame) :
      ReaderMove lz4 running inlet reader inlet
        { reader with pc := .acknowledge sequence } [o]
  /-- Storing the sequence number. -/
  | acknowledge (sequence : BitVec 64) (h_pc : reader.pc = .acknowledge sequence) :
      ReaderMove lz4 running inlet reader { inlet with processed := sequence }
        ⟨.loop, sequence⟩ []

/-- The payload length of a slot that holds a frame. -/
theorem FrameSlot.Holds.payloadLen {slot : FrameSlot} {frame : Frame} (h : slot.Holds frame) :
    slot.payloadLen.toNat = frame.bytes.length := by
  have h_len : slot.payloadLen = BitVec.ofNat 32 frame.bytes.length := h 3
  have h_fits := frame.fits
  have h_cap : kCapacity < 2 ^ 32 := by decide
  rw [h_len, BitVec.toNat_ofNat, Nat.mod_eq_of_lt (by omega)]

theorem deliver_of_pos (lz4 : Lz4) {frame : Frame} (h_pos : 0 < frame.bytes.length) :
    deliver lz4 frame =
      dispatch lz4 frame.kind frame.flags frame.uncompressedLen frame.bytes := by
  unfold deliver
  rw [if_neg (List.ne_nil_of_length_pos h_pos)]

/-- The payload of a plain frame is read from its start. -/
theorem Progress.start {lz4 : Lz4} {frame : Frame} {sequence : BitVec 64} {slot : Fin 2}
    {source : Source} {len : PayloadLen} (h_len : len.val = frame.bytes.length)
    (h_deliver : deliver lz4 frame = source.outcome lz4 frame.bytes) :
    Progress lz4 frame (.readByte sequence slot source len []) :=
  ⟨h_len, rfl, h_deliver⟩

/-- Reading the next byte. -/
theorem Progress.next {lz4 : Lz4} {frame : Frame} {sequence : BitVec 64} {slot : Fin 2}
    {source : Source} {len : PayloadLen} {bytes : List Byte} {b : Byte}
    (h : Progress lz4 frame (.readByte sequence slot source len bytes))
    (h_lt : bytes.length < frame.bytes.length) (h_b : b = frame.bytes[bytes.length]) :
    Progress lz4 frame (.readByte sequence slot source len (bytes ++ [b])) := by
  obtain ⟨h_len, h_bytes, h_deliver⟩ := h
  refine ⟨h_len, ?_, h_deliver⟩
  rw [List.length_append, List.length_singleton, List.take_add_one,
    List.getElem?_eq_getElem h_lt, Option.toList_some, ← h_bytes, h_b]

/-- **Every step of the reader is one of the moves.** -/
theorem Reader.step_move {lz4 : Lz4} {running : Bool} {inlet inlet' : SharedInlet}
    {reader reader' : Reader} {os : List Outcome}
    (h : reader.step lz4 running inlet = some (inlet', reader', os)) :
    ReaderMove lz4 running inlet reader inlet' reader' os := by
  obtain ⟨pc, last⟩ := reader
  cases pc with
  | loop =>
    cases h
    refine .check _ rfl ?_
    cases running
    · exact Or.inr ⟨rfl, rfl⟩
    · exact Or.inl ⟨rfl, rfl⟩
  | loadSequence =>
    cases h
    by_cases h_new : inlet.sequence = last
    · simp only [if_pos h_new]
      exact .again rfl h_new
    · simp only [if_neg h_new]
      exact .notice rfl h_new
  | loadPublished sequence =>
    cases h
    exact .fetch sequence rfl
  | readMagic sequence slot =>
    simp only [step] at h
    split at h
    · cases h
      exact .scan sequence slot _ rfl rfl (by simp [ReaderPc.fuel]) fun _ _ _ => trivial
    · next h_magic =>
      cases h
      exact .finish sequence slot _ rfl fun frame h_holds _ => absurd (h_holds 0) h_magic
  | readKind sequence slot =>
    cases h
    exact .scan sequence slot _ rfl rfl (by simp [ReaderPc.fuel]) fun frame h_holds _ => h_holds 1
  | readFlags sequence slot kind =>
    cases h
    exact .scan sequence slot _ rfl rfl (by simp [ReaderPc.fuel])
      fun frame h_holds h_read => ⟨h_read, h_holds 2⟩
  | readLen sequence slot kind flags =>
    simp only [step] at h
    split at h
    · next h_len =>
      -- the length is in range, so the kind decides
      have h_deliver : ∀ frame, (inlet.slots slot).Holds frame →
          Progress lz4 frame (.readLen sequence slot kind flags) →
          (inlet.slots slot).payloadLen.toNat = frame.bytes.length ∧
            deliver lz4 frame = dispatch lz4 kind flags frame.uncompressedLen frame.bytes := by
        intro frame h_holds h_read
        obtain ⟨rfl, rfl⟩ := h_read
        refine ⟨h_holds.payloadLen, deliver_of_pos lz4 ?_⟩
        rw [← h_holds.payloadLen]
        exact h_len.1
      cases kind with
      | mtbt =>
        simp only at h
        split at h
        · next h_flag =>
          -- compressed: the announced length is looked at before the payload
          cases h
          refine .scan sequence slot _ rfl rfl (by simp [ReaderPc.fuel])
            fun frame h_holds h_read => ?_
          obtain ⟨h_eq, h_out⟩ := h_deliver frame h_holds h_read
          refine ⟨h_eq, h_out.trans ?_⟩
          simp only [dispatch, if_pos h_flag]
        · next h_flag =>
          cases h
          refine .scan sequence slot _ rfl rfl (by simp [ReaderPc.fuel])
            fun frame h_holds h_read => ?_
          obtain ⟨h_eq, h_out⟩ := h_deliver frame h_holds h_read
          refine .start h_eq (h_out.trans ?_)
          simp only [dispatch, if_neg h_flag]
          rfl
      | itch =>
        cases h
        refine .scan sequence slot _ rfl rfl (by simp [ReaderPc.fuel])
          fun frame h_holds h_read => ?_
        exact .start (h_deliver frame h_holds h_read).1 (h_deliver frame h_holds h_read).2
      | mcx =>
        cases h
        refine .scan sequence slot _ rfl rfl (by simp [ReaderPc.fuel])
          fun frame h_holds h_read => ?_
        exact .start (h_deliver frame h_holds h_read).1 (h_deliver frame h_holds h_read).2
      | none | unnamed b =>
        cases h
        exact .finish sequence slot _ rfl fun frame h_holds h_read =>
          (h_deliver frame h_holds h_read).2.symm
    · next h_len =>
      cases h
      refine .finish sequence slot _ rfl fun frame h_holds _ => ?_
      -- an accepted frame is not too long, so it is empty
      have h_fits := frame.fits
      have h_nil : frame.bytes = [] := by
        rw [h_holds.payloadLen] at h_len
        exact List.eq_nil_of_length_eq_zero (by omega)
      unfold deliver
      rw [if_pos h_nil]
  | readExpected sequence slot len =>
    simp only [step] at h
    split at h
    · next h_bad =>
      cases h
      refine .finish sequence slot _ rfl fun frame h_holds h_read => ?_
      have h_expected : (inlet.slots slot).uncompressedLen = frame.uncompressedLen := h_holds 4
      rw [h_read.2, ← h_expected, if_pos h_bad]
    · next h_good =>
      cases h
      refine .scan sequence slot _ rfl rfl (by simp [ReaderPc.fuel]) fun frame h_holds h_read => ?_
      have h_expected : (inlet.slots slot).uncompressedLen = frame.uncompressedLen := h_holds 4
      rw [h_expected] at h_good ⊢
      exact .start h_read.1 (by rw [h_read.2, if_neg h_good])
  | readByte sequence slot source len bytes =>
    simp only [step] at h
    split at h
    · next h_lt =>
      -- one byte more of the frame's payload
      cases h
      refine .scan sequence slot _ rfl rfl ?_ fun frame h_holds h_read => ?_
      · have h_len := len.isLt
        simp only [ReaderPc.fuel, List.length_append, List.length_singleton]
        omega
      have h_lt' : bytes.length < frame.bytes.length := by
        rw [← h_read.1]
        exact h_lt
      exact h_read.next h_lt' (h_holds (bytes.length + 6) h_lt')
    · next h_done =>
      -- the whole payload, so what is done with it is what `deliver` says
      cases h
      refine .finish sequence slot _ rfl fun frame h_holds h_read => ?_
      obtain ⟨h_len, h_bytes, h_deliver⟩ := h_read
      have h_all : bytes = frame.bytes := by
        rw [h_bytes, List.take_of_length_le (by omega)]
      rw [h_deliver, h_all]
  | acknowledge sequence =>
    cases h
    exact .acknowledge sequence rfl
  | exited => cases h
  | starting => cases h

/-! ### What the sequential meaning is -/

/-- `payload_len` is zero, or LZ4 fails or yields another length than announced. -/
def Malformed (lz4 : Lz4) (frame : Frame) : Prop :=
  frame.bytes = [] ∨
    frame.kind = .mtbt ∧ hasFlag frame.flags lz4Compressed ∧
      ∀ decoded, frame.uncompressedLen ≠ 0 → frame.uncompressedLen.toNat ≤ kCapacity →
        lz4.decompress frame.bytes kCapacity = some decoded →
        decoded.length ≠ frame.uncompressedLen.toNat

/-- The kinds the reader ingests. -/
def Kind.known : Kind → Bool
  | .itch | .mtbt | .mcx => true
  | .none | .unnamed _ => false

/-- The reader drops a frame exactly when it is malformed. -/
theorem deliver_eq_dropped (lz4 : Lz4) (frame : Frame) :
    deliver lz4 frame = .dropped ↔ Malformed lz4 frame := by
  by_cases h_nil : frame.bytes = []
  · exact iff_of_true (by unfold deliver; rw [if_pos h_nil]) (Or.inl h_nil)
  have h_pos : 0 < frame.bytes.length := List.length_pos_of_ne_nil h_nil
  rw [deliver_of_pos lz4 h_pos]
  unfold dispatch
  cases h_kind : frame.kind with
  | mtbt =>
    by_cases h_flag : hasFlag frame.flags lz4Compressed
    · simp only [if_pos h_flag]
      unfold Malformed Source.outcome
      simp only [h_nil, h_kind, h_flag, false_or, true_and]
      split
      · next h_bad =>
        -- an announced length out of range: no output can have it
        refine iff_of_true rfl fun decoded h_ne h_le => ?_
        rcases h_bad with h_zero | h_big
        · exact absurd h_zero h_ne
        · exact absurd h_le (Nat.not_le.mpr h_big)
      · next h_good =>
        have h_ne : frame.uncompressedLen ≠ 0 := fun h_zero => h_good (Or.inl h_zero)
        have h_le : frame.uncompressedLen.toNat ≤ kCapacity :=
          Nat.not_lt.mp fun h_big => h_good (Or.inr h_big)
        cases h_dec : lz4.decompress frame.bytes kCapacity with
        | none => simp
        | some decoded =>
          by_cases h_len : decoded.length = frame.uncompressedLen.toNat
          · have h_ne' : ¬frame.uncompressedLen = 0#32 := h_ne
            simp [h_len, h_ne', h_le]
          · simp [h_len]
    · simp [Malformed, h_nil, h_flag]
  | _ => simp [Malformed, h_nil, h_kind]

/-- The reader ignores a frame exactly when it is well formed and of no known kind. -/
theorem deliver_eq_ignored (lz4 : Lz4) (frame : Frame) :
    deliver lz4 frame = .ignored ↔ frame.bytes ≠ [] ∧ frame.kind.known = false := by
  by_cases h_nil : frame.bytes = []
  · refine iff_of_false ?_ fun h => h.1 h_nil
    unfold deliver
    rw [if_pos h_nil]
    exact Outcome.noConfusion
  have h_pos : 0 < frame.bytes.length := List.length_pos_of_ne_nil h_nil
  rw [deliver_of_pos lz4 h_pos]
  unfold dispatch
  cases h_kind : frame.kind with
  | mtbt =>
    -- every branch of a known kind ingests or drops
    refine iff_of_false ?_ (by simp [Kind.known])
    simp only [Source.outcome]
    split
    · split
      · exact Outcome.noConfusion
      · split
        · exact Outcome.noConfusion
        · split <;> exact Outcome.noConfusion
    · exact Outcome.noConfusion
  | _ => simp [Kind.known, h_nil]

/-- What is ingested is the published bytes, or what they decompress to. -/
theorem deliver_eq_ingested {lz4 : Lz4} {frame : Frame} {kind : Kind} {bytes : List Byte}
    (h : deliver lz4 frame = .ingested kind bytes) :
    kind = frame.kind ∧ (bytes = frame.bytes ∨ hasFlag frame.flags lz4Compressed ∧
      lz4.decompress frame.bytes kCapacity = some bytes ∧
      bytes.length = frame.uncompressedLen.toNat) := by
  unfold deliver at h
  split at h
  · exact absurd h Outcome.noConfusion
  unfold dispatch at h
  cases h_kind : frame.kind with
  -- the only kind that is ever decompressed
  | mtbt =>
    simp only [h_kind, Source.outcome] at h
    split at h
    · next h_flag =>
      split at h
      · exact absurd h Outcome.noConfusion
      · split at h
        · exact absurd h Outcome.noConfusion
        · next decoded h_dec =>
          split at h
          · next h_len =>
            obtain ⟨rfl, rfl⟩ := Outcome.ingested.inj h
            exact ⟨rfl, Or.inr ⟨h_flag, h_dec, h_len⟩⟩
          · exact absurd h Outcome.noConfusion
    · obtain ⟨rfl, rfl⟩ := Outcome.ingested.inj h
      exact ⟨rfl, Or.inl rfl⟩
  | itch | mcx =>
    simp only [h_kind] at h
    obtain ⟨rfl, rfl⟩ := Outcome.ingested.inj h
    exact ⟨rfl, Or.inl rfl⟩
  | none | unnamed b =>
    simp only [h_kind] at h
    exact absurd h Outcome.noConfusion

end Feed

end Hft
