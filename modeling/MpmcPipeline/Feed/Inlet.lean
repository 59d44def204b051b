import MpmcPipeline.Machine.Basic
import MpmcPipeline.Proto.Message

/-!
# `SharedInlet`, its writers and its reader

A `SharedInlet` (`shared_inlet.hpp`) is a double buffer of plain frame slots and three
atomics. `publish` fills the slot that `published` does not name, stores its index into
`published` and increments `sequence`; a disciplined writer then loads `sequence` and
waits until `processed` has reached it. `Reader::run` (`feed_reader.hpp`) looks for a
change of `sequence`, loads `published`, reads the plain slot, hands the frame to one of
the `ingest` functions or drops it, and stores the sequence number it saw into
`processed`.

Here all of them are step machines over one state: each atomic load, store or increment
is a step, and so is each plain read or write of a slot field or of a payload byte. An
`ingest` call is one step that shows the frame it was given (`Outcome.ingested`). LZ4 is
a parameter (`Lz4`). `Reader::stop` and `Reader::start` are the actions `stop` and
`start`.

`deliver` is the sequential meaning: what a reader that sees the whole frame does
with it.
-/

namespace Hft

namespace Feed

/-- `frame::kCapacity` -/
def kCapacity : ℕ := 1500

/-- `feed::Kind`, an enumeration over `std::uint8_t`. -/
inductive Kind
  | none
  | itch
  | mtbt
  | mcx
  | unnamed (b : { b : Byte // 3 < b.toNat })
  deriving DecidableEq

/-- `feed::InletFlags` -/
abbrev InletFlags := BitVec 16

/-- `InletFlags::lz4_compressed` -/
def lz4Compressed : InletFlags := 1

/-- `has_flag` -/
def hasFlag (flags flag : InletFlags) : Bool := flags &&& flag == flag

/-- `FrameSlot::kMagic` -/
def kMagic : BitVec 32 := 0x48465449

/-- `FrameSlot` -/
structure FrameSlot where
  magic : BitVec 32
  payloadLen : BitVec 32
  kind : Kind
  flags : InletFlags
  uncompressedLen : BitVec 32
  reserved : BitVec 32
  payload : Fin kCapacity → Byte

/-- The default member initializers. -/
def FrameSlot.fresh : FrameSlot := ⟨kMagic, 0, .none, 0, 0, 0, fun _ => 0⟩

/-- `SharedInlet` -/
structure SharedInlet where
  sequence : BitVec 64
  processed : BitVec 64
  published : BitVec 32
  slots : Fin 2 → FrameSlot

/-- The constructed inlet. -/
def SharedInlet.fresh : SharedInlet := ⟨0, 0, 0, fun _ => FrameSlot.fresh⟩

/-- `published % kSlots` -/
def slotIndex (published : BitVec 32) : Fin 2 := ⟨published.toNat % 2, Nat.mod_lt _ (by decide)⟩

/-- `1U - current` -/
def writeIndex (current : Fin 2) : Fin 2 := ⟨1 - current.val, by omega⟩

theorem writeIndex_ne (current : Fin 2) : writeIndex current ≠ current := by
  revert current
  decide

@[simp] theorem slotIndex_ofNat (w : Fin 2) : slotIndex (BitVec.ofNat 32 w) = w := by
  revert w
  decide

/-! ### Frames -/

/-- The arguments of `publish`; `none` is a null `data`, otherwise `len` is the number of
bytes. -/
structure Args where
  kind : Kind
  flags : InletFlags
  data : Option (List Byte)
  uncompressedLen : BitVec 32

/-- The arguments of a `publish` that is not rejected. -/
structure Frame where
  kind : Kind
  flags : InletFlags
  bytes : List Byte
  uncompressedLen : BitVec 32
  fits : bytes.length ≤ kCapacity

theorem Frame.lt_capacity {frame : Frame} {k : ℕ} (h : k < frame.bytes.length) :
    k < kCapacity := lt_of_lt_of_le h frame.fits

/-- `if (data == nullptr || len > frame::kCapacity) return;` -/
def Args.accept (args : Args) : Option Frame :=
  match args.data with
  | none => none
  | some bytes =>
    if h : bytes.length ≤ kCapacity then
      some ⟨args.kind, args.flags, bytes, args.uncompressedLen, h⟩
    else none

/-- The plain writes of `publish` in program order: six fields, then the bytes. -/
def FrameSlot.put (slot : FrameSlot) (frame : Frame) : ℕ → FrameSlot
  | 0 => { slot with magic := kMagic }
  | 1 => { slot with kind := frame.kind }
  | 2 => { slot with flags := frame.flags }
  | 3 => { slot with payloadLen := BitVec.ofNat 32 frame.bytes.length }
  | 4 => { slot with uncompressedLen := frame.uncompressedLen }
  | 5 => { slot with reserved := 0 }
  | k + 6 =>
    if h : k < frame.bytes.length then
      { slot with
        payload := Function.update slot.payload ⟨k, Frame.lt_capacity h⟩ frame.bytes[k] }
    else slot

/-- The number of plain writes. -/
def Frame.writes (frame : Frame) : ℕ := 6 + frame.bytes.length

/-- What `LZ4_decompress_safe` computes: the output, when it fits the capacity. -/
structure Lz4 where
  decompressSafe : List Byte → ℕ → Option (List Byte)
  le_capacity : ∀ input capacity output,
    decompressSafe input capacity = some output → output.length ≤ capacity

/-- `lz4::decompress`, with the output for `true`. -/
def Lz4.decompress (lz4 : Lz4) (input : List Byte) (output_capacity : ℕ) :
    Option (List Byte) :=
  if input.length = 0 ∨ output_capacity = 0 then none
  else lz4.decompressSafe input output_capacity

/-- What the reader did with a frame: an `ingest` function got these bytes, or the frame
was dropped as malformed, or it was of no kind the reader ingests. -/
inductive Outcome
  | ingested (kind : Kind) (bytes : List Byte)
  | dropped
  | ignored
  deriving DecidableEq

/-- What the payload is read for. -/
inductive Source
  | plain (kind : Kind)
  | compressed (expected : BitVec 32)

/-- The end of an iteration, with the whole payload. -/
def Source.outcome (lz4 : Lz4) : Source → List Byte → Outcome
  | plain kind, bytes => .ingested kind bytes
  | compressed expected, bytes =>
    match lz4.decompress bytes kCapacity with
    | none => .dropped
    | some decoded => if decoded.length = expected.toNat then .ingested .mtbt decoded else .dropped

/-- The reader's choice by kind and flags, for a payload of a good length. -/
def dispatch (lz4 : Lz4) (kind : Kind) (flags : InletFlags) (uncompressedLen : BitVec 32)
    (bytes : List Byte) : Outcome :=
  match kind with
  | .mtbt =>
    if hasFlag flags lz4Compressed then
      if uncompressedLen = 0 ∨ kCapacity < uncompressedLen.toNat then .dropped
      else (Source.compressed uncompressedLen).outcome lz4 bytes
    else .ingested .mtbt bytes
  | .itch => .ingested .itch bytes
  | .mcx => .ingested .mcx bytes
  | _ => .ignored

/-- What a reader that sees the whole frame does with it. -/
def deliver (lz4 : Lz4) (frame : Frame) : Outcome :=
  if frame.bytes = [] then .dropped
  else dispatch lz4 frame.kind frame.flags frame.uncompressedLen frame.bytes

/-! ### The writers -/

/-- A program point of a writer that repeats `publish`, `s := sequence` and
`wait_until_processed(s)`. -/
inductive WriterPc
  | idle
  /-- `inlet.published.load()` in `publish` -/
  | loadPublished (frame : Frame)
  /-- The `n`-th plain write into slot `w`, and after the last one
  `inlet.published.store(write)`. -/
  | write (w : Fin 2) (frame : Frame) (n : ℕ)
  /-- `inlet.sequence.fetch_add(1)` -/
  | fetchAdd (frame : Frame)
  /-- `inlet.sequence.load()` after `publish` -/
  | loadSequence
  /-- `inlet.processed.load() < s` -/
  | wait (s : BitVec 64)

/-- What a step makes visible. -/
inductive Event (ι : Type*)
  /-- A `publish` has incremented the sequence. -/
  | published (i : ι) (frame : Frame)
  /-- A `publish` has rejected its arguments. -/
  | rejected (i : ι)
  /-- `wait_until_processed(s)` has returned. -/
  | left (i : ι) (s : BitVec 64)
  /-- The reader is done with a frame. -/
  | outcome (o : Outcome)

/-- A writer calls `publish`. -/
def WriterPc.publish {ι : Type*} (i : ι) (args : Args) :
    WriterPc → Option (WriterPc × List (Event ι))
  | idle =>
    match args.accept with
    -- a rejected `publish` returns, and its caller waits all the same
    | none => some (loadSequence, [.rejected i])
    | some frame => some (loadPublished frame, [])
  | _ => none

/-- A writer inside a call runs on. -/
def WriterPc.step {ι : Type*} (i : ι) (inlet : SharedInlet) :
    WriterPc → Option (SharedInlet × WriterPc × List (Event ι))
  | idle => none
  | loadPublished frame =>
    some (inlet, write (writeIndex (slotIndex inlet.published)) frame 0, [])
  | write w frame n =>
    if n < frame.writes then
      some ({ inlet with slots := Function.update inlet.slots w ((inlet.slots w).put frame n) },
        write w frame (n + 1), [])
    -- the index is published before the sequence number
    else some ({ inlet with published := BitVec.ofNat 32 w }, fetchAdd frame, [])
  | fetchAdd frame =>
    some ({ inlet with sequence := inlet.sequence + 1 }, loadSequence, [.published i frame])
  | loadSequence => some (inlet, wait inlet.sequence, [])
  | wait s =>
    if inlet.processed < s then some (inlet, wait s, []) else some (inlet, idle, [.left i s])

/-! ### The reader -/

/-- A payload length the reader has checked. -/
abbrev PayloadLen := Fin (kCapacity + 1)

/-- A program point of `Reader::run`; `sequence` and the slot index are its locals. -/
inductive ReaderPc
  /-- `running_.load()` -/
  | loop
  /-- `inlet_->sequence.load()` -/
  | loadSequence
  /-- `inlet_->published.load()` -/
  | loadPublished (sequence : BitVec 64)
  | readMagic (sequence : BitVec 64) (slot : Fin 2)
  | readKind (sequence : BitVec 64) (slot : Fin 2)
  | readFlags (sequence : BitVec 64) (slot : Fin 2) (kind : Kind)
  | readLen (sequence : BitVec 64) (slot : Fin 2) (kind : Kind) (flags : InletFlags)
  /-- `slot->uncompressed_len` of a compressed frame -/
  | readExpected (sequence : BitVec 64) (slot : Fin 2) (len : PayloadLen)
  /-- The next payload byte, and after the last one decompression and `ingest`. -/
  | readByte (sequence : BitVec 64) (slot : Fin 2) (source : Source) (len : PayloadLen)
    (bytes : List Byte)
  /-- `last_sequence_ = sequence; processed.store(sequence)` -/
  | acknowledge (sequence : BitVec 64)
  | exited
  /-- `start` has loaded `last_sequence_` and is about to store `running_`. -/
  | starting

/-- The reader thread. -/
structure Reader where
  pc : ReaderPc
  last_sequence : BitVec 64

/-- One step of `Reader::run`. -/
def Reader.step (lz4 : Lz4) (running : Bool) (inlet : SharedInlet) (reader : Reader) :
    Option (SharedInlet × Reader × List Outcome) :=
  match reader.pc with
  -- a stop is noticed between two frames only
  | .loop => some (inlet, { reader with pc := if running then .loadSequence else .exited }, [])
  | .loadSequence =>
    some (inlet, { reader with
      pc := if inlet.sequence = reader.last_sequence then .loop
        else .loadPublished inlet.sequence }, [])
  | .loadPublished sequence =>
    some (inlet, { reader with pc := .readMagic sequence (slotIndex inlet.published) }, [])
  | .readMagic sequence slot =>
    if (inlet.slots slot).magic = kMagic then
      some (inlet, { reader with pc := .readKind sequence slot }, [])
    else some (inlet, { reader with pc := .acknowledge sequence }, [.dropped])
  | .readKind sequence slot =>
    some (inlet, { reader with pc := .readFlags sequence slot (inlet.slots slot).kind }, [])
  | .readFlags sequence slot kind =>
    some (inlet, { reader with pc := .readLen sequence slot kind (inlet.slots slot).flags }, [])
  | .readLen sequence slot kind flags =>
    let len := (inlet.slots slot).payloadLen.toNat
    if h : 0 < len ∧ len < kCapacity + 1 then
      match kind with
      | .mtbt =>
        -- the flag is looked at for this kind only
        if hasFlag flags lz4Compressed then
          some (inlet, { reader with pc := .readExpected sequence slot ⟨len, h.2⟩ }, [])
        else
          some (inlet, { reader with
            pc := .readByte sequence slot (.plain .mtbt) ⟨len, h.2⟩ [] }, [])
      | .itch =>
        some (inlet, { reader with
          pc := .readByte sequence slot (.plain .itch) ⟨len, h.2⟩ [] }, [])
      | .mcx =>
        some (inlet, { reader with
          pc := .readByte sequence slot (.plain .mcx) ⟨len, h.2⟩ [] }, [])
      -- no `else` in the source: nothing is called
      | _ => some (inlet, { reader with pc := .acknowledge sequence }, [.ignored])
    else some (inlet, { reader with pc := .acknowledge sequence }, [.dropped])
  | .readExpected sequence slot len =>
    let expected := (inlet.slots slot).uncompressedLen
    if expected = 0 ∨ kCapacity < expected.toNat then
      some (inlet, { reader with pc := .acknowledge sequence }, [.dropped])
    else
      some (inlet, { reader with
        pc := .readByte sequence slot (.compressed expected) len [] }, [])
  | .readByte sequence slot source len bytes =>
    if h : bytes.length < len then
      let b := (inlet.slots slot).payload ⟨bytes.length, lt_of_lt_of_le h (Fin.is_le len)⟩
      some (inlet, { reader with pc := .readByte sequence slot source len (bytes ++ [b]) }, [])
    else
      some (inlet, { reader with pc := .acknowledge sequence }, [source.outcome lz4 bytes])
  | .acknowledge sequence =>
    some ({ inlet with processed := sequence }, ⟨.loop, sequence⟩, [])
  | .exited | .starting => none

/-! ### The system -/

/-- The inlet, `running_`, the reader thread and the writers. -/
structure System (ι : Type*) where
  inlet : SharedInlet
  running : Bool
  reader : Reader
  writer : ι → WriterPc

/-- The reader has been started on a fresh inlet, nothing is published. -/
def System.init (ι : Type*) : System ι := ⟨SharedInlet.fresh, true, ⟨.loop, 0⟩, fun _ => .idle⟩

/-- Whose step it is. -/
inductive Action (ι : Type*)
  | read
  | publish (i : ι) (args : Args)
  | write (i : ι)
  /-- `Reader::stop` up to the join. -/
  | stop
  /-- The next of the two atomic operations of `Reader::start` after the join. -/
  | start

/-- Writers and one reader on one inlet. -/
def machine (lz4 : Lz4) (ι : Type*) [DecidableEq ι] :
    Machine (System ι) (Action ι) (Event ι) where
  step s
    | .read =>
      match s.reader.step lz4 s.running s.inlet with
      | none => none
      | some (inlet, reader, os) => some ({ s with inlet, reader }, os.map .outcome)
    | .publish i args =>
      match (s.writer i).publish i args with
      | none => none
      | some (pc, es) => some ({ s with writer := Function.update s.writer i pc }, es)
    | .write i =>
      match (s.writer i).step i s.inlet with
      | none => none
      | some (inlet, pc, es) =>
        some ({ s with inlet, writer := Function.update s.writer i pc }, es)
    | .stop => some ({ s with running := false }, [])
    | .start =>
      match s.reader.pc with
      -- the old thread has been joined
      | .exited => some ({ s with reader := ⟨.starting, s.inlet.sequence⟩ }, [])
      | .starting =>
        some ({ s with running := true, reader := { s.reader with pc := .loop } }, [])
      | _ => none

/-- Inversion of the machine's step. -/
theorem machine_cases {lz4 : Lz4} {ι : Type*} [DecidableEq ι] {s s' : System ι} {a : Action ι}
    {es : List (Event ι)} (h : (machine lz4 ι).step s a = some (s', es)) :
    match a with
    | .read => ∃ inlet reader os, s.reader.step lz4 s.running s.inlet = some (inlet, reader, os) ∧
        s' = { s with inlet, reader } ∧ es = os.map .outcome
    | .publish i args => ∃ pc, (s.writer i).publish i args = some (pc, es) ∧
        s' = { s with writer := Function.update s.writer i pc }
    | .write i => ∃ inlet pc, (s.writer i).step i s.inlet = some (inlet, pc, es) ∧
        s' = { s with inlet, writer := Function.update s.writer i pc }
    | .stop | .start => es = [] ∧ s'.writer = s.writer := by
  -- every label is one component's step, put back into the system
  cases a with
  | read =>
    simp only [machine] at h
    cases h_step : s.reader.step lz4 s.running s.inlet with
    | none => simp [h_step] at h
    | some r =>
      simp only [h_step] at h
      cases h
      exact ⟨_, _, _, rfl, rfl, rfl⟩
  | publish i args =>
    simp only [machine] at h
    cases h_step : (s.writer i).publish i args with
    | none => simp [h_step] at h
    | some r =>
      simp only [h_step] at h
      cases h
      exact ⟨_, h_step, rfl⟩
  | write i =>
    simp only [machine] at h
    cases h_step : (s.writer i).step i s.inlet with
    | none => simp [h_step] at h
    | some r =>
      simp only [h_step] at h
      cases h
      exact ⟨_, _, h_step, rfl⟩
  | stop =>
    cases h
    exact ⟨rfl, rfl⟩
  | start =>
    simp only [machine] at h
    split at h <;> cases h <;> exact ⟨rfl, rfl⟩

/-- The publishes that have taken effect. -/
def published {ι : Type*} (tr : List (Event ι)) : List (ι × Frame) :=
  tr.filterMap fun
    | .published i frame => some (i, frame)
    | _ => none

/-- What the reader has done so far. -/
def outcomes {ι : Type*} (tr : List (Event ι)) : List Outcome :=
  tr.filterMap fun
    | .outcome o => some o
    | _ => none

@[simp] theorem published_append {ι : Type*} (tr tr' : List (Event ι)) :
    published (tr ++ tr') = published tr ++ published tr' := List.filterMap_append

@[simp] theorem outcomes_append {ι : Type*} (tr tr' : List (Event ι)) :
    outcomes (tr ++ tr') = outcomes tr ++ outcomes tr' := List.filterMap_append

@[simp] theorem published_outcomes {ι : Type*} (os : List Outcome) :
    published (os.map (.outcome : Outcome → Event ι)) = [] := by
  induction os with
  | nil => rfl
  | cons o os ih => exact ih

@[simp] theorem outcomes_outcomes {ι : Type*} (os : List Outcome) :
    outcomes (os.map (.outcome : Outcome → Event ι)) = os := by
  induction os with
  | nil => rfl
  | cons o os ih => exact congrArg (o :: ·) ih

/-! ### Short runs -/

/-- An LZ4 that decompresses nothing. -/
def noLz4 : Lz4 := ⟨fun _ _ => none, nofun⟩

/-- A frame of one byte. -/
def Args.byte (kind : Kind) (b : Byte) : Args := ⟨kind, 0, some [b], 0⟩

/-- Writer `i` publishes a frame of one byte without pause, up to the increment. -/
def publishByte {ι : Type*} (i : ι) (kind : Kind) (b : Byte) : List (Action ι) :=
  .publish i (.byte kind b) :: List.replicate 10 (.write i)

/-- Writer `i` loads the sequence and looks once whether it has been processed. -/
def leave {ι : Type*} (i : ι) : List (Action ι) := [.write i, .write i]

/-- The reader's iteration over a frame of one byte. -/
def readByte {ι : Type*} : List (Action ι) := List.replicate 10 .read

/-- The waits that have returned. -/
def lefts {ι : Type*} (tr : List (Event ι)) : List (ι × BitVec 64) :=
  tr.filterMap fun
    | .left i q => some (i, q)
    | _ => none

end Feed

end Hft
