import Mathlib.Data.Bool.Count
import MpmcPipeline.Trading.Producer
import MpmcPipeline.Wire.Splitter

/-!
# From frames to market messages

`split_itch_frame` and `split_mtbt_frame` cut a frame into messages and hand each to a
handler (`itch_decode.hpp`, `mtbt_decode.hpp`); the handlers of `ingest_itch_frame` and
`ingest_mtbt_frame` decode the message, store it in a pool slot and push it
(`frame_ingress.hpp`). A frame of top-of-book ticks holds one tick.

A frame is a list of bytes, or `none` for `nullptr`. The splitters are generic in the
handler and its state; a handler that does not return is `none`. The length of an MTBT
packet is a signed 16-bit field converted to `size_t`, and the offsets are computed
modulo `2 ^ 64`, so the loop of `split_mtbt_frame` need not end: `fuel` bounds its
iterations, and the result is `none` when it runs out.

Both loops are splitters: `itchCut` and `mtbtCut` are what an iteration does before it calls the
handler, and the loops are `Splitter.run` at these cuts, with the answers counted.
-/

namespace Hft

open Handoff (Env)

namespace Trading

/-- `frame::Stats` -/
structure Stats where
  saved : ℕ := 0
  skipped : ℕ := 0
  consumed : ℕ := 0
  deriving DecidableEq

/-- The count of a handler call. -/
def Stats.count (stats : Stats) (accepted : Bool) : Stats :=
  if accepted then { stats with saved := stats.saved + 1 }
  else { stats with skipped := stats.skipped + 1 }

/-- The counts after more calls with these answers. -/
def Stats.after (stats : Stats) (answers : List Bool) (consumed : ℕ) : Stats where
  saved := stats.saved + answers.count true
  skipped := stats.skipped + answers.count false
  consumed := consumed

theorem Stats.count_after (stats : Stats) (accepted : Bool) (answers : List Bool) (consumed : ℕ) :
    (stats.count accepted).after answers consumed = stats.after (accepted :: answers) consumed := by
  cases accepted with
  | false => simp only [Stats.count, Stats.after, Bool.false_eq_true, if_false,
      List.count_cons_self, List.count_cons, beq_iff_eq, add_zero, Nat.add_assoc, Nat.add_comm 1]
  | true => simp only [Stats.count, Stats.after, if_true, List.count_cons_self, List.count_cons,
      beq_iff_eq, Bool.true_eq_false, if_false, add_zero, Nat.add_assoc, Nat.add_comm 1]

/-- Every call has one answer, and the splitter counts them. -/
theorem Stats.after_total (answers : List Bool) (consumed : ℕ) :
    (Stats.after {} answers consumed).saved = answers.count true ∧
      (Stats.after {} answers consumed).saved + (Stats.after {} answers consumed).skipped =
        answers.length := by
  have h_saved : (Stats.after {} answers consumed).saved = answers.count true := Nat.zero_add _
  have h_skipped : (Stats.after {} answers consumed).skipped = answers.count false :=
    Nat.zero_add _
  refine ⟨h_saved, ?_⟩
  rw [h_saved, h_skipped]
  exact List.count_true_add_count_false answers

/-- A frame as memory. -/
def frameMemory (frame : List Byte) (k : ℕ) : Byte := frame.getD k 0

/-! ### ITCH frames -/

/-- `itch_read_be16` -/
def itchReadBe16 (frame : List Byte) (offset : ℕ) : ℕ :=
  (frameMemory frame offset).toNat * 256 + (frameMemory frame (offset + 1)).toNat

/-- `decode_itch_add_order` -/
def decodeItchAddOrder (body : List Byte) (len : ℕ) : Option ItchAddOrder :=
  if len ≠ 36 then none
  else
    let out := ItchAddOrder.codec.get (frameMemory body)
    if out.messageType = 0x41 then some out else none

section

variable {σ : Type*}

/-- The loop of `split_itch_frame` from `offset`. -/
def splitItchLoop (onMessage : σ → List Byte → ℕ → Option (σ × Bool)) (frame : List Byte) :
    ℕ → ℕ → Stats → σ → Option (σ × Stats)
  | 0, _, _, _ => none
  | fuel + 1, offset, stats, s =>
    if offset + 2 ≤ frame.length then
      let bodyLen := itchReadBe16 frame offset
      -- the length is passed before it is checked, so a bad one counts as consumed
      let offset := offset + 2
      if bodyLen = 0 ∨ frame.length < offset + bodyLen then
        some (s, { stats with consumed := offset })
      else
        match onMessage s (frame.drop offset) bodyLen with
        | none => none
        | some (s, accepted) =>
          splitItchLoop onMessage frame fuel (offset + bodyLen) (stats.count accepted) s
    else some (s, { stats with consumed := offset })

/-- **The invariant rule of the loop**: what the handler keeps, the loop keeps. -/
theorem splitItchLoop_inv {onMessage : σ → List Byte → ℕ → Option (σ × Bool)}
    {I : σ → Prop} {frame : List Byte}
    (h_msg : ∀ s body len s' accepted, I s → onMessage s body len = some (s', accepted) → I s')
    {fuel offset : ℕ} {stats stats' : Stats} {s s' : σ} (hI : I s)
    (h : splitItchLoop onMessage frame fuel offset stats s = some (s', stats')) : I s' := by
  -- induction on the iterations that are left; only a handler call touches the state
  induction fuel generalizing offset stats s with
  | zero => cases h
  | succ fuel ih =>
    rw [splitItchLoop] at h
    split at h
    · dsimp only at h
      split at h
      · -- no message, or one that ends behind the frame
        cases h
        exact hI
      · split at h
        · cases h
        · next s₁ accepted h_call => exact ih (h_msg _ _ _ _ _ hI h_call) h
    · cases h
      exact hI

/-- An iteration of `split_itch_frame` up to the call: where the body is and how long, and the
offset behind it. -/
def itchCut (frame : List Byte) (offset : ℕ) : Splitter.Cut (ℕ × ℕ) :=
  if offset + 2 ≤ frame.length then
    let bodyLen := itchReadBe16 frame offset
    let offset := offset + 2
    if bodyLen = 0 ∨ frame.length < offset + bodyLen then .stop offset
    else .call (offset, bodyLen) (offset + bodyLen)
  else .stop offset

/-- The handler at a body in the frame. -/
def itchCall (onMessage : σ → List Byte → ℕ → Option (σ × Bool)) (frame : List Byte) (s : σ)
    (slice : ℕ × ℕ) : Option (σ × Bool) :=
  onMessage s (frame.drop slice.1) slice.2

theorem splitItchLoop_eq (onMessage : σ → List Byte → ℕ → Option (σ × Bool)) (frame : List Byte)
    (fuel offset : ℕ) (stats : Stats) (s : σ) :
    splitItchLoop onMessage frame fuel offset stats s =
      (Splitter.run (itchCut frame) (itchCall onMessage frame) fuel offset s).map fun r =>
        (r.1, stats.after r.2.1 r.2.2) := by
  induction fuel generalizing offset stats s with
  | zero => rfl
  | succ fuel ih =>
    -- the loop of the source and the general loop make the same tests in the same order
    rw [splitItchLoop, Splitter.run, itchCut]
    by_cases h_two : offset + 2 ≤ frame.length
    · rw [if_pos h_two, if_pos h_two]
      dsimp only
      by_cases h_stop : itchReadBe16 frame offset = 0 ∨
          frame.length < offset + 2 + itchReadBe16 frame offset
      · rw [if_pos h_stop, if_pos h_stop]
        rfl
      · rw [if_neg h_stop, if_neg h_stop]
        dsimp only [itchCall]
        cases onMessage s (frame.drop (offset + 2)) (itchReadBe16 frame offset) with
        | none => rfl
        | some r =>
          dsimp only
          rw [ih, Option.map_map]
          simp only [Function.comp_def, Stats.count_after]
    · rw [if_neg h_two, if_neg h_two]
      rfl

/-- `split_itch_frame`; an iteration advances by two bytes at least. -/
def splitItchFrame (onMessage : σ → List Byte → ℕ → Option (σ × Bool)) (s : σ) :
    Option (List Byte) → Option (σ × Stats)
  | none => some (s, {})
  | some frame => splitItchLoop onMessage frame (frame.length + 1) 0 {} s

theorem splitItchFrame_inv {onMessage : σ → List Byte → ℕ → Option (σ × Bool)} {I : σ → Prop}
    (h_msg : ∀ s body len s' accepted, I s → onMessage s body len = some (s', accepted) → I s')
    {frame : Option (List Byte)} {stats : Stats} {s s' : σ} (hI : I s)
    (h : splitItchFrame onMessage s frame = some (s', stats)) : I s' := by
  cases frame with
  | none =>
    cases h
    exact hI
  | some frame => exact splitItchLoop_inv h_msg hI h

end

/-! ### MTBT frames -/

/-- `MtbtDecodedOrder` -/
structure MtbtDecodedOrder where
  header : MtbtStreamHeader := {}
  order : MtbtNewOrder := {}

/-- `decode_mtbt_stream_header` -/
def decodeMtbtStreamHeader (wire : List Byte) (len : ℕ) : Option MtbtStreamHeader :=
  if len < 8 then none else some (MtbtStreamHeader.codec.get (frameMemory wire))

/-- `decode_mtbt_order_body` -/
def decodeMtbtOrderBody (body : List Byte) (len : ℕ) : Option MtbtNewOrder :=
  if len < 26 then none
  else
    let out := MtbtNewOrder.codec.get (frameMemory body)
    if out.messageType = 0x4E ∨ out.messageType = 0x4D ∨ out.messageType = 0x58 then some out
    else none

/-- `decode_mtbt_order` -/
def decodeMtbtOrder (wire : List Byte) (len : ℕ) : Option MtbtDecodedOrder :=
  if len < 34 then none
  else
    match decodeMtbtStreamHeader wire len with
    | none => none
    | some header =>
      if header.msgLen ≠ 34 then none
      else
        match decodeMtbtOrderBody (wire.drop 8) (len - 8) with
        | none => none
        | some order => some { header, order }

section

variable {σ : Type*}

/-- The loop of `split_mtbt_frame` from `offset`. -/
def splitMtbtLoop (onPacket : σ → List Byte → ℕ → MtbtStreamHeader → Option (σ × Bool))
    (frame : List Byte) : ℕ → ℕ → Stats → σ → Option (σ × Stats)
  | 0, _, _, _ => none
  | fuel + 1, offset, stats, s =>
    if (offset + 8) % 2 ^ 64 ≤ frame.length then
      match decodeMtbtStreamHeader (frame.drop offset)
          ((frame.length + (2 ^ 64 - offset)) % 2 ^ 64) with
      | none => some (s, { stats with consumed := offset })
      | some header =>
        -- a negative length becomes one close to `2 ^ 64`
        let packetLen := (header.msgLen.signExtend 64).toNat
        -- the sum wraps, so such a packet can pass for one inside the frame
        if packetLen < 8 ∨ frame.length < (offset + packetLen) % 2 ^ 64 then
          some (s, { stats with consumed := offset })
        else
          match onPacket s (frame.drop offset) packetLen header with
          | none => none
          | some (s, accepted) =>
            splitMtbtLoop onPacket frame fuel ((offset + packetLen) % 2 ^ 64)
              (stats.count accepted) s
    else some (s, { stats with consumed := offset })

/-- **The invariant rule of the loop**: what the handler keeps, the loop keeps. -/
theorem splitMtbtLoop_inv
    {onPacket : σ → List Byte → ℕ → MtbtStreamHeader → Option (σ × Bool)}
    {I : σ → Prop} {frame : List Byte}
    (h_packet : ∀ s packet len header s' accepted, I s →
      onPacket s packet len header = some (s', accepted) → I s')
    {fuel offset : ℕ} {stats stats' : Stats} {s s' : σ} (hI : I s)
    (h : splitMtbtLoop onPacket frame fuel offset stats s = some (s', stats')) : I s' := by
  -- as for `splitItchLoop_inv`, with one way out more
  induction fuel generalizing offset stats s with
  | zero => cases h
  | succ fuel ih =>
    rw [splitMtbtLoop] at h
    split at h
    · split at h
      · -- no header
        cases h
        exact hI
      · dsimp only at h
        split at h
        · -- no packet
          cases h
          exact hI
        · split at h
          · cases h
          · next s₁ accepted h_call => exact ih (h_packet _ _ _ _ _ _ hI h_call) h
    · cases h
      exact hI

/-- An iteration of `split_mtbt_frame` up to the call: where the packet is, how long and its
header, and the next offset. -/
def mtbtCut (frame : List Byte) (offset : ℕ) : Splitter.Cut (ℕ × ℕ × MtbtStreamHeader) :=
  if (offset + 8) % 2 ^ 64 ≤ frame.length then
    match decodeMtbtStreamHeader (frame.drop offset)
        ((frame.length + (2 ^ 64 - offset)) % 2 ^ 64) with
    | none => .stop offset
    | some header =>
      let packetLen := (header.msgLen.signExtend 64).toNat
      if packetLen < 8 ∨ frame.length < (offset + packetLen) % 2 ^ 64 then .stop offset
      else .call (offset, packetLen, header) ((offset + packetLen) % 2 ^ 64)
  else .stop offset

/-- The handler at a packet in the frame. -/
def mtbtCall (onPacket : σ → List Byte → ℕ → MtbtStreamHeader → Option (σ × Bool))
    (frame : List Byte) (s : σ) (packet : ℕ × ℕ × MtbtStreamHeader) : Option (σ × Bool) :=
  onPacket s (frame.drop packet.1) packet.2.1 packet.2.2

theorem splitMtbtLoop_eq (onPacket : σ → List Byte → ℕ → MtbtStreamHeader → Option (σ × Bool))
    (frame : List Byte) (fuel offset : ℕ) (stats : Stats) (s : σ) :
    splitMtbtLoop onPacket frame fuel offset stats s =
      (Splitter.run (mtbtCut frame) (mtbtCall onPacket frame) fuel offset s).map fun r =>
        (r.1, stats.after r.2.1 r.2.2) := by
  induction fuel generalizing offset stats s with
  | zero => rfl
  | succ fuel ih =>
    rw [splitMtbtLoop, Splitter.run, mtbtCut]
    by_cases h_header : (offset + 8) % 2 ^ 64 ≤ frame.length
    · rw [if_pos h_header, if_pos h_header]
      cases decodeMtbtStreamHeader (frame.drop offset)
          ((frame.length + (2 ^ 64 - offset)) % 2 ^ 64) with
      | none => rfl
      | some header =>
        dsimp only
        by_cases h_stop : (header.msgLen.signExtend 64).toNat < 8 ∨
            frame.length < (offset + (header.msgLen.signExtend 64).toNat) % 2 ^ 64
        -- a packet shorter than its header, or one that leads out of the frame
        · rw [if_pos h_stop, if_pos h_stop]
          rfl
        · rw [if_neg h_stop, if_neg h_stop]
          dsimp only [mtbtCall]
          cases onPacket s (frame.drop offset) (header.msgLen.signExtend 64).toNat header with
          | none => rfl
          | some r =>
            dsimp only
            rw [ih, Option.map_map]
            simp only [Function.comp_def, Stats.count_after]
    -- no room for a header
    · rw [if_neg h_header, if_neg h_header]
      rfl

/-- `split_mtbt_frame` -/
def splitMtbtFrame (onPacket : σ → List Byte → ℕ → MtbtStreamHeader → Option (σ × Bool))
    (fuel : ℕ) (s : σ) : Option (List Byte) → Option (σ × Stats)
  | none => some (s, {})
  | some frame => splitMtbtLoop onPacket frame fuel 0 {} s

theorem splitMtbtFrame_inv
    {onPacket : σ → List Byte → ℕ → MtbtStreamHeader → Option (σ × Bool)} {I : σ → Prop}
    (h_packet : ∀ s packet len header s' accepted, I s →
      onPacket s packet len header = some (s', accepted) → I s')
    {fuel : ℕ} {frame : Option (List Byte)} {stats : Stats} {s s' : σ} (hI : I s)
    (h : splitMtbtFrame onPacket fuel s frame = some (s', stats)) : I s' := by
  cases frame with
  | none =>
    cases h
    exact hI
  | some frame => exact splitMtbtLoop_inv h_packet hI h

end

/-! ### Ingestion -/

variable {P : PoolCapacity} {cap : Stage → Capacity}

/-- `pool.acquire_filled(tick)` -/
def Tick.acquireFilled (env : Env) (mem : Memory P cap) :
    Tick → Option (Ptr P) × Memory P cap
  | itch tick => mem.acquireFilled env tick
  | mtbt tick => mem.acquireFilled env tick
  | sbe tick => mem.acquireFilled env tick
  | mcx tick => mem.acquireFilled env tick

/-- `acquire_filled` and `push` of a decoded tick; the flag is what the handler returns. -/
def storeTick (env : Env) (mem : Memory P cap) (decoded : Tick) :
    Option (Memory P cap × Bool × List (Event P)) :=
  match decoded.acquireFilled env mem with
  -- no slot is free: the message is skipped
  | (none, mem) => some (mem, false, [])
  | (some slot, mem) =>
    match mem.push env .market slot with
    | none => none
    | some mem => some (mem, true, [.acquired slot (some decoded)])

/-- What an ingest handler works on: the calls so far, memory and what they have shown. -/
structure Ingest (P : PoolCapacity) (cap : Stage → Capacity) where
  calls : ℕ
  mem : Memory P cap
  shown : List (Event P)

/-- A handler call with what it has decoded, in the environment of this call. -/
def Ingest.store (envs : ℕ → Env) (s : Ingest P cap) :
    Option Tick → Option (Ingest P cap × Bool)
  | none => some ({ s with calls := s.calls + 1 }, false)
  | some decoded =>
    match storeTick (envs s.calls) s.mem decoded with
    | none => none
    | some (mem, stored, es) => some (⟨s.calls + 1, mem, s.shown ++ es⟩, stored)

/-- The result of an ingest call. -/
def Ingest.result : Ingest P cap × Stats → Memory P cap × Stats × List (Event P)
  | (s, stats) => (s.mem, stats, s.shown)

/-- `ingest_itch_frame` -/
def ingestItchFrame (envs : ℕ → Env) (mem : Memory P cap) (frame : Option (List Byte)) :
    Option (Memory P cap × Stats × List (Event P)) :=
  (splitItchFrame (fun s body len =>
    Ingest.store envs s ((decodeItchAddOrder body len).map .itch)) ⟨0, mem, []⟩
      frame).map Ingest.result

/-- `ingest_mtbt_frame` -/
def ingestMtbtFrame (envs : ℕ → Env) (fuel : ℕ) (mem : Memory P cap)
    (frame : Option (List Byte)) : Option (Memory P cap × Stats × List (Event P)) :=
  (splitMtbtFrame (fun s packet len _ =>
    Ingest.store envs s ((decodeMtbtOrder packet len).map fun decoded => .mtbt decoded.order))
    fuel ⟨0, mem, []⟩ frame).map Ingest.result

/-- `ingest_mcx_tob_frame` -/
def ingestMcxTobFrame (env : Env) (mem : Memory P cap) :
    Option (List Byte) → Option (Memory P cap × Stats × List (Event P))
  | none => some (mem, {}, [])
  | some frame =>
    -- the frame is the tick, gaps included, and nothing else
    if frame.length ≠ 56 then some (mem, {}, [])
    else
      match storeTick env mem (.mcx (TopOfBook.codec.get (frameMemory frame))) with
      | none => none
      | some (mem, false, es) => some (mem, {}, es)
      | some (mem, true, es) => some (mem, { saved := 1, consumed := frame.length }, es)

/-- Such a frame is not a tick, or its tick goes to the pool and the queue. -/
theorem ingestMcxTobFrame_cases {env : Env} {mem mem' : Memory P cap} {frame : Option (List Byte)}
    {stats : Stats} {es : List (Event P)}
    (h : ingestMcxTobFrame env mem frame = some (mem', stats, es)) :
    mem' = mem ∧ es = [] ∨ ∃ tick stored, storeTick env mem tick = some (mem', stored, es) := by
  -- no frame, no tick in it, or a tick that is stored
  unfold ingestMcxTobFrame at h
  split at h
  · cases h
    exact Or.inl ⟨rfl, rfl⟩
  · split at h
    · cases h
      exact Or.inl ⟨rfl, rfl⟩
    · split at h
      · cases h
      · next h_store =>
        cases h
        exact Or.inr ⟨_, _, h_store⟩
      · next h_store =>
        cases h
        exact Or.inr ⟨_, _, h_store⟩

end Trading

end Hft
