import MpmcPipeline.Trading.Ingress

/-!
# What is split off an ITCH frame

A stream is a sequence of messages, each a body of at least one byte behind its length as two
big-endian bytes (`itchStream`). Any bytes at all are a stream and a rest that does not begin
with a message, in one way only (`ItchParse`), and `split_itch_frame` hands over the bodies of
that stream, which is the longest there is (`itch_grammar`).

What counts as consumed is the size of these messages, and two bytes more where the rest begins
with a length. So a rest of less than two bytes is left for the next frame, while a length that
was looked at before its body had arrived is lost: the stream does not go on where the splitter
says it has stopped (`itch_resume_iff`).
-/

namespace Hft

namespace Trading

open Splitter (Splits handle)

/-- Two big-endian bytes. -/
def be16 (n : ℕ) : List Byte := [BitVec.ofNat 8 (n / 256), BitVec.ofNat 8 n]

/-- A body that a length can announce. -/
def ItchBody (body : List Byte) : Prop := 1 ≤ body.length ∧ body.length < 2 ^ 16

/-- A message in a frame: its length and its body. -/
def itchMessage (body : List Byte) : List Byte := be16 body.length ++ body

/-- Messages back to back. -/
def itchStream (bodies : List (List Byte)) : List Byte := bodies.flatMap itchMessage

/-- A frame is a stream and a rest that does not begin with a message. -/
structure ItchParse (frame : List Byte) (bodies : List (List Byte)) (rest : List Byte) : Prop where
  valid : ∀ body ∈ bodies, ItchBody body
  frame_eq : frame = itchStream bodies ++ rest
  rest_ends : ∀ body behind, ItchBody body → rest ≠ itchMessage body ++ behind

/-! ### Messages and their lengths -/

@[simp] theorem itchMessage_length (body : List Byte) :
    (itchMessage body).length = 2 + body.length := List.length_append

@[simp] theorem itchStream_nil : itchStream [] = [] := rfl

@[simp] theorem itchStream_cons (body : List Byte) (bodies : List (List Byte)) :
    itchStream (body :: bodies) = itchMessage body ++ itchStream bodies := rfl

theorem itchStream_append (bodies bodies' : List (List Byte)) :
    itchStream (bodies ++ bodies') = itchStream bodies ++ itchStream bodies' :=
  List.flatMap_append

theorem frameMemory_append (before rest : List Byte) (k : ℕ) :
    frameMemory (before ++ rest) (before.length + k) = frameMemory rest k := by
  rw [frameMemory, frameMemory, List.getD_append_right _ _ _ _ (Nat.le_add_right _ k),
    Nat.add_sub_cancel_left]

theorem itchReadBe16_append (before rest : List Byte) :
    itchReadBe16 (before ++ rest) before.length = itchReadBe16 rest 0 := by
  have h_first := frameMemory_append before rest 0
  rw [Nat.add_zero] at h_first
  rw [itchReadBe16, itchReadBe16, h_first, frameMemory_append]

theorem itchReadBe16_be16 {n : ℕ} (h : n < 2 ^ 16) (behind : List Byte) :
    itchReadBe16 (be16 n ++ behind) 0 = n := by
  have h_read : itchReadBe16 (be16 n ++ behind) 0 =
      (BitVec.ofNat 8 (n / 256)).toNat * 256 + (BitVec.ofNat 8 n).toNat := rfl
  rw [h_read, BitVec.toNat_ofNat, BitVec.toNat_ofNat]
  omega

/-- The length in front of a body is read back. -/
theorem itchReadBe16_message {body : List Byte} (h : ItchBody body) (behind : List Byte) :
    itchReadBe16 (itchMessage body ++ behind) 0 = body.length := by
  rw [itchMessage, List.append_assoc, itchReadBe16_be16 h.2]

/-- A message and what is behind it are told apart by the length. -/
theorem itchMessage_append_inj {body body' behind behind' : List Byte} (h : ItchBody body)
    (h' : ItchBody body') (h_eq : itchMessage body ++ behind = itchMessage body' ++ behind') :
    body = body' ∧ behind = behind' := by
  have h_len : body.length = body'.length := by
    rw [← itchReadBe16_message h behind, h_eq, itchReadBe16_message h']
  have h_total : (itchMessage body).length = (itchMessage body').length := by
    rw [itchMessage_length, itchMessage_length, h_len]
  obtain ⟨h_message, h_behind⟩ := List.append_inj h_eq h_total
  exact ⟨(List.append_inj h_message rfl).2, h_behind⟩

theorem exists_two {bytes : List Byte} (h : 2 ≤ bytes.length) :
    ∃ x y tail, bytes = x :: y :: tail := by
  obtain _ | ⟨x, _ | ⟨y, tail⟩⟩ := bytes
  · exact absurd h (by decide)
  · exact absurd h (Nat.not_succ_le_self 1)
  · exact ⟨x, y, tail, rfl⟩

/-- Bytes that begin with a length and hold as many more begin with a message. -/
theorem exists_itchMessage {bytes : List Byte} (h_two : 2 ≤ bytes.length)
    (h_pos : itchReadBe16 bytes 0 ≠ 0) (h_len : 2 + itchReadBe16 bytes 0 ≤ bytes.length) :
    ∃ body behind, ItchBody body ∧ bytes = itchMessage body ++ behind := by
  obtain ⟨x, y, tail, rfl⟩ := exists_two h_two
  -- the two bytes of the length
  have h_read : itchReadBe16 (x :: y :: tail) 0 = x.toNat * 256 + y.toNat := rfl
  have h_x := x.isLt
  have h_y := y.isLt
  generalize itchReadBe16 (x :: y :: tail) 0 = n at h_read h_pos h_len
  have h_tail : (tail.take n).length = n := by
    rw [List.length_take]
    simp only [List.length_cons] at h_len
    omega
  -- they are the length's own bytes, highest first
  have h_be16 : be16 n = [x, y] := by
    have h_high : n / 256 = x.toNat := by omega
    have h_low : BitVec.ofNat 8 n = y := by
      refine BitVec.eq_of_toNat_eq ?_
      rw [BitVec.toNat_ofNat]
      omega
    rw [be16, h_high, h_low, BitVec.ofNat_toNat, BitVec.setWidth_eq]
  refine ⟨tail.take n, tail.drop n, ⟨by omega, by omega⟩, ?_⟩
  rw [itchMessage, h_tail, h_be16, List.append_assoc, List.take_append_drop]
  rfl

/-! ### The parse of a frame -/

theorem exists_itchParse (frame : List Byte) : ∃ bodies rest, ItchParse frame bodies rest := by
  -- induction on the length; a message is taken off the front where there is one
  induction h_len : frame.length using Nat.strong_induction_on generalizing frame with
  | _ len ih =>
    by_cases h_message : ∃ body behind, ItchBody body ∧ frame = itchMessage body ++ behind
    · obtain ⟨body, behind, h_body, rfl⟩ := h_message
      rw [List.length_append, itchMessage_length] at h_len
      obtain ⟨bodies, rest, h_parse⟩ := ih behind.length (by omega) behind rfl
      refine ⟨body :: bodies, rest, ?_, ?_, h_parse.rest_ends⟩
      · exact List.forall_mem_cons.mpr ⟨h_body, h_parse.valid⟩
      · rw [itchStream_cons, List.append_assoc, ← h_parse.frame_eq]
    · refine ⟨[], frame, fun body h_mem => absurd h_mem List.not_mem_nil, rfl, ?_⟩
      exact fun body behind h_body h_eq => h_message ⟨body, behind, h_body, h_eq⟩

section

variable {frame rest : List Byte} {bodies : List (List Byte)}

/-- No other stream goes further. -/
theorem ItchParse.longest (h : ItchParse frame bodies rest) {bodies' : List (List Byte)}
    (h_valid : ∀ body ∈ bodies', ItchBody body) (h_begins : itchStream bodies' <+: frame) :
    bodies' <+: bodies := by
  induction bodies' generalizing frame bodies with
  | nil => exact List.nil_prefix
  | cons body' bodies' ih =>
    -- the streams are compared message by message
    obtain ⟨h_body', h_valid'⟩ := List.forall_mem_cons.mp h_valid
    obtain ⟨behind', h_eq⟩ := h_begins
    rw [itchStream_cons, List.append_assoc, h.frame_eq] at h_eq
    cases bodies with
    -- bytes that end the parse begin with no message
    | nil => exact absurd h_eq.symm (h.rest_ends body' _ h_body')
    | cons body bodies =>
      obtain ⟨h_body, h_bodies⟩ := List.forall_mem_cons.mp h.valid
      rw [itchStream_cons, List.append_assoc] at h_eq
      -- two messages at one place are the same
      obtain ⟨rfl, h_behind⟩ := itchMessage_append_inj h_body' h_body h_eq
      have h_rest : ItchParse (itchStream bodies ++ rest) bodies rest :=
        ⟨h_bodies, rfl, h.rest_ends⟩
      exact List.cons_prefix_cons.mpr ⟨rfl, ih h_rest h_valid' ⟨behind', h_behind⟩⟩

theorem ItchParse.unique (h : ItchParse frame bodies rest) {bodies' : List (List Byte)}
    {rest' : List Byte} (h' : ItchParse frame bodies' rest') : bodies' = bodies ∧ rest' = rest := by
  have h_le := h.longest h'.valid ⟨rest', h'.frame_eq.symm⟩
  have h_ge := h'.longest h.valid ⟨rest, h.frame_eq.symm⟩
  have h_bodies := h_le.eq_of_length (le_antisymm h_le.length_le h_ge.length_le)
  refine ⟨h_bodies, ?_⟩
  have h_eq := h'.frame_eq
  rw [h_bodies, h.frame_eq] at h_eq
  exact (List.append_cancel_left h_eq).symm

/-- The parse goes on where the stream has ended. -/
theorem ItchParse.append (h : ItchParse frame bodies rest) {more rest' : List Byte}
    {bodies' : List (List Byte)} (h' : ItchParse (rest ++ more) bodies' rest') :
    ItchParse (frame ++ more) (bodies ++ bodies') rest' where
  valid := List.forall_mem_append.mpr ⟨h.valid, h'.valid⟩
  frame_eq := by
    rw [h.frame_eq, List.append_assoc, h'.frame_eq, itchStream_append, List.append_assoc]
  rest_ends := h'.rest_ends

end

/-! ### The splitter on a parse -/

/-- Where the bodies of a stream are that begins at an offset. -/
def itchSlices : ℕ → List (List Byte) → List (ℕ × ℕ)
  | _, [] => []
  | offset, body :: bodies =>
    (offset + 2, body.length) :: itchSlices (offset + 2 + body.length) bodies

/-- The slices behind a message begin behind it. -/
theorem length_before (before body : List Byte) :
    (before ++ itchMessage body).length = before.length + 2 + body.length := by
  rw [List.length_append, itchMessage_length, Nat.add_assoc]

/-- The bytes of a slice. -/
def sliceOf (frame : List Byte) (slice : ℕ × ℕ) : List Byte := (frame.drop slice.1).take slice.2

/-- What counts as consumed: the stream, and a length without its body. -/
def itchConsumed (bodies : List (List Byte)) (rest : List Byte) : ℕ :=
  (itchStream bodies).length + if 2 ≤ rest.length then 2 else 0

theorem itchSlices_length (offset : ℕ) (bodies : List (List Byte)) :
    (itchSlices offset bodies).length = bodies.length := by
  induction bodies generalizing offset with
  | nil => rfl
  | cons body bodies ih => rw [itchSlices, List.length_cons, ih, List.length_cons]

/-- An iteration at a message calls the handler with its body. -/
theorem itchCut_message (before behind : List Byte) {body : List Byte} (h : ItchBody body) :
    itchCut (before ++ (itchMessage body ++ behind)) before.length =
      .call (before.length + 2, body.length) (before.length + 2 + body.length) := by
  have h_len : (before ++ (itchMessage body ++ behind)).length =
      before.length + (2 + body.length + behind.length) := by
    rw [List.length_append, List.length_append, itchMessage_length]
  have h_pos := h.1
  rw [itchCut, if_pos (by omega), itchReadBe16_append, itchReadBe16_message h]
  dsimp only
  rw [if_neg (by omega)]

/-- An iteration at bytes that do not begin with a message ends the loop. -/
theorem itchCut_rest (before : List Byte) {rest : List Byte}
    (h : ∀ body behind, ItchBody body → rest ≠ itchMessage body ++ behind) :
    itchCut (before ++ rest) before.length =
      .stop (before.length + if 2 ≤ rest.length then 2 else 0) := by
  rw [itchCut, itchReadBe16_append, List.length_append]
  dsimp only
  by_cases h_two : 2 ≤ rest.length
  · -- the two bytes there are no length of a message that is there
    have h_bad : itchReadBe16 rest 0 = 0 ∨
        before.length + rest.length < before.length + 2 + itchReadBe16 rest 0 := by
      by_contra h_good
      obtain ⟨h_pos, h_le⟩ := not_or.mp h_good
      obtain ⟨body, behind, h_body, h_eq⟩ := exists_itchMessage h_two h_pos (by omega)
      exact h body behind h_body h_eq
    rw [if_pos (by omega), if_pos h_bad, if_pos h_two]
  · rw [if_neg (by omega), if_neg h_two, Nat.add_zero]

section

variable {frame rest : List Byte} {bodies : List (List Byte)}

theorem itchStream_splits (before : List Byte) (h_valid : ∀ body ∈ bodies, ItchBody body)
    (h_rest : ∀ body behind, ItchBody body → rest ≠ itchMessage body ++ behind) :
    Splits (itchCut (before ++ (itchStream bodies ++ rest))) before.length
      (itchSlices before.length bodies) (before.length + itchConsumed bodies rest) := by
  -- induction on the bodies; what is behind the first has one message more before it
  induction bodies generalizing before with
  | nil =>
    rw [itchConsumed, itchStream_nil, List.nil_append, List.length_nil, Nat.zero_add]
    exact .stop (itchCut_rest before h_rest)
  | cons body bodies ih =>
    obtain ⟨h_body, h_bodies⟩ := List.forall_mem_cons.mp h_valid
    have h_ih := ih (before ++ itchMessage body) h_bodies
    have h_consumed : before.length + 2 + body.length + itchConsumed bodies rest =
        before.length + itchConsumed (body :: bodies) rest := by
      rw [itchConsumed, itchConsumed, itchStream_cons, List.length_append, itchMessage_length]
      omega
    rw [length_before, h_consumed, List.append_assoc] at h_ih
    rw [itchStream_cons, List.append_assoc]
    exact .call (itchCut_message before _ h_body) h_ih

theorem ItchParse.splits (h : ItchParse frame bodies rest) :
    Splits (itchCut frame) 0 (itchSlices 0 bodies) (itchConsumed bodies rest) := by
  have h_splits := itchStream_splits [] h.valid h.rest_ends
  rw [List.nil_append, ← h.frame_eq, List.length_nil, Nat.zero_add] at h_splits
  exact h_splits

theorem length_le_itchStream (bodies : List (List Byte)) :
    bodies.length ≤ (itchStream bodies).length := by
  induction bodies with
  | nil => exact Nat.zero_le _
  | cons body bodies ih =>
    rw [itchStream_cons, List.length_append, itchMessage_length, List.length_cons]
    omega

theorem ItchParse.length_eq (h : ItchParse frame bodies rest) :
    frame.length = (itchStream bodies).length + rest.length := by
  rw [h.frame_eq, List.length_append]

/-- **What the splitter does on a frame**: the handler is called on the bodies of its stream. -/
theorem ItchParse.splitItchFrame_eq (h : ItchParse frame bodies rest) {σ : Type*}
    (onMessage : σ → List Byte → ℕ → Option (σ × Bool)) (s : σ) :
    splitItchFrame onMessage s (some frame) =
      (handle (itchCall onMessage frame) (itchSlices 0 bodies) s).map fun r =>
        (r.1, Stats.after {} r.2 (itchConsumed bodies rest)) := by
  have h_fuel : (itchSlices 0 bodies).length < frame.length + 1 := by
    rw [itchSlices_length, h.length_eq]
    have h_le := length_le_itchStream bodies
    omega
  rw [splitItchFrame, splitItchLoop_eq, h.splits.run h_fuel, Option.map_map]
  rfl

theorem ItchParse.consumed_le (h : ItchParse frame bodies rest) :
    itchConsumed bodies rest ≤ frame.length := by
  rw [itchConsumed, h.length_eq]
  split <;> omega

/-! ### Slices -/

theorem itchSlices_contents (before behind : List Byte) (bodies : List (List Byte)) :
    (itchSlices before.length bodies).map (sliceOf (before ++ (itchStream bodies ++ behind))) =
      bodies := by
  induction bodies generalizing before with
  | nil => rfl
  | cons body bodies ih =>
    have h_ih := ih (before ++ itchMessage body)
    rw [length_before, List.append_assoc] at h_ih
    have h_body : sliceOf (before ++ (itchMessage body ++ (itchStream bodies ++ behind)))
        (before.length + 2, body.length) = body := by
      rw [sliceOf, ← List.drop_drop, List.drop_left, itchMessage, List.append_assoc]
      exact List.take_left
    rw [itchSlices, List.map_cons, itchStream_cons, List.append_assoc, h_body, h_ih]

theorem ItchParse.contents (h : ItchParse frame bodies rest) :
    (itchSlices 0 bodies).map (sliceOf frame) = bodies := by
  rw [h.frame_eq]
  exact itchSlices_contents [] rest bodies

theorem itchSlices_within {offset : ℕ} {slice : ℕ × ℕ} (h : slice ∈ itchSlices offset bodies) :
    offset ≤ slice.1 ∧ slice.1 + slice.2 ≤ offset + (itchStream bodies).length := by
  induction bodies generalizing offset with
  | nil => exact absurd h List.not_mem_nil
  | cons body bodies ih =>
    rw [itchStream_cons, List.length_append, itchMessage_length]
    obtain rfl | h_later := List.mem_cons.mp h
    · dsimp only
      omega
    · have h_ih := ih h_later
      omega

/-- The slices follow one another. -/
theorem itchSlices_pairwise (offset : ℕ) (bodies : List (List Byte)) :
    (itchSlices offset bodies).Pairwise fun slice later => slice.1 + slice.2 ≤ later.1 := by
  induction bodies generalizing offset with
  | nil => exact List.Pairwise.nil
  | cons body bodies ih =>
    exact List.pairwise_cons.mpr ⟨fun later h_later => (itchSlices_within h_later).1, ih _⟩

end

/-! ### The grammar -/

/-- The messages of these bodies begin a frame. -/
structure ItchPrefix (bodies : List (List Byte)) (frame : List Byte) : Prop where
  valid : ∀ body ∈ bodies, ItchBody body
  isPrefix : itchStream bodies <+: frame

/-- The bodies of the longest prefix that is a stream: every other is a part of it. -/
structure ItchLongest (bodies : List (List Byte)) (frame : List Byte) : Prop
    extends ItchPrefix bodies frame where
  longest : ∀ bodies', ItchPrefix bodies' frame → bodies' <+: bodies

/-- The longest stream is the one of the parse. -/
theorem ItchLongest.exists_parse {bodies : List (List Byte)} {frame : List Byte}
    (h : ItchLongest bodies frame) : ∃ rest, ItchParse frame bodies rest := by
  obtain ⟨bodies', rest, h_parse⟩ := exists_itchParse frame
  have h_le := h_parse.longest h.valid h.isPrefix
  have h_ge := h.longest bodies' ⟨h_parse.valid, rest, h_parse.frame_eq.symm⟩
  have h_eq := h_le.eq_of_length (le_antisymm h_le.length_le h_ge.length_le)
  exact ⟨rest, h_eq ▸ h_parse⟩

/-- **The splitter parses its grammar.** For every frame there are the bodies of its longest
stream and their slices, which lie in the frame one behind the other, such that for every
handler the splitter calls it on these slices in order, comes to an end if the handler returns
from every call, counts the calls and those that were accepted, and consumes no more than the
frame. -/
theorem itch_grammar (frame : List Byte) :
    ∃ (bodies : List (List Byte)) (slices : List (ℕ × ℕ)),
      ItchLongest bodies frame ∧ slices.map (sliceOf frame) = bodies ∧
      (∀ slice ∈ slices, slice.1 + slice.2 ≤ frame.length) ∧
      slices.Pairwise (fun slice later => slice.1 + slice.2 ≤ later.1) ∧
      ∀ (σ : Type) (onMessage : σ → List Byte → ℕ → Option (σ × Bool)) (s : σ),
        ((∀ s body len, (onMessage s body len).isSome) →
          (splitItchFrame onMessage s (some frame)).isSome) ∧
        ∀ s' stats, splitItchFrame onMessage s (some frame) = some (s', stats) →
          ∃ answers, handle (itchCall onMessage frame) slices s = some (s', answers) ∧
            stats.saved = answers.count true ∧ stats.saved + stats.skipped = slices.length ∧
            stats.consumed ≤ frame.length := by
  obtain ⟨bodies, rest, h⟩ := exists_itchParse frame
  -- the slices are cut along the parse
  refine ⟨bodies, itchSlices 0 bodies, ?_, h.contents, fun slice h_mem => ?_,
    itchSlices_pairwise 0 bodies,
    fun σ onMessage s => ⟨fun h_total => ?_, fun s' stats h_split => ?_⟩⟩
  · exact ⟨⟨h.valid, rest, h.frame_eq.symm⟩, fun bodies' h' => h.longest h'.valid h'.isPrefix⟩
  · -- a slice lies in the stream, and the stream in the frame
    have h_within := (itchSlices_within h_mem).2
    have h_len := h.length_eq
    omega
  · -- the loop is the handler on the slices
    rw [h.splitItchFrame_eq, Option.isSome_map]
    exact Splitter.handle_isSome (fun s slice _ => h_total s _ _) s
  · rw [h.splitItchFrame_eq] at h_split
    -- what it counts are the handler's answers
    obtain ⟨⟨s₁, answers⟩, h_handle, h_eq⟩ := Option.map_eq_some_iff.mp h_split
    cases h_eq
    obtain ⟨h_saved, h_count⟩ := Stats.after_total answers (itchConsumed bodies rest)
    exact ⟨answers, h_handle, h_saved, h_count.trans (Splitter.handle_length h_handle),
      h.consumed_le⟩

/-! ### Resuming a stream -/

/-- A handler of bodies as a handler of the splitter. -/
def onBody {σ : Type*} (handler : σ → List Byte → Option (σ × Bool)) (s : σ) (body : List Byte)
    (len : ℕ) : Option (σ × Bool) :=
  handler s (body.take len)

/-- The bodies that the splitter hands over, as a handler sees them that keeps each. -/
def handedOver (frame : List Byte) : List (List Byte) :=
  match splitItchFrame (onBody fun s body => some (s ++ [body], true)) [] (some frame) with
  | none => []
  | some (bodies, _) => bodies

/-- The stream goes on where the splitter stopped: for every handler and every continuation, the
calls on the whole are those on the first part and then those on what it has not consumed, with
the continuation behind it. -/
def Resumes (first : List Byte) : Prop :=
  ∀ (σ : Type) (handler : σ → List Byte → Option (σ × Bool)) (s : σ) (more : List Byte),
    (splitItchFrame (onBody handler) s (some (first ++ more))).map Prod.fst =
      (splitItchFrame (onBody handler) s (some first)).bind fun r =>
        (splitItchFrame (onBody handler) r.1 (some (first.drop r.2.consumed ++ more))).map Prod.fst

/-- What counts as consumed is the size of the messages handed over. -/
def ConsumesMessages (frame : List Byte) : Prop :=
  ∀ (σ : Type) (handler : σ → List Byte → Option (σ × Bool)) (s s' : σ) (stats : Stats),
    splitItchFrame (onBody handler) s (some frame) = some (s', stats) →
      stats.consumed = ((handedOver frame).map fun body => 2 + body.length).sum

section

variable {frame rest : List Byte} {bodies : List (List Byte)}

theorem ItchParse.onBody_eq (h : ItchParse frame bodies rest) {σ : Type*}
    (handler : σ → List Byte → Option (σ × Bool)) (s : σ) :
    splitItchFrame (onBody handler) s (some frame) =
      (handle handler bodies s).map fun r =>
        (r.1, Stats.after {} r.2 (itchConsumed bodies rest)) := by
  have h_map : handle (itchCall (onBody handler) frame) (itchSlices 0 bodies) s =
      handle handler ((itchSlices 0 bodies).map (sliceOf frame)) s :=
    Splitter.handle_map handler (sliceOf frame) _ s
  rw [h.splitItchFrame_eq, h_map, h.contents]

theorem handle_keep (bodies kept : List (List Byte)) :
    handle (fun s body => some (s ++ [body], true)) bodies kept =
      some (kept ++ bodies, List.replicate bodies.length true) := by
  induction bodies generalizing kept with
  | nil => rw [handle, List.append_nil]; rfl
  | cons body bodies ih =>
    rw [handle]
    dsimp only
    rw [ih, List.append_assoc]
    rfl

theorem ItchParse.handedOver_eq (h : ItchParse frame bodies rest) : handedOver frame = bodies := by
  rw [handedOver, h.onBody_eq, handle_keep]
  rfl

theorem itchStream_length (bodies : List (List Byte)) :
    (itchStream bodies).length = (bodies.map fun body => 2 + body.length).sum := by
  rw [itchStream, List.length_flatMap]
  simp only [itchMessage_length]

theorem ItchParse.consumes_iff (h : ItchParse frame bodies rest) :
    ConsumesMessages frame ↔ rest.length < 2 := by
  rw [ConsumesMessages, h.handedOver_eq, ← itchStream_length]
  constructor
  · -- a handler that keeps the bodies shows what was handed over
    intro h_all
    have h_keep := h.onBody_eq (fun s body => some (s ++ [body], true)) []
    rw [handle_keep] at h_keep
    have h_eq := h_all _ _ _ _ _ h_keep
    by_contra h_long
    -- with two bytes left, two are counted that belong to no message
    have h_consumed : itchConsumed bodies rest = (itchStream bodies).length + 2 := by
      rw [itchConsumed, if_pos (by omega)]
    have h_after : itchConsumed bodies rest = (itchStream bodies).length := h_eq
    omega
  · intro h_short σ handler s s' stats h_split
    rw [h.onBody_eq] at h_split
    obtain ⟨r, -, h_eq⟩ := Option.map_eq_some_iff.mp h_split
    cases h_eq
    have h_consumed : itchConsumed bodies rest = (itchStream bodies).length := by
      rw [itchConsumed, if_neg (Nat.not_le.mpr h_short), Nat.add_zero]
    exact h_consumed

/-- The law is about what is handed over of the rest. -/
theorem ItchParse.resumes_iff (h : ItchParse frame bodies rest) :
    Resumes frame ↔ ∀ more, handedOver (rest ++ more) =
      handedOver (rest.drop (if 2 ≤ rest.length then 2 else 0) ++ more) := by
  have h_drop : frame.drop (itchConsumed bodies rest) =
      rest.drop (if 2 ≤ rest.length then 2 else 0) := by
    rw [itchConsumed, h.frame_eq, ← List.drop_drop, List.drop_left]
  -- both sides of the law, whatever the handler
  have h_whole : ∀ {σ : Type} (handler : σ → List Byte → Option (σ × Bool)) s more,
      (splitItchFrame (onBody handler) s (some (frame ++ more))).map Prod.fst =
        (handle handler bodies s).bind fun r =>
          (handle handler (handedOver (rest ++ more)) r.1).map Prod.fst := by
    intro σ handler s more
    obtain ⟨bodies', rest', h'⟩ := exists_itchParse (rest ++ more)
    rw [(h.append h').onBody_eq, h'.handedOver_eq, Option.map_map, Splitter.handle_append,
      Option.map_bind]
    simp only [Function.comp_def, Option.map_map]
  have h_parts : ∀ {σ : Type} (handler : σ → List Byte → Option (σ × Bool)) s more,
      ((splitItchFrame (onBody handler) s (some frame)).bind fun r =>
        (splitItchFrame (onBody handler) r.1
          (some (frame.drop r.2.consumed ++ more))).map Prod.fst) =
        (handle handler bodies s).bind fun r => (handle handler
          (handedOver (rest.drop (if 2 ≤ rest.length then 2 else 0) ++ more)) r.1).map
            Prod.fst := by
    intro σ handler s more
    rw [h.onBody_eq, Option.bind_map]
    refine congrArg (Option.bind _) (funext fun r => ?_)
    have h_consumed : (Stats.after {} r.2 (itchConsumed bodies rest)).consumed =
        itchConsumed bodies rest := rfl
    obtain ⟨bodies', rest', h'⟩ := exists_itchParse
      (rest.drop (if 2 ≤ rest.length then 2 else 0) ++ more)
    rw [Function.comp_apply, h_consumed, h_drop, h'.onBody_eq, h'.handedOver_eq, Option.map_map]
    rfl
  constructor
  · -- the handler that keeps what it is given tells the two apart
    intro h_law more
    have h_keep := h_law _ (fun s body => some (s ++ [body], true)) [] more
    rw [h_whole, h_parts, handle_keep, Option.bind_some, Option.bind_some, handle_keep,
      handle_keep] at h_keep
    exact List.append_cancel_left (Option.some.inj h_keep)
  · intro h_same σ handler s more
    rw [h_whole, h_parts, h_same]

end

/-! ### What is handed over of a rest -/

theorem itchStream_handedOver_le (frame : List Byte) :
    (itchStream (handedOver frame)).length ≤ frame.length := by
  obtain ⟨bodies, rest, h⟩ := exists_itchParse frame
  rw [h.handedOver_eq, h.length_eq]
  exact Nat.le_add_right _ _

theorem handedOver_message {body : List Byte} (h : ItchBody body) (behind : List Byte) :
    handedOver (itchMessage body ++ behind) = body :: handedOver behind := by
  obtain ⟨bodies, rest, h_parse⟩ := exists_itchParse behind
  have h_cons : ItchParse (itchMessage body ++ behind) (body :: bodies) rest :=
    ⟨List.forall_mem_cons.mpr ⟨h, h_parse.valid⟩,
      by rw [itchStream_cons, List.append_assoc, ← h_parse.frame_eq], h_parse.rest_ends⟩
  rw [h_cons.handedOver_eq, h_parse.handedOver_eq]

/-- Nothing is handed over behind a length of zero. -/
theorem handedOver_zero {bytes : List Byte} (h : itchReadBe16 bytes 0 = 0) :
    handedOver bytes = [] := by
  have h_parse : ItchParse bytes [] bytes := by
    refine ⟨fun body h_mem => absurd h_mem List.not_mem_nil, rfl, ?_⟩
    rintro body behind h_body rfl
    rw [itchReadBe16_message h_body] at h
    exact absurd h (Nat.one_le_iff_ne_zero.mp h_body.1)
  exact h_parse.handedOver_eq

/-- Something is handed over behind any other length, once its body is there. -/
theorem handedOver_ne_nil {bytes : List Byte} (h_two : 2 ≤ bytes.length)
    (h_pos : itchReadBe16 bytes 0 ≠ 0) (h_len : 2 + itchReadBe16 bytes 0 ≤ bytes.length) :
    handedOver bytes ≠ [] := by
  obtain ⟨body, behind, h_body, rfl⟩ := exists_itchMessage h_two h_pos h_len
  rw [handedOver_message h_body]
  exact List.cons_ne_nil _ _

/-- Two bytes that read as zero. -/
theorem itchReadBe16_eq_zero {x y : Byte} {tail : List Byte}
    (h : itchReadBe16 (x :: y :: tail) 0 = 0) : x = 0 ∧ y = 0 := by
  have h_read : x.toNat * 256 + y.toNat = 0 := h
  have h_x : x.toNat = 0 := by omega
  have h_y : y.toNat = 0 := by omega
  exact ⟨BitVec.eq_of_toNat_eq h_x, BitVec.eq_of_toNat_eq h_y⟩

theorem itchReadBe16_zeros (tail : List Byte) : itchReadBe16 (0 :: 0 :: tail) 0 = 0 := by
  have h_read : itchReadBe16 (0 :: 0 :: tail) 0 = (0 : Byte).toNat * 256 + (0 : Byte).toNat := rfl
  rw [h_read]
  decide

/-- A continuation that completes a length and is long enough for any body. -/
def filler : List Byte := 1 :: List.replicate (2 ^ 16) 0

/-- With the filler behind them, bytes that do not begin with a length of zero begin with a
message. -/
theorem handedOver_filler {bytes : List Byte}
    (h : 2 ≤ bytes.length → itchReadBe16 bytes 0 ≠ 0) : handedOver (bytes ++ filler) ≠ [] := by
  have h_filler : filler.length = 2 ^ 16 + 1 := by
    rw [filler, List.length_cons, List.length_replicate]
  have h_bound : itchReadBe16 (bytes ++ filler) 0 < 2 ^ 16 := by
    have h_first := (frameMemory (bytes ++ filler) 0).isLt
    have h_second := (frameMemory (bytes ++ filler) 1).isLt
    rw [itchReadBe16, Nat.zero_add]
    omega
  have h_pos : itchReadBe16 (bytes ++ filler) 0 ≠ 0 := by
    obtain _ | ⟨x, _ | ⟨y, tail⟩⟩ := bytes
    · -- the filler brings a whole length
      have h_read : itchReadBe16 filler 0 = 256 := rfl
      rw [List.nil_append, h_read]
      decide
    · -- the filler brings its second byte
      have h_read : itchReadBe16 ([x] ++ filler) 0 = x.toNat * 256 + 1 := rfl
      omega
    · exact h (Nat.le_add_left 2 tail.length)
  refine handedOver_ne_nil ?_ h_pos ?_
  · rw [List.length_append]
    omega
  · rw [List.length_append]
    omega

section

variable {rest : List Byte}

/-- Behind a length of zero nothing is handed over, from two bytes on nothing either exactly if
the next length is zero too. -/
theorem handedOver_drop_iff_of_zero (h_two : 2 ≤ rest.length) (h : itchReadBe16 rest 0 = 0) :
    (∀ more, handedOver (rest ++ more) = handedOver (rest.drop 2 ++ more)) ↔
      [0, 0, 0, 0] <+: rest := by
  obtain ⟨x, y, tail, rfl⟩ := exists_two h_two
  obtain ⟨rfl, rfl⟩ := itchReadBe16_eq_zero h
  have h_nothing : ∀ more, handedOver ((0 :: 0 :: tail) ++ more) = [] := fun more =>
    handedOver_zero h
  have h_drop : (0 :: 0 :: tail : List Byte).drop 2 = tail := rfl
  rw [h_drop]
  constructor
  · intro h_same
    -- filler behind the zero length would be read as a message
    have h_filler := (h_same filler).symm.trans (h_nothing filler)
    have h_tail : 2 ≤ tail.length ∧ itchReadBe16 tail 0 = 0 := by
      by_contra h_not
      exact handedOver_filler (fun h_two h_zero => h_not ⟨h_two, h_zero⟩) h_filler
    -- so the next two bytes are zero as well
    obtain ⟨x, y, tail, rfl⟩ := exists_two h_tail.1
    obtain ⟨rfl, rfl⟩ := itchReadBe16_eq_zero h_tail.2
    exact ⟨tail, rfl⟩
  · rintro ⟨tail', h_eq⟩ more
    cases h_eq
    rw [h_nothing]
    exact (handedOver_zero (itchReadBe16_zeros _)).symm

/-- A length whose body is still to come is lost. -/
theorem handedOver_drop_of_pos (h_two : 2 ≤ rest.length) (h_pos : itchReadBe16 rest 0 ≠ 0)
    (h_rest : ∀ body behind, ItchBody body → rest ≠ itchMessage body ++ behind) :
    ∃ more, handedOver (rest ++ more) ≠ handedOver (rest.drop 2 ++ more) := by
  have h_short : rest.length < 2 + itchReadBe16 rest 0 := by
    by_contra h_long
    obtain ⟨body, behind, h_body, h_eq⟩ :=
      exists_itchMessage h_two h_pos (Nat.not_lt.mp h_long)
    exact h_rest body behind h_body h_eq
  -- the bytes that complete the body and no more
  let more : List Byte := List.replicate (2 + itchReadBe16 rest 0 - rest.length) 0
  have h_read : itchReadBe16 (rest ++ more) 0 = itchReadBe16 rest 0 := by
    obtain ⟨x, y, tail, rfl⟩ := exists_two h_two
    rfl
  have h_len : (rest ++ more).length = 2 + itchReadBe16 rest 0 := by
    rw [List.length_append, List.length_replicate]
    omega
  obtain ⟨body, behind, h_body, h_eq⟩ : ∃ body behind, ItchBody body ∧
      rest ++ more = itchMessage body ++ behind :=
    exists_itchMessage (by omega) (by rw [h_read]; exact h_pos) (by rw [h_read, h_len])
  refine ⟨more, fun h_same => ?_⟩
  rw [h_eq, handedOver_message h_body] at h_same
  -- the message is longer than what is left of it
  have h_le := itchStream_handedOver_le (rest.drop 2 ++ more)
  rw [← h_same, itchStream_cons, List.length_append, itchMessage_length, List.length_append,
    List.length_drop] at h_le
  rw [h_eq, itchReadBe16_message h_body] at h_read
  rw [List.length_append] at h_len
  omega

end

/-- **Where an ITCH stream can be resumed.** What counts as consumed is the size of the messages
handed over, and a point at which every stream goes on, exactly if less than two bytes are left
behind these messages; and it is such a point exactly in these cases and where two lengths of
zero are left. -/
theorem itch_resume_iff (frame : List Byte) :
    (Resumes frame ∧ ConsumesMessages frame ↔
      ∃ bodies rest, ItchParse frame bodies rest ∧ rest.length < 2) ∧
    (Resumes frame ↔
      ∃ bodies rest, ItchParse frame bodies rest ∧
        (rest.length < 2 ∨ [0, 0, 0, 0] <+: rest)) := by
  obtain ⟨bodies, rest, h⟩ := exists_itchParse frame
  -- a frame has one parse, so a property of what it leaves can be read off any of them
  have h_only : ∀ p : List Byte → Prop,
      (∃ bodies rest, ItchParse frame bodies rest ∧ p rest) ↔ p rest := fun p =>
    ⟨fun ⟨_, _, h', h_p⟩ => (h.unique h').2 ▸ h_p, fun h_p => ⟨bodies, rest, h, h_p⟩⟩
  have h_law : Resumes frame ↔ rest.length < 2 ∨ [0, 0, 0, 0] <+: rest := by
    rw [h.resumes_iff]
    -- less than two bytes cannot begin a length
    by_cases h_short : rest.length < 2
    · rw [if_neg (Nat.not_le.mpr h_short)]
      exact ⟨fun _ => Or.inl h_short, fun _ _ => rfl⟩
    · have h_two : 2 ≤ rest.length := Nat.not_lt.mp h_short
      rw [if_pos h_two, or_iff_right h_short]
      -- behind a length of zero, and behind a length too long
      by_cases h_zero : itchReadBe16 rest 0 = 0
      · exact handedOver_drop_iff_of_zero h_two h_zero
      · obtain ⟨more, h_more⟩ := handedOver_drop_of_pos h_two h_zero h.rest_ends
        refine ⟨fun h_same => absurd (h_same more) h_more, ?_⟩
        rintro ⟨tail, rfl⟩
        exact absurd (itchReadBe16_zeros _) h_zero
  refine ⟨?_, ?_⟩
  · rw [h_only fun rest => rest.length < 2, h.consumes_iff, h_law]
    exact ⟨fun h_both => h_both.2, fun h_short => ⟨Or.inl h_short, h_short⟩⟩
  · rw [h_only fun rest => rest.length < 2 ∨ [0, 0, 0, 0] <+: rest, h_law]

/-- A frame that ends behind a length of three: the length counts as consumed, so what comes next is
read from its body on, and the message is not found. -/
theorem itch_resume_lost :
    ¬ConsumesMessages [0, 3] ∧ ¬Resumes [0, 3] ∧
      handedOver ([0, 3] ++ [1, 2, 3]) = [[1, 2, 3]] ∧ handedOver [1, 2, 3] = [] := by
  have h_keep : splitItchFrame (onBody fun (s : List (List Byte)) body => some (s ++ [body], true))
      [] (some [0, 3]) = some ([], { consumed := 2 }) := by decide
  refine ⟨fun h_consumes => ?_, fun h_resumes => ?_, by decide, by decide⟩
  · exact absurd (h_consumes _ _ _ _ _ h_keep) (by decide)
  · exact absurd (h_resumes _ (fun s body => some (s ++ [body], true)) [] [1, 2, 3]) (by decide)

end Trading

end Hft
