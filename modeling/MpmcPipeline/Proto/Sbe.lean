import MpmcPipeline.Proto.Layouts
import MpmcPipeline.Wire.Memory

/-!
# SBE messages

The encoders and decoders of `decode.hpp`. `CreateOrderReqV5` is a header and a fixed block;
`BestObRpi` and `FastOrderResp` have one or two strings with a length byte behind it. A payload
is a pointer to memory, or `none` for `nullptr`, with a length.

An encoder writes strings of up to the size of their arrays, as the gateway builds them, but
`read_var_string8` keeps a byte for a terminator. So a message comes back exactly if each of
its strings is shorter than its array (`sbe_round_trip_iff`). And a decoder accepts a block
that is longer than the one it knows, but looks for the strings where its own block ends. So
the declared block length is honoured for that length alone (`sbe_block_length_iff`).
-/

namespace Hft

open Wire (copy StringAt)

/-! ### The header -/

/-- `sbe::MessageHeader` -/
structure MessageHeader where
  blockLength : BitVec 16 := 0
  templateId : BitVec 16 := 0
  schemaId : BitVec 16 := 0
  version : BitVec 16 := 0

/-- The bytes of `MessageHeader`. -/
def MessageHeader.codec : Codec MessageHeader :=
  open Codec in
  (u16.prod <| u16.prod <| u16.prod <| u16).map
    { toFun := fun ⟨blockLength, templateId, schemaId, version⟩ =>
        ⟨blockLength, templateId, schemaId, version⟩
      invFun := fun x => (x.blockLength, x.templateId, x.schemaId, x.version)
      left_inv := fun _ => rfl
      right_inv := fun _ => rfl }

namespace Sbe

/-- `read_header` -/
def readHeader (data : Option (ℕ → Byte)) (len : ℕ) : Option MessageHeader :=
  match data with
  | none => none
  | some data => if len < 8 then none else some (MessageHeader.codec.get data)

/-- What a decoder begins with: the payload is as long as the least message, and its header has
the ids of the message and a block that is not too short. -/
def accepts (payload : Option (ℕ → Byte)) (len least : ℕ) (templateId schemaId : BitVec 16)
    (fixedWireSize : ℕ) : Option (ℕ → Byte) :=
  match payload with
  | none => none
  | some bytes =>
    if len < least then none
    else
      match readHeader (some bytes) len with
      | none => none
      | some header =>
        if header.templateId ≠ templateId ∨ header.schemaId ≠ schemaId ∨
            header.blockLength.toNat < fixedWireSize then none
        else some bytes

/-- `split_sbe_frame` -/
def splitSbeFrame (onMessage : (ℕ → Byte) → ℕ → MessageHeader → Bool)
    (frame : Option (ℕ → Byte)) (len : ℕ) : Bool :=
  match frame with
  | none => false
  | some bytes =>
    if len < 8 then false
    else
      match readHeader (some bytes) len with
      | none => false
      | some header =>
        if len < 8 + header.blockLength.toNat then false else onMessage bytes len header

theorem splitSbeFrame_long {onMessage : (ℕ → Byte) → ℕ → MessageHeader → Bool}
    {mem : ℕ → Byte} {len : ℕ}
    (h : 8 + (MessageHeader.codec.get mem).blockLength.toNat ≤ len) :
    splitSbeFrame onMessage (some mem) len = onMessage mem len (MessageHeader.codec.get mem) := by
  simp only [splitSbeFrame, readHeader, if_neg (by omega : ¬len < 8), if_neg h.not_gt]

/-- A frame that ends in the declared block is not handed over. -/
theorem splitSbeFrame_short {onMessage : (ℕ → Byte) → ℕ → MessageHeader → Bool}
    {mem : ℕ → Byte} {len : ℕ}
    (h : len < 8 + (MessageHeader.codec.get mem).blockLength.toNat) :
    splitSbeFrame onMessage (some mem) len = false := by
  unfold splitSbeFrame readHeader
  dsimp only
  split
  · rfl
  · exact if_pos h

/-- `encode_header` -/
def encodeHeader (dst : ℕ → Byte) (blockLength templateId schemaId version : BitVec 16) :
    ℕ → Byte :=
  copy dst 0 MessageHeader.codec.size
    (MessageHeader.codec.put { blockLength, templateId, schemaId, version })

/-! ### Strings -/

/-- What `read_var_string8` leaves: its result, the offset, and the string and its length. -/
structure VarString8 (n : ℕ) where
  ok : Bool
  offset : ℕ
  out : Chars n
  outLen : Byte

/-- `read_var_string8`, into an array of `n` characters. -/
def readVarString8 {n : ℕ} (data : ℕ → Byte) (len offset : ℕ) (out : Chars n) (outLen : Byte) :
    VarString8 n :=
  if len ≤ offset then ⟨false, offset, out, outLen⟩
  else
    let strLen := data offset
    -- the array has to hold the terminator too
    if len < offset + 1 + strLen.toNat ∨ n ≤ strLen.toNat then ⟨false, offset + 1, out, outLen⟩
    else
      ⟨true, offset + 1 + strLen.toNat,
        fun i => if i.val < strLen.toNat then data (offset + 1 + i)
          else if i.val = strLen.toNat then 0 else out i,
        strLen⟩

/-- `append_var_string8` -/
def appendVarString8 {n : ℕ} (dst : ℕ → Byte) (cap offset : ℕ) (str : Chars n) (strLen : Byte) :
    (ℕ → Byte) × ℕ :=
  if cap < offset + 1 + strLen.toNat then (dst, offset)
  else
    (copy (Function.update dst offset strLen) (offset + 1) strLen.toNat ((Codec.chars n).put str),
      offset + 1 + strLen.toNat)

section

variable {n : ℕ} {data : ℕ → Byte} {len cap offset : ℕ} {out str : Chars n}
  {outLen strLen : Byte}

/-- A string is read if it is in the payload and shorter than the array. -/
theorem readVarString8_ok :
    (readVarString8 data len offset out outLen).ok = true ↔
      offset + 1 + (data offset).toNat ≤ len ∧ (data offset).toNat < n := by
  unfold readVarString8
  dsimp only
  split
  · next h_end => exact iff_of_false Bool.false_ne_true (by omega)
  · split
    · next h_long => exact iff_of_false Bool.false_ne_true (by omega)
    · next h_fits => exact iff_of_true rfl (by omega)

/-- The payload has a string at an offset. -/
structure StringIn {n : ℕ} (data : ℕ → Byte) (len offset : ℕ) (strLen : Byte) (str : Chars n) :
    Prop where
  fits : offset + 1 + strLen.toNat ≤ len
  len_eq : data offset = strLen
  char_eq : ∀ i : Fin n, i.val < strLen.toNat → str i = data (offset + 1 + i)

/-- What has been read is the string at the offset. -/
theorem readVarString8_of_ok (h : (readVarString8 data len offset out outLen).ok = true) :
    (readVarString8 data len offset out outLen).offset =
        offset + 1 + (readVarString8 data len offset out outLen).outLen.toNat ∧
      StringIn data len offset (readVarString8 data len offset out outLen).outLen
        (readVarString8 data len offset out outLen).out := by
  obtain ⟨h_fits, h_short⟩ := readVarString8_ok.mp h
  rw [readVarString8, if_neg (by omega)]
  dsimp only
  rw [if_neg (by omega)]
  exact ⟨rfl, h_fits, rfl, fun i h_i => if_pos h_i⟩

/-- A string that has been written is the one that is there. -/
theorem StringIn.eq_of_stringAt (h : StringIn data len offset outLen out)
    (h_at : StringAt data offset strLen ((Codec.chars n).put str)) :
    outLen = strLen ∧ ∀ i : Fin n, i.val < strLen.toNat → out i = str i := by
  obtain rfl : outLen = strLen := h.len_eq.symm.trans h_at.len_eq
  refine ⟨rfl, fun i h_i => ?_⟩
  rw [h.char_eq i h_i, h_at.byte_eq i h_i]
  exact dif_pos i.isLt

/-- A string is appended if there is room, and nothing in front of it is touched. -/
theorem appendVarString8_of_le (dst : ℕ → Byte) (str : Chars n)
    (h_cap : offset + 1 + strLen.toNat ≤ cap) :
    (appendVarString8 dst cap offset str strLen).2 = offset + 1 + strLen.toNat ∧
      StringAt (appendVarString8 dst cap offset str strLen).1 offset strLen
        ((Codec.chars n).put str) ∧
      ∀ k < offset, (appendVarString8 dst cap offset str strLen).1 k = dst k := by
  rw [appendVarString8, if_neg (by omega)]
  refine ⟨rfl, Wire.stringAt_copy _ _ _ _, fun k h_k => ?_⟩
  dsimp only
  rw [Wire.copy_below _ _ _ (by omega), Function.update_of_ne (by omega)]

end

/-! ### The messages -/

/-- `decode_best_ob_rpi`; what it leaves in `out` when it returns false too. -/
def decodeBestObRpi (payload : Option (ℕ → Byte)) (len : ℕ) (out : BestObRpi) :
    Bool × BestObRpi :=
  match accepts payload len (8 + 98 + 1) 20000 1 98 with
  | none => (false, out)
  | some bytes =>
    let body := BestObRpiBody.codec.get fun k => bytes (8 + k)
    let symbol := readVarString8 bytes len (8 + 98) out.symbol out.symbolLen
    (symbol.ok, { body, symbolLen := symbol.outLen, symbol := symbol.out })

/-- `decode_fast_order_resp` -/
def decodeFastOrderResp (payload : Option (ℕ → Byte)) (len : ℕ) (out : FastOrderResp) :
    Bool × FastOrderResp :=
  match accepts payload len (8 + 60 + 1) 21000 1 60 with
  | none => (false, out)
  | some bytes =>
    let body := FastOrderRespBody.codec.get fun k => bytes (8 + k)
    let orderId := readVarString8 bytes len (8 + 60) out.orderId out.orderIdLen
    let out := { out with body, orderIdLen := orderId.outLen, orderId := orderId.out }
    if orderId.ok = false then (false, out)
    else
      let orderLinkId :=
        readVarString8 bytes len orderId.offset out.orderLinkId out.orderLinkIdLen
      (orderLinkId.ok,
        { out with orderLinkIdLen := orderLinkId.outLen, orderLinkId := orderLinkId.out })

/-- `total` of `encode_best_ob_rpi` -/
def encodedBestObRpi (msg : BestObRpi) : ℕ := 8 + 98 + 1 + msg.symbolLen.toNat

/-- `encode_best_ob_rpi`: the buffer and the number of bytes written. -/
def encodeBestObRpi (msg : BestObRpi) (dst : ℕ → Byte) (cap : ℕ) : (ℕ → Byte) × ℕ :=
  if cap < encodedBestObRpi msg then (dst, 0)
  else
    let dst := encodeHeader dst 98 20000 1 0
    let dst := copy dst 8 98 (BestObRpiBody.codec.put msg.body)
    appendVarString8 dst cap (8 + 98) msg.symbol msg.symbolLen

/-- `total` of `encode_fast_order_resp` -/
def encodedFastOrderResp (msg : FastOrderResp) : ℕ :=
  8 + 60 + 2 + msg.orderIdLen.toNat + msg.orderLinkIdLen.toNat

/-- `encode_fast_order_resp` -/
def encodeFastOrderResp (msg : FastOrderResp) (dst : ℕ → Byte) (cap : ℕ) : (ℕ → Byte) × ℕ :=
  if cap < encodedFastOrderResp msg then (dst, 0)
  else
    let dst := encodeHeader dst 60 21000 1 0
    let dst := copy dst 8 60 (FastOrderRespBody.codec.put msg.body)
    let (dst, offset) := appendVarString8 dst cap (8 + 60) msg.orderId msg.orderIdLen
    appendVarString8 dst cap offset msg.orderLinkId msg.orderLinkIdLen

/-- `decode_create_order_req` -/
def decodeCreateOrderReq (payload : Option (ℕ → Byte)) (len : ℕ) (out : CreateOrderReqV5) :
    Bool × CreateOrderReqV5 :=
  match accepts payload len (8 + 242) 5 2 242 with
  | none => (false, out)
  | some bytes => (true, CreateOrderReqV5.codec.get fun k => bytes (8 + k))

/-- `total` of `encode_create_order_req` -/
def encodedCreateOrderReq : ℕ := 8 + 242

/-- `encode_create_order_req` -/
def encodeCreateOrderReq (msg : CreateOrderReqV5) (dst : ℕ → Byte) (cap : ℕ) : (ℕ → Byte) × ℕ :=
  if cap < encodedCreateOrderReq then (dst, 0)
  else
    let dst := encodeHeader dst 242 5 2 2
    (copy dst 8 242 (CreateOrderReqV5.codec.put msg), encodedCreateOrderReq)

/-! ### Decoding -/

section

variable {mem bytes : ℕ → Byte} {len least fixedWireSize : ℕ} {templateId schemaId : BitVec 16}

theorem accepts_iff (h_least : 8 ≤ least) :
    accepts (some mem) len least templateId schemaId fixedWireSize = some bytes ↔
      bytes = mem ∧ least ≤ len ∧ (MessageHeader.codec.get mem).templateId = templateId ∧
        (MessageHeader.codec.get mem).schemaId = schemaId ∧
        fixedWireSize ≤ (MessageHeader.codec.get mem).blockLength.toNat := by
  unfold accepts readHeader
  dsimp only
  -- too short for a header and the block
  split
  · next h_short => exact iff_of_false (by simp) fun h => absurd h.2.1 (by omega)
  · rw [if_neg (by omega : ¬len < 8)]
    dsimp only
    -- one of the three fields is wrong
    split
    · next h_header =>
      refine iff_of_false (by simp) ?_
      rintro ⟨-, -, h_template, h_schema, h_block⟩
      rcases h_header with h | h | h
      · exact h h_template
      · exact h h_schema
      · omega
    · -- all three are right
      next h_header =>
      simp only [ne_eq, not_or, not_not, not_lt] at h_header
      obtain ⟨h_template, h_schema, h_block⟩ := h_header
      constructor
      · intro h
        cases h
        exact ⟨rfl, by omega, h_template, h_schema, h_block⟩
      · rintro ⟨rfl, -⟩
        rfl

/-- What is accepted is the payload. -/
theorem eq_of_accepts (h_least : 8 ≤ least)
    (h : accepts (some mem) len least templateId schemaId fixedWireSize = some bytes) :
    accepts (some mem) len least templateId schemaId fixedWireSize = some mem := by
  obtain ⟨rfl, -⟩ := (accepts_iff h_least).mp h
  exact h

end

section

variable {mem : ℕ → Byte} {len : ℕ}

theorem decodeBestObRpi_of_accepts (out : BestObRpi)
    (h : accepts (some mem) len (8 + 98 + 1) 20000 1 98 = some mem) :
    decodeBestObRpi (some mem) len out =
      ((readVarString8 mem len (8 + 98) out.symbol out.symbolLen).ok,
        { body := BestObRpiBody.codec.get fun k => mem (8 + k)
          symbolLen := (readVarString8 mem len (8 + 98) out.symbol out.symbolLen).outLen
          symbol := (readVarString8 mem len (8 + 98) out.symbol out.symbolLen).out }) := by
  rw [decodeBestObRpi, h]

/-- A decoder that returns true has accepted the payload and read the symbol. -/
theorem decodeBestObRpi_ok {out : BestObRpi}
    (h : (decodeBestObRpi (some mem) len out).1 = true) :
    accepts (some mem) len (8 + 98 + 1) 20000 1 98 = some mem ∧
      (readVarString8 mem len (8 + 98) out.symbol out.symbolLen).ok = true := by
  cases h_accepts : accepts (some mem) len (8 + 98 + 1) 20000 1 98 with
  | none =>
    rw [decodeBestObRpi, h_accepts] at h
    cases h
  | some bytes =>
    have h_mem := eq_of_accepts (by omega) h_accepts
    rw [decodeBestObRpi_of_accepts out h_mem] at h
    rw [← h_accepts, h_mem]
    exact ⟨rfl, h⟩

/-- `read_var_string8` for the order id. -/
def readOrderId (mem : ℕ → Byte) (len : ℕ) (out : FastOrderResp) : VarString8 32 :=
  readVarString8 mem len (8 + 60) out.orderId out.orderIdLen

/-- `read_var_string8` for the link id, behind the order id. -/
def readOrderLinkId (mem : ℕ → Byte) (len : ℕ) (out : FastOrderResp) : VarString8 32 :=
  readVarString8 mem len (readOrderId mem len out).offset out.orderLinkId out.orderLinkIdLen

theorem decodeFastOrderResp_of_accepts {out : FastOrderResp}
    (h : accepts (some mem) len (8 + 60 + 1) 21000 1 60 = some mem)
    (h_id : (readOrderId mem len out).ok = true) :
    decodeFastOrderResp (some mem) len out =
      ((readOrderLinkId mem len out).ok,
        { body := FastOrderRespBody.codec.get fun k => mem (8 + k)
          orderIdLen := (readOrderId mem len out).outLen
          orderId := (readOrderId mem len out).out
          orderLinkIdLen := (readOrderLinkId mem len out).outLen
          orderLinkId := (readOrderLinkId mem len out).out }) := by
  rw [readOrderId] at h_id
  rw [decodeFastOrderResp, h]
  dsimp only
  rw [h_id, if_neg (by decide)]
  rfl

/-- A decoder that returns true has accepted the payload and read both strings. -/
theorem decodeFastOrderResp_ok {out : FastOrderResp}
    (h : (decodeFastOrderResp (some mem) len out).1 = true) :
    accepts (some mem) len (8 + 60 + 1) 21000 1 60 = some mem ∧
      (readOrderId mem len out).ok = true ∧ (readOrderLinkId mem len out).ok = true := by
  -- each `false` of the decoder is excluded in the order of the source
  cases h_accepts : accepts (some mem) len (8 + 60 + 1) 21000 1 60 with
  | none =>
    rw [decodeFastOrderResp, h_accepts] at h
    cases h
  | some bytes =>
    have h_mem := eq_of_accepts (by omega) h_accepts
    rw [← h_accepts, h_mem]
    -- the link id is read only if the order id was
    cases h_id : (readOrderId mem len out).ok with
    | false =>
      rw [readOrderId] at h_id
      rw [decodeFastOrderResp, h_mem] at h
      dsimp only at h
      rw [h_id, if_pos rfl] at h
      cases h
    | true =>
      rw [decodeFastOrderResp_of_accepts h_mem h_id] at h
      exact ⟨rfl, rfl, h⟩

end

/-! ### Encoding, and decoding again -/

/-- Memory begins with a header and a block. -/
structure RootAt {β : Type} (mem : ℕ → Byte) (header : MessageHeader) (A : Codec β) (body : β) :
    Prop where
  header : MessageHeader.codec.At mem 0 header
  body : A.At mem 8 body

section

variable {β : Type} {A : Codec β} {body : β} {header : MessageHeader} {dst mem mem' : ℕ → Byte}
  {n len least : ℕ}

theorem RootAt.congr (h : RootAt mem header A body) (h_same : ∀ k < n, mem' k = mem k)
    (h_le : 8 + A.size ≤ n) : RootAt mem' header A body :=
  ⟨h.header.congr h_same (le_trans (Nat.le_add_right 8 _) h_le), h.body.congr h_same h_le⟩

/-- What an encoder begins with. -/
theorem rootAt_copy (dst : ℕ → Byte) (blockLength templateId schemaId version : BitVec 16)
    (A : Codec β) (body : β) :
    RootAt (copy (encodeHeader dst blockLength templateId schemaId version) 8 A.size (A.put body))
      { blockLength, templateId, schemaId, version } A body := by
  refine ⟨fun k h_k => ?_, A.at_copy _ _ _⟩
  have h_size : k < 8 := h_k
  have h_at := Codec.at_copy MessageHeader.codec dst 0
    { blockLength, templateId, schemaId, version } k h_k
  rw [Nat.zero_add] at h_at ⊢
  rw [Wire.copy_below _ _ _ h_size]
  exact h_at

/-- The decoder accepts what the encoder begins with. -/
theorem RootAt.accepts (h : RootAt mem header A body) (h_least : 8 ≤ least) (h_len : least ≤ len)
    {fixedWireSize : ℕ} (h_block : fixedWireSize ≤ header.blockLength.toNat) :
    accepts (some mem) len least header.templateId header.schemaId fixedWireSize = some mem := by
  rw [accepts_iff h_least, h.header.get_start]
  exact ⟨rfl, h_len, rfl, rfl, h_block⟩

end

/-- The decoded message is the encoded one. -/
def SameBestObRpi (msg out : BestObRpi) : Prop :=
  out.body = msg.body ∧ out.symbolLen = msg.symbolLen ∧
    ∀ i : Fin 16, i.val < msg.symbolLen.toNat → out.symbol i = msg.symbol i

/-- The decoded message is the encoded one. -/
def SameFastOrderResp (msg out : FastOrderResp) : Prop :=
  out.body = msg.body ∧
    (out.orderIdLen = msg.orderIdLen ∧
      ∀ i : Fin 32, i.val < msg.orderIdLen.toNat → out.orderId i = msg.orderId i) ∧
    out.orderLinkIdLen = msg.orderLinkIdLen ∧
      ∀ i : Fin 32, i.val < msg.orderLinkIdLen.toNat → out.orderLinkId i = msg.orderLinkId i

/-- Encoded into a buffer, a message has its encoded size, and decoding its bytes, with any
bytes behind them and into any `out`, returns true and the message. -/
def RoundTrips {β : Type} (encode : β → (ℕ → Byte) → ℕ → (ℕ → Byte) × ℕ) (encodedSize : ℕ)
    (decode : Option (ℕ → Byte) → ℕ → β → Bool × β) (same : β → β → Prop) (msg : β)
    (dst : ℕ → Byte) (cap : ℕ) : Prop :=
  (encode msg dst cap).2 = encodedSize ∧
    ∀ (mem : ℕ → Byte) (len : ℕ) (out : β), encodedSize ≤ len →
      (∀ k < encodedSize, mem k = (encode msg dst cap).1 k) →
      (decode (some mem) len out).1 = true ∧ same msg (decode (some mem) len out).2

section

variable {msg : BestObRpi} {mem : ℕ → Byte} {cap len : ℕ}

theorem encodeBestObRpi_spec (dst : ℕ → Byte) (h_cap : encodedBestObRpi msg ≤ cap) :
    (encodeBestObRpi msg dst cap).2 = encodedBestObRpi msg ∧
      RootAt (encodeBestObRpi msg dst cap).1 ⟨98, 20000, 1, 0⟩ BestObRpiBody.codec msg.body ∧
      StringAt (encodeBestObRpi msg dst cap).1 (8 + 98) msg.symbolLen
        ((Codec.chars 16).put msg.symbol) := by
  have h_room : 8 + 98 + 1 + msg.symbolLen.toNat ≤ cap := h_cap
  rw [encodeBestObRpi, if_neg (by omega)]
  dsimp only
  obtain ⟨h_size, h_symbol, h_front⟩ := appendVarString8_of_le
    (copy (encodeHeader dst 98 20000 1 0) 8 98 (BestObRpiBody.codec.put msg.body)) msg.symbol h_room
  exact ⟨h_size, (rootAt_copy _ _ _ _ _ _ _).congr h_front le_rfl, h_symbol⟩

/-- Decoding what has been encoded. -/
theorem decodeBestObRpi_image (out : BestObRpi)
    (h_root : RootAt mem ⟨98, 20000, 1, 0⟩ BestObRpiBody.codec msg.body)
    (h_symbol : StringAt mem (8 + 98) msg.symbolLen ((Codec.chars 16).put msg.symbol))
    (h_len : encodedBestObRpi msg ≤ len) :
    ((decodeBestObRpi (some mem) len out).1 = true ↔ msg.symbolLen.toNat < 16) ∧
      ((decodeBestObRpi (some mem) len out).1 = true →
        SameBestObRpi msg (decodeBestObRpi (some mem) len out).2) := by
  have h_fits : 8 + 98 + 1 + msg.symbolLen.toNat ≤ len := h_len
  rw [decodeBestObRpi_of_accepts out (h_root.accepts (by omega) (by omega) le_rfl)]
  dsimp only
  -- the length byte must be read and the string must fit
  refine ⟨?_, fun h_ok => ⟨h_root.body.get_eq, ?_⟩⟩
  · rw [readVarString8_ok, h_symbol.len_eq]
    exact and_iff_right h_fits
  · exact (readVarString8_of_ok h_ok).2.eq_of_stringAt h_symbol

/-- A `BestObRpi` comes back exactly if its symbol is shorter than the array. -/
theorem bestObRpi_roundTrips_iff (dst : ℕ → Byte) (h_cap : encodedBestObRpi msg ≤ cap) :
    RoundTrips encodeBestObRpi (encodedBestObRpi msg) decodeBestObRpi SameBestObRpi msg dst cap ↔
      msg.symbolLen.toNat < 16 := by
  obtain ⟨h_size, h_root, h_symbol⟩ := encodeBestObRpi_spec dst h_cap
  -- decoding the image itself already needs the short symbol
  constructor
  · rintro ⟨-, h_decode⟩
    -- the decoder may get more than the image, and sees the same bytes in it
    exact (decodeBestObRpi_image {} h_root h_symbol le_rfl).1.mp
      (h_decode _ _ {} le_rfl fun _ _ => rfl).1
  · intro h_short
    refine ⟨h_size, fun mem len out h_len h_same => ?_⟩
    have h_total : 8 + 98 + 1 + msg.symbolLen.toNat = encodedBestObRpi msg := rfl
    have h_root' := h_root.congr h_same (show 8 + 98 ≤ _ by omega)
    have h_symbol' := h_symbol.congr h_same h_total.le
    obtain ⟨h_iff, h_out⟩ := decodeBestObRpi_image out h_root' h_symbol' h_len
    exact ⟨h_iff.mpr h_short, h_out (h_iff.mpr h_short)⟩

end

section

variable {msg : FastOrderResp} {mem : ℕ → Byte} {cap len : ℕ}

theorem encodeFastOrderResp_spec (dst : ℕ → Byte) (h_cap : encodedFastOrderResp msg ≤ cap) :
    (encodeFastOrderResp msg dst cap).2 = encodedFastOrderResp msg ∧
      RootAt (encodeFastOrderResp msg dst cap).1 ⟨60, 21000, 1, 0⟩ FastOrderRespBody.codec
        msg.body ∧
      StringAt (encodeFastOrderResp msg dst cap).1 (8 + 60) msg.orderIdLen
        ((Codec.chars 32).put msg.orderId) ∧
      StringAt (encodeFastOrderResp msg dst cap).1 (8 + 60 + 1 + msg.orderIdLen.toNat)
        msg.orderLinkIdLen ((Codec.chars 32).put msg.orderLinkId) := by
  have h_room : 8 + 60 + 2 + msg.orderIdLen.toNat + msg.orderLinkIdLen.toNat ≤ cap := h_cap
  rw [encodeFastOrderResp, if_neg (by omega)]
  dsimp only
  obtain ⟨h_offset, h_id, h_front⟩ := appendVarString8_of_le
    (copy (encodeHeader dst 60 21000 1 0) 8 60 (FastOrderRespBody.codec.put msg.body)) msg.orderId
    (by omega : 8 + 60 + 1 + msg.orderIdLen.toNat ≤ cap)
  rw [h_offset]
  obtain ⟨h_size, h_link, h_front'⟩ := appendVarString8_of_le
    (appendVarString8 (copy (encodeHeader dst 60 21000 1 0) 8 60
      (FastOrderRespBody.codec.put msg.body)) cap (8 + 60) msg.orderId msg.orderIdLen).1
    msg.orderLinkId
    (by omega : 8 + 60 + 1 + msg.orderIdLen.toNat + 1 + msg.orderLinkIdLen.toNat ≤ cap)
  -- the link id is behind all the rest
  refine ⟨?_, ?_, h_id.congr h_front' le_rfl, h_link⟩
  · rw [h_size, encodedFastOrderResp]
    omega
  · have h_root :=
      (rootAt_copy dst 60 21000 1 0 FastOrderRespBody.codec msg.body).congr h_front le_rfl
    exact h_root.congr h_front' (show 8 + 60 ≤ _ by omega)

/-- Decoding what has been encoded. -/
theorem decodeFastOrderResp_image (out : FastOrderResp)
    (h_root : RootAt mem ⟨60, 21000, 1, 0⟩ FastOrderRespBody.codec msg.body)
    (h_id : StringAt mem (8 + 60) msg.orderIdLen ((Codec.chars 32).put msg.orderId))
    (h_link : StringAt mem (8 + 60 + 1 + msg.orderIdLen.toNat) msg.orderLinkIdLen
      ((Codec.chars 32).put msg.orderLinkId))
    (h_len : encodedFastOrderResp msg ≤ len) :
    ((decodeFastOrderResp (some mem) len out).1 = true ↔
        msg.orderIdLen.toNat < 32 ∧ msg.orderLinkIdLen.toNat < 32) ∧
      ((decodeFastOrderResp (some mem) len out).1 = true →
        SameFastOrderResp msg (decodeFastOrderResp (some mem) len out).2) := by
  have h_fits : 8 + 60 + 2 + msg.orderIdLen.toNat + msg.orderLinkIdLen.toNat ≤ len := h_len
  have h_accepts : accepts (some mem) len (8 + 60 + 1) 21000 1 60 = some mem :=
    h_root.accepts (by omega) (by omega) le_rfl
  have h_id_ok : (readOrderId mem len out).ok = true ↔ msg.orderIdLen.toNat < 32 := by
    rw [readOrderId, readVarString8_ok, h_id.len_eq]
    exact and_iff_right (by omega)
  -- the link id is looked for behind the order id
  have h_offset : (readOrderId mem len out).ok = true →
      (readOrderId mem len out).offset = 8 + 60 + 1 + msg.orderIdLen.toNat := by
    intro h_ok
    obtain ⟨h_offset, h_in⟩ := readVarString8_of_ok h_ok
    rw [(h_in.eq_of_stringAt h_id).1] at h_offset
    exact h_offset
  have h_link_ok : (readOrderId mem len out).ok = true →
      ((readOrderLinkId mem len out).ok = true ↔ msg.orderLinkIdLen.toNat < 32) := by
    intro h_ok
    rw [readOrderLinkId, h_offset h_ok, readVarString8_ok, h_link.len_eq]
    exact and_iff_right (by omega)
  constructor
  · constructor
    · intro h
      obtain ⟨-, h_ok, h_ok'⟩ := decodeFastOrderResp_ok h
      exact ⟨h_id_ok.mp h_ok, (h_link_ok h_ok).mp h_ok'⟩
    · rintro ⟨h_short, h_short'⟩
      have h_ok := h_id_ok.mpr h_short
      rw [decodeFastOrderResp_of_accepts h_accepts h_ok]
      exact (h_link_ok h_ok).mpr h_short'
  · intro h
    obtain ⟨-, h_ok, h_ok'⟩ := decodeFastOrderResp_ok h
    rw [← h_offset h_ok] at h_link
    rw [decodeFastOrderResp_of_accepts h_accepts h_ok]
    exact ⟨h_root.body.get_eq, (readVarString8_of_ok h_ok).2.eq_of_stringAt h_id,
      (readVarString8_of_ok h_ok').2.eq_of_stringAt h_link⟩

/-- A `FastOrderResp` comes back exactly if each of its strings is shorter than its array. -/
theorem fastOrderResp_roundTrips_iff (dst : ℕ → Byte) (h_cap : encodedFastOrderResp msg ≤ cap) :
    RoundTrips encodeFastOrderResp (encodedFastOrderResp msg) decodeFastOrderResp
        SameFastOrderResp msg dst cap ↔
      msg.orderIdLen.toNat < 32 ∧ msg.orderLinkIdLen.toNat < 32 := by
  obtain ⟨h_size, h_root, h_id, h_link⟩ := encodeFastOrderResp_spec dst h_cap
  -- as for the symbol, now with the two strings one behind the other
  constructor
  · rintro ⟨-, h_decode⟩
    exact (decodeFastOrderResp_image {} h_root h_id h_link le_rfl).1.mp
      (h_decode _ _ {} le_rfl fun _ _ => rfl).1
  · intro h_short
    refine ⟨h_size, fun mem len out h_len h_same => ?_⟩
    have h_total : encodedFastOrderResp msg =
      8 + 60 + 2 + msg.orderIdLen.toNat + msg.orderLinkIdLen.toNat := rfl
    have h_root' := h_root.congr h_same (show 8 + 60 ≤ _ by omega)
    have h_id' := h_id.congr h_same (by omega)
    have h_link' := h_link.congr h_same (by omega)
    obtain ⟨h_iff, h_out⟩ := decodeFastOrderResp_image out h_root' h_id' h_link' h_len
    exact ⟨h_iff.mpr h_short, h_out (h_iff.mpr h_short)⟩

end

/-- **Round trip.** Of the messages whose strings fit their arrays those come back whose strings are
shorter than their arrays: the encoders write as many characters as the length says, while the
decoders want to end the string with a zero and refuse one that fills its array. -/
theorem sbe_round_trip_iff (tick : BestObRpi) (resp : FastOrderResp) (dst : ℕ → Byte) (cap : ℕ) :
    (tick.symbolLen.toNat ≤ 16 → encodedBestObRpi tick ≤ cap →
      (RoundTrips encodeBestObRpi (encodedBestObRpi tick) decodeBestObRpi SameBestObRpi tick dst
        cap ↔ tick.symbolLen.toNat < 16)) ∧
    (resp.orderIdLen.toNat ≤ 32 → resp.orderLinkIdLen.toNat ≤ 32 →
      encodedFastOrderResp resp ≤ cap →
      (RoundTrips encodeFastOrderResp (encodedFastOrderResp resp) decodeFastOrderResp
        SameFastOrderResp resp dst cap ↔
          resp.orderIdLen.toNat < 32 ∧ resp.orderLinkIdLen.toNat < 32)) :=
  ⟨fun _ h_cap => bestObRpi_roundTrips_iff dst h_cap,
    fun _ _ h_cap => fastOrderResp_roundTrips_iff dst h_cap⟩

/-- A symbol of seven characters comes back, and so do an order id of eight and a link id of
seven. -/
theorem sbe_round_trip_iff_seven :
    RoundTrips encodeBestObRpi 114 decodeBestObRpi SameBestObRpi { symbolLen := 7 }
        (fun _ => 0) 114 ∧
      RoundTrips encodeFastOrderResp 85 decodeFastOrderResp SameFastOrderResp
        { orderIdLen := 8, orderLinkIdLen := 7 } (fun _ => 0) 114 := by
  obtain ⟨h_tick, h_resp⟩ := sbe_round_trip_iff { symbolLen := 7 }
    { orderIdLen := 8, orderLinkIdLen := 7 } (fun _ => 0) 114
  exact ⟨(h_tick (by decide) (by decide)).mpr (by decide),
    (h_resp (by decide) (by decide) (by decide)).mpr (by decide)⟩

/-- A symbol of sixteen characters does not come back, nor does a link id of thirty-two, which the
gateway builds: both fill their arrays, and the decoders refuse what the encoders have written. -/
theorem sbe_round_trip_full :
    (¬∀ (msg : BestObRpi) (dst : ℕ → Byte) (cap : ℕ), msg.symbolLen.toNat ≤ 16 →
      encodedBestObRpi msg ≤ cap →
      RoundTrips encodeBestObRpi (encodedBestObRpi msg) decodeBestObRpi SameBestObRpi msg dst
        cap) ∧
    ¬∀ (msg : FastOrderResp) (dst : ℕ → Byte) (cap : ℕ), msg.orderIdLen.toNat ≤ 32 →
      msg.orderLinkIdLen.toNat ≤ 32 → encodedFastOrderResp msg ≤ cap →
      RoundTrips encodeFastOrderResp (encodedFastOrderResp msg) decodeFastOrderResp
        SameFastOrderResp msg dst cap := by
  -- the array's last byte is left for no character: sixteen do not come back
  constructor
  · intro h_all
    have h_trip := h_all { symbolLen := 16 } (fun _ => 0) 123 (by decide) (by decide)
    exact absurd ((bestObRpi_roundTrips_iff _ (by decide)).mp h_trip) (by decide)
  · intro h_all
    have h_trip := h_all { orderIdLen := 8, orderLinkIdLen := 32 } (fun _ => 0) 110 (by decide)
      (by decide) (by decide)
    exact absurd ((fastOrderResp_roundTrips_iff _ (by decide)).mp h_trip) (by decide)

/-! ### The declared block length -/

/-- What `decode_best_ob_rpi` accepts with a declared block length has the symbol behind a block
of that length, and this is the symbol it returns. -/
def BestObRpiHonours (blockLength : BitVec 16) : Prop :=
  ∀ (mem : ℕ → Byte) (len : ℕ) (out : BestObRpi) (version : BitVec 16),
    MessageHeader.codec.get mem = ⟨blockLength, 20000, 1, version⟩ →
    (decodeBestObRpi (some mem) len out).1 = true →
    StringIn mem len (8 + blockLength.toNat) (decodeBestObRpi (some mem) len out).2.symbolLen
      (decodeBestObRpi (some mem) len out).2.symbol

/-- What `decode_fast_order_resp` accepts with a declared block length has the strings behind a
block of that length, and these are the strings it returns. -/
def FastOrderRespHonours (blockLength : BitVec 16) : Prop :=
  ∀ (mem : ℕ → Byte) (len : ℕ) (out : FastOrderResp) (version : BitVec 16),
    MessageHeader.codec.get mem = ⟨blockLength, 21000, 1, version⟩ →
    (decodeFastOrderResp (some mem) len out).1 = true →
    StringIn mem len (8 + blockLength.toNat) (decodeFastOrderResp (some mem) len out).2.orderIdLen
      (decodeFastOrderResp (some mem) len out).2.orderId ∧
    StringIn mem len (8 + blockLength.toNat + 1 +
        (decodeFastOrderResp (some mem) len out).2.orderIdLen.toNat)
      (decodeFastOrderResp (some mem) len out).2.orderLinkIdLen
      (decodeFastOrderResp (some mem) len out).2.orderLinkId

/-- A decoder that honours the block length accepts only what `split_sbe_frame` hands over. -/
theorem BestObRpiHonours.handed {blockLength : BitVec 16} (h : BestObRpiHonours blockLength)
    {mem : ℕ → Byte} {len : ℕ} {out : BestObRpi} {version : BitVec 16}
    (h_header : MessageHeader.codec.get mem = ⟨blockLength, 20000, 1, version⟩)
    (h_ok : (decodeBestObRpi (some mem) len out).1 = true)
    (onMessage : (ℕ → Byte) → ℕ → MessageHeader → Bool) :
    splitSbeFrame onMessage (some mem) len = onMessage mem len (MessageHeader.codec.get mem) := by
  apply splitSbeFrame_long
  have h_fits := (h mem len out version h_header h_ok).fits
  rw [h_header]
  dsimp only
  omega

/-- A header, and zeros. -/
def blank (header : MessageHeader) : ℕ → Byte :=
  encodeHeader (fun _ => 0) header.blockLength header.templateId header.schemaId header.version

theorem blank_header (header : MessageHeader) :
    MessageHeader.codec.get (blank header) = header :=
  (Codec.at_copy MessageHeader.codec _ 0 header).get_start

theorem blank_zero (header : MessageHeader) {k : ℕ} (h : 8 ≤ k) : blank header k = 0 := by
  have h_above : 0 + MessageHeader.codec.size ≤ k := by rwa [Nat.zero_add]
  rw [blank, encodeHeader, Wire.copy_above _ _ h_above]

theorem accepts_blank (header : MessageHeader) {len least fixedWireSize : ℕ}
    (h_least : 8 ≤ least) (h_len : least ≤ len)
    (h_block : fixedWireSize ≤ header.blockLength.toNat) :
    accepts (some (blank header)) len least header.templateId header.schemaId fixedWireSize =
      some (blank header) := by
  rw [accepts_iff h_least, blank_header]
  exact ⟨rfl, h_len, rfl, rfl, h_block⟩

/-- The empty string is read from zeros. -/
theorem readVarString8_blank (header : MessageHeader) {n len offset : ℕ} (h_n : 0 < n)
    (h_offset : 8 ≤ offset) (h_len : offset + 1 ≤ len) (out : Chars n) (outLen : Byte) :
    (readVarString8 (blank header) len offset out outLen).ok = true := by
  rw [readVarString8_ok, blank_zero header h_offset]
  exact ⟨h_len, h_n⟩

section

variable {b : BitVec 16}

/-- Zeros are decoded whatever the block, if only they are as long as the decoder's own. -/
theorem decodeBestObRpi_blank (h_b : 98 ≤ b.toNat) :
    (decodeBestObRpi (some (blank ⟨b, 20000, 1, 0⟩)) 107 {}).1 = true := by
  have h_accepts : accepts (some (blank ⟨b, 20000, 1, 0⟩)) 107 (8 + 98 + 1) 20000 1 98 =
      some (blank ⟨b, 20000, 1, 0⟩) := accepts_blank _ (by omega) le_rfl h_b
  rw [decodeBestObRpi_of_accepts {} h_accepts]
  exact readVarString8_blank _ (by omega) (by omega) le_rfl _ _

/-- Where they end in the declared block, `split_sbe_frame` does not hand them over. -/
theorem splitSbeFrame_blank (h_b : 99 < b.toNat)
    (onMessage : (ℕ → Byte) → ℕ → MessageHeader → Bool) :
    splitSbeFrame onMessage (some (blank ⟨b, 20000, 1, 0⟩)) 107 = false := by
  apply splitSbeFrame_short
  rw [blank_header]
  dsimp only
  omega

theorem bestObRpiHonours_iff (h_b : 98 ≤ b.toNat) : BestObRpiHonours b ↔ b = 98 := by
  constructor
  · intro h_honours
    -- they leave no room for a longer block
    have h_fits := (h_honours _ 107 {} 0 (blank_header _) (decodeBestObRpi_blank h_b)).fits
    exact BitVec.eq_of_toNat_eq (show b.toNat = 98 by omega)
  · rintro rfl mem len out version - h_ok
    obtain ⟨h_accepts, h_symbol⟩ := decodeBestObRpi_ok h_ok
    rw [decodeBestObRpi_of_accepts out h_accepts]
    exact (readVarString8_of_ok h_symbol).2

theorem fastOrderRespHonours_iff (h_b : 60 ≤ b.toNat) : FastOrderRespHonours b ↔ b = 60 := by
  -- with a longer block the strings are not behind it, where the decoder looks
  constructor
  · intro h_honours
    have h_accepts : accepts (some (blank ⟨b, 21000, 1, 0⟩)) 70 (8 + 60 + 1) 21000 1 60 =
        some (blank ⟨b, 21000, 1, 0⟩) := accepts_blank _ (by omega) (by omega) h_b
    have h_id : (readOrderId (blank ⟨b, 21000, 1, 0⟩) 70 {}).ok = true :=
      readVarString8_blank _ (by omega) (by omega) (by omega) _ _
    have h_link : (readOrderLinkId (blank ⟨b, 21000, 1, 0⟩) 70 {}).ok = true := by
      -- the link id begins behind the order id, which is empty here
      obtain ⟨h_offset, h_in⟩ := readVarString8_of_ok h_id
      rw [← h_in.len_eq, blank_zero _ (by omega)] at h_offset
      rw [readOrderLinkId, readOrderId, h_offset]
      exact readVarString8_blank _ (by omega) (by omega) le_rfl _ _
    have h_ok : (decodeFastOrderResp (some (blank ⟨b, 21000, 1, 0⟩)) 70 {}).1 = true := by
      rw [decodeFastOrderResp_of_accepts h_accepts h_id]
      exact h_link
    have h_fits := (h_honours _ 70 {} 0 (blank_header _) h_ok).2.fits
    exact BitVec.eq_of_toNat_eq (show b.toNat = 60 by omega)
  · -- with the block length of the layout they are
    rintro rfl mem len out version - h_ok
    obtain ⟨h_accepts, h_id, h_link⟩ := decodeFastOrderResp_ok h_ok
    rw [decodeFastOrderResp_of_accepts h_accepts h_id]
    obtain ⟨h_offset, h_in⟩ := readVarString8_of_ok h_id
    have h_behind : 8 + (60 : BitVec 16).toNat + 1 + (readOrderId mem len out).outLen.toNat =
      (readOrderId mem len out).offset := h_offset.symm
    refine ⟨h_in, ?_⟩
    dsimp only
    rw [h_behind]
    exact (readVarString8_of_ok h_link).2

end

/-- **The block length.** Of the block lengths that a decoder accepts it honours its own. A longer
one it accepts as well, but then it looks for the strings where its own block would end. -/
theorem sbe_block_length_iff (b : BitVec 16) :
    (98 ≤ b.toNat → (BestObRpiHonours b ↔ b = 98)) ∧
      (60 ≤ b.toNat → (FastOrderRespHonours b ↔ b = 60)) :=
  ⟨bestObRpiHonours_iff, fastOrderRespHonours_iff⟩

/-- The block lengths that are encoded are honoured. -/
theorem sbe_block_length_iff_own : BestObRpiHonours 98 ∧ FastOrderRespHonours 60 :=
  ⟨((sbe_block_length_iff 98).1 (by decide)).mpr rfl,
    ((sbe_block_length_iff 60).2 (by decide)).mpr rfl⟩

/-- A block that is one byte longer than the layout's is accepted, and not honoured. -/
theorem sbe_block_length_longer :
    ¬∀ b : BitVec 16, (98 ≤ b.toNat → BestObRpiHonours b) ∧
      (60 ≤ b.toNat → FastOrderRespHonours b) := by
  intro h_all
  exact absurd ((bestObRpiHonours_iff (by decide)).mp ((h_all 99).1 (by decide))) (by decide)

end Sbe

end Hft
