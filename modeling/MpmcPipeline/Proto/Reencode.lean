import MpmcPipeline.Proto.Sbe

/-!
# SBE messages encoded again

What a decoder accepts with the encoder's own header is what the encoder writes: encoded again
into a buffer of the payload's length, the decoded message fits and gives the bytes of the
payload back, as far as the message goes (`sbe_reencode`). Header, block and strings are each
determined by what they decode to, so two memories with the same message at their start agree
there.

The three decoders look at the template id first, and each has its own: no payload is accepted
by two of them.
-/

namespace Hft

namespace Sbe

open Wire (copy StringAt)

/-- What is read from a payload is there. -/
theorem stringAt_of_ok {n : ℕ} {mem : ℕ → Byte} {len offset : ℕ} {out : Chars n} {outLen : Byte}
    (h : (readVarString8 mem len offset out outLen).ok = true) :
    StringAt mem offset (readVarString8 mem len offset out outLen).outLen
      ((Codec.chars n).put (readVarString8 mem len offset out outLen).out) := by
  obtain ⟨-, h_in⟩ := readVarString8_of_ok h
  have h_short := (readVarString8_ok.mp h).2
  rw [h_in.len_eq] at h_short
  refine ⟨h_in.len_eq, fun k h_k => ?_⟩
  have h_put : (Codec.chars n).put (readVarString8 mem len offset out outLen).out k =
      (readVarString8 mem len offset out outLen).out ⟨k, by omega⟩ := dif_pos _
  rw [h_put]
  exact (h_in.char_eq ⟨k, by omega⟩ h_k).symm

section

variable {β : Type} {A : Codec β} {body : β} {header : MessageHeader} {mem mem' : ℕ → Byte}

/-- A payload begins with its header and with the block that is read from it. -/
theorem rootAt_get (mem : ℕ → Byte) (A : Codec β) :
    RootAt mem (MessageHeader.codec.get mem) A (A.get fun k => mem (8 + k)) := by
  exact ⟨MessageHeader.codec.at_get_start mem, A.at_get mem 8⟩

theorem RootAt.agree (h : RootAt mem header A body) (h' : RootAt mem' header A body) {k : ℕ}
    (h_k : k < 8 + A.size) : mem k = mem' k := by
  have h_size : MessageHeader.codec.size = 8 := rfl
  by_cases h_header : k < 8
  · exact h.header.agree h'.header (Nat.zero_le k) (by omega)
  · exact h.body.agree h'.body (by omega) h_k

end

/-- An encoder gives back the first bytes of a payload, as many as the message has. -/
def Reproduces {β : Type} (encode : β → (ℕ → Byte) → ℕ → (ℕ → Byte) × ℕ) (encodedSize : ℕ)
    (msg : β) (mem : ℕ → Byte) (len : ℕ) : Prop :=
  encodedSize ≤ len ∧ ∀ dst, (encode msg dst len).2 = encodedSize ∧
    ∀ k < encodedSize, (encode msg dst len).1 k = mem k

section

variable {mem : ℕ → Byte} {len : ℕ}

/-- The header of an accepted payload, with the encoder's block length and version. -/
theorem header_of_accepts {least fixedWireSize : ℕ} {templateId schemaId blockLength : BitVec 16}
    {version : BitVec 16} (h_least : 8 ≤ least)
    (h : accepts (some mem) len least templateId schemaId fixedWireSize = some mem)
    (h_block : (MessageHeader.codec.get mem).blockLength = blockLength)
    (h_version : (MessageHeader.codec.get mem).version = version) :
    least ≤ len ∧
      MessageHeader.codec.get mem = ⟨blockLength, templateId, schemaId, version⟩ := by
  obtain ⟨-, h_len, h_template, h_schema, -⟩ := (accepts_iff h_least).mp h
  refine ⟨h_len, ?_⟩
  rw [← h_block, ← h_template, ← h_schema, ← h_version]

theorem bestObRpi_reproduces {out : BestObRpi}
    (h : (decodeBestObRpi (some mem) len out).1 = true)
    (h_block : (MessageHeader.codec.get mem).blockLength = 98)
    (h_version : (MessageHeader.codec.get mem).version = 0) :
    Reproduces encodeBestObRpi (encodedBestObRpi (decodeBestObRpi (some mem) len out).2)
      (decodeBestObRpi (some mem) len out).2 mem len := by
  obtain ⟨h_accepts, h_symbol⟩ := decodeBestObRpi_ok h
  obtain ⟨h_len, h_header⟩ := header_of_accepts (by omega) h_accepts h_block h_version
  -- the message in the payload
  have h_root := rootAt_get mem BestObRpiBody.codec
  rw [h_header] at h_root
  have h_at := stringAt_of_ok h_symbol
  have h_fits := (readVarString8_of_ok h_symbol).2.fits
  rw [decodeBestObRpi_of_accepts out h_accepts]
  refine ⟨h_fits, fun dst => ?_⟩
  -- the message in the buffer
  let msg : BestObRpi := {
    body := BestObRpiBody.codec.get fun k => mem (8 + k)
    symbolLen := (readVarString8 mem len (8 + 98) out.symbol out.symbolLen).outLen
    symbol := (readVarString8 mem len (8 + 98) out.symbol out.symbolLen).out }
  have h_cap : encodedBestObRpi msg ≤ len := h_fits
  obtain ⟨h_size, h_root', h_at'⟩ := encodeBestObRpi_spec dst h_cap
  refine ⟨h_size, fun k h_k => ?_⟩
  by_cases h_front : k < 8 + 98
  · exact h_root'.agree h_root h_front
  · exact h_at'.agree h_at (by omega) h_k

theorem fastOrderResp_reproduces {out : FastOrderResp}
    (h : (decodeFastOrderResp (some mem) len out).1 = true)
    (h_block : (MessageHeader.codec.get mem).blockLength = 60)
    (h_version : (MessageHeader.codec.get mem).version = 0) :
    Reproduces encodeFastOrderResp
      (encodedFastOrderResp (decodeFastOrderResp (some mem) len out).2)
      (decodeFastOrderResp (some mem) len out).2 mem len := by
  obtain ⟨h_accepts, h_id, h_link⟩ := decodeFastOrderResp_ok h
  obtain ⟨h_len, h_header⟩ := header_of_accepts (by omega) h_accepts h_block h_version
  -- the message in the payload, the link id behind the order id
  have h_root := rootAt_get mem FastOrderRespBody.codec
  rw [h_header] at h_root
  have h_at : StringAt mem (8 + 60) (readOrderId mem len out).outLen
      ((Codec.chars 32).put (readOrderId mem len out).out) := stringAt_of_ok h_id
  have h_offset : (readOrderId mem len out).offset =
      8 + 60 + 1 + (readOrderId mem len out).outLen.toNat := (readVarString8_of_ok h_id).1
  have h_link_at : StringAt mem (readOrderId mem len out).offset
      (readOrderLinkId mem len out).outLen
      ((Codec.chars 32).put (readOrderLinkId mem len out).out) := stringAt_of_ok h_link
  have h_link_fits : (readOrderId mem len out).offset + 1 +
      (readOrderLinkId mem len out).outLen.toNat ≤ len := (readVarString8_of_ok h_link).2.fits
  rw [h_offset] at h_link_at h_link_fits
  rw [decodeFastOrderResp_of_accepts h_accepts h_id]
  have h_fits : 8 + 60 + 2 + (readOrderId mem len out).outLen.toNat +
      (readOrderLinkId mem len out).outLen.toNat ≤ len := by omega
  refine ⟨h_fits, fun dst => ?_⟩
  -- the message in the buffer
  let msg : FastOrderResp := {
    body := FastOrderRespBody.codec.get fun k => mem (8 + k)
    orderIdLen := (readOrderId mem len out).outLen
    orderId := (readOrderId mem len out).out
    orderLinkIdLen := (readOrderLinkId mem len out).outLen
    orderLinkId := (readOrderLinkId mem len out).out }
  have h_cap : encodedFastOrderResp msg ≤ len := h_fits
  obtain ⟨h_size, h_root', h_at', h_link_at'⟩ := encodeFastOrderResp_spec dst h_cap
  refine ⟨h_size, fun k h_k => ?_⟩
  have h_total : k < 8 + 60 + 2 + (readOrderId mem len out).outLen.toNat +
      (readOrderLinkId mem len out).outLen.toNat := h_k
  by_cases h_front : k < 8 + 60
  · exact h_root'.agree h_root h_front
  · by_cases h_middle : k < 8 + 60 + 1 + (readOrderId mem len out).outLen.toNat
    · exact h_at'.agree h_at (by omega) h_middle
    · have h_behind : 8 + 60 + 1 + (readOrderId mem len out).outLen.toNat ≤ k := by omega
      have h_end : k < 8 + 60 + 1 + (readOrderId mem len out).outLen.toNat + 1 +
        (readOrderLinkId mem len out).outLen.toNat := by omega
      exact h_link_at'.agree h_link_at h_behind h_end

/-- A decoder that returns true has accepted the payload. -/
theorem decodeCreateOrderReq_ok {out : CreateOrderReqV5}
    (h : (decodeCreateOrderReq (some mem) len out).1 = true) :
    accepts (some mem) len (8 + 242) 5 2 242 = some mem ∧
      (decodeCreateOrderReq (some mem) len out).2 =
        CreateOrderReqV5.codec.get fun k => mem (8 + k) := by
  cases h_accepts : accepts (some mem) len (8 + 242) 5 2 242 with
  | none =>
    rw [decodeCreateOrderReq, h_accepts] at h
    cases h
  | some bytes =>
    have h_mem := eq_of_accepts (by omega) h_accepts
    rw [← h_accepts, h_mem, decodeCreateOrderReq, h_mem]
    exact ⟨rfl, rfl⟩

theorem createOrderReq_reproduces {out : CreateOrderReqV5}
    (h : (decodeCreateOrderReq (some mem) len out).1 = true)
    (h_block : (MessageHeader.codec.get mem).blockLength = 242)
    (h_version : (MessageHeader.codec.get mem).version = 2) :
    Reproduces encodeCreateOrderReq encodedCreateOrderReq
      (decodeCreateOrderReq (some mem) len out).2 mem len := by
  -- what the decoder gives has the root block's own fields, and the header is the encoder's
  obtain ⟨h_accepts, h_out⟩ := decodeCreateOrderReq_ok h
  obtain ⟨h_len, h_header⟩ := header_of_accepts (by omega) h_accepts h_block h_version
  have h_root := rootAt_get mem CreateOrderReqV5.codec
  rw [h_header] at h_root
  rw [h_out]
  -- the encoder writes the header and the block at the places they were read from
  refine ⟨h_len, fun dst => ?_⟩
  have h_room : ¬len < encodedCreateOrderReq := Nat.not_lt.mpr h_len
  rw [encodeCreateOrderReq, if_neg h_room]
  exact ⟨rfl, fun k h_k => (rootAt_copy dst 242 5 2 2 CreateOrderReqV5.codec _).agree h_root h_k⟩

/-- A payload that is accepted has the template id of the decoder. -/
theorem templateId_of_accepts {payload : Option (ℕ → Byte)} {bytes : ℕ → Byte}
    {least fixedWireSize : ℕ} {templateId schemaId : BitVec 16} (h_least : 8 ≤ least)
    (h : accepts payload len least templateId schemaId fixedWireSize = some bytes) :
    payload = some bytes ∧ (MessageHeader.codec.get bytes).templateId = templateId := by
  cases payload with
  | none => cases h
  | some mem =>
    obtain ⟨rfl, -, h_template, -⟩ := (accepts_iff h_least).mp h
    exact ⟨rfl, h_template⟩

end

/-! ### No payload is accepted twice -/

section

variable {payload : Option (ℕ → Byte)} {len : ℕ}

/-- The payload has this template id. -/
def HasTemplate (payload : Option (ℕ → Byte)) (templateId : BitVec 16) : Prop :=
  ∃ mem, payload = some mem ∧ (MessageHeader.codec.get mem).templateId = templateId

theorem HasTemplate.unique {templateId templateId' : BitVec 16}
    (h : HasTemplate payload templateId) (h' : HasTemplate payload templateId') :
    templateId = templateId' := by
  obtain ⟨mem, h_mem, rfl⟩ := h
  obtain ⟨mem', h_mem', rfl⟩ := h'
  rw [Option.some.inj (h_mem.symm.trans h_mem')]

theorem hasTemplate_bestObRpi {out : BestObRpi}
    (h : (decodeBestObRpi payload len out).1 = true) : HasTemplate payload 20000 := by
  cases payload with
  | none => cases h
  | some mem => exact ⟨mem, templateId_of_accepts (by omega) (decodeBestObRpi_ok h).1⟩

theorem hasTemplate_fastOrderResp {out : FastOrderResp}
    (h : (decodeFastOrderResp payload len out).1 = true) : HasTemplate payload 21000 := by
  cases payload with
  | none => cases h
  | some mem => exact ⟨mem, templateId_of_accepts (by omega) (decodeFastOrderResp_ok h).1⟩

theorem hasTemplate_createOrderReq {out : CreateOrderReqV5}
    (h : (decodeCreateOrderReq payload len out).1 = true) : HasTemplate payload 5 := by
  cases payload with
  | none => cases h
  | some mem => exact ⟨mem, templateId_of_accepts (by omega) (decodeCreateOrderReq_ok h).1⟩

end

/-- **Encoding undoes decoding, and the messages never mix.** A payload that a decoder accepts,
with the encoder's own block length and version, is given back by the encoder, from a buffer of
the payload's length; and no payload is accepted by two of the three decoders. -/
theorem sbe_reencode (payload : Option (ℕ → Byte)) (len : ℕ) (tick : BestObRpi)
    (resp : FastOrderResp) (req : CreateOrderReqV5) :
    (∀ mem, payload = some mem →
      ((MessageHeader.codec.get mem).blockLength = 98 → (MessageHeader.codec.get mem).version = 0 →
        (decodeBestObRpi payload len tick).1 = true →
        Reproduces encodeBestObRpi (encodedBestObRpi (decodeBestObRpi payload len tick).2)
          (decodeBestObRpi payload len tick).2 mem len) ∧
      ((MessageHeader.codec.get mem).blockLength = 60 → (MessageHeader.codec.get mem).version = 0 →
        (decodeFastOrderResp payload len resp).1 = true →
        Reproduces encodeFastOrderResp
          (encodedFastOrderResp (decodeFastOrderResp payload len resp).2)
          (decodeFastOrderResp payload len resp).2 mem len) ∧
      ((MessageHeader.codec.get mem).blockLength = 242 → (MessageHeader.codec.get mem).version = 2 →
        (decodeCreateOrderReq payload len req).1 = true →
        Reproduces encodeCreateOrderReq encodedCreateOrderReq
          (decodeCreateOrderReq payload len req).2 mem len)) ∧
    ¬((decodeBestObRpi payload len tick).1 = true ∧
      (decodeFastOrderResp payload len resp).1 = true) ∧
    ¬((decodeBestObRpi payload len tick).1 = true ∧
      (decodeCreateOrderReq payload len req).1 = true) ∧
    ¬((decodeFastOrderResp payload len resp).1 = true ∧
      (decodeCreateOrderReq payload len req).1 = true) := by
  -- what each decoder accepts says its own template id, and the three ids differ
  refine ⟨?_, ?_, ?_, ?_⟩
  · rintro mem rfl
    exact ⟨fun h_block h_version h => bestObRpi_reproduces h h_block h_version,
      fun h_block h_version h => fastOrderResp_reproduces h h_block h_version,
      fun h_block h_version h => createOrderReq_reproduces h h_block h_version⟩
  · rintro ⟨h_tick, h_resp⟩
    exact absurd ((hasTemplate_bestObRpi h_tick).unique (hasTemplate_fastOrderResp h_resp))
      (by decide)
  · rintro ⟨h_tick, h_req⟩
    exact absurd ((hasTemplate_bestObRpi h_tick).unique (hasTemplate_createOrderReq h_req))
      (by decide)
  · rintro ⟨h_resp, h_req⟩
    exact absurd ((hasTemplate_fastOrderResp h_resp).unique (hasTemplate_createOrderReq h_req))
      (by decide)

/-- A header, a block of bytes that are their own offsets, and what is behind it. -/
def payloadOf (header : MessageHeader) (block : ℕ) (behind : List Byte) (k : ℕ) : Byte :=
  if k < 8 then blank header k
  else if k < 8 + block then BitVec.ofNat 8 k
  else behind.getD (k - (8 + block)) 0

/-- A tick of `BTC`. -/
def tickPayload : ℕ → Byte := payloadOf ⟨98, 20000, 1, 0⟩ 98 [3, 0x42, 0x54, 0x43]

/-- A response to the order `17` with the link `lnk5`, and a byte behind it. -/
def respPayload : ℕ → Byte :=
  payloadOf ⟨60, 21000, 1, 0⟩ 60 [2, 0x31, 0x37, 4, 0x6C, 0x6E, 0x6B, 0x35, 0xFF]

/-- A request. -/
def reqPayload : ℕ → Byte := payloadOf ⟨242, 5, 2, 2⟩ 242 []

/-- The tick is 110 bytes long, the response 76 of the 77 that are there, the request 250. -/
theorem sbe_reencode_filled :
    (encodedBestObRpi (decodeBestObRpi (some tickPayload) 110 {}).2 = 110 ∧
      Reproduces encodeBestObRpi (encodedBestObRpi (decodeBestObRpi (some tickPayload) 110 {}).2)
        (decodeBestObRpi (some tickPayload) 110 {}).2 tickPayload 110) ∧
    (encodedFastOrderResp (decodeFastOrderResp (some respPayload) 77 {}).2 = 76 ∧
      Reproduces encodeFastOrderResp
        (encodedFastOrderResp (decodeFastOrderResp (some respPayload) 77 {}).2)
        (decodeFastOrderResp (some respPayload) 77 {}).2 respPayload 77) ∧
    Reproduces encodeCreateOrderReq encodedCreateOrderReq
      (decodeCreateOrderReq (some reqPayload) 250 {}).2 reqPayload 250 := by
  -- each decoder accepts its payload by evaluation
  refine ⟨⟨by decide +kernel, ?_⟩, ⟨by decide +kernel, ?_⟩, ?_⟩
  · exact ((sbe_reencode (some tickPayload) 110 {} {} {}).1 tickPayload rfl).1
      (by decide +kernel) (by decide +kernel) (by decide +kernel)
  · exact ((sbe_reencode (some respPayload) 77 {} {} {}).1 respPayload rfl).2.1
      (by decide +kernel) (by decide +kernel) (by decide +kernel)
  · exact ((sbe_reencode (some reqPayload) 250 {} {} {}).1 reqPayload rfl).2.2
      (by decide +kernel) (by decide +kernel) (by decide +kernel)

end Sbe

end Hft
