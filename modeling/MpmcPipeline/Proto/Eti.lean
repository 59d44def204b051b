import MpmcPipeline.Proto.Layouts
import MpmcPipeline.Wire.Memory

/-!
# MCX messages and their framing

The ETI codec of `mcx/decode.hpp`. A message is a packed record that begins with `body_len`,
which is the size of the whole record, and `template_id`. An encoder stamps both and copies the
record, a decoder copies it back and looks at the template id, `split_eti_frame` hands over the
first `body_len` bytes of a frame, and `read_template_id` reads the id without the record.

The two messages differ in their layout, size and template id only, so each of their functions
is one definition at their values, and what is proved of them is proved once, from where the
two fields are in the bytes (`EtiLayout`).
-/

namespace Hft

namespace Eti

open Wire (copy)

/-- `read_template_id` -/
def readTemplateId (data : Option (ℕ → Byte)) (len : ℕ) : Option (BitVec 16) :=
  match data with
  | none => none
  | some bytes => if len < 6 then none else some (Codec.u16.get fun k => bytes (4 + k))

section

variable {α : Type}

/-- Copying a record out of a payload; `out` has been overwritten when the id is another. -/
def decodeMessage (A : Codec α) (kWireSize : ℕ) (templateId : α → BitVec 16)
    (kTemplateId : BitVec 16) (payload : Option (ℕ → Byte)) (len : ℕ) (out : α) : Bool × α :=
  match payload with
  | none => (false, out)
  | some bytes =>
    if len < kWireSize then (false, out)
    else
      let out := A.get bytes
      (templateId out == kTemplateId, out)

/-- Copying a stamped record into a buffer: the buffer and the number of bytes written. -/
def encodeMessage (A : Codec α) (kWireSize : ℕ) (stamp : α → α) (msg : α) (dst : ℕ → Byte)
    (cap : ℕ) : (ℕ → Byte) × ℕ :=
  if cap < kWireSize then (dst, 0)
  else
    let wire := stamp msg
    (copy dst 0 kWireSize (A.put wire), kWireSize)

end

/-- `decode_new_order_short` -/
def decodeNewOrderShort :
    Option (ℕ → Byte) → ℕ → NewOrderSingleShort → Bool × NewOrderSingleShort :=
  decodeMessage NewOrderSingleShort.codec 120 (·.templateId) 10125

/-- `decode_execution_report` -/
def decodeExecutionReport :
    Option (ℕ → Byte) → ℕ → ExecutionReportNew → Bool × ExecutionReportNew :=
  decodeMessage ExecutionReportNew.codec 188 (·.templateId) 10101

/-- `wire` in `encode_new_order_short` -/
def stampNewOrderShort (msg : NewOrderSingleShort) : NewOrderSingleShort :=
  { msg with bodyLen := 120, templateId := 10125 }

/-- `wire` in `encode_execution_report` -/
def stampExecutionReport (msg : ExecutionReportNew) : ExecutionReportNew :=
  { msg with bodyLen := 188, templateId := 10101 }

/-- `encode_new_order_short` -/
def encodeNewOrderShort : NewOrderSingleShort → (ℕ → Byte) → ℕ → (ℕ → Byte) × ℕ :=
  encodeMessage NewOrderSingleShort.codec 120 stampNewOrderShort

/-- `encode_execution_report` -/
def encodeExecutionReport : ExecutionReportNew → (ℕ → Byte) → ℕ → (ℕ → Byte) × ℕ :=
  encodeMessage ExecutionReportNew.codec 188 stampExecutionReport

/-- `split_eti_frame`; the handler works on a state, and one that does not return is `none`. -/
def splitEtiFrame {σ : Type*} (onMessage : σ → (ℕ → Byte) → ℕ → Option (σ × Bool)) (s : σ)
    (frame : Option (ℕ → Byte)) (len : ℕ) : Option (σ × Bool) :=
  match frame with
  | none => some (s, false)
  | some bytes =>
    if len < 8 then some (s, false)
    else
      let bodyLen := Codec.u32.get bytes
      if bodyLen = 0 ∨ len < bodyLen.toNat then some (s, false)
      else onMessage s bytes bodyLen.toNat

/-! ### Where the two fields are -/

/-- A layout that begins with `body_len` and `template_id`. -/
structure EtiLayout {α : Type} (A : Codec α) (kWireSize : ℕ) (bodyLen : α → BitVec 32)
    (templateId : α → BitVec 16) : Prop where
  size : A.size = kWireSize
  long : 8 ≤ kWireSize
  fits : kWireSize < 2 ^ 32
  bodyLen_at : ∀ a, Codec.u32.At (A.put a) 0 (bodyLen a)
  templateId_at : ∀ a, Codec.u16.At (A.put a) 4 (templateId a)

/-- The first two fields of a record. -/
theorem prod_at {β γ : Type} {A : Codec α} {B : Codec β} {C : Codec γ} (x : α × β × γ) :
    A.At ((A.prod (B.prod C)).put x) 0 x.1 ∧ B.At ((A.prod (B.prod C)).put x) A.size x.2.1 := by
  refine ⟨fun k h_k => ?_, fun k h_k => ?_⟩
  · rw [Nat.zero_add]
    exact if_pos h_k
  · have h_behind : ¬A.size + k < A.size := by omega
    have h_second : A.size + k - A.size < B.size := by omega
    calc (A.prod (B.prod C)).put x (A.size + k)
        = (B.prod C).put x.2 (A.size + k - A.size) := if_neg h_behind
      _ = B.put x.2.1 (A.size + k - A.size) := if_pos h_second
      _ = B.put x.2.1 k := by rw [Nat.add_sub_cancel_left]

theorem newOrderShort_layout : EtiLayout NewOrderSingleShort.codec 120
    NewOrderSingleShort.bodyLen NewOrderSingleShort.templateId where
  size := rfl
  long := by decide
  fits := by decide
  bodyLen_at _ := (prod_at _).1
  templateId_at _ := (prod_at _).2

theorem executionReport_layout : EtiLayout ExecutionReportNew.codec 188
    ExecutionReportNew.bodyLen ExecutionReportNew.templateId where
  size := rfl
  long := by decide
  fits := by decide
  bodyLen_at _ := (prod_at _).1
  templateId_at _ := (prod_at _).2

/-! ### A stamped message -/

section

variable {α : Type} {A : Codec α} {kWireSize len : ℕ} {bodyLen : α → BitVec 32}
  {templateId : α → BitVec 16} {kTemplateId : BitVec 16} {a : α} {mem : ℕ → Byte}

/-- The splitter hands over a message that begins with its own size, whatever is behind it. -/
theorem EtiLayout.split (h : EtiLayout A kWireSize bodyLen templateId) (h_at : A.At mem 0 a)
    (h_stamp : bodyLen a = BitVec.ofNat 32 kWireSize) (h_len : kWireSize ≤ len) {σ : Type*}
    (onMessage : σ → (ℕ → Byte) → ℕ → Option (σ × Bool)) (s : σ) :
    splitEtiFrame onMessage s (some mem) len = onMessage s mem kWireSize := by
  have h_long := h.long
  -- the size field stands at the front of the message
  have h_field : Codec.u32.At mem 0 (bodyLen a) :=
    (h.bodyLen_at a).congr (n := kWireSize)
      (fun k h_k => by simpa using h_at k (by rwa [h.size])) (le_trans (by decide) h_long)
  -- the size fits its field, so the field says the size
  have h_nat : (bodyLen a).toNat = kWireSize := by
    rw [h_stamp, BitVec.toNat_ofNat, Nat.mod_eq_of_lt h.fits]
  -- the splitter stops at a size of zero, but the message has one
  have h_pos : bodyLen a ≠ 0 := by
    intro h_zero
    rw [h_zero] at h_nat
    have h_nat_zero : (0 : BitVec 32).toNat = 0 := rfl
    omega
  simp only [splitEtiFrame, h_field.get_start]
  rw [if_neg (by omega), if_neg (by rw [h_nat]; exact not_or.mpr ⟨h_pos, by omega⟩), h_nat]

/-- The template id of a record is where the layout has it. -/
theorem EtiLayout.templateId_eq (h : EtiLayout A kWireSize bodyLen templateId)
    (h_at : A.At mem 0 a) : (Codec.u16.get fun k => mem (4 + k)) = templateId a := by
  have h_field : Codec.u16.At mem 4 (templateId a) :=
    (h.templateId_at a).congr (n := kWireSize)
      (fun k h_k => by simpa using h_at k (by rwa [h.size])) (le_trans (by decide) h.long)
  exact h_field.get_eq

theorem EtiLayout.readTemplateId (h : EtiLayout A kWireSize bodyLen templateId)
    (h_at : A.At mem 0 a) : Eti.readTemplateId (some mem) kWireSize = some (templateId a) := by
  have h_long := h.long
  simp only [Eti.readTemplateId, h.templateId_eq h_at]
  exact if_neg (by omega)

/-- A decoder accepts a record with its template id. -/
theorem EtiLayout.decode (h_at : A.At mem 0 a) (h_len : kWireSize ≤ len) (out : α) :
    decodeMessage A kWireSize templateId kTemplateId (some mem) len out =
      (templateId a == kTemplateId, a) := by
  simp only [decodeMessage, h_at.get_start]
  exact if_neg (by omega)

end

/-- **The round trip of one message.** Where there is no room for it, nothing is written.
Otherwise the record is written and nothing behind it; the splitter hands over exactly these
bytes, whatever is behind them, and of them the decoder makes `canonical`, `read_template_id`
its template id, and the other decoder nothing. -/
def FramedRoundTrip {α β : Type} (kWireSize : ℕ) (kTemplateId : BitVec 16)
    (encode : α → (ℕ → Byte) → ℕ → (ℕ → Byte) × ℕ)
    (decode : Option (ℕ → Byte) → ℕ → α → Bool × α)
    (decodeOther : Option (ℕ → Byte) → ℕ → β → Bool × β) (msg canonical : α) (dst : ℕ → Byte)
    (cap : ℕ) : Prop :=
  (cap < kWireSize → encode msg dst cap = (dst, 0)) ∧
  (kWireSize ≤ cap →
    (encode msg dst cap).2 = kWireSize ∧
    (∀ k, kWireSize ≤ k → (encode msg dst cap).1 k = dst k) ∧
    ∀ (mem : ℕ → Byte) (len : ℕ), kWireSize ≤ len →
      (∀ k < kWireSize, mem k = (encode msg dst cap).1 k) →
      (∀ (σ : Type) (onMessage : σ → (ℕ → Byte) → ℕ → Option (σ × Bool)) (s : σ),
        splitEtiFrame onMessage s (some mem) len = onMessage s mem kWireSize) ∧
      (∀ out, decode (some mem) kWireSize out = (true, canonical)) ∧
      readTemplateId (some mem) kWireSize = some kTemplateId ∧
      ∀ out, (decodeOther (some mem) kWireSize out).1 = false)

theorem framedRoundTrip {α β : Type} {A : Codec α} {kWireSize : ℕ} {bodyLen : α → BitVec 32}
    {templateId : α → BitVec 16} {kTemplateId : BitVec 16} (stamp : α → α) {msg : α}
    (h : EtiLayout A kWireSize bodyLen templateId)
    (h_len : bodyLen (stamp msg) = BitVec.ofNat 32 kWireSize)
    (h_id : templateId (stamp msg) = kTemplateId)
    {decodeOther : Option (ℕ → Byte) → ℕ → β → Bool × β}
    (h_other : ∀ mem out, A.At mem 0 (stamp msg) →
      (decodeOther (some mem) kWireSize out).1 = false) (dst : ℕ → Byte) (cap : ℕ) :
    FramedRoundTrip kWireSize kTemplateId (encodeMessage A kWireSize stamp)
      (decodeMessage A kWireSize templateId kTemplateId) decodeOther msg (stamp msg) dst cap := by
  refine ⟨fun h_cap => if_pos h_cap, fun h_cap => ?_⟩
  have h_encode : encodeMessage A kWireSize stamp msg dst cap =
      (copy dst 0 kWireSize (A.put (stamp msg)), kWireSize) := if_neg (by omega)
  rw [h_encode]
  refine ⟨rfl, fun k h_k => Wire.copy_above _ _ (by omega), fun mem len h_le h_same => ?_⟩
  -- the slice is the image of the stamped message
  have h_at : A.At mem 0 (stamp msg) := by
    have h_copy := A.at_copy dst 0 (stamp msg)
    rw [h.size] at h_copy
    exact h_copy.congr h_same (by rw [h.size, Nat.zero_add])
  refine ⟨fun σ onMessage s => h.split h_at h_len h_le onMessage s, fun out => ?_, ?_,
    fun out => h_other mem out h_at⟩
  · rw [EtiLayout.decode h_at le_rfl, h_id, beq_self_eq_true]
  · rw [h.readTemplateId h_at, h_id]

/-- **MCX round trip through framing.** For every order and every report, every buffer and every
capacity: the encoder stamps length and template id and refuses a buffer that is too short; what it
has written the splitter hands over in one piece, and the decoder gives it back with the stamps,
while the decoder of the other message refuses it. -/
theorem eti_round_trip (order : NewOrderSingleShort) (report : ExecutionReportNew)
    (dst : ℕ → Byte) (cap : ℕ) :
    FramedRoundTrip 120 10125 encodeNewOrderShort decodeNewOrderShort decodeExecutionReport order
      { order with bodyLen := 120, templateId := 10125 } dst cap ∧
    FramedRoundTrip 188 10101 encodeExecutionReport decodeExecutionReport decodeNewOrderShort report
      { report with bodyLen := 188, templateId := 10101 } dst cap := by
  constructor
  · refine framedRoundTrip stampNewOrderShort newOrderShort_layout rfl rfl ?_ dst cap
    -- an order is shorter than a report
    intro mem out h_at
    rfl
  · refine framedRoundTrip stampExecutionReport executionReport_layout rfl rfl ?_ dst cap
    -- a report is long enough for an order, but has another template id
    intro mem out h_at
    have h_report : (Codec.u16.get fun k => mem (4 + k)) = 10101 :=
      executionReport_layout.templateId_eq h_at
    rw [newOrderShort_layout.templateId_eq (NewOrderSingleShort.codec.at_get_start mem)] at h_report
    have h_decode : (decodeNewOrderShort (some mem) 188 out).1 =
        ((NewOrderSingleShort.codec.get mem).templateId == 10125) := rfl
    rw [h_decode, h_report]
    rfl

end Eti

end Hft
