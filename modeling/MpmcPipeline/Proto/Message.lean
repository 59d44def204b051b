import Mathlib.Data.Fintype.Basic
import Mathlib.Data.Fintype.Pi

/-!
# Kinds and tagged messages

A `TaggedMessage` (`protocols.hpp`) is a `Kind` and a buffer as long as the longest wire
message. `Kind` is a scoped enumeration over `std::uint8_t`: the thirteen enumerators
have names, and a field of the type can hold every other byte as well
(`Kind.unnamed`), so that `Kind.toByte` and `Kind.ofByte` are inverse to each other.
-/

namespace Hft

/-- `std::byte`, `std::uint8_t` and `char` -/
abbrev Byte := BitVec 8

/-- The bytes that are no enumerator of `Kind`. -/
abbrev UnnamedByte := { b : Byte // b = 0 ∨ 13 < b.toNat }

/-- `enum class Kind : std::uint8_t` -/
inductive Kind
  | itch
  | ouch
  | mtbt
  | nnf
  | signal
  | sbeMarket
  | sbeOrderEntry
  | sbeFastOrder
  | ouchConfirm
  | nnfConfirm
  | mcxMarket
  | mcxOrder
  | mcxConfirm
  | unnamed (b : UnnamedByte)
  deriving DecidableEq

namespace Kind

/-- The underlying value. -/
def toByte : Kind → Byte
  | itch => 1
  | ouch => 2
  | mtbt => 3
  | nnf => 4
  | signal => 5
  | sbeMarket => 6
  | sbeOrderEntry => 7
  | sbeFastOrder => 8
  | ouchConfirm => 9
  | nnfConfirm => 10
  | mcxMarket => 11
  | mcxOrder => 12
  | mcxConfirm => 13
  | unnamed b => b.val

/-- The enumeration value of a byte. -/
def ofByte (b : Byte) : Kind :=
  if h : b = 0 ∨ 13 < b.toNat then unnamed ⟨b, h⟩
  else if b = 1 then itch
  else if b = 2 then ouch
  else if b = 3 then mtbt
  else if b = 4 then nnf
  else if b = 5 then signal
  else if b = 6 then sbeMarket
  else if b = 7 then sbeOrderEntry
  else if b = 8 then sbeFastOrder
  else if b = 9 then ouchConfirm
  else if b = 10 then nnfConfirm
  else if b = 11 then mcxMarket
  else if b = 12 then mcxOrder
  else mcxConfirm

@[simp] theorem ofByte_toByte (k : Kind) : ofByte k.toByte = k := by
  cases k with
  | unnamed b => exact dif_pos b.property
  | _ => decide

@[simp] theorem toByte_ofByte (b : Byte) : (ofByte b).toByte = b := by
  by_cases h_unnamed : b = 0 ∨ 13 < b.toNat
  · simp only [ofByte, dif_pos h_unnamed, toByte]
  · have h_all : ∀ b : Byte, ¬(b = 0 ∨ 13 < b.toNat) → (ofByte b).toByte = b := by decide
    exact h_all b h_unnamed

/-- `slot_size` -/
def slotSize : Kind → ℕ
  | itch => 36
  | ouch => 45
  | mtbt => 26
  | nnf => 136
  | signal => 39
  | sbeMarket => 115
  | sbeOrderEntry => 242
  | sbeFastOrder => 126
  | ouchConfirm => 66
  | nnfConfirm => 100
  | mcxMarket => 56
  | mcxOrder => 120
  | mcxConfirm => 188
  | unnamed _ => 0

end Kind

/-- `max_slot_size()` -/
def maxSlotSize : ℕ := 242

/-- Every message fits the buffer. -/
theorem Kind.slotSize_le (k : Kind) : k.slotSize ≤ maxSlotSize := by
  cases k with
  | unnamed b => exact Nat.zero_le _
  | _ => decide

/-- `TaggedMessage` -/
@[ext] structure TaggedMessage where
  kind : Kind
  bytes : Fin maxSlotSize → Byte

/-- The constructed message: `Kind::itch` and zero bytes. -/
def TaggedMessage.fresh : TaggedMessage := ⟨.itch, fun _ => 0⟩

/-- The plain write of one payload byte. -/
def TaggedMessage.setByte (m : TaggedMessage) (k : Fin maxSlotSize) (b : Byte) :
    TaggedMessage :=
  { m with bytes := Function.update m.bytes k b }

@[simp] theorem TaggedMessage.setByte_kind (m : TaggedMessage) (k : Fin maxSlotSize)
    (b : Byte) : (m.setByte k b).kind = m.kind := rfl

@[simp] theorem TaggedMessage.setByte_self (m : TaggedMessage) (k : Fin maxSlotSize)
    (b : Byte) : (m.setByte k b).bytes k = b := Function.update_self ..

theorem TaggedMessage.setByte_of_ne (m : TaggedMessage) {k j : Fin maxSlotSize}
    (h : j ≠ k) (b : Byte) : (m.setByte k b).bytes j = m.bytes j := Function.update_of_ne h ..

end Hft
