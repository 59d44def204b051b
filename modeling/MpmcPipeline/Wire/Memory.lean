import MpmcPipeline.Wire.Codec

/-!
# Bytes in memory

A memory gives the byte at each offset, and `copy` is `memcpy` into it. `Codec.At` says that
the image of a value begins at an offset, and `StringAt` that a length byte does, with so many
characters behind it.

A copy puts its source where it says and leaves the rest as it was, so what is at an offset
is still there after a copy elsewhere (`Codec.At.congr`, `StringAt.congr`), and what is read
where the image of a value is, is the value (`Codec.At.get_eq`). Two memories that have the
same there agree there (`Codec.At.agree`, `StringAt.agree`).
-/

namespace Wire

variable {f g src : ℕ → BitVec 8} {offset n k : ℕ}

/-- `memcpy(dst + offset, src, n)` -/
def copy (dst : ℕ → BitVec 8) (offset n : ℕ) (src : ℕ → BitVec 8) : ℕ → BitVec 8 :=
  fun k => if offset ≤ k ∧ k < offset + n then src (k - offset) else dst k

theorem copy_inside (dst : ℕ → BitVec 8) (offset : ℕ) (src : ℕ → BitVec 8) (h : k < n) :
    copy dst offset n src (offset + k) = src k := by
  rw [copy, if_pos ⟨by omega, by omega⟩, Nat.add_sub_cancel_left]

theorem copy_below (dst : ℕ → BitVec 8) (n : ℕ) (src : ℕ → BitVec 8) (h : k < offset) :
    copy dst offset n src k = dst k :=
  if_neg (by omega)

theorem copy_above (dst src : ℕ → BitVec 8) (h : offset + n ≤ k) :
    copy dst offset n src k = dst k :=
  if_neg (by omega)

/-- A length byte at an offset, and so many bytes behind it. -/
structure StringAt (f : ℕ → BitVec 8) (offset : ℕ) (len : BitVec 8) (bytes : ℕ → BitVec 8) :
    Prop where
  len_eq : f offset = len
  byte_eq : ∀ k < len.toNat, f (offset + 1 + k) = bytes k

theorem StringAt.congr {len : BitVec 8} {bytes : ℕ → BitVec 8} (h : StringAt f offset len bytes)
    (h_same : ∀ k < n, g k = f k) (h_le : offset + 1 + len.toNat ≤ n) :
    StringAt g offset len bytes := by
  refine ⟨(h_same _ (by omega)).trans h.len_eq, fun k h_k => ?_⟩
  rw [h_same _ (by omega)]
  exact h.byte_eq k h_k

/-- Two memories with one string at an offset agree there. -/
theorem StringAt.agree {len : BitVec 8} {bytes : ℕ → BitVec 8} (h : StringAt f offset len bytes)
    (h' : StringAt g offset len bytes) (h_from : offset ≤ k) (h_to : k < offset + 1 + len.toNat) :
    f k = g k := by
  rcases Nat.eq_or_lt_of_le h_from with rfl | h_behind
  · rw [h.len_eq, h'.len_eq]
  · have h_k := h.byte_eq (k - (offset + 1)) (by omega)
    rw [← h'.byte_eq (k - (offset + 1)) (by omega), Nat.add_sub_cancel' h_behind] at h_k
    exact h_k

/-- A length byte and the bytes, written one after the other. -/
theorem stringAt_copy (dst : ℕ → BitVec 8) (offset : ℕ) (len : BitVec 8)
    (bytes : ℕ → BitVec 8) :
    StringAt (copy (Function.update dst offset len) (offset + 1) len.toNat bytes) offset len
      bytes := by
  refine ⟨?_, fun k h_k => copy_inside _ _ _ h_k⟩
  rw [copy_below _ _ _ (Nat.lt_succ_self offset), Function.update_self]

end Wire

namespace Codec

open Wire (copy copy_inside)

variable {α : Type*} {A : Codec α} {a : α} {f g : ℕ → BitVec 8} {offset n : ℕ}

/-- The image of a value begins at an offset. -/
def At (A : Codec α) (f : ℕ → BitVec 8) (offset : ℕ) (a : α) : Prop :=
  ∀ k < A.size, f (offset + k) = A.put a k

theorem At.get_eq (h : A.At f offset a) : A.get (fun k => f (offset + k)) = a :=
  A.get_of_image h

theorem At.get_start (h : A.At f 0 a) : A.get f = a := by
  apply A.get_of_image
  intro k h_k
  rw [← h k h_k, Nat.zero_add]

/-- What is read at an offset is there. -/
theorem at_get (A : Codec α) (f : ℕ → BitVec 8) (offset : ℕ) :
    A.At f offset (A.get fun k => f (offset + k)) :=
  fun k h_k => (A.put_get (fun k => f (offset + k)) k h_k).symm

theorem at_get_start (A : Codec α) (f : ℕ → BitVec 8) : A.At f 0 (A.get f) := by
  intro k h_k
  rw [Nat.zero_add, A.put_get f k h_k]

/-- Two memories with the image of one value at an offset agree there. -/
theorem At.agree (h : A.At f offset a) (h' : A.At g offset a) {k : ℕ} (h_from : offset ≤ k)
    (h_to : k < offset + A.size) : f k = g k := by
  have h_k := h (k - offset) (by omega)
  rw [← h' (k - offset) (by omega), Nat.add_sub_cancel' h_from] at h_k
  exact h_k

theorem at_copy (A : Codec α) (dst : ℕ → BitVec 8) (offset : ℕ) (a : α) :
    A.At (copy dst offset A.size (A.put a)) offset a :=
  fun _ h_k => copy_inside _ _ _ h_k

theorem At.congr (h : A.At f offset a) (h_same : ∀ k < n, g k = f k)
    (h_le : offset + A.size ≤ n) : A.At g offset a :=
  fun k h_k => (h_same _ (by omega)).trans (h k h_k)

end Codec
