import Mathlib.Data.Nat.ModEq
import Mathlib.Logic.Equiv.Defs
import Mathlib.Tactic.Ring

/-!
# Object representations

A `Codec α` is a fixed-size representation of the values of `α` by bytes: `put` gives the
byte at each offset, `get` reads a value from a memory, and the two are inverse to each
other on the first `size` offsets. Only these offsets are read (`get_congr`), so a value
read back from a memory that begins with its image is the value (`get_of_image`).

Codecs are built from unsigned little-endian integers (`uint`) and byte arrays (`chars`)
by concatenation (`prod`) and along bijections (`map`); a packed record is the codec of
the tuple of its fields.
-/

/-- A representation of the values of `α` by `size` bytes. -/
structure Codec (α : Type*) where
  size : ℕ
  put : α → ℕ → BitVec 8
  get : (ℕ → BitVec 8) → α
  get_congr : ∀ {f g : ℕ → BitVec 8}, (∀ k < size, f k = g k) → get f = get g
  get_put : ∀ a, get (put a) = a
  put_get : ∀ f, ∀ k < size, put (get f) k = f k

namespace Codec

variable {α β : Type*}

/-- Reading a memory that begins with the image of a value. -/
theorem get_of_image (A : Codec α) {a : α} {f : ℕ → BitVec 8}
    (h : ∀ k < A.size, f k = A.put a k) : A.get f = a := by
  rw [A.get_congr h, A.get_put]

/-! ### Integers -/

/-- The number with little-endian bytes `f 0, …, f (n - 1)`. -/
def leNat (f : ℕ → BitVec 8) : ℕ → ℕ
  | 0 => 0
  | n + 1 => (f 0).toNat + 256 * leNat (fun k => f (k + 1)) n

/-- Byte `k` of a number. -/
def leByte (x k : ℕ) : BitVec 8 := BitVec.ofNat 8 (x / 256 ^ k)

theorem leNat_congr {f g : ℕ → BitVec 8} {n : ℕ} (h : ∀ k < n, f k = g k) :
    leNat f n = leNat g n := by
  induction n generalizing f g with
  | zero => rfl
  | succ n ih =>
    rw [leNat, leNat, h 0 (Nat.succ_pos n), ih fun k hk => h (k + 1) (Nat.succ_lt_succ hk)]

theorem leNat_lt (f : ℕ → BitVec 8) (n : ℕ) : leNat f n < 256 ^ n := by
  induction n generalizing f with
  | zero => exact Nat.one_pos
  | succ n ih =>
    have h_rest := ih fun k => f (k + 1)
    have h_byte : (f 0).toNat < 256 := (f 0).isLt
    rw [leNat, pow_succ]
    omega

/-- The bytes of a number give back what fits in them. -/
theorem leNat_leByte (x n : ℕ) : leNat (leByte x) n = x % 256 ^ n := by
  -- the bytes after the first are those of `x / 256`
  induction n generalizing x with
  | zero => rw [pow_zero, Nat.mod_one, leNat]
  | succ n ih =>
    have h_shift : (fun k => leByte x (k + 1)) = leByte (x / 256) := by
      funext k
      rw [leByte, leByte, pow_succ', Nat.div_div_eq_div_mul]
    have h_split : x % (256 * 256 ^ n) = x % 256 + 256 * (x / 256 % 256 ^ n) := Nat.mod_mul
    have h_first : (leByte x 0).toNat = x % 256 := by
      rw [leByte, pow_zero, Nat.div_one, BitVec.toNat_ofNat]
    rw [leNat, h_shift, ih, h_first, ← h_split, ← pow_succ']

/-- The number of some bytes has these bytes. -/
theorem leByte_leNat (f : ℕ → BitVec 8) {n k : ℕ} (hk : k < n) : leByte (leNat f n) k = f k := by
  induction n generalizing f k with
  | zero => exact absurd hk (Nat.not_lt_zero k)
  | succ n ih =>
    have h_byte : (f 0).toNat < 256 := (f 0).isLt
    -- byte 0 is what is left of the number below 256
    cases k with
    | zero =>
      apply BitVec.eq_of_toNat_eq
      rw [leByte, leNat, pow_zero, Nat.div_one, BitVec.toNat_ofNat, Nat.add_mul_mod_self_left]
      exact Nat.mod_eq_of_lt h_byte
    | succ k =>
      -- the other bytes are those of the number divided by 256
      have h_div : ((f 0).toNat + 256 * leNat (fun k => f (k + 1)) n) / 256 ^ (k + 1) =
          leNat (fun k => f (k + 1)) n / 256 ^ k := by
        rw [pow_succ', ← Nat.div_div_eq_div_mul, Nat.add_mul_div_left _ _ (by norm_num),
          Nat.div_eq_of_lt h_byte, Nat.zero_add]
      rw [leByte, leNat, h_div]
      exact ih (fun k => f (k + 1)) (Nat.lt_of_succ_lt_succ hk)

/-- An unsigned or two's complement integer of `n` bytes, the least significant first. -/
def uint (n : ℕ) : Codec (BitVec (8 * n)) where
  size := n
  put x := leByte x.toNat
  get f := BitVec.ofNat (8 * n) (leNat f n)
  get_congr h := by rw [leNat_congr h]
  get_put x := by
    have h_range : (256 : ℕ) ^ n = 2 ^ (8 * n) := by rw [pow_mul]; rfl
    rw [leNat_leByte, h_range]
    apply BitVec.eq_of_toNat_eq
    rw [BitVec.toNat_ofNat, Nat.mod_mod, Nat.mod_eq_of_lt x.isLt]
  put_get f k hk := by
    have h_range : (256 : ℕ) ^ n = 2 ^ (8 * n) := by rw [pow_mul]; rfl
    rw [BitVec.toNat_ofNat, ← h_range, Nat.mod_eq_of_lt (leNat_lt f n)]
    exact leByte_leNat f hk

/-- An integer of one byte. -/
def u8 : Codec (BitVec 8) := uint 1

/-- An integer of two bytes. -/
def u16 : Codec (BitVec 16) := uint 2

/-- An integer of four bytes. -/
def u32 : Codec (BitVec 32) := uint 4

/-- An integer of eight bytes, or a floating-point number of eight bytes by its bits. -/
def u64 : Codec (BitVec 64) := uint 8

/-! ### Arrays, tuples and bijections -/

/-- An array of `n` bytes. -/
def chars (n : ℕ) : Codec (Fin n → BitVec 8) where
  size := n
  put a k := if h : k < n then a ⟨k, h⟩ else 0
  get f i := f i
  get_congr h := funext fun i => h i i.isLt
  get_put _ := funext fun i => dif_pos i.isLt
  put_get _ _ hk := dif_pos hk

/-- One value after the other. -/
def prod (A : Codec α) (B : Codec β) : Codec (α × β) where
  size := A.size + B.size
  put p k := if k < A.size then A.put p.1 k else B.put p.2 (k - A.size)
  get f := (A.get f, B.get fun k => f (A.size + k))
  get_congr {f g} h := by
    have h_left : A.get f = A.get g := A.get_congr fun k hk => h k (by omega)
    have h_right : (B.get fun k => f (A.size + k)) = B.get fun k => g (A.size + k) :=
      B.get_congr fun k hk => h (A.size + k) (by omega)
    rw [h_left, h_right]
  get_put p := by
    have h_left : (A.get fun k => if k < A.size then A.put p.1 k else B.put p.2 (k - A.size)) =
        p.1 :=
      A.get_of_image fun k hk => if_pos hk
    have h_right : (B.get fun k => if A.size + k < A.size then A.put p.1 (A.size + k)
        else B.put p.2 (A.size + k - A.size)) = p.2 := by
      apply B.get_of_image
      intro k _
      rw [if_neg (by omega), Nat.add_sub_cancel_left]
    rw [h_left, h_right]
  put_get f k hk := by
    -- the offset lies in the first value or in the second
    split
    · next h_left => exact A.put_get f k h_left
    · next h_right =>
      rw [B.put_get _ _ (by omega)]
      congr 1
      omega

/-- The representation along a bijection. -/
def map (e : α ≃ β) (A : Codec α) : Codec β where
  size := A.size
  put b := A.put (e.symm b)
  get f := e (A.get f)
  get_congr h := by rw [A.get_congr h]
  get_put b := by rw [A.get_put, e.apply_symm_apply]
  put_get f k hk := by rw [e.symm_apply_apply, A.put_get f k hk]

@[simp] theorem map_size (e : α ≃ β) (A : Codec α) : (A.map e).size = A.size := rfl

@[simp] theorem prod_size (A : Codec α) (B : Codec β) : (A.prod B).size = A.size + B.size := rfl

end Codec
