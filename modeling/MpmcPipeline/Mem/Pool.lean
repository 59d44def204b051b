import Mathlib.Data.Fintype.Card
import MpmcPipeline.Mpmc.Ring
import MpmcPipeline.Proto.Layouts

/-!
# `TaggedPool`

A pool (`memory_pool.hpp`) is an array of `Capacity` slots, each a message body and a
state byte, 0 for free and 1 for acquired. `acquire` scans the slots for one whose state
it can change from 0 to 1 and clears the body; `release` finds the slot of an address by
division and stores 0. Nothing else synchronizes: the bodies are plain memory owned by
the holder of the pointer.

A pointer into the pool is the number of its slot (`Ptr`) and `PoolCapacity.address` is
its address; `index_of` undoes it, so `release` of a pointer into the pool frees exactly
that slot (`release_address`).

This file has the operations as one thread computes them alone; the interleaved
semantics, with every payload byte a step of its own, is in `Mem/Handoff.lean`.
-/

namespace Hft

/-- `sizeof(Slot)`: the message is 64 + 242 bytes, padded to a multiple of 64, and the
state byte has a cache line of its own. -/
def sizeofSlot : ℕ := 384

/-- The template parameter `std::size_t Capacity` and the region the slots are mapped
at, which lies in the address space. -/
structure PoolCapacity where
  val : ℕ
  /-- `requires(Capacity > 0)` -/
  pos : 0 < val
  base : BitVec 64
  fits : base.toNat + val * sizeofSlot ≤ 2 ^ 64
  nonnull : base ≠ 0

/-- A pointer to a message of the pool. -/
abbrev Ptr (P : PoolCapacity) := Fin P.val

/-- `Slot`; `state` is 0 for free and 1 for acquired. -/
@[ext] structure Slot where
  message : TaggedMessage
  state : Byte

/-- `TaggedPool<Capacity>` -/
@[ext] structure TaggedPool (P : PoolCapacity) where
  slots : Ptr P → Slot

namespace PoolCapacity

variable (P : PoolCapacity)

/-- `&slots_[p].message` -/
def address (p : Ptr P) : BitVec 64 := P.base + BitVec.ofNat 64 (p.val * sizeofSlot)

/-- `detail::index_of` -/
def index_of (slot base : BitVec 64) (slot_stride : BitVec 64) : BitVec 64 :=
  (slot - base) / slot_stride

theorem address_toNat (p : Ptr P) :
    (P.address p).toNat = P.base.toNat + p.val * sizeofSlot := by
  -- the region lies in the address space, so the sum does not wrap
  have h_fits := P.fits
  have h_p : p.val * sizeofSlot + sizeofSlot ≤ P.val * sizeofSlot := by
    rw [← Nat.succ_mul]
    exact Nat.mul_le_mul_right _ p.isLt
  have h_slot : 0 < sizeofSlot := by decide
  rw [address, BitVec.toNat_add, BitVec.toNat_ofNat,
    Nat.mod_eq_of_lt (by omega : p.val * sizeofSlot < 2 ^ 64), Nat.mod_eq_of_lt (by omega)]

theorem address_ne_zero (p : Ptr P) : P.address p ≠ 0 := by
  intro h_zero
  have h_nat := congrArg BitVec.toNat h_zero
  rw [address_toNat] at h_nat
  have h_nat_zero : (0 : BitVec 64).toNat = 0 := rfl
  apply P.nonnull
  apply BitVec.eq_of_toNat_eq
  omega

/-- The index of an address of the pool is its slot. -/
theorem index_of_address (p : Ptr P) :
    (index_of (P.address p) P.base (BitVec.ofNat 64 sizeofSlot)).toNat = p.val := by
  have h_offset : P.address p - P.base = BitVec.ofNat 64 (p.val * sizeofSlot) := by
    rw [address, BitVec.add_comm, BitVec.add_sub_cancel]
  have h_fits := P.fits
  have h_p : p.val * sizeofSlot ≤ P.val * sizeofSlot := Nat.mul_le_mul_right _ p.isLt.le
  -- the base is not null, so the last slot ends below `2 ^ 64`
  have h_base : 0 < P.base.toNat := by
    rw [Nat.pos_iff_ne_zero]
    intro h_zero
    exact P.nonnull (BitVec.eq_of_toNat_eq h_zero)
  rw [index_of, h_offset, BitVec.toNat_udiv, BitVec.toNat_ofNat, BitVec.toNat_ofNat,
    Nat.mod_eq_of_lt (by omega : p.val * sizeofSlot < 2 ^ 64)]
  exact Nat.mul_div_cancel _ (by decide)

end PoolCapacity

/-- A pool of one slot. -/
def onePool : PoolCapacity := ⟨1, by decide, 64, by decide, by decide⟩

/-- A pool of three slots. -/
def threePool : PoolCapacity := ⟨3, by decide, 64, by decide, by decide⟩

/-- A pool of two slots. -/
def twoPool : PoolCapacity := ⟨2, Nat.two_pos, 64, by decide, by decide⟩

namespace TaggedPool

variable {P : PoolCapacity}

/-- The constructed pool: every slot free. The bodies are whatever was mapped. -/
def fresh (message : Ptr P → TaggedMessage) : TaggedPool P := ⟨fun p => ⟨message p, 0⟩⟩

/-- Overwrite one slot. -/
def set (pool : TaggedPool P) (p : Ptr P) (slot : Slot) : TaggedPool P :=
  ⟨Function.update pool.slots p slot⟩

@[simp] theorem set_self (pool : TaggedPool P) (p : Ptr P) (slot : Slot) :
    (pool.set p slot).slots p = slot := Function.update_self ..

theorem set_of_ne (pool : TaggedPool P) {p p' : Ptr P} (h : p' ≠ p) (slot : Slot) :
    (pool.set p slot).slots p' = pool.slots p' := Function.update_of_ne h ..

/-- The message a pointer points to. -/
def load (pool : TaggedPool P) (p : Ptr P) : TaggedMessage := (pool.slots p).message

/-- Overwrite the message a pointer points to. -/
def store (pool : TaggedPool P) (p : Ptr P) (message : TaggedMessage) : TaggedPool P :=
  pool.set p { pool.slots p with message }

@[simp] theorem load_store (pool : TaggedPool P) (p : Ptr P) (m : TaggedMessage) :
    (pool.store p m).load p = m := by
  simp only [load, store, set_self]

theorem load_store_of_ne (pool : TaggedPool P) {p p' : Ptr P} (h : p' ≠ p)
    (m : TaggedMessage) : (pool.store p m).load p' = pool.load p' := by
  simp only [load, store, set_of_ne pool h]

theorem store_store (pool : TaggedPool P) (p : Ptr P) (m m' : TaggedMessage) :
    (pool.store p m).store p m' = pool.store p m' := by
  simp only [store, set, Function.update_self, Function.update_idem]

/-- Writing back what is there. -/
theorem store_load (pool : TaggedPool P) (p : Ptr P) : pool.store p (pool.load p) = pool := by
  rw [store, load, set, Function.update_eq_self]

/-- Writing a message leaves every state byte. -/
@[simp] theorem store_state (pool : TaggedPool P) (p p' : Ptr P) (m : TaggedMessage) :
    ((pool.store p m).slots p').state = (pool.slots p').state := by
  by_cases h : p' = p
  · subst h
    simp only [store, set_self]
  · simp only [store, set_of_ne pool h]

/-- The state byte of a slot is overwritten. -/
def setState (pool : TaggedPool P) (p : Ptr P) (state : Byte) : TaggedPool P :=
  pool.set p { pool.slots p with state }

@[simp] theorem setState_self (pool : TaggedPool P) (p : Ptr P) (state : Byte) :
    ((pool.setState p state).slots p).state = state := by
  simp only [setState, set_self]

theorem setState_of_ne (pool : TaggedPool P) {p p' : Ptr P} (h : p' ≠ p) (state : Byte) :
    ((pool.setState p state).slots p').state = (pool.slots p').state := by
  simp only [setState, set_of_ne pool h]

@[simp] theorem setState_load (pool : TaggedPool P) (p p' : Ptr P) (state : Byte) :
    (pool.setState p state).load p' = pool.load p' := by
  by_cases h : p' = p
  · subst h
    simp only [load, setState, set_self]
  · simp only [load, setState, set_of_ne pool h]

/-! ### The operations -/

/-- The scan of `acquire`: the slots from number `i` on, `left` of them, each tried with
one `compare_exchange_weak(0, 1)`. -/
def acquireLoop (weak : MPMC.Weak) (pool : TaggedPool P) : ℕ → ℕ → Option (Ptr P)
  | 0, _ => none
  | left + 1, i =>
    if h : i < P.val then
      -- a failed exchange, spurious or not, moves on to the next slot
      if (pool.slots ⟨i, h⟩).state = 0 ∧ weak i = false then some ⟨i, h⟩
      else acquireLoop weak pool left (i + 1)
    else none

/-- `acquire` -/
def acquire (weak : MPMC.Weak) (pool : TaggedPool P) : Option (Ptr P) × TaggedPool P :=
  match acquireLoop weak pool P.val 0 with
  | none => (none, pool)
  -- the body of the claimed slot is cleared after the exchange
  | some p => (some p, (pool.setState p 1).store p TaggedMessage.fresh)

/-- `acquire_filled` -/
def acquireFilled {α : Type} [WireMessage α] (weak : MPMC.Weak) (pool : TaggedPool P) (src : α) :
    Option (Ptr P) × TaggedPool P :=
  match pool.acquire weak with
  | (none, pool) => (none, pool)
  | (some slot, pool) => (some slot, pool.store slot ((pool.load slot).fill src))

/-- `release` of an address. -/
def release (pool : TaggedPool P) (message : BitVec 64) : TaggedPool P :=
  if message = 0 then pool
  else
    -- an address below the pool wraps to an index past its end
    let index := PoolCapacity.index_of message P.base (BitVec.ofNat 64 sizeofSlot)
    if h : index.toNat < P.val then pool.setState ⟨index.toNat, h⟩ 0 else pool

/-- `release` of a pointer of the pool frees its slot. -/
theorem release_address (pool : TaggedPool P) (p : Ptr P) :
    pool.release (P.address p) = pool.setState p 0 := by
  have h_index := P.index_of_address p
  have h_lt : (PoolCapacity.index_of (P.address p) P.base
      (BitVec.ofNat 64 sizeofSlot)).toNat < P.val := by
    rw [h_index]
    exact p.isLt
  rw [release, if_neg (P.address_ne_zero p)]
  simp only [dif_pos h_lt]
  congr 1
  exact Fin.ext h_index

/-- What a successful scan has found: a free slot whose exchange has not failed. -/
theorem acquireLoop_eq_some {weak : MPMC.Weak} {pool : TaggedPool P} {left i : ℕ}
    {p : Ptr P} (h : acquireLoop weak pool left i = some p) :
    (pool.slots p).state = 0 ∧ weak p.val = false := by
  induction left generalizing i with
  | zero => simp [acquireLoop] at h
  | succ left ih =>
    rw [acquireLoop] at h
    split at h
    · next h_lt =>
      -- the scan is at slot `i`, if there is one
      split at h
      · next h_free =>
        obtain rfl := Option.some.inj h
        exact h_free
      · exact ih h
    · exact absurd h (by simp)

/-- A slot that is acquired was free; it is marked and its body is cleared. -/
theorem acquire_eq_some {weak : MPMC.Weak} {pool pool' : TaggedPool P} {p : Ptr P}
    (h : pool.acquire weak = (some p, pool')) :
    (pool.slots p).state = 0 ∧ pool' = (pool.setState p 1).store p TaggedMessage.fresh := by
  simp only [acquire] at h
  cases h_loop : acquireLoop weak pool P.val 0 with
  | none => simp [h_loop] at h
  | some p' =>
    simp only [h_loop, Prod.mk.injEq, Option.some.injEq] at h
    obtain ⟨rfl, rfl⟩ := h
    exact ⟨(acquireLoop_eq_some h_loop).1, rfl⟩

theorem acquire_eq_none {weak : MPMC.Weak} {pool pool' : TaggedPool P}
    (h : pool.acquire weak = (none, pool')) : pool' = pool := by
  simp only [acquire] at h
  cases h_loop : acquireLoop weak pool P.val 0 with
  | none =>
    simp only [h_loop, Prod.mk.injEq, true_and] at h
    exact h.symm
  | some p => simp [h_loop] at h

/-- A scan that finds nothing has failed on every free slot it passed. -/
theorem acquireLoop_eq_none {weak : MPMC.Weak} {pool : TaggedPool P} {left i : ℕ}
    (h : acquireLoop weak pool left i = none) {p : Ptr P} (h_i : i ≤ p.val)
    (h_left : p.val < i + left) (h_free : (pool.slots p).state = 0) : weak p.val = true := by
  induction left generalizing i with
  | zero => omega
  | succ left ih =>
    rw [acquireLoop, dif_pos (by have := p.isLt; omega)] at h
    split at h
    · cases h
    · next h_failed =>
      obtain h_eq | h_lt := Nat.eq_or_lt_of_le h_i
      · -- the slot the scan is at
        have h_p : (⟨i, h_eq ▸ p.isLt⟩ : Ptr P) = p := Fin.ext h_eq
        rw [h_p, h_eq, not_and, Bool.not_eq_false] at h_failed
        exact h_failed h_free
      · exact ih h h_lt (by omega)

/-- An `acquire` that fails has failed on every free slot. -/
theorem acquire_failed {weak : MPMC.Weak} {pool : TaggedPool P}
    (h : (pool.acquire weak).1 = none) {p : Ptr P} (h_free : (pool.slots p).state = 0) :
    weak p.val = true := by
  unfold acquire at h
  split at h
  · next h_loop =>
    exact acquireLoop_eq_none h_loop (Nat.zero_le _) (by have := p.isLt; omega) h_free
  · cases h

/-- A strong `acquire` fails on an exhausted pool only. -/
theorem acquire_strong_eq_none {pool pool' : TaggedPool P}
    (h : pool.acquire MPMC.strong = (none, pool')) (p : Ptr P) : (pool.slots p).state ≠ 0 := by
  intro h_free
  have h_weak := acquire_failed (congrArg Prod.fst h) h_free
  cases h_weak

/-- The number of free slots. -/
def free (pool : TaggedPool P) : ℕ :=
  (Finset.univ.filter fun p => (pool.slots p).state = 0).card

theorem free_eq_zero_iff {pool : TaggedPool P} :
    pool.free = 0 ↔ ∀ p, (pool.slots p).state ≠ 0 := by
  rw [free, Finset.card_eq_zero, Finset.filter_eq_empty_iff]
  exact ⟨fun h p => h (Finset.mem_univ p), fun h p _ => h p⟩

/-- Acquiring a slot and writing to it changes no other. -/
theorem acquired_slots_of_ne (pool : TaggedPool P) {p p' : Ptr P} (h : p' ≠ p)
    (m : TaggedMessage) : ((pool.setState p 1).store p m).slots p' = pool.slots p' := by
  rw [store, set_of_ne _ h, setState, set_of_ne _ h]

/-- Marking a free slot takes one from the free ones, whatever is stored in it. -/
theorem free_acquired {pool : TaggedPool P} {p : Ptr P} (h : (pool.slots p).state = 0)
    (m : TaggedMessage) : ((pool.setState p 1).store p m).free + 1 = pool.free := by
  -- the slots free afterwards are those free before, but for `p`
  have h_erase : (Finset.univ.filter fun q => (((pool.setState p 1).store p m).slots q).state = 0) =
      (Finset.univ.filter fun q => (pool.slots q).state = 0).erase p := by
    ext q
    rw [Finset.mem_erase, Finset.mem_filter, Finset.mem_filter, store_state]
    by_cases h_q : q = p
    · subst h_q
      rw [setState_self]
      simp
    · rw [setState_of_ne pool h_q]
      simp [h_q]
  have h_mem : p ∈ Finset.univ.filter fun q => (pool.slots q).state = 0 :=
    Finset.mem_filter.mpr ⟨Finset.mem_univ p, h⟩
  rw [free, h_erase, Finset.card_erase_add_one h_mem, free]

/-- `acquire_filled` is `acquire` with the record in the message. -/
theorem acquireFilled_eq_some {α : Type} [WireMessage α] {weak : MPMC.Weak} {src : α}
    {pool pool' : TaggedPool P} {p : Ptr P} (h : pool.acquireFilled weak src = (some p, pool')) :
    (pool.slots p).state = 0 ∧
      pool' = (pool.setState p 1).store p (TaggedMessage.fresh.fill src) := by
  unfold acquireFilled at h
  split at h
  · cases h
  · next h_acquire =>
    cases h
    obtain ⟨h_free, rfl⟩ := acquire_eq_some h_acquire
    -- two writes to the same body: the clearing one is overwritten
    exact ⟨h_free, by rw [store_store, load_store]⟩

theorem acquireFilled_eq_none {α : Type} [WireMessage α] {weak : MPMC.Weak} {src : α}
    {pool pool' : TaggedPool P} (h : pool.acquireFilled weak src = (none, pool')) :
    pool' = pool := by
  unfold acquireFilled at h
  split at h
  · next h_acquire =>
    cases h
    exact acquire_eq_none h_acquire
  · cases h

theorem acquireFilled_strong_eq_none {α : Type} [WireMessage α] {src : α}
    {pool pool' : TaggedPool P} (h : pool.acquireFilled MPMC.strong src = (none, pool')) :
    pool.free = 0 := by
  unfold acquireFilled at h
  split at h
  · next h_acquire => exact free_eq_zero_iff.mpr (acquire_strong_eq_none h_acquire)
  · cases h

end TaggedPool

end Hft
