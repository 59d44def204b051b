import MpmcPipeline.Mem.Pool

/-!
# Which slot the pool's operations touch

Two questions about one call on a pool that nobody else uses.

*`acquire`.* The scan makes one `compare_exchange_weak` a slot, and a failed one moves it
on, whether the slot was taken or the exchange failed spuriously. `AcquireExact` is what a
pool promises; `acquireExact_iff` says on which slots and failures the scan keeps it.

*`release`.* The index of an address is a difference and a quotient of 64-bit numbers.
`release` here is the operation over any region: its base, its stride and its number of
slots are arguments, and `TaggedPool.release` is the instance at `sizeof(Slot)`. That no
address below the region has an index in it comes from the region's lying in the address
space: the difference wraps to a number past the region's length.
-/

namespace Hft

namespace TaggedPool

variable {P : PoolCapacity}

/-- `acquire` fails on an exhausted pool only, and otherwise returns a slot that was free
and changes no other. -/
structure AcquireExact (pool : TaggedPool P) (weak : MPMC.Weak) : Prop where
  exhausted : (pool.acquire weak).1 = none → ∀ p, (pool.slots p).state ≠ 0
  free : ∀ p, (pool.acquire weak).1 = some p → (pool.slots p).state = 0
  acquired : ∀ p, (pool.acquire weak).1 = some p → ((pool.acquire weak).2.slots p).state = 1
  others : ∀ p p', (pool.acquire weak).1 = some p → p' ≠ p →
    (pool.acquire weak).2.slots p' = pool.slots p'

/-- **When `acquire` is exact.** It is if and only if no slot is free or the exchange on some free
slot does not fail spuriously: the scan tries each slot once and does not come back to one whose
exchange has failed. -/
theorem acquireExact_iff (pool : TaggedPool P) (weak : MPMC.Weak) :
    pool.AcquireExact weak ↔
      (∀ p, (pool.slots p).state ≠ 0) ∨
        ∃ p, (pool.slots p).state = 0 ∧ weak p.val = false := by
  constructor
  · intro h_exact
    cases h_loop : acquireLoop weak pool P.val 0 with
    | none =>
      refine Or.inl (h_exact.exhausted ?_)
      simp only [acquire, h_loop]
    | some p => exact Or.inr ⟨p, acquireLoop_eq_some h_loop⟩
  · intro h_slots
    have h_some : ∀ p, (pool.acquire weak).1 = some p →
        (pool.slots p).state = 0 ∧
          (pool.acquire weak).2 = (pool.setState p 1).store p TaggedMessage.fresh :=
      fun p h => acquire_eq_some (Prod.ext h rfl : pool.acquire weak = (some p, _))
    refine ⟨fun h_none => ?_, fun p h => (h_some p h).1, fun p h => ?_, fun p p' h h_ne => ?_⟩
    · -- a scan that has failed has failed on every free slot
      rcases h_slots with h_taken | ⟨p, h_free, h_weak⟩
      · exact h_taken
      · have h_failed := acquire_failed h_none h_free
        rw [h_weak] at h_failed
        cases h_failed
    · rw [(h_some p h).2, store_state, setState_self]
    · rw [(h_some p h).2]
      exact acquired_slots_of_ne pool h_ne TaggedMessage.fresh

/-- One spurious failure makes a pool with a free slot look exhausted: the caller gets null, and the
slot is still free. -/
theorem acquire_spurious_failure :
    ¬ (fresh (fun _ => TaggedMessage.fresh) : TaggedPool onePool).AcquireExact
      (fun _ => true) := by
  intro h_exact
  have h_taken := h_exact.exhausted rfl ⟨0, onePool.pos⟩
  exact h_taken rfl

end TaggedPool

/-! ### `release` of any address -/

namespace Slots

variable {n : ℕ}

/-- `release` over `n` slots of size `stride` from address `base` on. -/
def release (slots : Fin n → Slot) (base stride message : BitVec 64) : Fin n → Slot :=
  if message = 0 then slots
  else
    let index := PoolCapacity.index_of message base stride
    if h : index.toNat < n then
      Function.update slots ⟨index.toNat, h⟩ { slots ⟨index.toNat, h⟩ with state := 0 }
    else slots

/-- The address `a` lies in slot `i`. -/
def InSlot (base stride a : BitVec 64) (i : ℕ) : Prop :=
  base.toNat + i * stride.toNat ≤ a.toNat ∧ a.toNat < base.toNat + (i + 1) * stride.toNat

/-- From the base on, the index of an address is the number of the slot it lies in. -/
theorem index_of_eq_iff {base stride a : BitVec 64} {i : ℕ} (h_stride : 0 < stride.toNat)
    (h_base : base.toNat ≤ a.toNat) :
    (PoolCapacity.index_of a base stride).toNat = i ↔ InSlot base stride a i := by
  rw [PoolCapacity.index_of, BitVec.toNat_udiv, BitVec.toNat_sub_of_le h_base,
    Nat.div_eq_iff h_stride, InSlot, Nat.add_mul]
  omega

/-- An address below the base has an index past the region. -/
theorem index_of_below {base stride a : BitVec 64} (h_stride : 0 < stride.toNat)
    (h_fits : base.toNat + n * stride.toNat ≤ 2 ^ 64) (h_below : a.toNat < base.toNat) :
    n ≤ (PoolCapacity.index_of a base stride).toNat := by
  rw [PoolCapacity.index_of, BitVec.toNat_udiv, BitVec.toNat_sub, Nat.le_div_iff_mul_le h_stride]
  -- the difference has wrapped: it is at least the distance from the base to `2 ^ 64`
  have h_wrapped : 2 ^ 64 - base.toNat + a.toNat < 2 ^ 64 := by
    have := base.isLt
    omega
  rw [Nat.mod_eq_of_lt h_wrapped]
  omega

/-- **What `release` frees.** Exactly the slot its address lies in: for an address in slot `i`,
wherever in it, the state of slot `i` and no other, and for any other address nothing. -/
theorem release_exact (slots : Fin n → Slot) {base stride : BitVec 64} (a : BitVec 64)
    (h_base : 0 < base.toNat) (h_stride : 0 < stride.toNat)
    (h_fits : base.toNat + n * stride.toNat ≤ 2 ^ 64) :
    (∀ i : Fin n, InSlot base stride a i →
      release slots base stride a = Function.update slots i { slots i with state := 0 }) ∧
    ((∀ i : Fin n, ¬ InSlot base stride a i) → release slots base stride a = slots) := by
  constructor
  · rintro i h_in
    have h_le : base.toNat ≤ a.toNat := le_trans (Nat.le_add_right _ _) h_in.1
    have h_index := (index_of_eq_iff h_stride h_le).mpr h_in
    -- the null pointer lies below the region, so in no slot
    have h_nonnull : a ≠ 0 := by
      rintro rfl
      have h_zero : (0 : BitVec 64).toNat = 0 := rfl
      omega
    have h_lt : (PoolCapacity.index_of a base stride).toNat < n := by
      rw [h_index]
      -- the index is that of the slot, so it is in range
      exact i.isLt
    have h_slot : (⟨(PoolCapacity.index_of a base stride).toNat, h_lt⟩ : Fin n) = i :=
      Fin.ext h_index
    simp only [release, if_neg h_nonnull, dif_pos h_lt, h_slot]
  · intro h_out
    by_cases h_null : a = 0
    · rw [release, if_pos h_null]
    · -- an index in range would put the address into that slot
      have h_past : ¬ (PoolCapacity.index_of a base stride).toNat < n := by
        intro h_lt
        rcases Nat.lt_or_ge a.toNat base.toNat with h_below | h_le
        · exact absurd h_lt (Nat.not_lt.mpr (index_of_below h_stride h_fits h_below))
        · exact h_out ⟨_, h_lt⟩ ((index_of_eq_iff h_stride h_le).mp rfl)
      simp only [release, if_neg h_null, dif_neg h_past]

/-- An address in the second slot of three, and one below the base. -/
theorem release_exact_three :
    (release (fun _ : Fin 3 => (⟨TaggedMessage.fresh, 1⟩ : Slot)) 64 384 500 =
      Function.update (fun _ => ⟨TaggedMessage.fresh, 1⟩) 1 ⟨TaggedMessage.fresh, 0⟩) ∧
    release (fun _ : Fin 3 => (⟨TaggedMessage.fresh, 1⟩ : Slot)) 64 384 8 =
      fun _ => ⟨TaggedMessage.fresh, 1⟩ :=
  ⟨(release_exact _ 500 (by decide) (by decide) (by decide)).1 1 ⟨by decide, by decide⟩,
    (release_exact _ 8 (by decide) (by decide) (by decide)).2
      (fun i h_in => by
        have h_le := le_trans (Nat.le_add_right _ _) h_in.1
        exact absurd h_le (by decide))⟩

end Slots

/-- `release` of the pool is `release` over its region. -/
theorem TaggedPool.release_slots {P : PoolCapacity} (pool : TaggedPool P) (message : BitVec 64) :
    (pool.release message).slots =
      Slots.release pool.slots P.base (BitVec.ofNat 64 sizeofSlot) message := by
  unfold TaggedPool.release Slots.release
  split
  · rfl
  · dsimp only
    split
    · rfl
    · rfl

end Hft
