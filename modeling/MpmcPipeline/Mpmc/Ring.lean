import Mathlib.Data.Fin.Basic
import Mathlib.Data.Nat.ModEq
import Mathlib.Logic.Function.Basic
import Mathlib.Tactic.Ring

/-!
# The ring of `MPMC` and its three operations

`MPMC<Capacity>` (`mpmc.hpp`) is an array of `Capacity` cells, each an atomic pointer
(`nullptr` for an empty cell), and two atomic `int` cursors. The cursors are only
hints: `push` and `pop` take the cell their `fetch_add` names and then probe forward,
cyclically, until a cell is empty (`push`) or full (`pop`); `try_pop` probes every cell
once from the cursor it has loaded and stores the cursor past the cell it emptied.

A message pointer is an element of an arbitrary type `α`, a cell is an `Option α` with
`none` for `nullptr`. A cursor is a 32-bit two's complement `int` whose `fetch_add`
wraps; `Capacity.index` is the masking `cursor & kMask`.

This file has the operations as one thread computes them without interference. The two
unbounded probe loops take `fuel` and return `none` when it runs out;
`compare_exchange_weak` may fail on an empty cell, which the oracle `weak` decides
(`weak k` for the `k`-th attempt of the call; `strong` never fails). The interleaved
semantics of the same operations is in `Mpmc/Steps.lean`.
-/

namespace Hft

/-- The template parameter `int Capacity` with its `requires` clause, for capacities of
at least one cell. -/
structure Capacity where
  val : ℕ
  pos : 0 < val
  /-- The parameter is an `int`. -/
  lt : val < 2 ^ 31
  /-- `requires((Capacity & (Capacity - 1)) == 0)` -/
  requires_pow2 : val &&& (val - 1) = 0

namespace Capacity

variable (C : Capacity)

/-- An `int` slot number masked with `kMask = Capacity - 1`. -/
def index (i : BitVec 32) : Fin C.val :=
  ⟨(i &&& BitVec.ofNat 32 (C.val - 1)).toNat, by
    have h_le : (i &&& BitVec.ofNat 32 (C.val - 1)).toNat ≤ C.val - 1 := by
      rw [BitVec.toNat_and, BitVec.toNat_ofNat]
      exact le_trans Nat.and_le_right (Nat.mod_le _ _)
    have := C.pos
    omega⟩

/-- The next probe: `slot = (slot + 1) & kMask`. -/
def next (slot : Fin C.val) : Fin C.val := C.index (BitVec.ofNat 32 slot + 1)

theorem exists_pow : ∃ k ≤ 30, C.val = 2 ^ k := by
  obtain ⟨k, hk⟩ :=
    (Nat.and_sub_one_eq_zero_iff_isPowerOfTwo C.pos.ne').mp C.requires_pow2
  refine ⟨k, ?_, hk⟩
  have h_lt := C.lt
  rw [hk] at h_lt
  have := (Nat.pow_lt_pow_iff_right (by norm_num)).mp h_lt
  omega

/-- A capacity divides the range of a cursor, so masking survives the wraparound. -/
theorem dvd_two_pow : C.val ∣ 2 ^ 32 := by
  obtain ⟨k, hk, h_eq⟩ := C.exists_pow
  rw [h_eq]
  exact pow_dvd_pow 2 (by omega)

/-- Masking is reduction modulo the capacity. -/
theorem index_val (i : BitVec 32) : (C.index i).val = i.toNat % C.val := by
  -- a capacity is `2 ^ k`, so `kMask` has its low `k` bits set
  obtain ⟨k, hk, h_eq⟩ := C.exists_pow
  have h_lt : C.val - 1 < 2 ^ 32 := by have := C.lt; omega
  simp only [index, BitVec.toNat_and, BitVec.toNat_ofNat, Nat.mod_eq_of_lt h_lt]
  rw [h_eq, Nat.and_two_pow_sub_one_eq_mod]

/-- Masking a sum of an `int` and a natural number, however the sum wraps. -/
theorem index_add_val (i : BitVec 32) (n : ℕ) :
    (C.index (i + BitVec.ofNat 32 n)).val = ((C.index i).val + n) % C.val := by
  rw [index_val, index_val, BitVec.toNat_add, BitVec.toNat_ofNat, Nat.add_mod_mod,
    Nat.mod_mod_of_dvd _ C.dvd_two_pow, Nat.mod_add_mod]

theorem next_val (slot : Fin C.val) : (C.next slot).val = (slot.val + 1) % C.val := by
  have h_lt : slot.val < 2 ^ 32 := by
    have := slot.isLt
    have := C.lt
    omega
  have h_one : (1 : BitVec 32) = BitVec.ofNat 32 1 := rfl
  rw [next, h_one, index_add_val, index_val, BitVec.toNat_ofNat, Nat.mod_eq_of_lt h_lt,
    Nat.mod_eq_of_lt slot.isLt]

/-- Masking an already masked slot number gives it back. -/
@[simp] theorem index_ofNat (slot : Fin C.val) : C.index (BitVec.ofNat 32 slot) = slot := by
  have h_lt : slot.val < 2 ^ 32 := by
    have := slot.isLt
    have := C.lt
    omega
  apply Fin.ext
  rw [index_val, BitVec.toNat_ofNat, Nat.mod_eq_of_lt h_lt, Nat.mod_eq_of_lt slot.isLt]

/-- The cell `n` steps, cyclically, after `i`. -/
def advance (i : Fin C.val) (n : ℕ) : Fin C.val := ⟨(i.val + n) % C.val, Nat.mod_lt _ C.pos⟩

@[simp] theorem advance_zero (i : Fin C.val) : C.advance i 0 = i :=
  Fin.ext (Nat.mod_eq_of_lt i.isLt)

@[simp] theorem advance_one (i : Fin C.val) : C.advance i 1 = C.next i :=
  Fin.ext (C.next_val i).symm

theorem index_add (i : BitVec 32) (n : ℕ) :
    C.index (i + BitVec.ofNat 32 n) = C.advance (C.index i) n :=
  Fin.ext (C.index_add_val i n)

@[simp] theorem index_succ (i : BitVec 32) : C.index (i + 1#32) = C.next (C.index i) := by
  rw [index_add, advance_one]

@[simp] theorem advance_advance (i : Fin C.val) (n k : ℕ) :
    C.advance (C.advance i n) k = C.advance i (n + k) := by
  apply Fin.ext
  simp only [advance, Nat.mod_add_mod, Nat.add_assoc]

theorem next_advance (i : Fin C.val) (n : ℕ) :
    C.next (C.advance i n) = C.advance i (n + 1) := by
  rw [← advance_one, advance_advance]

theorem advance_next (i : Fin C.val) (n : ℕ) :
    C.advance (C.next i) n = C.advance i (n + 1) := by
  rw [← advance_one, advance_advance, Nat.add_comm]

@[simp] theorem advance_val (i : Fin C.val) : C.advance i C.val = i := by
  apply Fin.ext
  simp only [advance, Nat.add_mod_right]
  exact Nat.mod_eq_of_lt i.isLt

/-- The first `Capacity` cells after `i` are pairwise distinct. -/
theorem advance_injective (i : Fin C.val) {n k : ℕ} (hn : n < C.val) (hk : k < C.val)
    (h : C.advance i n = C.advance i k) : n = k := by
  have h_mod : (i.val + n) ≡ (i.val + k) [MOD C.val] := congrArg Fin.val h
  have h_eq : n ≡ k [MOD C.val] := Nat.ModEq.add_left_cancel' _ h_mod
  rw [Nat.ModEq, Nat.mod_eq_of_lt hn, Nat.mod_eq_of_lt hk] at h_eq
  exact h_eq

/-- Every cell is among the first `Capacity` cells after `i`. -/
theorem exists_advance (i j : Fin C.val) : ∃ n < C.val, C.advance i n = j := by
  refine ⟨(j.val + (C.val - i.val)) % C.val, Nat.mod_lt _ C.pos, Fin.ext ?_⟩
  have hi := i.isLt
  simp only [advance, Nat.add_mod_mod]
  have h_sum : i.val + (j.val + (C.val - i.val)) = j.val + C.val := by omega
  rw [h_sum, Nat.add_mod_right, Nat.mod_eq_of_lt j.isLt]

/-- The first cell from `start` on with a property is less than a round away. -/
theorem exists_first {p : Fin C.val → Prop} (start : Fin C.val) {i : Fin C.val} (h : p i) :
    ∃ n < C.val, p (C.advance start n) ∧ ∀ k < n, ¬ p (C.advance start k) := by
  classical
  have h_ex : ∃ n, n < C.val ∧ p (C.advance start n) := by
    obtain ⟨n, h_n, h_eq⟩ := C.exists_advance start i
    exact ⟨n, h_n, by rw [h_eq]; exact h⟩
  obtain ⟨h_lt, h_p⟩ := Nat.find_spec h_ex
  exact ⟨_, h_lt, h_p, fun k h_k h_pk => Nat.find_min h_ex h_k ⟨by omega, h_pk⟩⟩

/-- The capacity two. -/
def two : Capacity := ⟨2, by decide, by decide, by decide⟩

/-- The capacity four. -/
def four : Capacity := ⟨4, by decide, by decide, by decide⟩

end Capacity

/-- `MPMC<Capacity>`: the cells and the two cursors. -/
@[ext] structure MPMC (C : Capacity) (α : Type*) where
  ring : Fin C.val → Option α
  postCursor : BitVec 32
  popCursor : BitVec 32

namespace MPMC

variable {C : Capacity} {α : Type*}

/-- The constructed queue: every cell `nullptr`, both cursors zero. -/
def fresh (C : Capacity) (α : Type*) : MPMC C α := ⟨fun _ => none, 0, 0⟩

/-- The spurious failures of the compare-exchanges of one call, by attempt. -/
abbrev Weak := ℕ → Bool

/-- `compare_exchange_weak` that fails on an occupied cell only. -/
def strong : Weak := fun _ => false

/-- The probe loop of `push` from cell `slot`. -/
def pushLoop (message : α) :
    Weak → ℕ → (Fin C.val → Option α) → Fin C.val → Option (Fin C.val → Option α)
  | _, 0, _, _ => none
  | weak, fuel + 1, ring, slot =>
    match ring slot with
    | none =>
      -- a spurious failure looks like an occupied cell: the loop moves on
      if weak 0 then pushLoop message (fun k => weak (k + 1)) fuel ring (C.next slot)
      else some (Function.update ring slot (some message))
    | some _ => pushLoop message (fun k => weak (k + 1)) fuel ring (C.next slot)

/-- `push`: a null message is ignored. -/
def push (weak : Weak) (fuel : ℕ) (q : MPMC C α) : Option α → Option (MPMC C α)
  | none => some q
  | some message =>
    -- `fetch_add` returns the old cursor; the loop looks at the ring only
    match pushLoop message weak fuel q.ring (C.index q.postCursor) with
    | none => none
    | some ring => some { q with ring, postCursor := q.postCursor + 1 }

/-- The probe loop of `pop` from cell `slot`; every probe is an `exchange(nullptr)`. -/
def popLoop : ℕ → (Fin C.val → Option α) → Fin C.val → Option (α × (Fin C.val → Option α))
  | 0, _, _ => none
  | fuel + 1, ring, slot =>
    match ring slot with
    | some message => some (message, Function.update ring slot none)
    -- the exchange has written `nullptr` over `nullptr`
    | none => popLoop fuel (Function.update ring slot none) (C.next slot)

/-- `pop` -/
def pop (fuel : ℕ) (q : MPMC C α) : Option (α × MPMC C α) :=
  match popLoop fuel q.ring (C.index q.popCursor) with
  | none => none
  | some (message, ring) => some (message, { q with ring, popCursor := q.popCursor + 1 })

/-- The probe loop of `try_pop` over the cursor value `slot` it has loaded: `left`
probes remain, `probe` have been made. -/
def tryPopLoop (slot : BitVec 32) :
    ℕ → ℕ → (Fin C.val → Option α) → Option (α × Fin C.val) × (Fin C.val → Option α)
  | 0, _, ring => (none, ring)
  | left + 1, probe, ring =>
    let idx := C.index (slot + BitVec.ofNat 32 probe)
    match ring idx with
    | some message => (some (message, idx), Function.update ring idx none)
    | none => tryPopLoop slot left (probe + 1) (Function.update ring idx none)

/-- `try_pop`: `none` for `false`. -/
def tryPop (q : MPMC C α) : Option α × MPMC C α :=
  match tryPopLoop q.popCursor C.val 0 q.ring with
  | (some (message, idx), ring) =>
    -- the store overwrites whatever other calls have made of the cursor
    (some message, { q with ring, popCursor := BitVec.ofNat 32 (C.next idx) })
  | (none, ring) => (none, { q with ring })

/-! ### What a completed operation has done -/

theorem pushLoop_eq_some {message : α} {weak : Weak} {fuel : ℕ}
    {ring ring' : Fin C.val → Option α} {slot : Fin C.val}
    (h : pushLoop message weak fuel ring slot = some ring') :
    ∃ i, ring i = none ∧ ring' = Function.update ring i (some message) := by
  -- a probe that does not store leaves the ring as it is, so the first empty cell of the
  -- rest of the loop is empty at the start
  induction fuel generalizing weak slot with
  | zero => simp [pushLoop] at h
  | succ fuel ih =>
    simp only [pushLoop] at h
    split at h
    · next h_empty =>
      split at h
      · exact ih h
      · exact ⟨slot, h_empty, (Option.some.inj h).symm⟩
    · exact ih h

/-- A completed push has stored its message in a cell that was empty. -/
theorem push_eq_some {weak : Weak} {fuel : ℕ} {q q' : MPMC C α} {message : α}
    (h : q.push weak fuel (some message) = some q') :
    ∃ i, q.ring i = none ∧
      q' = { q with ring := Function.update q.ring i (some message),
                    postCursor := q.postCursor + 1 } := by
  simp only [push] at h
  cases h_loop : pushLoop message weak fuel q.ring (C.index q.postCursor) with
  | none => simp [h_loop] at h
  | some ring =>
    simp only [h_loop, Option.some.injEq] at h
    obtain ⟨i, h_empty, rfl⟩ := pushLoop_eq_some h_loop
    exact ⟨i, h_empty, h.symm⟩

/-- The loop of `try_pop` stops at the first full cell after the cells it has found
empty, or has found all of them empty. -/
theorem tryPopLoop_spec (slot : BitVec 32) (left probe : ℕ)
    (ring : Fin C.val → Option α) :
    (∃ n message, n < left ∧
        ring (C.index (slot + BitVec.ofNat 32 (probe + n))) = some message ∧
        (∀ k < n, ring (C.index (slot + BitVec.ofNat 32 (probe + k))) = none) ∧
        tryPopLoop slot left probe ring =
          (some (message, C.index (slot + BitVec.ofNat 32 (probe + n))),
            Function.update ring (C.index (slot + BitVec.ofNat 32 (probe + n))) none)) ∨
      ((∀ k < left, ring (C.index (slot + BitVec.ofNat 32 (probe + k))) = none) ∧
        tryPopLoop slot left probe ring = (none, ring)) := by
  induction left generalizing probe with
  | zero => exact Or.inr ⟨fun k hk => absurd hk (Nat.not_lt_zero k), rfl⟩
  | succ left ih =>
    cases h_cell : ring (C.index (slot + BitVec.ofNat 32 probe)) with
    | some message =>
      refine Or.inl ⟨0, message, Nat.succ_pos left, h_cell, fun k hk => absurd hk (by omega), ?_⟩
      simp only [tryPopLoop, h_cell, Nat.add_zero]
    | none =>
      -- the exchange wrote `nullptr` over `nullptr`
      have h_same : Function.update ring (C.index (slot + BitVec.ofNat 32 probe)) none = ring := by
        rw [← h_cell]
        exact Function.update_eq_self _ _
      have h_loop : tryPopLoop slot (left + 1) probe ring =
          tryPopLoop slot left (probe + 1) ring := by
        simp only [tryPopLoop, h_cell, h_same]
      have h_shift : ∀ k, probe + 1 + k = probe + (k + 1) := fun k => by omega
      rcases ih (probe + 1) with ⟨n, message, hn, h_full, h_before, h_eq⟩ | ⟨h_all, h_eq⟩
      · rw [h_shift] at h_full h_eq
        refine Or.inl ⟨n + 1, message, Nat.succ_lt_succ hn, h_full, fun k hk => ?_, ?_⟩
        · cases k with
          | zero => exact h_cell
          | succ k =>
            have := h_before k (by omega)
            rwa [h_shift] at this
        · rw [h_loop, h_eq]
      · refine Or.inr ⟨fun k hk => ?_, ?_⟩
        · cases k with
          | zero => exact h_cell
          | succ k =>
            have := h_all k (by omega)
            rwa [h_shift] at this
        · rw [h_loop, h_eq]

/-- A `try_pop` that fails has found every cell empty and changed nothing. -/
theorem tryPop_eq_none {q q' : MPMC C α} (h : q.tryPop = (none, q')) :
    (∀ i, q.ring i = none) ∧ q' = q := by
  simp only [tryPop] at h
  rcases tryPopLoop_spec q.popCursor C.val 0 q.ring with
    ⟨n, message, -, -, -, h_eq⟩ | ⟨h_all, h_eq⟩
  · rw [h_eq] at h
    simp at h
  · rw [h_eq] at h
    simp only [Prod.mk.injEq, true_and] at h
    refine ⟨fun i => ?_, h.symm⟩
    -- `Capacity` probes from any cursor meet every cell
    obtain ⟨n, hn, rfl⟩ := C.exists_advance (C.index q.popCursor) i
    have := h_all n hn
    rwa [Nat.zero_add, C.index_add] at this

/-- A `try_pop` that succeeds has emptied the first full cell, cyclically, from its
cursor, and moved the cursor just past it. -/
theorem tryPop_eq_some {q q' : MPMC C α} {message : α} (h : q.tryPop = (some message, q')) :
    ∃ n < C.val, q.ring (C.advance (C.index q.popCursor) n) = some message ∧
      (∀ k < n, q.ring (C.advance (C.index q.popCursor) k) = none) ∧
      q' = { q with
        ring := Function.update q.ring (C.advance (C.index q.popCursor) n) none,
        popCursor := BitVec.ofNat 32 (C.next (C.advance (C.index q.popCursor) n)) } := by
  simp only [tryPop] at h
  -- `tryPopLoop_spec` speaks of the cell `n` steps after the cursor
  rcases tryPopLoop_spec q.popCursor C.val 0 q.ring with
    ⟨n, m, hn, h_full, h_before, h_eq⟩ | ⟨h_all, h_eq⟩
  · simp only [Nat.zero_add, C.index_add] at h_full h_before h_eq
    rw [h_eq] at h
    simp only [Prod.mk.injEq, Option.some.injEq] at h
    obtain ⟨rfl, rfl⟩ := h
    exact ⟨n, hn, h_full, h_before, rfl⟩
  · -- the loop has found every cell empty, so nothing was returned
    rw [h_eq] at h
    simp at h

/-- A strong push fills the first empty cell, cyclically, from its cursor. -/
theorem pushLoop_strong (message : α) (ring : Fin C.val → Option α) (slot : Fin C.val)
    {n : ℕ} (fuel : ℕ) (h_fuel : n < fuel) (h_empty : ring (C.advance slot n) = none)
    (h_before : ∀ k < n, ring (C.advance slot k) ≠ none) :
    pushLoop message strong fuel ring slot =
      some (Function.update ring (C.advance slot n) (some message)) := by
  induction n generalizing slot fuel with
  | zero =>
    obtain ⟨fuel, rfl⟩ := Nat.exists_eq_succ_of_ne_zero (by omega : fuel ≠ 0)
    rw [C.advance_zero] at h_empty ⊢
    simp [pushLoop, h_empty, strong]
  | succ n ih =>
    obtain ⟨fuel, rfl⟩ := Nat.exists_eq_succ_of_ne_zero (by omega : fuel ≠ 0)
    -- the cell under `slot` is full; what the loop has left starts at the next one
    have h_zero := h_before 0 (by omega)
    rw [C.advance_zero] at h_zero
    obtain ⟨m, hm⟩ := Option.ne_none_iff_exists'.mp h_zero
    rw [← C.advance_next] at h_empty ⊢
    have h_rest : ∀ k < n, ring (C.advance (C.next slot) k) ≠ none := fun k hk => by
      rw [C.advance_next]
      exact h_before (k + 1) (by omega)
    have h_ih := ih (C.next slot) fuel (by omega) h_empty h_rest
    simp only [pushLoop, hm]
    exact h_ih

/-- A strong push whose first empty cell, cyclically from its cursor, is `n` steps away. -/
theorem push_strong (q : MPMC C α) (message : α) {n fuel : ℕ} (h_fuel : n < fuel)
    (h_empty : q.ring (C.advance (C.index q.postCursor) n) = none)
    (h_before : ∀ k < n, q.ring (C.advance (C.index q.postCursor) k) ≠ none) :
    q.push strong fuel (some message) = some { q with
      ring := Function.update q.ring (C.advance (C.index q.postCursor) n) (some message)
      postCursor := q.postCursor + 1 } := by
  rw [push, pushLoop_strong message q.ring _ fuel h_fuel h_empty h_before]

/-- The first empty cell from `start` on is less than a round away. -/
theorem exists_first_empty {ring : Fin C.val → Option α} (start : Fin C.val) {i : Fin C.val}
    (h_empty : ring i = none) :
    ∃ n < C.val, ring (C.advance start n) = none ∧
      ∀ k < n, ring (C.advance start k) ≠ none :=
  C.exists_first (p := fun slot => ring slot = none) start h_empty

/-- A strong push with an empty cell ends within `Capacity` probes. -/
theorem push_strong_isSome (q : MPMC C α) (message : α) {fuel : ℕ} (h_fuel : C.val ≤ fuel)
    {i : Fin C.val} (h_empty : q.ring i = none) :
    ∃ q', q.push strong fuel (some message) = some q' := by
  obtain ⟨n, h_lt, h_none, h_before⟩ := exists_first_empty (C.index q.postCursor) h_empty
  exact ⟨_, q.push_strong message (by omega) h_none h_before⟩

end MPMC

end Hft
