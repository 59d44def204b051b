import MpmcPipeline.Mpmc.Ring

/-!
# Which cell an operation takes

Run without interference, the three operations search the ring in the same way: from the
cell their cursor names, forward and cyclically, until they meet a cell they can use.
`Capacity.FirstFrom` says which cell that is, for any condition on the cells. Neither
the occupancy of the ring nor the value of a cursor is restricted: the full cells may
have gaps between them, as concurrent runs leave them, and a cursor may have wrapped to
a negative number.
-/

namespace Hft

namespace Capacity

variable (C : Capacity)

/-- `i` is the first cell with property `p`, searching forward and cyclically from
`start`. -/
def FirstFrom (start : Fin C.val) (p : Fin C.val → Prop) (i : Fin C.val) : Prop :=
  ∃ n < C.val, C.advance start n = i ∧ p i ∧ ∀ k < n, ¬ p (C.advance start k)

variable {C}

theorem exists_firstFrom {p : Fin C.val → Prop} (start : Fin C.val) {i : Fin C.val} (h : p i) :
    ∃ first, C.FirstFrom start p first := by
  obtain ⟨n, h_n, h_p, h_before⟩ := C.exists_first start h
  exact ⟨C.advance start n, n, h_n, rfl, h_p, h_before⟩

/-- A search has one result. -/
theorem FirstFrom.unique {start : Fin C.val} {p : Fin C.val → Prop} {i j : Fin C.val}
    (h_i : C.FirstFrom start p i) (h_j : C.FirstFrom start p j) : i = j := by
  obtain ⟨n, -, rfl, h_pn, h_before_n⟩ := h_i
  obtain ⟨k, -, rfl, h_pk, h_before_k⟩ := h_j
  -- neither distance is below the other
  have h_le : n ≤ k := Nat.le_of_not_lt fun h => h_before_n k h h_pk
  have h_ge : k ≤ n := Nat.le_of_not_lt fun h => h_before_k n h h_pn
  rw [Nat.le_antisymm h_le h_ge]

end Capacity

namespace MPMC

variable {C : Capacity} {α : Type*}

/-- A strong push of `Capacity` probes fills the first empty cell. -/
theorem push_first (q : MPMC C α) (message : α) {fuel : ℕ} (h_fuel : C.val ≤ fuel)
    {i : Fin C.val}
    (h : C.FirstFrom (C.index q.postCursor) (fun slot => q.ring slot = none) i) :
    q.push strong fuel (some message) = some { q with
      ring := Function.update q.ring i (some message)
      postCursor := q.postCursor + 1 } := by
  obtain ⟨n, h_n, rfl, h_empty, h_before⟩ := h
  exact q.push_strong message (lt_of_lt_of_le h_n h_fuel) h_empty h_before

/-- The compare-exchanges of a call stop failing spuriously at some probe, and after it the call
may make a whole round of probes. -/
def Fair (C : Capacity) (weak : Weak) (fuel : ℕ) : Prop :=
  ∃ n, (∀ k, n ≤ k → weak k = false) ∧ n + C.val ≤ fuel

theorem pushLoop_fair (message : α) {ring : Fin C.val → Option α} {i : Fin C.val}
    (h_empty : ring i = none) {n fuel : ℕ} {weak : Weak} (h_weak : ∀ k, n ≤ k → weak k = false)
    (h_fuel : n + C.val ≤ fuel) (slot : Fin C.val) :
    ∃ ring', pushLoop message weak fuel ring slot = some ring' := by
  -- induction on the probes that may fail; a probe that does not store leaves the ring as it is
  induction n generalizing weak fuel slot with
  | zero =>
    have h_strong : weak = strong := funext fun k => h_weak k (Nat.zero_le k)
    obtain ⟨n, h_n, h_none, h_before⟩ := exists_first_empty slot h_empty
    rw [h_strong]
    exact ⟨_, pushLoop_strong message ring slot fuel (by omega) h_none h_before⟩
  | succ n ih =>
    obtain ⟨fuel, rfl⟩ := Nat.exists_eq_succ_of_ne_zero (by omega : fuel ≠ 0)
    have h_shift : ∀ k, n ≤ k → weak (k + 1) = false := fun k h_k =>
      h_weak (k + 1) (Nat.succ_le_succ h_k)
    have h_left : n + C.val ≤ fuel := by omega
    have h_rest := ih h_shift h_left (C.next slot)
    rw [pushLoop]
    cases ring slot with
    | some _ => exact h_rest
    | none =>
      dsimp only
      split
      · exact h_rest
      · exact ⟨_, rfl⟩

/-- A push with an empty cell returns. -/
theorem push_fair (q : MPMC C α) (message : α) {i : Fin C.val} (h_empty : q.ring i = none)
    {weak : Weak} {fuel : ℕ} (h : Fair C weak fuel) :
    ∃ q', q.push weak fuel (some message) = some q' := by
  obtain ⟨n, h_weak, h_fuel⟩ := h
  obtain ⟨ring', h_loop⟩ := pushLoop_fair message h_empty h_weak h_fuel (C.index q.postCursor)
  rw [push, h_loop]
  exact ⟨_, rfl⟩

/-- The loop of `pop` empties the first full cell. -/
theorem popLoop_first {message : α} (ring : Fin C.val → Option α) (slot : Fin C.val)
    {n : ℕ} (fuel : ℕ) (h_fuel : n < fuel) (h_full : ring (C.advance slot n) = some message)
    (h_before : ∀ k < n, ring (C.advance slot k) = none) :
    popLoop fuel ring slot =
      some (message, Function.update ring (C.advance slot n) none) := by
  induction n generalizing slot fuel with
  | zero =>
    obtain ⟨fuel, rfl⟩ := Nat.exists_eq_succ_of_ne_zero (by omega : fuel ≠ 0)
    rw [C.advance_zero] at h_full ⊢
    simp only [popLoop, h_full]
  | succ n ih =>
    obtain ⟨fuel, rfl⟩ := Nat.exists_eq_succ_of_ne_zero (by omega : fuel ≠ 0)
    have h_zero := h_before 0 (by omega)
    rw [C.advance_zero] at h_zero
    -- the exchange has written `nullptr` over `nullptr`: the rest sees the same ring
    have h_same : Function.update ring slot none = ring := by
      rw [← h_zero]
      exact Function.update_eq_self _ _
    rw [← C.advance_next] at h_full ⊢
    have h_rest : ∀ k < n, ring (C.advance (C.next slot) k) = none := fun k hk => by
      rw [C.advance_next]
      exact h_before (k + 1) (by omega)
    have h_ih := ih (C.next slot) fuel (by omega) h_full h_rest
    simp only [popLoop, h_zero, h_same]
    exact h_ih

/-- A `pop` of `Capacity` probes empties the first full cell. -/
theorem pop_first (q : MPMC C α) {message : α} {fuel : ℕ} (h_fuel : C.val ≤ fuel)
    {i : Fin C.val} (h : C.FirstFrom (C.index q.popCursor) (fun slot => q.ring slot ≠ none) i)
    (h_full : q.ring i = some message) :
    q.pop fuel = some (message, { q with
      ring := Function.update q.ring i none
      popCursor := q.popCursor + 1 }) := by
  obtain ⟨n, h_n, rfl, -, h_before⟩ := h
  have h_none : ∀ k < n, q.ring (C.advance (C.index q.popCursor) k) = none := fun k h_k =>
    Classical.not_not.mp (h_before k h_k)
  rw [pop, popLoop_first q.ring _ fuel (lt_of_lt_of_le h_n h_fuel) h_full h_none]

/-- A `try_pop` takes the first full cell and leaves the cursor just after it. -/
theorem tryPop_first (q : MPMC C α) {message : α} {i : Fin C.val}
    (h : C.FirstFrom (C.index q.popCursor) (fun slot => q.ring slot ≠ none) i)
    (h_full : q.ring i = some message) :
    q.tryPop = (some message, { q with
      ring := Function.update q.ring i none
      popCursor := BitVec.ofNat 32 (C.next i) }) := by
  cases h_pop : q.tryPop with
  | mk result q' =>
    cases result with
    | none =>
      rw [(tryPop_eq_none h_pop).1 i] at h_full
      cases h_full
    | some m =>
      obtain ⟨n, h_n, h_taken, h_before, rfl⟩ := tryPop_eq_some h_pop
      -- both cells are the first full one
      have h_first : C.FirstFrom (C.index q.popCursor) (fun slot => q.ring slot ≠ none)
          (C.advance (C.index q.popCursor) n) :=
        ⟨n, h_n, rfl, Option.ne_none_iff_exists'.mpr ⟨m, h_taken⟩,
          fun k h_k h_ne => h_ne (h_before k h_k)⟩
      obtain rfl := h.unique h_first
      rw [h_full] at h_taken
      obtain rfl := Option.some.inj h_taken
      rfl

theorem tryPop_fst_eq_none_iff (q : MPMC C α) :
    q.tryPop.1 = none ↔ ∀ slot, q.ring slot = none := by
  constructor
  · intro h
    exact (tryPop_eq_none (Prod.ext h rfl : q.tryPop = (none, q.tryPop.2))).1
  · -- a `try_pop` that returned a message would have taken it from an empty cell
    intro h_empty
    cases h_pop : q.tryPop with
    | mk result q' =>
      cases result with
      | none => rfl
      | some m =>
        obtain ⟨n, -, h_taken, -⟩ := tryPop_eq_some h_pop
        rw [h_empty] at h_taken
        cases h_taken

/-- **Operations by themselves.** Without interference, on any ring and from any cursors: a push
with an empty cell fills the first one within `Capacity` probes, a pop with a message empties the
first full cell within `Capacity` probes, `try_pop` takes that same cell and leaves its cursor just
after it, and it finds nothing exactly when the ring is empty. -/
theorem operations_first (q : MPMC C α) :
    (∀ message fuel, C.val ≤ fuel → (∃ slot, q.ring slot = none) →
      ∃ i, C.FirstFrom (C.index q.postCursor) (fun slot => q.ring slot = none) i ∧
        q.push strong fuel (some message) = some { q with
          ring := Function.update q.ring i (some message)
          postCursor := q.postCursor + 1 }) ∧
    ((∃ slot, q.ring slot ≠ none) →
      ∃ i message, C.FirstFrom (C.index q.popCursor) (fun slot => q.ring slot ≠ none) i ∧
        q.ring i = some message ∧
        (∀ fuel, C.val ≤ fuel → q.pop fuel = some (message, { q with
          ring := Function.update q.ring i none
          popCursor := q.popCursor + 1 })) ∧
        q.tryPop = (some message, { q with
          ring := Function.update q.ring i none
          popCursor := BitVec.ofNat 32 (C.next i) })) ∧
    (q.tryPop.1 = none ↔ ∀ slot, q.ring slot = none) := by
  refine ⟨?_, ?_, q.tryPop_fst_eq_none_iff⟩
  · rintro message fuel h_fuel ⟨slot, h_empty⟩
    obtain ⟨i, h_i⟩ := Capacity.exists_firstFrom (p := fun slot => q.ring slot = none)
      (C.index q.postCursor) h_empty
    exact ⟨i, h_i, q.push_first message h_fuel h_i⟩
  · rintro ⟨slot, h_slot⟩
    obtain ⟨i, h_i⟩ := Capacity.exists_firstFrom (p := fun slot => q.ring slot ≠ none)
      (C.index q.popCursor) h_slot
    obtain ⟨message, h_full⟩ : ∃ message, q.ring i = some message := by
      obtain ⟨-, -, -, h_ne, -⟩ := h_i
      exact Option.ne_none_iff_exists'.mp h_ne
    exact ⟨i, message, h_i, h_full, fun fuel h_fuel => q.pop_first h_fuel h_i h_full,
      q.tryPop_first h_i h_full⟩

/-- A ring with a gap, and cursors that have wrapped to `-1` and `-2`. -/
def gapped : MPMC Capacity.four ℕ :=
  ⟨fun slot => if slot.val % 2 = 1 then some (slot.val + 10) else none, -1, -2⟩

theorem operations_first_gapped :
    (∃ i, Capacity.four.FirstFrom (Capacity.four.index (-1))
        (fun slot => gapped.ring slot = none) i ∧
      gapped.push strong 4 (some 7) = some { gapped with
        ring := Function.update gapped.ring i (some 7)
        postCursor := 0 }) ∧
    ∃ i message, Capacity.four.FirstFrom (Capacity.four.index (-2))
        (fun slot => gapped.ring slot ≠ none) i ∧
      gapped.ring i = some message ∧
      (∀ fuel, 4 ≤ fuel → gapped.pop fuel = some (message, { gapped with
        ring := Function.update gapped.ring i none
        popCursor := -1 })) ∧
      gapped.tryPop = (some message, { gapped with
        ring := Function.update gapped.ring i none
        popCursor := BitVec.ofNat 32 (Capacity.four.next i) }) :=
  ⟨(operations_first gapped).1 7 4 (by decide) ⟨Capacity.four.index 0, rfl⟩,
    (operations_first gapped).2.1 ⟨Capacity.four.index 1, by decide⟩⟩

end MPMC

end Hft
