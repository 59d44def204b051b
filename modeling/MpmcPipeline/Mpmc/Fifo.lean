import MpmcPipeline.Mpmc.Conservation

/-!
# Without overlap the ring is a bounded FIFO

The abstract queue is a list of messages, oldest first, of at most `Capacity` entries
(`fifo`). The ring *represents* such a list (`Represents`) when the occupied cells are
the cyclic interval from the masked `pop_cursor` to the masked `post_cursor`, in order.
Each operation keeps the relation although the cursors follow different disciplines:
`push` and `pop` increment an unmasked cursor, which wraps at `2 ^ 32`, while
`try_pop` overwrites its cursor with a masked one. `Capacity.index_succ` says that
masking commutes with all of it.

`refines_fifo` is the refinement: a run of operations that do not overlap, with `push`
issued when the ring is not full and `pop` when it is not empty, is a run of the
abstract queue with the same replies, and no operation probes past its first cell.
-/

namespace Hft

open Capacity (two)

namespace MPMC

variable {C : Capacity} {α : Type*}

/-- The ring holds exactly the messages `l`, oldest first, from the pop cursor to the
post cursor. -/
structure Represents (q : MPMC C α) (l : List α) : Prop where
  fits : l.length ≤ C.val
  cell : ∀ n < C.val, q.ring (C.advance (C.index q.popCursor) n) = l[n]?
  tail : C.index q.postCursor = C.advance (C.index q.popCursor) l.length

instance [DecidableEq α] (q : MPMC C α) (l : List α) : Decidable (Represents q l) :=
  decidable_of_iff (l.length ≤ C.val ∧
      (∀ n < C.val, q.ring (C.advance (C.index q.popCursor) n) = l[n]?) ∧
      C.index q.postCursor = C.advance (C.index q.popCursor) l.length)
    ⟨fun h => ⟨h.1, h.2.1, h.2.2⟩, fun h => ⟨h.fits, h.cell, h.tail⟩⟩

theorem Represents.fresh : Represents (fresh C α) [] where
  fits := Nat.zero_le _
  cell := fun _ _ => rfl
  tail := by simp [MPMC.fresh]

/-- The ring has an empty cell exactly when the list is shorter than the capacity. -/
theorem Represents.exists_empty_iff {q : MPMC C α} {l : List α} (h : Represents q l) :
    (∃ i, q.ring i = none) ↔ l.length < C.val := by
  constructor
  · rintro ⟨i, h_empty⟩
    obtain ⟨n, hn, rfl⟩ := C.exists_advance (C.index q.popCursor) i
    rw [h.cell n hn, List.getElem?_eq_none_iff] at h_empty
    omega
  · intro h_lt
    exact ⟨_, (h.cell l.length h_lt).trans (List.getElem?_eq_none_iff.mpr le_rfl)⟩

/-- The ring has a message exactly when the list is not empty. -/
theorem Represents.exists_full_iff {q : MPMC C α} {l : List α} (h : Represents q l) :
    (∃ i, q.ring i ≠ none) ↔ l ≠ [] := by
  constructor
  · rintro ⟨i, h_full⟩ rfl
    obtain ⟨n, hn, rfl⟩ := C.exists_advance (C.index q.popCursor) i
    rw [h.cell n hn] at h_full
    exact h_full rfl
  · intro h_ne
    obtain ⟨m, rest, rfl⟩ := List.exists_cons_of_ne_nil h_ne
    refine ⟨C.advance (C.index q.popCursor) 0, ?_⟩
    rw [h.cell 0 C.pos]
    simp

/-- The cell `push` probes first is empty when the list is not full. -/
theorem Represents.tail_empty {q : MPMC C α} {l : List α} (h : Represents q l)
    (h_lt : l.length < C.val) : q.ring (C.index q.postCursor) = none := by
  rw [h.tail, h.cell _ h_lt]
  exact List.getElem?_eq_none_iff.mpr le_rfl

/-- The cell `pop` and `try_pop` probe first holds the oldest message. -/
theorem Represents.head_full {q : MPMC C α} {m : α} {l : List α}
    (h : Represents q (m :: l)) : q.ring (C.index q.popCursor) = some m := by
  have := h.cell 0 C.pos
  rwa [C.advance_zero] at this

/-- Storing a message at the tail. -/
theorem Represents.snoc {q : MPMC C α} {l : List α} (h : Represents q l)
    (h_lt : l.length < C.val) (m : α) :
    Represents { q with ring := Function.update q.ring (C.index q.postCursor) (some m),
                        postCursor := q.postCursor + 1 } (l ++ [m]) where
  fits := by
    rw [List.length_append, List.length_singleton]
    exact h_lt
  cell := by
    intro n hn
    simp only [h.tail]
    by_cases h_eq : n = l.length
    · subst h_eq
      simp
    · -- within one round the tail cell is met at `l.length` only
      have h_ne : C.advance (C.index q.popCursor) n ≠ C.advance (C.index q.popCursor) l.length :=
        fun h_adv => h_eq (C.advance_injective _ hn h_lt h_adv)
      rw [Function.update_of_ne h_ne, h.cell n hn]
      rcases Nat.lt_or_gt_of_ne h_eq with h_lt' | h_gt
      · rw [List.getElem?_append_left h_lt']
      · rw [List.getElem?_eq_none_iff.mpr (by omega),
          List.getElem?_eq_none_iff.mpr
            (by simp only [List.length_append, List.length_singleton]; omega)]
  tail := by
    simp [h.tail, C.next_advance]

/-- Emptying the head cell and moving the pop cursor past it, whichever way it is
written. -/
theorem Represents.tail_of_cons {q : MPMC C α} {m : α} {l : List α}
    (h : Represents q (m :: l)) {cursor : BitVec 32}
    (h_cursor : C.index cursor = C.next (C.index q.popCursor)) :
    Represents { q with ring := Function.update q.ring (C.index q.popCursor) none,
                        popCursor := cursor } l where
  fits := by
    have := h.fits
    simp only [List.length_cons] at this
    omega
  cell := by
    intro n hn
    simp only [h_cursor, C.advance_next]
    by_cases h_last : n + 1 = C.val
    · -- the last cell of the new window is the cell just emptied
      rw [h_last, C.advance_val, Function.update_self]
      have := h.fits
      simp only [List.length_cons] at this
      exact (List.getElem?_eq_none_iff.mpr (by omega)).symm
    · -- the others have moved up by one place
      have h_ne : C.advance (C.index q.popCursor) (n + 1) ≠ C.index q.popCursor := by
        intro h_eq
        have h_zero : C.advance (C.index q.popCursor) (n + 1) =
            C.advance (C.index q.popCursor) 0 := by rw [h_eq, C.advance_zero]
        have := C.advance_injective _ (by omega) C.pos h_zero
        omega
      rw [Function.update_of_ne h_ne, h.cell (n + 1) (by omega), List.getElem?_cons_succ]
  tail := by
    simp only [h_cursor, C.advance_next]
    rw [h.tail, List.length_cons]

theorem Represents.mem_cells_iff {q : MPMC C α} {l : List α} (h : Represents q l) {m : α} :
    m ∈ cells q.ring ↔ m ∈ l := by
  rw [mem_cells, List.mem_iff_getElem?]
  constructor
  · rintro ⟨i, h_i⟩
    obtain ⟨n, hn, rfl⟩ := C.exists_advance (C.index q.popCursor) i
    exact ⟨n, (h.cell n hn).symm.trans h_i⟩
  · rintro ⟨n, h_n⟩
    have h_lt : n < l.length := (List.getElem?_eq_some_iff.mp h_n).1
    exact ⟨_, (h.cell n (h_lt.trans_le h.fits)).trans h_n⟩

/-- A list without repetition is in cells without repetition. -/
theorem Represents.cells_nodup {q : MPMC C α} {l : List α} (h : Represents q l)
    (h_nodup : l.Nodup) : (cells q.ring).Nodup := by
  classical
  rw [Multiset.nodup_iff_count_le_one]
  intro m
  rw [count_cells]
  refine Finset.card_le_one.mpr fun i h_i j h_j => ?_
  obtain ⟨n, hn, rfl⟩ := C.exists_advance (C.index q.popCursor) i
  obtain ⟨k, hk, rfl⟩ := C.exists_advance (C.index q.popCursor) j
  have h_n : l[n]? = some m := (h.cell n hn).symm.trans (Finset.mem_filter.mp h_i).2
  have h_k : l[k]? = some m := (h.cell k hk).symm.trans (Finset.mem_filter.mp h_j).2
  have h_lt : n < l.length := (List.getElem?_eq_some_iff.mp h_n).1
  rw [(List.getElem?_inj h_lt h_nodup).mp (h_n.trans h_k.symm)]

/-- `push` stores at its first probe. -/
theorem Represents.push {q : MPMC C α} {l : List α} (h : Represents q l)
    (h_lt : l.length < C.val) (m : α) (fuel : ℕ) :
    q.push strong (fuel + 1) (some m) =
      some { q with ring := Function.update q.ring (C.index q.postCursor) (some m),
                    postCursor := q.postCursor + 1 } := by
  simp [MPMC.push, pushLoop, h.tail_empty h_lt, strong]

/-- `pop` takes at its first probe. -/
theorem Represents.pop {q : MPMC C α} {m : α} {l : List α} (h : Represents q (m :: l))
    (fuel : ℕ) :
    q.pop (fuel + 1) =
      some (m, { q with ring := Function.update q.ring (C.index q.popCursor) none,
                        popCursor := q.popCursor + 1 }) := by
  simp [MPMC.pop, popLoop, h.head_full]

/-- `try_pop` takes at its first probe. -/
theorem Represents.tryPop_cons {q : MPMC C α} {m : α} {l : List α}
    (h : Represents q (m :: l)) :
    q.tryPop =
      (some m, { q with
        ring := Function.update q.ring (C.index q.popCursor) none,
        popCursor := BitVec.ofNat 32 (C.next (C.index q.popCursor)) }) := by
  cases h_try : q.tryPop with
  | mk result q' =>
    cases result with
    | none =>
      have := (tryPop_eq_none h_try).1 (C.index q.popCursor)
      rw [h.head_full] at this
      exact absurd this (by simp)
    | some m' =>
      obtain ⟨n, hn, h_full, h_before, rfl⟩ := tryPop_eq_some h_try
      -- nothing is empty before the head
      have h_zero : n = 0 := by
        by_contra h_pos
        have := h_before 0 (by omega)
        rw [C.advance_zero, h.head_full] at this
        exact absurd this (by simp)
      subst h_zero
      rw [C.advance_zero] at h_full ⊢
      rw [h.head_full] at h_full
      rw [Option.some.inj h_full]

/-- `try_pop` on an empty queue returns false and changes nothing. -/
theorem Represents.tryPop_nil {q : MPMC C α} (h : Represents q []) :
    q.tryPop = (none, q) := by
  cases h_try : q.tryPop with
  | mk result q' =>
    cases result with
    | none => rw [(tryPop_eq_none h_try).2]
    | some m =>
      obtain ⟨n, hn, h_full, -, -⟩ := tryPop_eq_some h_try
      rw [h.cell n hn] at h_full
      exact absurd h_full (by simp)

/-! ### Messages pushed one after the other -/

/-- `q'` is `q` after strong pushes of `msgs`: the messages are in the first cells that were
empty from the post cursor on, at the cyclic distances `ns`, in order, and nothing else has
changed. -/
structure Appended (q : MPMC C α) (msgs : List α) (ns : List ℕ) (q' : MPMC C α) : Prop where
  increasing : ns.Pairwise (· < ·)
  was_empty : ∀ n ∈ ns, n < C.val ∧ q.ring (C.advance (C.index q.postCursor) n) = none
  filled : ns.map (fun n => q'.ring (C.advance (C.index q.postCursor) n)) = msgs.map some
  others : ∀ i, (∀ n ∈ ns, i ≠ C.advance (C.index q.postCursor) n) → q'.ring i = q.ring i
  first : ∀ k < C.val, q'.ring (C.advance (C.index q.postCursor) k) = none → ∀ n ∈ ns, n < k
  cells_eq : cells q'.ring = cells q.ring + msgs
  post : q'.postCursor = q.postCursor + BitVec.ofNat 32 msgs.length
  pop : q'.popCursor = q.popCursor
  fifo : ∀ l, Represents q l → Represents q' (l ++ msgs)

theorem Appended.nil (q : MPMC C α) : Appended q [] [] q where
  increasing := List.Pairwise.nil
  was_empty _ h := absurd h List.not_mem_nil
  filled := rfl
  others _ _ := rfl
  first _ _ _ _ h := absurd h List.not_mem_nil
  cells_eq := (add_zero _).symm
  post := (BitVec.add_zero _).symm
  pop := rfl
  fifo l h := by rwa [List.append_nil]

/-- Increasing numbers below a bound are no more than the bound. -/
theorem length_le_of_increasing {ns : List ℕ} {n : ℕ} (h : ns.Pairwise (· < ·))
    (h_lt : ∀ k ∈ ns, k < n) : ns.length ≤ n := by
  have h_nodup : ns.Nodup := h.imp fun h_lt => Nat.ne_of_lt h_lt
  rw [← List.toFinset_card_of_nodup h_nodup, ← Finset.card_range n]
  exact Finset.card_le_card fun k h_k => Finset.mem_range.mpr (h_lt k (List.mem_toFinset.mp h_k))

/-- One more push, while a cell is empty. -/
theorem Appended.push {q q' : MPMC C α} {msgs : List α} {ns : List ℕ} (h : Appended q msgs ns q')
    (m : α) {fuel : ℕ} (h_fuel : C.val ≤ fuel) (h_room : q'.occupancy < C.val) :
    ∃ n q'', q'.push strong fuel (some m) = some q'' ∧
      Appended q (msgs ++ [m]) (ns ++ [n]) q'' := by
  -- the first cell from the old post cursor that is empty still
  obtain ⟨slot, h_slot⟩ := exists_empty_of_room h_room
  obtain ⟨n, h_lt, h_none, h_before⟩ := exists_first_empty (C.index q.postCursor) h_slot
  have h_behind : ∀ k ∈ ns, k < n := h.first n h_lt h_none
  have h_length : msgs.length = ns.length := by
    have h_map := congrArg List.length h.filled
    rwa [List.length_map, List.length_map, eq_comm] at h_map
  have h_le : msgs.length ≤ n := h_length ▸ length_le_of_increasing h.increasing h_behind
  -- where the post cursor is now: it has moved by one for each push, wherever that went
  have h_cursor : ∀ k, C.advance (C.index q'.postCursor) k =
      C.advance (C.index q.postCursor) (msgs.length + k) := by
    intro k
    rw [h.post, C.index_add, C.advance_advance]
  have h_cell : C.advance (C.index q'.postCursor) (n - msgs.length) =
      C.advance (C.index q.postCursor) n := by
    rw [h_cursor, Nat.add_sub_cancel' h_le]
  have h_push := q'.push_strong m (by omega : n - msgs.length < fuel) (by rw [h_cell]; exact h_none)
    (fun k h_k => by rw [h_cursor]; exact h_before _ (by omega))
  rw [h_cell] at h_push
  have h_ne : ∀ k ∈ ns, C.advance (C.index q.postCursor) k ≠ C.advance (C.index q.postCursor) n :=
    fun k h_k h_eq => absurd (C.advance_injective _ (h.was_empty k h_k).1 h_lt h_eq)
      (Nat.ne_of_lt (h_behind k h_k))
  refine ⟨n, _, h_push, ?_, ?_, ?_, ?_, ?_, ?_, ?_, h.pop, ?_⟩
  · rw [List.pairwise_append]
    exact ⟨h.increasing, List.pairwise_singleton _ n, fun k h_k k' h_k' =>
      List.mem_singleton.mp h_k' ▸ h_behind k h_k⟩
  · rw [List.forall_mem_append, List.forall_mem_singleton]
    refine ⟨h.was_empty, h_lt, ?_⟩
    rw [← h.others _ fun k h_k h_eq => h_ne k h_k h_eq.symm]
    exact h_none
  · dsimp only
    rw [List.map_append, List.map_append, List.map_singleton, List.map_singleton, ← h.filled,
      Function.update_self]
    refine congrArg (· ++ _) (List.map_congr_left fun k h_k => ?_)
    rw [Function.update_of_ne (h_ne k h_k)]
  · intro i h_i
    rw [List.forall_mem_append, List.forall_mem_singleton] at h_i
    dsimp only
    rw [Function.update_of_ne h_i.2, h.others i h_i.1]
  · intro k h_k h_empty
    dsimp only at h_empty
    have h_other : C.advance (C.index q.postCursor) k ≠ C.advance (C.index q.postCursor) n := by
      intro h_eq
      rw [h_eq, Function.update_self] at h_empty
      cases h_empty
    rw [Function.update_of_ne h_other] at h_empty
    have h_n : n < k := by
      refine Nat.lt_of_le_of_ne (Nat.not_lt.mp fun h_lt => h_before k h_lt h_empty) ?_
      rintro rfl
      exact h_other rfl
    rw [List.forall_mem_append, List.forall_mem_singleton]
    exact ⟨fun j h_j => (h_behind j h_j).trans h_n, h_n⟩
  · dsimp only
    rw [cells_update_some h_none, h.cells_eq, add_assoc]
    rfl
  · dsimp only
    rw [h.post, List.length_append, List.length_singleton, BitVec.ofNat_add, BitVec.add_assoc]
    rfl
  · intro l h_l
    have h_rep := h.fifo l h_l
    have h_short : (l ++ msgs).length < C.val := h_rep.exists_empty_iff.mp ⟨_, h_none⟩
    obtain ⟨fuel, rfl⟩ := Nat.exists_eq_succ_of_ne_zero (by omega : fuel ≠ 0)
    rw [h_rep.push h_short m fuel] at h_push
    rw [← Option.some.inj h_push, ← List.append_assoc]
    exact h_rep.snoc h_short m

/-! ### The two machines -/

/-- The abstract queue: a list of at most `Capacity` messages, oldest first. An event is
a call with its reply. -/
def fifo (C : Capacity) (α : Type*) : Machine (List α) (Call α) (Call α × Option α) where
  step
    | l, .push m => if l.length < C.val then some (l ++ [m], [(.push m, none)]) else none
    | m :: l, .pop => some (l, [(.pop, some m)])
    | [], .pop => none
    | m :: l, .tryPop => some (l, [(.tryPop, some m)])
    | [], .tryPop => some ([], [(.tryPop, none)])

/-- The ring under operations that do not overlap, each with `fuel` probes. -/
def sequential (fuel : ℕ) (C : Capacity) (α : Type*) :
    Machine (MPMC C α) (Call α) (Call α × Option α) where
  step q
    | .push m => (q.push strong fuel (some m)).map fun q' => (q', [(.push m, none)])
    | .pop => (q.pop fuel).map fun r => (r.2, [(.pop, some r.1)])
    | .tryPop => some (q.tryPop.2, [(.tryPop, q.tryPop.1)])

/-- `push` is issued when the ring is not full, `pop` when it is not empty. -/
def Issued (q : MPMC C α) : Call α → Prop
  | .push _ => ∃ i, q.ring i = none
  | .pop => ∃ i, q.ring i ≠ none
  | .tryPop => True

/-- Each operation is matched by the abstract queue. -/
theorem Represents.step {fuel : ℕ} {q q' : MPMC C α} {l : List α} {c : Call α}
    {es : List (Call α × Option α)} (h : Represents q l) (h_issued : Issued q c)
    (h_step : (sequential (fuel + 1) C α).step q c = some (q', es)) :
    ∃ c' l', (fifo C α).step l c' = some (l', es) ∧ Represents q' l' := by
  cases c with
  | push m =>
    have h_lt := h.exists_empty_iff.mp h_issued
    simp only [sequential, h.push h_lt, Option.map_some, Option.some.injEq,
      Prod.mk.injEq] at h_step
    obtain ⟨rfl, rfl⟩ := h_step
    exact ⟨.push m, l ++ [m], if_pos h_lt, h.snoc h_lt m⟩
  | pop =>
    obtain ⟨m, rest, rfl⟩ := List.exists_cons_of_ne_nil (h.exists_full_iff.mp h_issued)
    simp only [sequential, h.pop, Option.map_some, Option.some.injEq, Prod.mk.injEq] at h_step
    obtain ⟨rfl, rfl⟩ := h_step
    -- the `fetch_add` leaves the cursor unmasked, its masked value moves by one cell
    exact ⟨.pop, rest, rfl, h.tail_of_cons (C.index_succ _)⟩
  | tryPop =>
    cases l with
    | nil =>
      simp only [sequential, h.tryPop_nil, Option.some.injEq, Prod.mk.injEq] at h_step
      obtain ⟨rfl, rfl⟩ := h_step
      exact ⟨.tryPop, [], rfl, h⟩
    | cons m rest =>
      simp only [sequential, h.tryPop_cons, Option.some.injEq, Prod.mk.injEq] at h_step
      obtain ⟨rfl, rfl⟩ := h_step
      -- here the stored cursor is masked already
      exact ⟨.tryPop, rest, rfl, h.tail_of_cons (C.index_ofNat _)⟩

/-- **The ring refines a bounded FIFO.** A run of operations that do not overlap is a
run of the abstract queue with the same calls and replies, which ends in a list `l` the
ring represents. There `push` stores at its first probe unless the queue is full, `pop`
and `try_pop` return the oldest message, and `try_pop` returns false exactly when the
queue is empty, leaving ring and cursors as they are. -/
theorem refines_fifo (fuel : ℕ) {tr : List (Call α × Option α)} {q : MPMC C α}
    (h : (sequential (fuel + 1) C α).ReachBy Issued (fresh C α) tr q) :
    ∃ l : List α, (fifo C α).Reach [] tr l ∧ Represents q l ∧
      ((∃ i, q.ring i = none) ↔ l.length < C.val) ∧
      (∀ m, l.length < C.val → q.ring (C.index q.postCursor) = none ∧
        q.push strong (fuel + 1) (some m) =
          some { q with ring := Function.update q.ring (C.index q.postCursor) (some m),
                        postCursor := q.postCursor + 1 }) ∧
      (∀ m rest, l = m :: rest →
        (q.pop (fuel + 1)).map Prod.fst = some m ∧ q.tryPop.1 = some m) ∧
      (q.tryPop.1 = none ↔ l = []) ∧ (l = [] → q.tryPop = (none, q)) := by
  -- the simulation relation is the representation; the rest reads it off
  obtain ⟨l, h_reach, h_rep⟩ := h.simulate (R := Represents) Represents.fresh
    fun _ _ _ _ _ hR h_issued h_step => hR.step h_issued h_step
  refine ⟨l, h_reach, h_rep, h_rep.exists_empty_iff, fun m h_lt =>
    ⟨h_rep.tail_empty h_lt, h_rep.push h_lt m fuel⟩, ?_, ?_, ?_⟩
  · rintro m rest rfl
    exact ⟨by rw [h_rep.pop]; rfl, by rw [h_rep.tryPop_cons]⟩
  · cases l with
    | nil => simp [h_rep.tryPop_nil]
    | cons m rest => simp [h_rep.tryPop_cons]
  · rintro rfl
    exact h_rep.tryPop_nil

/-- 7 is pushed and popped, and then 8 is pushed into the second cell. -/
theorem refines_fifo_pushPop :
    ∃ (q : MPMC two ℕ) (l : List ℕ),
      (sequential 1 two ℕ).ReachBy Issued (fresh two ℕ)
        [(.push 7, none), (.pop, some 7), (.push 8, none)] q ∧
      q.ring ⟨0, by decide⟩ = none ∧ q.ring ⟨1, by decide⟩ = some 8 ∧
      (fifo two ℕ).Reach [] [(.push 7, none), (.pop, some 7), (.push 8, none)] l ∧
      Represents q l ∧ l.head? = some 8 ∧ q.tryPop.1 = some 8 := by
  have h_room : Issued (fresh two ℕ) (.push 7) := ⟨⟨0, two.pos⟩, rfl⟩
  have h_first : (sequential 1 two ℕ).ReachBy Issued (fresh two ℕ) [(.push 7, none)] _ :=
    Machine.ReachBy.init.step h_room rfl
  have h_pop : (sequential 1 two ℕ).ReachBy Issued (fresh two ℕ)
      [(.push 7, none), (.pop, some 7)] _ :=
    h_first.step (show Issued _ .pop from ⟨⟨0, two.pos⟩, by decide⟩) rfl
  have h_second : (sequential 1 two ℕ).ReachBy Issued (fresh two ℕ)
      [(.push 7, none), (.pop, some 7), (.push 8, none)] _ :=
    h_pop.step (show Issued _ (.push 8) from ⟨⟨0, two.pos⟩, by decide⟩) rfl
  -- the ring represents a list whose head is the one message in it
  obtain ⟨l, h_reach, h_rep, -, -, h_oldest, -⟩ := refines_fifo 0 h_second
  have h_cell : l[0]? = some 8 := (h_rep.cell 0 two.pos).symm.trans rfl
  cases l with
  | nil => cases h_cell
  | cons m rest =>
    cases h_cell
    exact ⟨_, 8 :: rest, h_second, rfl, rfl, h_reach, h_rep, rfl, (h_oldest 8 rest rfl).2⟩

end MPMC

end Hft
