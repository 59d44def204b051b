import MpmcPipeline.Mpmc.Conservation

/-!
# One producer and one consumer

One thread only pushes, one thread only calls `try_pop`, compare-exchanges fail on
occupied cells only. Are the messages returned in the order in which they were pushed?

Not always. The cursors are hints, and the order is lost where a call moves on from the
cell its cursor named:

* `scanRun`: `try_pop` has found a cell empty and scans on while the producer fills the
  cells behind the scan and ahead of it, so the younger message is met first;
* `wrapRun`: the ring is full, so `push` probes on, and by the time it finds an empty
  cell the cells before it have been emptied too and the next push falls behind it.

`spsc_not_fifo` has both. While every push takes effect in the cell its `fetch_add`
named and every message is taken from the cell the cursor load named
(`AtFirstCell`), the order is kept (`spsc_fifo`): the `n`-th message stored and the
`n`-th message taken are both at cell `n` modulo the capacity (`InOrder`). A ring of one
cell meets the condition always.
-/

namespace Hft

open Capacity (two)

namespace MPMC

variable {C : Capacity} {α : Type*}

/-- The two threads. -/
inductive Role
  | producer
  | consumer
  deriving DecidableEq

/-- The messages the calls of `push` were made with. -/
def pushes (es : List (Event α)) : List α :=
  es.filterMap fun
    | .called (.push message) => some message
    | _ => none

@[simp] theorem pushes_append (es es' : List (Event α)) :
    pushes (es ++ es') = pushes es ++ pushes es' := List.filterMap_append

/-- A thread stores what it was called with. -/
theorem Steps.pending {q q' : MPMC C α} {pc pc' : Pc C α} {ch : Choice α}
    {es : List (Event α)} (h : Steps q pc ch q' pc' es) :
    pc.pending ++ pushes es = stores es ++ pc'.pending := by
  cases h with
  | call c => cases c <;> rfl
  | _ => rfl

/-- The producer only pushes, the consumer only calls `try_pop`, and no
compare-exchange fails on an empty cell. -/
def OneEach : Role × Choice α → Bool
  | (.producer, .call (.push _)) => true
  | (.consumer, .call .tryPop) => true
  | (_, .run) => true
  | _ => false

/-- A compare-exchange takes effect in the cell the `fetch_add` before it named (with
one producer, the cell of `post_cursor - 1`), and an exchange of `try_pop` takes a
message from the cell the cursor load named. -/
def AtFirstCell (s : Shared Role C α) (a : Role × Choice α) : Prop :=
  match s.loc a.1 with
  | .pushCas _ slot =>
    s.shared.ring slot = none → slot = C.index (s.shared.postCursor - 1#32)
  | .tryExchange slot probe =>
    s.shared.ring (C.index (slot + BitVec.ofNat 32 probe)) ≠ none →
      C.index (slot + BitVec.ofNat 32 probe) = C.index slot
  | _ => True

instance (s : Shared Role C α) (a : Role × Choice α) : Decidable (AtFirstCell s a) := by
  unfold AtFirstCell
  exact match s.loc a.1 with
    | .pushCas _ _ => inferInstance
    | .tryExchange _ _ => inferInstance
    | .idle | .pushFetch _ | .popFetch | .popExchange _ | .tryLoad | .tryStore _ _ =>
      inferInstanceAs (Decidable True)

/-- The cell of the `n`-th message. -/
def nth (C : Capacity) (n : ℕ) : Fin C.val := C.advance (C.index 0#32) n

theorem index_ofNat_nth (C : Capacity) (n : ℕ) : C.index (BitVec.ofNat 32 n) = nth C n := by
  have h := C.index_add 0#32 n
  rwa [BitVec.zero_add] at h

@[simp] theorem next_nth (C : Capacity) (n : ℕ) : C.next (nth C n) = nth C (n + 1) :=
  C.next_advance _ n

/-- Cells less than a full round apart are different. -/
theorem nth_ne {C : Capacity} {n k : ℕ} (h_lt : n < k) (h_near : k < n + C.val) :
    nth C n ≠ nth C k := by
  intro h_eq
  obtain ⟨d, rfl⟩ := Nat.exists_eq_add_of_lt h_lt
  have h_adv : C.advance (nth C n) 0 = C.advance (nth C n) (d + 1) := by
    rw [C.advance_zero, nth, C.advance_advance]
    exact h_eq
  have := C.advance_injective _ C.pos (by omega) h_adv
  omega

/-- After the messages `stored` have been stored and `taken` taken, the cells from
number `taken.length` on hold the rest in order, and the cursors point there. -/
structure InOrder (q : MPMC C α) (producer consumer : Pc C α) (stored taken : List α) :
    Prop where
  taken_eq : taken = stored.take taken.length
  room : stored.length ≤ taken.length + C.val
  cell : ∀ n, taken.length ≤ n → n < taken.length + C.val → q.ring (nth C n) = stored[n]?
  post : match producer with
    | .idle | .pushFetch _ => q.postCursor = BitVec.ofNat 32 stored.length
    | .pushCas _ _ => q.postCursor = BitVec.ofNat 32 (stored.length + 1)
    | _ => False
  -- between the exchange and the cursor store the cursor is behind
  pop : match consumer with
    | .idle | .tryLoad => C.index q.popCursor = nth C taken.length
    | .tryExchange slot _ =>
      C.index q.popCursor = nth C taken.length ∧ C.index slot = nth C taken.length
    | .tryStore _ idx => C.next idx = nth C taken.length
    | _ => False

/-- A message stored at its own cell keeps the order. -/
theorem InOrder.store {q : MPMC C α} {m : α} {slot : Fin C.val} {consumer : Pc C α}
    {stored taken : List α} (h : InOrder q (.pushCas m slot) consumer stored taken)
    (h_empty : q.ring slot = none) (h_first : slot = C.index (q.postCursor - 1#32)) :
    InOrder { q with ring := Function.update q.ring slot (some m) } .idle consumer
      (stored ++ [m]) taken := by
  -- the cell before the cursor is the cell of the next message
  have h_slot : slot = nth C stored.length := by
    have h_post : q.postCursor = BitVec.ofNat 32 (stored.length + 1) := h.post
    rw [h_first, h_post, BitVec.ofNat_add, BitVec.add_sub_cancel, index_ofNat_nth]
  subst h_slot
  -- the cell was empty, so the ring was not full
  have h_len : taken.length ≤ stored.length := by
    have := congrArg List.length h.taken_eq
    rw [List.length_take] at this
    omega
  have h_room : stored.length < taken.length + C.val := by
    rcases Nat.lt_or_eq_of_le h.room with h_lt | h_eq
    · exact h_lt
    · have h_pos := C.pos
      have h_cell := h.cell taken.length le_rfl (by omega)
      have h_same : nth C stored.length = nth C taken.length := by
        rw [h_eq, nth, ← C.advance_advance, C.advance_val, nth]
      rw [h_same, h_cell, List.getElem?_eq_none_iff] at h_empty
      omega
  refine ⟨?_, ?_, ?_, ?_, h.pop⟩
  · rw [List.take_append_of_le_length h_len]
    exact h.taken_eq
  · rw [List.length_append, List.length_singleton]
    exact h_room
  · intro n h_ge h_lt
    show Function.update q.ring (nth C stored.length) (some m) (nth C n) = (stored ++ [m])[n]?
    rcases Nat.lt_trichotomy n stored.length with h_n | rfl | h_n
    · rw [Function.update_of_ne (nth_ne h_n (by omega)), h.cell n h_ge h_lt,
        List.getElem?_append_left h_n]
    · simp
    · rw [Function.update_of_ne (nth_ne h_n (by omega)).symm, h.cell n h_ge h_lt,
        List.getElem?_eq_none_iff.mpr (by omega), List.getElem?_eq_none_iff.mpr]
      rw [List.length_append, List.length_singleton]
      exact h_n
  · show q.postCursor = BitVec.ofNat 32 (stored ++ [m]).length
    rw [List.length_append, List.length_singleton]
    exact h.post

/-- A message taken from the cell under the cursor is the oldest one. -/
theorem InOrder.take {q : MPMC C α} {m : α} {producer : Pc C α} {slot : BitVec 32}
    {probe : ℕ} {stored taken : List α}
    (h : InOrder q producer (.tryExchange slot probe) stored taken)
    (h_full : q.ring (C.index (slot + BitVec.ofNat 32 probe)) = some m)
    (h_first : C.index (slot + BitVec.ofNat 32 probe) = C.index slot) :
    InOrder { q with
        ring := Function.update q.ring (C.index (slot + BitVec.ofNat 32 probe)) none }
      producer (.tryStore m (C.index (slot + BitVec.ofNat 32 probe))) stored
      (taken ++ [m]) := by
  obtain ⟨-, h_slot⟩ : C.index q.popCursor = nth C taken.length ∧
      C.index slot = nth C taken.length := h.pop
  rw [h_first, h_slot] at h_full ⊢
  have h_pos := C.pos
  have h_oldest : stored[taken.length]? = some m := by
    rw [← h.cell taken.length le_rfl (by omega)]
    exact h_full
  refine ⟨?_, ?_, ?_, h.post, ?_⟩
  · rw [List.length_append, List.length_singleton, List.take_add_one, h_oldest,
      Option.toList_some, ← h.taken_eq]
  · have := h.room
    rw [List.length_append, List.length_singleton]
    omega
  · intro n h_ge h_lt
    rw [List.length_append, List.length_singleton] at h_ge h_lt
    show Function.update q.ring (nth C taken.length) none (nth C n) = stored[n]?
    by_cases h_last : n = taken.length + C.val
    · -- the cell a full round ahead is the one just emptied
      have h_same : nth C n = nth C taken.length := by
        rw [h_last, nth, ← C.advance_advance, C.advance_val, nth]
      have := h.room
      rw [h_same, Function.update_self]
      exact (List.getElem?_eq_none_iff.mpr (by omega)).symm
    · rw [Function.update_of_ne (nth_ne (by omega) (by omega)).symm]
      exact h.cell n (by omega) (by omega)
  · show C.next (nth C taken.length) = nth C (taken ++ [m]).length
    rw [next_nth, List.length_append, List.length_singleton]

/-- What a step of the producer keeps. -/
theorem InOrder.producer_step {q q' : MPMC C α} {pc pc' consumer : Pc C α}
    {ch : Choice α} {es : List (Event α)} {stored taken : List α}
    (h : InOrder q pc consumer stored taken) (h_one : OneEach (Role.producer, ch))
    (h_first : ∀ m slot, pc = .pushCas m slot → q.ring slot = none →
      slot = C.index (q.postCursor - 1#32))
    (h_step : Steps q pc ch q' pc' es) :
    InOrder q' pc' consumer (stored ++ stores es) (taken ++ takes es) := by
  cases h_step with
  | call c =>
    cases c with
    | push m => simpa [stores, takes, Pc.start] using
        (⟨h.taken_eq, h.room, h.cell, h.post, h.pop⟩ :
          InOrder q (.pushFetch m) consumer stored taken)
    | pop => exact absurd h_one (by simp [OneEach])
    | tryPop => exact absurd h_one (by simp [OneEach])
  | fetchPost m =>
    have h_post : q.postCursor = BitVec.ofNat 32 stored.length := h.post
    have h_next : q.postCursor + 1 = BitVec.ofNat 32 (stored.length + 1) := by
      rw [h_post, BitVec.ofNat_add]
      rfl
    simpa [stores, takes] using (⟨h.taken_eq, h.room, h.cell, h_next, h.pop⟩ :
      InOrder { q with postCursor := q.postCursor + 1 } (.pushCas m (C.index q.postCursor))
        consumer stored taken)
  | casStore m slot h_empty =>
    simpa [stores, takes] using h.store h_empty (h_first m slot rfl h_empty)
  | casFail m slot ch h_fail =>
    -- a failed probe is allowed; storing there later is what `h_first` excludes
    simpa [stores, takes] using (⟨h.taken_eq, h.room, h.cell, h.post, h.pop⟩ :
      InOrder q (.pushCas m (C.next slot)) consumer stored taken)
  | _ => exact absurd h.post (by simp)

/-- What a step of the consumer keeps. -/
theorem InOrder.consumer_step {q q' : MPMC C α} {pc pc' producer : Pc C α}
    {ch : Choice α} {es : List (Event α)} {stored taken : List α}
    (h : InOrder q producer pc stored taken) (h_one : OneEach (Role.consumer, ch))
    (h_first : ∀ slot probe, pc = .tryExchange slot probe →
      q.ring (C.index (slot + BitVec.ofNat 32 probe)) ≠ none →
      C.index (slot + BitVec.ofNat 32 probe) = C.index slot)
    (h_step : Steps q pc ch q' pc' es) :
    InOrder q' producer pc' (stored ++ stores es) (taken ++ takes es) := by
  -- only a take changes what is queued; the other operations move the program point
  cases h_step with
  | call c =>
    cases c with
    -- a consumer that pushes or blocks is none of the two threads
    | push m => exact absurd h_one (by simp [OneEach])
    | pop => exact absurd h_one (by simp [OneEach])
    | tryPop => simpa [stores, takes, Pc.start] using
        (⟨h.taken_eq, h.room, h.cell, h.post, h.pop⟩ :
          InOrder q producer .tryLoad stored taken)
  | loadPop =>
    simpa [stores, takes] using (⟨h.taken_eq, h.room, h.cell, h.post, h.pop, h.pop⟩ :
      InOrder q producer (.tryExchange q.popCursor 0) stored taken)
  | tryTake m slot probe h_full =>
    simpa [stores, takes] using
      h.take h_full (h_first slot probe rfl (by rw [h_full]; simp))
  | tryMiss slot probe h_empty h_more =>
    simpa [stores, takes] using (⟨h.taken_eq, h.room, h.cell, h.post, h.pop⟩ :
      InOrder q producer (.tryExchange slot (probe + 1)) stored taken)
  | tryFail slot probe h_empty h_last =>
    simpa [stores, takes] using (⟨h.taken_eq, h.room, h.cell, h.post, h.pop.1⟩ :
      InOrder q producer .idle stored taken)
  | storePop m idx =>
    have h_pop : C.index (BitVec.ofNat 32 (C.next idx)) = nth C taken.length := by
      -- the store masks the cell's successor, which is where the next take is due
      rw [C.index_ofNat]
      exact h.pop
    simpa [stores, takes] using (⟨h.taken_eq, h.room, h.cell, h.post, h_pop⟩ :
      InOrder { q with popCursor := BitVec.ofNat 32 (C.next idx) } producer .idle stored taken)
  | _ => exact absurd h.pop (by simp)

/-- The run invariant: the order of the ring, and the producer's calls. -/
structure SpscInv (tr : List (Role × Event α)) (s : Shared Role C α) : Prop where
  order : InOrder s.shared (s.loc .producer) (s.loc .consumer)
    (stores (Threads.events tr)) (takes (Threads.events tr))
  calls : pushes (Threads.eventsOf Role.producer tr) =
    stores (Threads.events tr) ++ (s.loc .producer).pending
  consumed : takes (Threads.events tr) = takes (Threads.eventsOf Role.consumer tr)

theorem SpscInv.init : SpscInv [] (Shared.init Role C α) where
  order :=
    { taken_eq := rfl
      room := Nat.zero_le _
      cell := fun _ _ _ => rfl
      post := rfl
      pop := (C.advance_zero _).symm }
  calls := rfl
  consumed := rfl

/-- Neither thread does the work of the other. -/
theorem InOrder.consumer_stores {q q' : MPMC C α} {pc pc' producer : Pc C α}
    {ch : Choice α} {es : List (Event α)} {stored taken : List α}
    (h : InOrder q producer pc stored taken) (h_step : Steps q pc ch q' pc' es) :
    stores es = [] := by
  cases h_step with
  | casStore m slot h_empty => exact absurd h.pop (by simp)
  | _ => rfl

theorem InOrder.producer_takes {q q' : MPMC C α} {pc pc' consumer : Pc C α}
    {ch : Choice α} {es : List (Event α)} {stored taken : List α}
    (h : InOrder q pc consumer stored taken) (h_step : Steps q pc ch q' pc' es) :
    takes es = [] := by
  cases h_step with
  | popTake m slot h_full => exact absurd h.post (by simp)
  | tryTake m slot probe h_full => exact absurd h.post (by simp)
  | _ => rfl

theorem SpscInv.step {tr : List (Role × Event α)} {s s' : Shared Role C α}
    {a : Role × Choice α} {es : List (Role × Event α)} (hI : SpscInv tr s)
    (h_one : OneEach a) (h_first : AtFirstCell s a)
    (h : (machine Role C α).step s a = some (s', es)) : SpscInv (tr ++ es) s' := by
  obtain ⟨q, pc, es', h_step, rfl, rfl⟩ := Threads.machine_step h
  have h_steps := step_steps h_step
  obtain ⟨r, ch⟩ := a
  cases r with
  | producer =>
    -- the consumer's program point and history do not move
    have h_order := hI.order.producer_step h_one
      (fun m slot h_pc h_empty => by
        have h_cell := h_first
        simp only [AtFirstCell, h_pc] at h_cell
        exact h_cell h_empty) h_steps
    have h_takes := hI.order.producer_takes h_steps
    refine ⟨?_, ?_, ?_⟩
    · simpa using h_order
    · have h_pending := h_steps.pending
      simp only [Threads.eventsOf_append, Threads.eventsOf_map_self, pushes_append, hI.calls,
        Threads.events_append, Threads.events_map_pair, stores_append, List.append_assoc,
        Function.update_self]
      rw [h_pending]
    · simp [hI.consumed, h_takes, Threads.eventsOf_map_of_ne]
  | consumer =>
    have h_order := hI.order.consumer_step h_one
      (fun slot probe h_pc h_full => by
        have h_cell := h_first
        simp only [AtFirstCell, h_pc] at h_cell
        exact h_cell h_full) h_steps
    have h_stores := hI.order.consumer_stores h_steps
    refine ⟨?_, ?_, ?_⟩
    · simpa using h_order
    · simp [hI.calls, h_stores, Threads.eventsOf_map_of_ne]
    · simp [hI.consumed]

/-- **Order under a stated condition.** One producer that only pushes, one consumer that only
calls `try_pop`, compare-exchanges that fail on occupied cells only: as long as every push
takes effect in the cell its `fetch_add` named and every message is taken from the cell the
cursor load named, the messages returned to the consumer are a prefix of the messages
pushed. -/
theorem spsc_fifo {tr : List (Role × Event α)} {s : Shared Role C α}
    (h : (machine Role C α).ReachBy (fun s a => OneEach a ∧ AtFirstCell s a)
      (Shared.init Role C α) tr s) :
    returns (Threads.eventsOf Role.consumer tr) <+:
      pushes (Threads.eventsOf Role.producer tr) := by
  have hI : SpscInv tr s := h.inv SpscInv.init
    fun _ _ _ _ _ hI hC h_step => hI.step hC.1 hC.2 h_step
  have hB : Balanced tr s := Balanced.reach (h.mono fun _ _ _ => trivial)
  -- returned ≤ taken ≤ stored ≤ pushed, each a prefix of the next
  have h_returned : returns (Threads.eventsOf Role.consumer tr) <+:
      takes (Threads.eventsOf Role.consumer tr) := by
    rw [hB.hands Role.consumer]
    exact List.prefix_append _ _
  have h_taken : takes (Threads.eventsOf Role.consumer tr) <+: stores (Threads.events tr) := by
    rw [← hI.consumed, hI.order.taken_eq]
    exact List.take_prefix _ _
  have h_stored : stores (Threads.events tr) <+:
      pushes (Threads.eventsOf Role.producer tr) := by
    rw [hI.calls]
    exact List.prefix_append _ _
  exact (h_returned.trans h_taken).trans h_stored

/-- The producer pushes `m` and its first probe succeeds. -/
def pushOnce (m : ℕ) : List (Role × Choice ℕ) :=
  [(.producer, .call (.push m)), (.producer, .run), (.producer, .run)]

/-- The consumer calls `try_pop`, loads the cursor and makes its first probe. -/
def probeOnce : List (Role × Choice ℕ) :=
  [(.consumer, .call .tryPop), (.consumer, .run), (.consumer, .run)]

/-- Two pushes while the consumer is between its cursor load and its first probe meet
the hypothesis of `spsc_fifo`. -/
theorem spsc_fifo_pushPush :
    ∃ (tr : List (Role × Event ℕ)) (s : Shared Role two ℕ),
      (machine Role two ℕ).ReachBy (fun s a => OneEach a ∧ AtFirstCell s a)
        (Shared.init Role two ℕ) tr s ∧
      returns (Threads.eventsOf Role.consumer tr) = [1] ∧
      returns (Threads.eventsOf Role.consumer tr) <+:
        pushes (Threads.eventsOf Role.producer tr) := by
  obtain ⟨tr, s, h_reach, h_ret⟩ := Machine.exists_reachBy_of_runBy
    (machine Role two ℕ) (fun s a => OneEach a ∧ AtFirstCell s a) (Shared.init Role two ℕ)
    ([(.consumer, .call .tryPop), (.consumer, .run)] ++ pushOnce 1 ++ pushOnce 2 ++
      [(.consumer, .run), (.consumer, .run)])
    (fun _ tr => decide (returns (Threads.eventsOf Role.consumer tr) = [1])) (by decide +kernel)
  exact ⟨tr, s, h_reach, of_decide_eq_true h_ret, spsc_fifo h_reach⟩

/-! ### The order without the condition -/

/-- A scan of the empty ring is overtaken: cell 0 is probed, then 1 and 2 are pushed,
then cell 1 is probed. -/
def scanRun : List (Role × Choice ℕ) :=
  probeOnce ++ pushOnce 1 ++ pushOnce 2 ++ [(.consumer, .run), (.consumer, .run)] ++
    probeOnce ++ [(.consumer, .run)]

/-- The push of 3 finds the ring full at cell 0 and moves on to cell 1, both cells are
emptied, 3 goes into cell 1 and the push of 4 into cell 0. -/
def wrapRun : List (Role × Choice ℕ) :=
  pushOnce 1 ++ pushOnce 2 ++ pushOnce 3 ++ probeOnce ++ [(.consumer, .run)] ++ probeOnce ++
    [(.consumer, .run), (.producer, .run)] ++ pushOnce 4 ++ [(.producer, .run)] ++
    probeOnce ++ [(.consumer, .run)] ++ probeOnce ++ [(.consumer, .run)]

/-- **One producer and one consumer do not make a FIFO.** In a ring of two cells, with
distinct messages and compare-exchanges that fail on occupied cells only, a run in which
every push takes effect at its first probe returns the second message before the first,
and a run in which every message is taken at the first probe returns the fourth before
the third. -/
theorem spsc_not_fifo :
    (∃ (tr : List (Role × Event ℕ)) (s : Shared Role two ℕ),
      (machine Role two ℕ).ReachBy (fun _ a => OneEach a) (Shared.init Role two ℕ) tr s ∧
      pushes (Threads.eventsOf Role.producer tr) = [1, 2] ∧
      returns (Threads.eventsOf Role.consumer tr) = [2, 1]) ∧
    ∃ (tr : List (Role × Event ℕ)) (s : Shared Role two ℕ),
      (machine Role two ℕ).ReachBy (fun _ a => OneEach a) (Shared.init Role two ℕ) tr s ∧
      pushes (Threads.eventsOf Role.producer tr) = [1, 2, 3, 4] ∧
      returns (Threads.eventsOf Role.consumer tr) = [1, 2, 4, 3] := by
  constructor
  · -- message 1 is missed by a scan that has passed its cell, and 2 is found behind it
    obtain ⟨tr, s, h_reach, h_out⟩ := Machine.exists_reachBy_of_runBy
      (machine Role two ℕ) (fun _ a => OneEach a) (Shared.init Role two ℕ) scanRun
      (fun _ tr => decide (pushes (Threads.eventsOf Role.producer tr) = [1, 2] ∧
        returns (Threads.eventsOf Role.consumer tr) = [2, 1]))
      (by decide +kernel)
    exact ⟨tr, s, h_reach, of_decide_eq_true h_out⟩
  · -- message 3 has moved on to cell 1, so the scan comes to message 4 first
    obtain ⟨tr, s, h_reach, h_out⟩ := Machine.exists_reachBy_of_runBy
      (machine Role two ℕ) (fun _ a => OneEach a) (Shared.init Role two ℕ) wrapRun
      (fun _ tr => decide (pushes (Threads.eventsOf Role.producer tr) = [1, 2, 3, 4] ∧
        returns (Threads.eventsOf Role.consumer tr) = [1, 2, 4, 3]))
      (by decide +kernel)
    exact ⟨tr, s, h_reach, of_decide_eq_true h_out⟩

end MPMC

end Hft
