import Mathlib.Data.Fintype.BigOperators
import MpmcPipeline.Mem.Handoff
import MpmcPipeline.Mpmc.Fifo

/-!
# The pool and the queues in the hands of one thread

The memory of `Mem/Handoff.lean`, used by one thread at a time: every operation of the
pool and of a queue runs to its end before the next one starts. What the environment
decides in a call is an `Env`: which compare-exchanges fail spuriously, and how many
probes a push may make before the call is taken not to return.

One lemma per operation says what it has done if it succeeds: `try_pop` has taken a
message out of a cell (`Taken`), `push` has put one into an empty cell (`Placed`),
`acquire` has marked a free slot, `release` has freed one.
-/

namespace Hft

namespace Handoff

variable {P : PoolCapacity} {Q : Type*} [DecidableEq Q] {cap : Q → Capacity}

/-- What the environment decides in one call. -/
structure Env where
  acquire : MPMC.Weak
  push : MPMC.Weak
  fuel : ℕ

namespace Shared

/-- The message a pointer points to. -/
def load (sh : Shared P cap) (p : Ptr P) : TaggedMessage := sh.pool.load p

/-- Queue `q` after an operation. -/
def setQueue (sh : Shared P cap) (q : Q) (queue : MPMC (cap q) (Ptr P)) : Shared P cap :=
  { sh with queues := Function.update sh.queues q queue }

@[simp] theorem setQueue_self (sh : Shared P cap) (q : Q) (queue : MPMC (cap q) (Ptr P)) :
    (sh.setQueue q queue).queues q = queue := Function.update_self ..

theorem setQueue_of_ne (sh : Shared P cap) {q q' : Q} (h : q' ≠ q)
    (queue : MPMC (cap q) (Ptr P)) : (sh.setQueue q queue).queues q' = sh.queues q' :=
  Function.update_of_ne h ..

theorem setQueue_setQueue (sh : Shared P cap) (q : Q) (queue queue' : MPMC (cap q) (Ptr P)) :
    (sh.setQueue q queue).setQueue q queue' = sh.setQueue q queue' := by
  simp only [setQueue, Function.update_idem]

omit [DecidableEq Q] in
@[simp] theorem write_queues (sh : Shared P cap) (p : Ptr P) (m : TaggedMessage) :
    (sh.write p m).queues = sh.queues := rfl

@[simp] theorem setQueue_load (sh : Shared P cap) (q : Q) (queue : MPMC (cap q) (Ptr P))
    (p : Ptr P) : (sh.setQueue q queue).load p = sh.load p := rfl

/-- `queue.try_pop(msg)` -/
def tryPop (sh : Shared P cap) (q : Q) : Option (Ptr P) × Shared P cap :=
  match (sh.queues q).tryPop with
  | (msg, queue) => (msg, sh.setQueue q queue)

/-- `queue.push(msg)` -/
def push (env : Env) (sh : Shared P cap) (q : Q) (msg : Ptr P) : Option (Shared P cap) :=
  match (sh.queues q).push env.push env.fuel (some msg) with
  | none => none
  | some queue => some (sh.setQueue q queue)

/-- `pool.acquire()` -/
def acquire (env : Env) (sh : Shared P cap) : Option (Ptr P) × Shared P cap :=
  match sh.pool.acquire env.acquire with
  | (msg, pool) => (msg, { sh with pool })

/-- `pool.acquire_filled(src)` -/
def acquireFilled {α : Type} [WireMessage α] (env : Env) (sh : Shared P cap) (src : α) :
    Option (Ptr P) × Shared P cap :=
  match sh.pool.acquireFilled env.acquire src with
  | (msg, pool) => (msg, { sh with pool })

/-- `pool.release(msg)` -/
def release (sh : Shared P cap) (msg : Ptr P) : Shared P cap :=
  { sh with pool := sh.pool.release (P.address msg) }

omit [DecidableEq Q] in
@[simp] theorem load_write (sh : Shared P cap) (p : Ptr P) (m : TaggedMessage) :
    (sh.write p m).load p = m := TaggedPool.load_store ..

omit [DecidableEq Q] in
theorem write_write (sh : Shared P cap) (p : Ptr P) (m m' : TaggedMessage) :
    (sh.write p m).write p m' = sh.write p m' := by
  simp only [write, TaggedPool.store_store]

omit [DecidableEq Q] in
theorem load_write_of_ne (sh : Shared P cap) {p q : Ptr P} (h : q ≠ p) (m : TaggedMessage) :
    (sh.write p m).load q = sh.load q := TaggedPool.load_store_of_ne _ h m

omit [DecidableEq Q] in
theorem load_acquired (sh : Shared P cap) (p : Ptr P) (m : TaggedMessage) :
    load { sh with pool := (sh.pool.setState p 1).store p m } p = m := TaggedPool.load_store ..

omit [DecidableEq Q] in
theorem load_acquired_of_ne (sh : Shared P cap) {p q : Ptr P} (h : q ≠ p) (m : TaggedMessage) :
    load { sh with pool := (sh.pool.setState p 1).store p m } q = sh.load q := by
  rw [load, TaggedPool.load_store_of_ne _ h, TaggedPool.setState_load]
  rfl

end Shared

/-- A message has been taken out of a cell. -/
structure Taken (sh : Shared P cap) (c : Cell cap) (p : Ptr P) (sh' : Shared P cap) : Prop where
  full : sh.cell c = some p
  pool_eq : sh'.pool = sh.pool
  cell_eq : sh'.cell = Function.update sh.cell c none

/-- A message has been put into an empty cell. -/
structure Placed (sh : Shared P cap) (c : Cell cap) (p : Ptr P) (sh' : Shared P cap) : Prop where
  empty : sh.cell c = none
  pool_eq : sh'.pool = sh.pool
  cell_eq : sh'.cell = Function.update sh.cell c (some p)

/-- The ring of the queue whose cell has been written. -/
theorem ring_of_cell_eq {sh sh' : Shared P cap} {q : Q}
    {slot : Fin (cap q).val} {x : Option (Ptr P)}
    (h : sh'.cell = Function.update sh.cell ⟨q, slot⟩ x) :
    (sh'.queues q).ring = Function.update (sh.queues q).ring slot x := by
  funext other
  have h_cell := congrFun h ⟨q, other⟩
  by_cases h_slot : other = slot
  · subst h_slot
    rw [Function.update_self] at h_cell ⊢
    exact h_cell
  · rw [Function.update_of_ne fun h_eq => h_slot (by cases h_eq; rfl)] at h_cell
    rw [Function.update_of_ne h_slot]
    exact h_cell

/-- The ring of another queue. -/
theorem ring_of_cell_eq_of_ne {sh sh' : Shared P cap} {q q' : Q}
    {slot : Fin (cap q).val} {x : Option (Ptr P)}
    (h : sh'.cell = Function.update sh.cell ⟨q, slot⟩ x) (h_q : q' ≠ q) :
    (sh'.queues q').ring = (sh.queues q').ring := by
  funext other
  have h_cell := congrFun h ⟨q', other⟩
  rw [Function.update_of_ne fun h_eq => h_q (congrArg Sigma.fst h_eq)] at h_cell
  exact h_cell

/-- The cells after one slot of one queue has been written. -/
theorem cell_setQueue (sh : Shared P cap) (q : Q) (queue : MPMC (cap q) (Ptr P))
    {slot : Fin (cap q).val} {x : Option (Ptr P)}
    (h_ring : queue.ring = Function.update (sh.queues q).ring slot x) :
    (sh.setQueue q queue).cell = Function.update sh.cell ⟨q, slot⟩ x := by
  funext c
  unfold Shared.setQueue
  by_cases h_c : c = ⟨q, slot⟩
  · subst h_c
    rw [cell_update_self, h_ring, Function.update_self, Function.update_self]
  · rw [cell_update_other sh q queue h_ring c h_c, Function.update_of_ne h_c]

namespace Shared

theorem tryPop_some {sh sh' : Shared P cap} {q : Q} {p : Ptr P}
    (h : sh.tryPop q = (some p, sh')) : ∃ slot, Taken sh ⟨q, slot⟩ p sh' := by
  simp only [tryPop, Prod.mk.injEq] at h
  obtain ⟨h_result, rfl⟩ := h
  have h_pop : (sh.queues q).tryPop = (some p, (sh.queues q).tryPop.2) := by rw [← h_result]
  -- which cell it was does not matter to the pool and the other queues
  obtain ⟨n, -, h_full, -, h_queue⟩ := MPMC.tryPop_eq_some h_pop
  refine ⟨(cap q).advance ((cap q).index (sh.queues q).popCursor) n, h_full, rfl,
    cell_setQueue sh q _ ?_⟩
  rw [h_queue]

/-- A failed `try_pop` leaves memory as it is. -/
theorem tryPop_none {sh sh' : Shared P cap} {q : Q} (h : sh.tryPop q = (none, sh')) :
    sh' = sh := by
  simp only [tryPop, Prod.mk.injEq] at h
  obtain ⟨h_result, rfl⟩ := h
  have h_queue : (sh.queues q).tryPop = (none, (sh.queues q).tryPop.2) := by rw [← h_result]
  -- every exchange has written `nullptr` over `nullptr`
  rw [(MPMC.tryPop_eq_none h_queue).2, setQueue, Function.update_eq_self]

theorem push_some {env : Env} {sh sh' : Shared P cap} {q : Q} {p : Ptr P}
    (h : sh.push env q p = some sh') : ∃ slot, Placed sh ⟨q, slot⟩ p sh' := by
  simp only [push] at h
  split at h
  · cases h
  · next queue h_push =>
    obtain ⟨slot, h_empty, rfl⟩ := MPMC.push_eq_some h_push
    cases h
    exact ⟨slot, h_empty, rfl, cell_setQueue sh q _ rfl⟩

omit [DecidableEq Q] in
/-- A successful `acquire` marks a free slot and clears its body. -/
theorem acquire_some {env : Env} {sh sh' : Shared P cap} {p : Ptr P}
    (h : sh.acquire env = (some p, sh')) :
    (sh.pool.slots p).state = 0 ∧
      sh' = { sh with pool := (sh.pool.setState p 1).store p TaggedMessage.fresh } := by
  simp only [acquire, Prod.mk.injEq] at h
  obtain ⟨h_result, rfl⟩ := h
  have h_acquire : sh.pool.acquire env.acquire =
      (some p, (sh.pool.acquire env.acquire).2) := by
    rw [← h_result]
  obtain ⟨h_free, h_pool⟩ := TaggedPool.acquire_eq_some h_acquire
  exact ⟨h_free, by rw [h_pool]⟩

omit [DecidableEq Q] in
theorem acquire_none {env : Env} {sh sh' : Shared P cap} (h : sh.acquire env = (none, sh')) :
    sh' = sh := by
  simp only [acquire, Prod.mk.injEq] at h
  obtain ⟨h_result, rfl⟩ := h
  have h_pool : sh.pool.acquire env.acquire = (none, (sh.pool.acquire env.acquire).2) := by
    rw [← h_result]
  rw [TaggedPool.acquire_eq_none h_pool]

omit [DecidableEq Q] in
theorem acquireFilled_some {α : Type} [WireMessage α] {env : Env} {src : α}
    {sh sh' : Shared P cap} {p : Ptr P} (h : sh.acquireFilled env src = (some p, sh')) :
    (sh.pool.slots p).state = 0 ∧
      sh' = { sh with
        pool := (sh.pool.setState p 1).store p (TaggedMessage.fresh.fill src) } := by
  simp only [acquireFilled, Prod.mk.injEq] at h
  obtain ⟨h_result, rfl⟩ := h
  have h_acquire : sh.pool.acquireFilled env.acquire src =
      (some p, (sh.pool.acquireFilled env.acquire src).2) := by
    rw [← h_result]
  obtain ⟨h_free, h_pool⟩ := TaggedPool.acquireFilled_eq_some h_acquire
  exact ⟨h_free, by rw [h_pool]⟩

omit [DecidableEq Q] in
theorem acquireFilled_none {α : Type} [WireMessage α] {env : Env} {src : α}
    {sh sh' : Shared P cap} (h : sh.acquireFilled env src = (none, sh')) : sh' = sh := by
  simp only [acquireFilled, Prod.mk.injEq] at h
  obtain ⟨h_result, rfl⟩ := h
  have h_pool : sh.pool.acquireFilled env.acquire src =
      (none, (sh.pool.acquireFilled env.acquire src).2) := by
    rw [← h_result]
  rw [TaggedPool.acquireFilled_eq_none h_pool]

omit [DecidableEq Q] in
theorem release_eq (sh : Shared P cap) (p : Ptr P) :
    sh.release p = { sh with pool := sh.pool.setState p 0 } := by
  rw [release, TaggedPool.release_address]

omit [DecidableEq Q] in
/-- The full cells are as many as the queues hold messages. -/
theorem card_full [Fintype Q] (sh : Shared P cap) :
    (Finset.univ.filter fun c : Cell cap => sh.cell c ≠ none).card =
      ∑ q, (sh.queues q).occupancy := by
  -- cell by cell: a full one counts one, an empty one nothing
  rw [Finset.card_filter, Fintype.sum_sigma]
  refine Finset.sum_congr rfl fun q _ => ?_
  rw [MPMC.occupancy_eq_sum]
  refine Finset.sum_congr rfl fun slot _ => ?_
  unfold cell
  cases (sh.queues q).ring slot <;> rfl

/-! ### Queues in order -/

theorem tryPop_nil {sh : Shared P cap} {q : Q} (h : (sh.queues q).Represents []) :
    sh.tryPop q = (none, sh) := by
  simp [tryPop, h.tryPop_nil, setQueue]

theorem tryPop_cons {sh : Shared P cap} {q : Q} {p : Ptr P} {l : List (Ptr P)}
    (h : (sh.queues q).Represents (p :: l)) : ∃ queue, queue.Represents l ∧
      sh.tryPop q = (some p, sh.setQueue q queue) := by
  refine ⟨_, h.tail_of_cons (Capacity.index_ofNat _ _), ?_⟩
  rw [tryPop, h.tryPop_cons]

/-- A pop that has found nothing has found the empty list. -/
theorem tryPop_eq_nil {sh sh' : Shared P cap} {q : Q} {l : List (Ptr P)}
    (h : (sh.queues q).Represents l) (h_pop : sh.tryPop q = (none, sh')) : l = [] ∧ sh' = sh := by
  cases l with
  | nil =>
    rw [tryPop_nil h] at h_pop
    cases h_pop
    exact ⟨rfl, rfl⟩
  | cons p l =>
    obtain ⟨queue, -, h_some⟩ := tryPop_cons h
    rw [h_some] at h_pop
    cases h_pop

/-- A pop that has taken a message has taken the head. -/
theorem tryPop_eq_cons {sh sh' : Shared P cap} {q : Q} {p : Ptr P} {l : List (Ptr P)}
    (h : (sh.queues q).Represents l) (h_pop : sh.tryPop q = (some p, sh')) :
    ∃ rest queue, l = p :: rest ∧ queue.Represents rest ∧ sh' = sh.setQueue q queue := by
  cases l with
  | nil =>
    rw [tryPop_nil h] at h_pop
    cases h_pop
  | cons p l =>
    obtain ⟨queue, h_queue, h_some⟩ := tryPop_cons h
    rw [h_some] at h_pop
    cases h_pop
    exact ⟨l, queue, rfl, h_queue, rfl⟩

theorem push_snoc {env : Env} (sh : Shared P cap) (q : Q) {l : List (Ptr P)} (p : Ptr P)
    (h : (sh.queues q).Represents l) (h_lt : l.length < (cap q).val)
    (h_strong : env.push = MPMC.strong) (h_fuel : (cap q).val ≤ env.fuel) :
    ∃ queue, queue.Represents (l ++ [p]) ∧
      sh.push env q p = some (sh.setQueue q queue) := by
  obtain ⟨fuel, h_eq⟩ := Nat.exists_eq_succ_of_ne_zero (by omega : env.fuel ≠ 0)
  refine ⟨_, h.snoc h_lt p, ?_⟩
  rw [push, h_strong, h_eq, h.push h_lt p fuel]

/-- A strong push that has returned has found room, and has put its message at the tail. -/
theorem push_eq_snoc {env : Env} {sh sh' : Shared P cap} {q : Q} {p : Ptr P} {l : List (Ptr P)}
    (h : (sh.queues q).Represents l) (h_strong : env.push = MPMC.strong)
    (h_push : sh.push env q p = some sh') :
    ∃ queue, queue.Represents (l ++ [p]) ∧ sh' = sh.setQueue q queue := by
  rw [push, h_strong] at h_push
  cases h_returned : (sh.queues q).push MPMC.strong env.fuel (some p) with
  | none =>
    rw [h_returned] at h_push
    cases h_push
  | some queue =>
    rw [h_returned] at h_push
    cases h_push
    -- a `push` that has returned has found an empty cell, so the queue was not full
    obtain ⟨slot, h_empty, -⟩ := MPMC.push_eq_some h_returned
    have h_lt := h.exists_empty_iff.mp ⟨slot, h_empty⟩
    refine ⟨queue, ?_, rfl⟩
    -- and a strong one has needed one probe, for the cell at the cursor is empty
    cases h_fuel : env.fuel with
    | zero =>
      rw [h_fuel] at h_returned
      cases h_returned
    | succ fuel =>
      rw [h_fuel, h.push h_lt p fuel] at h_returned
      cases h_returned
      exact h.snoc h_lt p

/-- A push into a queue with room. -/
theorem push_room {env : Env} (sh : Shared P cap) (q : Q) (p : Ptr P)
    (h_room : (sh.queues q).occupancy < (cap q).val)
    (h_strong : env.push = MPMC.strong) (h_fuel : (cap q).val ≤ env.fuel) :
    ∃ queue, MPMC.cells queue.ring = MPMC.cells (sh.queues q).ring + {p} ∧
      sh.push env q p = some (sh.setQueue q queue) := by
  obtain ⟨slot, h_empty⟩ := MPMC.exists_empty_of_room h_room
  obtain ⟨queue, h_push⟩ := MPMC.push_strong_isSome (sh.queues q) p h_fuel h_empty
  obtain ⟨i, h_i, h_queue⟩ := MPMC.push_eq_some h_push
  refine ⟨queue, ?_, ?_⟩
  · rw [h_queue]
    exact MPMC.cells_update_some h_i
  · rw [push, h_strong, h_push]

end Shared

end Handoff

end Hft
