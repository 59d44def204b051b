import MpmcPipeline.Machine.Basic
import MpmcPipeline.Mpmc.Ring

/-!
# The interleaved semantics of `MPMC`

Each atomic operation of `push`, `pop` and `try_pop` is one step: the `fetch_add`, load
and store of a cursor, the `compare_exchange_weak` and the `exchange` of a cell. A
thread between two of its atomic operations is at a program point `Pc`, which holds the
local variables the rest of the call needs; what the code computes from locals alone
(the next slot, the exit test of a loop) happens in the step before it.

`MPMC.step` is the step function of one thread and `MPMC.Steps` its inversion, one rule
for each thing a step can do. The choice `spurious` is a failure of
`compare_exchange_weak` on an empty cell.

The last section ties the sequential operations of `Mpmc/Ring.lean` to these steps: a
thread that runs alone computes `push`, `pop` and `try_pop`.
-/

namespace Hft

namespace MPMC

variable {C : Capacity} {α : Type*}

/-- A call on the queue; `push` is called with a non-null message. -/
inductive Call (α : Type*)
  | push (message : α)
  | pop
  | tryPop
  deriving DecidableEq

/-- A program point: the atomic operation a thread is about to perform. -/
inductive Pc (C : Capacity) (α : Type*)
  /-- Outside the queue. -/
  | idle
  /-- `post_cursor_.fetch_add(1)` -/
  | pushFetch (message : α)
  /-- `ring_[slot].message.compare_exchange_weak(nullptr, message)` -/
  | pushCas (message : α) (slot : Fin C.val)
  /-- `pop_cursor_.fetch_add(1)` -/
  | popFetch
  /-- `ring_[slot].message.exchange(nullptr)` in `pop` -/
  | popExchange (slot : Fin C.val)
  /-- `pop_cursor_.load()` -/
  | tryLoad
  /-- `ring_[(slot + probe) & kMask].message.exchange(nullptr)` in `try_pop` -/
  | tryExchange (slot : BitVec 32) (probe : ℕ)
  /-- `pop_cursor_.store((idx + 1) & kMask)` -/
  | tryStore (message : α) (idx : Fin C.val)
  deriving DecidableEq

/-- The entry point of a call. -/
def Pc.start : Call α → Pc C α
  | .push message => .pushFetch message
  | .pop => .popFetch
  | .tryPop => .tryLoad

/-- What decides a step: an idle thread calls, a thread inside a call runs on, and a
compare-exchange may fail spuriously. -/
inductive Choice (α : Type*)
  | call (c : Call α)
  | run
  | spurious
  deriving DecidableEq

/-- What a step makes visible. -/
inductive Event (α : Type*)
  /-- The thread has entered a call. -/
  | called (c : Call α)
  /-- A compare-exchange has put the message into a cell. -/
  | store (message : α)
  /-- An exchange has taken the message out of a cell. -/
  | take (message : α)
  /-- `pop` or `try_pop` has returned, with a message or with `false`. -/
  | ret (result : Option α)
  deriving DecidableEq

/-- One step of a thread at `Pc`. -/
def step (q : MPMC C α) : Pc C α → Choice α → Option (MPMC C α × Pc C α × List (Event α))
  | .idle, .call c => some (q, .start c, [.called c])
  | .pushFetch message, .run =>
    some ({ q with postCursor := q.postCursor + 1 },
      .pushCas message (C.index q.postCursor), [])
  | .pushCas message slot, .run =>
    match q.ring slot with
    | none => some ({ q with ring := Function.update q.ring slot (some message) }, .idle,
        [.store message])
    -- occupied: probe the next cell, wherever the cursor is by now
    | some _ => some (q, .pushCas message (C.next slot), [])
  | .pushCas message slot, .spurious => some (q, .pushCas message (C.next slot), [])
  | .popFetch, .run =>
    some ({ q with popCursor := q.popCursor + 1 }, .popExchange (C.index q.popCursor), [])
  | .popExchange slot, .run =>
    match q.ring slot with
    -- taken and returned at once: `pop` does not touch its cursor again
    | some message => some ({ q with ring := Function.update q.ring slot none }, .idle,
        [.take message, .ret (some message)])
    | none => some ({ q with ring := Function.update q.ring slot none },
        .popExchange (C.next slot), [])
  | .tryLoad, .run => some (q, .tryExchange q.popCursor 0, [])
  | .tryExchange slot probe, .run =>
    let idx := C.index (slot + BitVec.ofNat 32 probe)
    match q.ring idx with
    | some message => some ({ q with ring := Function.update q.ring idx none },
        .tryStore message idx, [.take message])
    | none =>
      -- the exit test of the `for` loop belongs to the step of the probe before it
      if probe + 1 < C.val then
        some ({ q with ring := Function.update q.ring idx none },
          .tryExchange slot (probe + 1), [])
      else some ({ q with ring := Function.update q.ring idx none }, .idle, [.ret none])
  | .tryStore message idx, .run =>
    some ({ q with popCursor := BitVec.ofNat 32 (C.next idx) }, .idle,
      [.ret (some message)])
  | _, _ => none

/-- Everything a step can do, one rule per atomic operation and outcome. An `exchange`
on an empty cell leaves the cell as it is. -/
inductive Steps (q : MPMC C α) :
    Pc C α → Choice α → MPMC C α → Pc C α → List (Event α) → Prop
  | call (c : Call α) : Steps q .idle (.call c) q (.start c) [.called c]
  | fetchPost (message : α) :
      Steps q (.pushFetch message) .run { q with postCursor := q.postCursor + 1 }
        (.pushCas message (C.index q.postCursor)) []
  | casStore (message : α) (slot : Fin C.val) (h_empty : q.ring slot = none) :
      Steps q (.pushCas message slot) .run
        { q with ring := Function.update q.ring slot (some message) } .idle [.store message]
  | casFail (message : α) (slot : Fin C.val) (ch : Choice α)
      (h_fail : ch = .spurious ∨ ch = .run ∧ q.ring slot ≠ none) :
      Steps q (.pushCas message slot) ch q (.pushCas message (C.next slot)) []
  | fetchPop :
      Steps q .popFetch .run { q with popCursor := q.popCursor + 1 }
        (.popExchange (C.index q.popCursor)) []
  | popTake (message : α) (slot : Fin C.val) (h_full : q.ring slot = some message) :
      Steps q (.popExchange slot) .run { q with ring := Function.update q.ring slot none } .idle
        [.take message, .ret (some message)]
  | popMiss (slot : Fin C.val) (h_empty : q.ring slot = none) :
      Steps q (.popExchange slot) .run q (.popExchange (C.next slot)) []
  | loadPop : Steps q .tryLoad .run q (.tryExchange q.popCursor 0) []
  | tryTake (message : α) (slot : BitVec 32) (probe : ℕ)
      (h_full : q.ring (C.index (slot + BitVec.ofNat 32 probe)) = some message) :
      Steps q (.tryExchange slot probe) .run
        { q with ring := Function.update q.ring (C.index (slot + BitVec.ofNat 32 probe)) none }
        (.tryStore message (C.index (slot + BitVec.ofNat 32 probe))) [.take message]
  | tryMiss (slot : BitVec 32) (probe : ℕ)
      (h_empty : q.ring (C.index (slot + BitVec.ofNat 32 probe)) = none)
      (h_more : probe + 1 < C.val) :
      Steps q (.tryExchange slot probe) .run q (.tryExchange slot (probe + 1)) []
  | tryFail (slot : BitVec 32) (probe : ℕ)
      (h_empty : q.ring (C.index (slot + BitVec.ofNat 32 probe)) = none)
      (h_last : C.val ≤ probe + 1) :
      Steps q (.tryExchange slot probe) .run q .idle [.ret none]
  | storePop (message : α) (idx : Fin C.val) :
      Steps q (.tryStore message idx) .run
        { q with popCursor := BitVec.ofNat 32 (C.next idx) } .idle [.ret (some message)]

/-- Writing `nullptr` over `nullptr`. -/
theorem update_empty {q : MPMC C α} {slot : Fin C.val} (h_empty : q.ring slot = none) :
    { q with ring := Function.update q.ring slot none } = q := by
  rw [← h_empty, Function.update_eq_self]

theorem step_steps {q q' : MPMC C α} {pc pc' : Pc C α} {ch : Choice α}
    {es : List (Event α)} (h : q.step pc ch = some (q', pc', es)) :
    Steps q pc ch q' pc' es := by
  -- the pairs of a program point and a choice that `step` rejects close here
  cases pc <;> cases ch <;>
    simp only [step, reduceCtorEq, Option.some.injEq, Prod.mk.injEq] at h
  case idle.call c =>
    obtain ⟨rfl, rfl, rfl⟩ := h
    exact .call c
  case pushFetch.run message =>
    obtain ⟨rfl, rfl, rfl⟩ := h
    exact .fetchPost message
  case pushCas.run message slot =>
    cases h_cell : q.ring slot with
    | none =>
      simp only [h_cell, Option.some.injEq, Prod.mk.injEq] at h
      obtain ⟨rfl, rfl, rfl⟩ := h
      exact .casStore message slot h_cell
    | some m =>
      simp only [h_cell, Option.some.injEq, Prod.mk.injEq] at h
      obtain ⟨rfl, rfl, rfl⟩ := h
      exact .casFail message slot _ (Or.inr ⟨rfl, by simp [h_cell]⟩)
  case pushCas.spurious message slot =>
    obtain ⟨rfl, rfl, rfl⟩ := h
    exact .casFail message slot _ (Or.inl rfl)
  case popFetch.run =>
    obtain ⟨rfl, rfl, rfl⟩ := h
    exact .fetchPop
  case popExchange.run slot =>
    cases h_cell : q.ring slot with
    | none =>
      simp only [h_cell, update_empty h_cell, Option.some.injEq, Prod.mk.injEq] at h
      obtain ⟨rfl, rfl, rfl⟩ := h
      exact .popMiss slot h_cell
    | some m =>
      simp only [h_cell, Option.some.injEq, Prod.mk.injEq] at h
      obtain ⟨rfl, rfl, rfl⟩ := h
      exact .popTake m slot h_cell
  case tryLoad.run =>
    obtain ⟨rfl, rfl, rfl⟩ := h
    exact .loadPop
  case tryExchange.run slot probe =>
    cases h_cell : q.ring (C.index (slot + BitVec.ofNat 32 probe)) with
    | none =>
      simp only [h_cell, update_empty h_cell] at h
      split at h
      · next h_more =>
        simp only [Option.some.injEq, Prod.mk.injEq] at h
        obtain ⟨rfl, rfl, rfl⟩ := h
        exact .tryMiss slot probe h_cell h_more
      · next h_last =>
        simp only [Option.some.injEq, Prod.mk.injEq] at h
        obtain ⟨rfl, rfl, rfl⟩ := h
        exact .tryFail slot probe h_cell (Nat.not_lt.mp h_last)
    | some m =>
      simp only [h_cell, Option.some.injEq, Prod.mk.injEq] at h
      obtain ⟨rfl, rfl, rfl⟩ := h
      exact .tryTake m slot probe h_cell
  case tryStore.run message idx =>
    obtain ⟨rfl, rfl, rfl⟩ := h
    exact .storePop message idx

/-! ### Many threads on one queue -/

/-- Threads that all run calls on one queue. -/
abbrev Shared (Id : Type*) (C : Capacity) (α : Type*) := Threads Id (MPMC C α) (Pc C α)

/-- A fresh queue and no thread inside it. -/
def Shared.init (Id : Type*) (C : Capacity) (α : Type*) : Shared Id C α :=
  ⟨fresh C α, fun _ => .idle⟩

/-- The interleaving of any calls of any threads. -/
abbrev machine (Id : Type*) [DecidableEq Id] (C : Capacity) (α : Type*) :
    Machine (Shared Id C α) (Id × Choice α) (Id × Event α) :=
  Threads.machine step

/-! ### One thread alone

The sequential operations are the runs of a single thread: its compare-exchanges fail
where the oracle says so, and it takes no other choice. -/

section Solo

/-- The queue and program point of a thread running alone. -/
abbrev solo : Machine (MPMC C α × Pc C α) (Choice α) (Event α) where
  step s ch :=
    match s.1.step s.2 ch with
    | none => none
    | some (q, pc, es) => some ((q, pc), es)

theorem solo_eq : (solo : Machine (MPMC C α × Pc C α) (Choice α) (Event α)) =
    Threads.solo step := by
  refine congrArg Machine.mk (funext fun s => funext fun ch => ?_)
  cases s.1.step s.2 ch <;> rfl

/-- Entering a call. -/
theorem step_call (q : MPMC C α) (c : Call α) :
    q.step .idle (.call c) = some (q, .start c, [.called c]) := rfl

theorem solo_run_cons {q q' q'' : MPMC C α} {pc pc' pc'' : Pc C α} {ch : Choice α}
    {chs : List (Choice α)} {es es' : List (Event α)}
    (h : q.step pc ch = some (q', pc', es))
    (h' : solo.run (q', pc') chs = some ((q'', pc''), es')) :
    solo.run (q, pc) (ch :: chs) = some ((q'', pc''), es ++ es') := by
  simp only [Machine.run, h, h']

theorem solo_run_one {q q' : MPMC C α} {pc pc' : Pc C α} {ch : Choice α}
    {es : List (Event α)} (h : q.step pc ch = some (q', pc', es)) :
    solo.run (q, pc) [ch] = some ((q', pc'), es) := by
  simp only [Machine.run, h, List.append_nil]

/-- The probe loop of `push` is what a thread at the compare-exchange does. -/
theorem solo_pushLoop {message : α} {weak : Weak} {fuel : ℕ}
    {ring : Fin C.val → Option α} {q : MPMC C α} {slot : Fin C.val}
    (h : pushLoop message weak fuel q.ring slot = some ring) :
    ∃ chs, solo.run (q, .pushCas message slot) chs =
      some (({ q with ring }, .idle), [.store message]) := by
  induction fuel generalizing weak slot with
  | zero => simp [pushLoop] at h
  | succ fuel ih =>
    simp only [pushLoop] at h
    cases h_cell : q.ring slot with
    | none =>
      simp only [h_cell] at h
      split at h
      · -- the oracle fails this attempt: the thread takes the spurious step
        obtain ⟨chs, h_run⟩ := ih h
        have h_step : q.step (.pushCas message slot) .spurious =
            some (q, .pushCas message (C.next slot), []) := rfl
        exact ⟨.spurious :: chs, solo_run_cons h_step h_run⟩
      · -- the cell is empty and the attempt succeeds
        obtain rfl := Option.some.inj h
        have h_step : q.step (.pushCas message slot) .run =
            some ({ q with ring := Function.update q.ring slot (some message) }, .idle,
              [.store message]) := by
          simp only [step, h_cell]
        exact ⟨[.run], solo_run_one h_step⟩
    | some m =>
      -- the cell is occupied: the compare-exchange fails and the thread probes the next cell
      simp only [h_cell] at h
      obtain ⟨chs, h_run⟩ := ih h
      have h_step : q.step (.pushCas message slot) .run =
          some (q, .pushCas message (C.next slot), []) := by
        simp only [step, h_cell]
      exact ⟨.run :: chs, solo_run_cons h_step h_run⟩

/-- **`push` is a run of the steps.** -/
theorem solo_push {message : α} {weak : Weak} {fuel : ℕ} {q q' : MPMC C α}
    (h : q.push weak fuel (some message) = some q') :
    ∃ chs, solo.run (q, .idle) chs =
      some ((q', .idle), [.called (.push message), .store message]) := by
  simp only [push] at h
  cases h_loop : pushLoop message weak fuel q.ring (C.index q.postCursor) with
  | none => simp [h_loop] at h
  | some ring =>
    -- the call moves the cursor first, so the loop runs on the ring with the cursor moved
    simp only [h_loop, Option.some.injEq] at h
    subst h
    obtain ⟨chs, h_run⟩ := solo_pushLoop (q := { q with postCursor := q.postCursor + 1 }) h_loop
    have h_fetch : step q (.pushFetch message) .run =
        some ({ q with postCursor := q.postCursor + 1 },
          .pushCas message (C.index q.postCursor), []) := rfl
    exact ⟨.call (.push message) :: .run :: chs,
      solo_run_cons (step_call q (.push message)) (solo_run_cons h_fetch h_run)⟩

theorem solo_popLoop {message : α} {fuel : ℕ} {ring : Fin C.val → Option α}
    {q : MPMC C α} {slot : Fin C.val}
    (h : popLoop fuel q.ring slot = some (message, ring)) :
    ∃ chs, solo.run (q, .popExchange slot) chs =
      some (({ q with ring }, .idle), [.take message, .ret (some message)]) := by
  induction fuel generalizing slot with
  | zero => simp [popLoop] at h
  | succ fuel ih =>
    simp only [popLoop] at h
    cases h_cell : q.ring slot with
    | none =>
      -- exchanging null for null leaves the ring as it was
      have h_same : Function.update q.ring slot none = q.ring := by
        rw [← h_cell, Function.update_eq_self]
      simp only [h_cell, h_same] at h
      obtain ⟨chs, h_run⟩ := ih h
      have h_step : q.step (.popExchange slot) .run =
          some (q, .popExchange (C.next slot), []) := by
        simp only [step, h_cell, update_empty h_cell]
      exact ⟨.run :: chs, solo_run_cons h_step h_run⟩
    | some m =>
      simp only [h_cell, Option.some.injEq, Prod.mk.injEq] at h
      obtain ⟨rfl, rfl⟩ := h
      have h_step : q.step (.popExchange slot) .run =
          some ({ q with ring := Function.update q.ring slot none }, .idle,
            [.take m, .ret (some m)]) := by
        simp only [step, h_cell]
      exact ⟨[.run], solo_run_one h_step⟩

/-- **`pop` is a run of the steps.** -/
theorem solo_pop {message : α} {fuel : ℕ} {q q' : MPMC C α}
    (h : q.pop fuel = some (message, q')) :
    ∃ chs, solo.run (q, .idle) chs =
      some ((q', .idle), [.called .pop, .take message, .ret (some message)]) := by
  simp only [pop] at h
  cases h_loop : popLoop fuel q.ring (C.index q.popCursor) with
  | none => simp [h_loop] at h
  | some r =>
    obtain ⟨m, ring⟩ := r
    simp only [h_loop, Option.some.injEq, Prod.mk.injEq] at h
    obtain ⟨rfl, rfl⟩ := h
    -- as in `solo_push`: the cursor moves first
    obtain ⟨chs, h_run⟩ := solo_popLoop (q := { q with popCursor := q.popCursor + 1 }) h_loop
    have h_fetch : step q .popFetch .run =
        some ({ q with popCursor := q.popCursor + 1 },
          .popExchange (C.index q.popCursor), []) := rfl
    refine ⟨.call .pop :: .run :: chs, ?_⟩
    exact solo_run_cons (step_call q .pop) (solo_run_cons h_fetch h_run)

/-- The cells `try_pop` finds empty before it reaches probe `probe + n`. -/
theorem solo_tryMiss {q : MPMC C α} {slot : BitVec 32} (probe n : ℕ)
    (h_more : probe + n < C.val)
    (h_empty : ∀ k < n, q.ring (C.index (slot + BitVec.ofNat 32 (probe + k))) = none)
    {chs : List (Choice α)} {r : (MPMC C α × Pc C α) × List (Event α)}
    (h_run : solo.run (q, .tryExchange slot (probe + n)) chs = some r) :
    ∃ chs', solo.run (q, .tryExchange slot probe) chs' = some r := by
  obtain ⟨⟨q', pc'⟩, es⟩ := r
  -- on the number of misses, the first of them taken off
  induction n generalizing probe with
  | zero => exact ⟨chs, h_run⟩
  | succ n ih =>
    have h_shift : ∀ k, probe + 1 + k = probe + (k + 1) := fun k => by omega
    have h_rest : ∀ k < n,
        q.ring (C.index (slot + BitVec.ofNat 32 (probe + 1 + k))) = none := fun k hk => by
      rw [h_shift]
      exact h_empty (k + 1) (by omega)
    obtain ⟨chs', h_run'⟩ :=
      ih (probe + 1) (by omega) h_rest (by rw [h_shift]; exact h_run)
    have h_cell := h_empty 0 (by omega)
    rw [Nat.add_zero] at h_cell
    have h_step : q.step (.tryExchange slot probe) .run =
        some (q, .tryExchange slot (probe + 1), []) := by
      simp only [step, h_cell, update_empty h_cell]
      exact if_pos (by omega)
    exact ⟨.run :: chs', solo_run_cons h_step h_run'⟩

/-- **`try_pop` is a run of the steps.** A failed call takes nothing. -/
theorem solo_tryPop {result : Option α} {q q' : MPMC C α}
    (h : q.tryPop = (result, q')) :
    ∃ chs, solo.run (q, .idle) chs =
      some ((q', .idle), .called .tryPop :: (result.toList.map .take ++ [.ret result])) := by
  have h_load : step q .tryLoad .run = some (q, .tryExchange q.popCursor 0, []) := rfl
  cases result with
  | none =>
    obtain ⟨h_all, rfl⟩ := tryPop_eq_none h
    have h_pos := C.pos
    -- the last probe, after `Capacity - 1` misses, ends the call
    have h_step : step q' (.tryExchange q'.popCursor (0 + (C.val - 1))) .run =
        some (q', .idle, [.ret none]) := by
      simp only [step, h_all, update_empty (h_all _)]
      exact if_neg (by omega)
    obtain ⟨chs, h_run⟩ := solo_tryMiss 0 (C.val - 1) (by omega)
      (fun k _ => h_all _) (solo_run_one h_step)
    exact ⟨.call .tryPop :: .run :: chs,
      solo_run_cons (step_call q' .tryPop) (solo_run_cons h_load h_run)⟩
  | some message =>
    obtain ⟨n, hn, h_full, h_before, rfl⟩ := tryPop_eq_some h
    rw [← C.index_add] at h_full ⊢
    have h_store : step
        { q with ring := Function.update q.ring (C.index (q.popCursor + BitVec.ofNat 32 n)) none }
        (.tryStore message (C.index (q.popCursor + BitVec.ofNat 32 n))) .run =
        some ({ q with
          ring := Function.update q.ring (C.index (q.popCursor + BitVec.ofNat 32 n)) none,
          popCursor := BitVec.ofNat 32 (C.next (C.index (q.popCursor + BitVec.ofNat 32 n))) },
          .idle, [.ret (some message)]) := rfl
    have h_take : step q (.tryExchange q.popCursor (0 + n)) .run =
        some ({ q with
          ring := Function.update q.ring (C.index (q.popCursor + BitVec.ofNat 32 n)) none },
          .tryStore message (C.index (q.popCursor + BitVec.ofNat 32 n)), [.take message]) := by
      simp only [step, Nat.zero_add, h_full]
    obtain ⟨chs, h_run⟩ := solo_tryMiss 0 n (by omega)
      (fun k hk => by rw [Nat.zero_add, C.index_add]; exact h_before k hk)
      (solo_run_cons h_take (solo_run_one h_store))
    exact ⟨.call .tryPop :: .run :: chs,
      solo_run_cons (step_call q .tryPop) (solo_run_cons h_load h_run)⟩

end Solo

end MPMC

end Hft
