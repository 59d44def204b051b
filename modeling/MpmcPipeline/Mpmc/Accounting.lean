import Mathlib.Data.BitVec
import Mathlib.Tactic.Ring
import MpmcPipeline.Machine.Ledger
import MpmcPipeline.Mpmc.Shutdown

/-!
# What the counters of `Runtime` say

`producer_main` bumps `pushed_` after its push and `consumer_main` bumps `popped_` after
its release, so in the middle of a run the counters lag behind the ring and the pool, by
what each worker has done and not yet counted (`Phase`). Between a message's `acquire` and
its `release` a worker goes through five phases, and each step moves one message along or
counts one (`PhaseMove`); everything else of a step, the scan, the probes, the cursors, the
payload, leaves the books as they are.

So `pushed() - popped()` and the occupancy of the ring differ by what the workers owe, from
any state of ring and pool (`Books`). For the acquired slots this needs that a message that
is released was acquired: in a ring that holds a pointer to a free slot, or one pointer
twice, a consumer frees what is free already (`runtime_accounting_free`).
-/

namespace Hft

namespace Runtime

variable {C : Capacity} {P : PoolCapacity}

/-! ### The books -/

/-- The part of the shared state that accounting is about. -/
structure Books (P : PoolCapacity) where
  cells : Multiset (Ptr P)
  state : Ptr P → Byte
  pushed : BitVec 64
  popped : BitVec 64

/-- The books of the runtime. -/
def Shared.books (sh : Shared C P) : Books P where
  cells := MPMC.cells sh.queue.ring
  state p := (sh.pool.slots p).state
  pushed := sh.pushed
  popped := sh.popped

/-- How far a worker is with a message. -/
inductive Phase (P : PoolCapacity)
  | free
  /-- A producer has acquired it. -/
  | holding (p : Ptr P)
  /-- A producer has stored it and not counted it. -/
  | stored
  /-- A consumer has taken it. -/
  | taken (p : Ptr P)
  /-- A consumer has released it and not counted it. -/
  | released

/-- The phase of a worker. -/
def Worker.phase : Worker C P → Phase P
  | .producer _ _ pc =>
    match pc with
    | .fill _ msg => .holding msg
    | .push (.pushFetch msg) => .holding msg
    | .push (.pushCas msg _) => .holding msg
    | .count => .stored
    | _ => .free
  | .consumer _ _ pc =>
    match pc with
    | .pop (.tryStore msg _) => .taken msg
    | .release msg => .taken msg
    | .count => .released
    | _ => .free

/-- **What a step of a worker does to the books**: it moves one message from a phase to the next, or
one of the counters, or nothing. -/
inductive PhaseMove (b : Books P) : Phase P → Books P → Phase P → Prop
  | stay (φ : Phase P) : PhaseMove b φ b φ
  | acquire (p : Ptr P) (h_free : b.state p = 0) :
      PhaseMove b .free { b with state := Function.update b.state p 1 } (.holding p)
  | store (p : Ptr P) : PhaseMove b (.holding p) { b with cells := b.cells + {p} } .stored
  | countPush : PhaseMove b .stored { b with pushed := b.pushed + 1 } .free
  | take (p : Ptr P) (rest : Multiset (Ptr P)) (h_cells : b.cells = rest + {p}) :
      PhaseMove b .free { b with cells := rest } (.taken p)
  | release (p : Ptr P) :
      PhaseMove b (.taken p) { b with state := Function.update b.state p 0 } .released
  | countPop : PhaseMove b .released { b with popped := b.popped + 1 } .free

@[simp] theorem produce_phase (ops i : ℕ) : (Worker.produce ops i : Worker C P).phase = .free := by
  unfold Worker.produce
  split <;> rfl

@[simp] theorem consume_phase (ops i : ℕ) : (Worker.consume ops i : Worker C P).phase = .free := by
  unfold Worker.consume
  split <;> rfl

theorem spawn_phase (ops : ℕ) (role : Role) :
    (Worker.spawn ops role : Worker C P).phase = .free := by
  cases role with
  | producer => exact produce_phase ops 0
  | consumer => exact consume_phase ops 0

theorem done_phase {w : Worker C P} (h : w.done = true) : w.phase = .free := by
  cases w with
  | producer ops i pc => cases pc <;> first | rfl | nomatch h
  | consumer ops consumed pc => cases pc <;> first | rfl | nomatch h

/-- The state bytes after the body of a claimed slot has been cleared. -/
theorem books_acquire (sh : Shared C P) (p : Ptr P) (m : TaggedMessage) :
    Shared.books { sh with pool := (sh.pool.setState p 1).store p m } =
      { sh.books with state := Function.update sh.books.state p 1 } := by
  unfold Shared.books
  congr 1
  funext p'
  rw [TaggedPool.store_state]
  by_cases h_p : p' = p
  · subst h_p
    rw [TaggedPool.setState_self, Function.update_self]
  · rw [TaggedPool.setState_of_ne _ h_p, Function.update_of_ne h_p]

/-- The state bytes after a release. -/
theorem books_release (sh : Shared C P) (p : Ptr P) :
    Shared.books { sh with pool := sh.pool.release (P.address p) } =
      { sh.books with state := Function.update sh.books.state p 0 } := by
  unfold Shared.books
  rw [TaggedPool.release_address]
  congr 1
  funext p'
  by_cases h_p : p' = p
  · subst h_p
    rw [TaggedPool.setState_self, Function.update_self]
  · rw [TaggedPool.setState_of_ne _ h_p, Function.update_of_ne h_p]

/-- A body is not in the books. -/
theorem books_fill (sh : Shared C P) (p : Ptr P) (m : TaggedMessage) :
    Shared.books { sh with pool := sh.pool.store p m } = sh.books := by
  unfold Shared.books
  congr 1
  funext p'
  exact TaggedPool.store_state sh.pool p p' m

/-- Inside `push` a worker stores its message or keeps it. -/
theorem push_phase {sh : Shared C P} {queue : MPMC C (Ptr P)} {pc pc' : MPMC.Pc C (Ptr P)}
    {ch : MPMC.Choice (Ptr P)} {es : List (MPMC.Event (Ptr P))} (ops i : ℕ)
    (h_in : pushing pc = true) (h : sh.queue.step pc ch = some (queue, pc', es)) :
    PhaseMove sh.books (Worker.producer ops i (.push pc) : Worker C P).phase
      (Shared.books { sh with queue }) (Worker.afterPush ops i pc').phase := by
  cases MPMC.step_steps h with
  | fetchPost message => exact .stay (.holding message)
  | casFail message slot _ h_fail => exact .stay (.holding message)
  | casStore message slot h_empty =>
    -- the ring gains the message in the step in which the worker loses it
    have h_books : Shared.books { sh with
        queue := { sh.queue with ring := Function.update sh.queue.ring slot (some message) } } =
        { sh.books with cells := sh.books.cells + {message} } := by
      unfold Shared.books
      rw [MPMC.cells_update_some h_empty]
    rw [h_books]
    exact .store message
  | _ => nomatch h_in

/-- Inside `try_pop` a worker takes a message, keeps it or finds none. -/
theorem pop_phase {sh : Shared C P} {queue : MPMC C (Ptr P)} {pc pc' : MPMC.Pc C (Ptr P)}
    {ch : MPMC.Choice (Ptr P)} {es : List (MPMC.Event (Ptr P))} (ops consumed : ℕ)
    (h_in : trying pc = true) (h : sh.queue.step pc ch = some (queue, pc', es)) :
    PhaseMove sh.books (Worker.consumer ops consumed (.pop pc) : Worker C P).phase
      (Shared.books { sh with queue })
      (Worker.afterPop ops consumed (MPMC.returns es) pc').phase := by
  cases MPMC.step_steps h with
  | loadPop => exact .stay .free
  | tryTake message slot probe h_full =>
    -- here the ring loses it
    refine .take message _ ?_
    exact (MPMC.cells_update_none h_full).symm
  | tryMiss slot probe h_empty h_more => exact .stay .free
  | tryFail slot probe h_empty h_last =>
    -- an iteration that found nothing ends without a count
    have h_phase : (Worker.afterPop ops consumed (MPMC.returns [.ret none]) .idle :
        Worker C P).phase = .free := consume_phase ops consumed
    rw [h_phase]
    exact .stay .free
  | storePop message idx => exact .stay (.taken message)
  | _ => nomatch h_in

/-- **Every step of a worker is one of the moves**, so the books balance whatever the interleaving.
-/
theorem step_phase {sh sh' : Shared C P} {w w' : Worker C P} {ch : Choice} (h_valid : w.Valid)
    (h : w.step sh ch = some (sh', w')) : PhaseMove sh.books w.phase sh'.books w'.phase := by
  cases w with
  | producer ops i pc =>
    cases pc with
    | fetch =>
      cases ch <;> cases h
      exact .stay .free
    | scan sequence k =>
      rw [Worker.step] at h
      split at h
      · next h_k =>
        split at h
        · next h_free =>
          cases h
          rw [books_acquire]
          exact .acquire ⟨k, h_k⟩ h_free.1
        · cases h
          exact .stay .free
      · -- `acquire` gives null: nothing is pushed, and the next number is fetched
        cases h
        rw [produce_phase]
        exact .stay .free
    | fill sequence msg =>
      cases ch <;> cases h
      rw [books_fill]
      exact .stay (.holding msg)
    | push pc =>
      obtain ⟨queue, pc', es, h_step, rfl, rfl⟩ := Worker.step_push h
      exact push_phase ops i h_valid.2 h_step
    | count =>
      cases ch <;> cases h
      rw [produce_phase]
      exact .countPush
    | storeDone =>
      cases ch <;> cases h
      exact .stay .free
    | finished => cases ch <;> cases h
  | consumer ops consumed pc =>
    cases pc with
    | pop pc =>
      obtain ⟨queue, pc', es, h_step, rfl, rfl⟩ := Worker.step_pop h
      exact pop_phase ops consumed h_valid.2 h_step
    | release msg =>
      cases ch <;> cases h
      rw [books_release]
      exact .release msg
    | count =>
      cases ch <;> cases h
      rw [consume_phase]
      exact .countPop
    | storeDone =>
      cases ch <;> cases h
      exact .stay .free
    | finished => cases ch <;> cases h

/-! ### The two ledgers -/

/-- The number of acquired slots. -/
def acquired (state : Ptr P → Byte) : ℕ := (Finset.univ.filter fun p => state p ≠ 0).card

/-- Claiming a free slot or freeing an acquired one. -/
theorem acquired_update {state : Ptr P → Byte} {p : Ptr P} (h_free : state p = 0) :
    acquired (Function.update state p 1) = acquired state + 1 := by
  have h_insert : (Finset.univ.filter fun p' => Function.update state p 1 p' ≠ 0) =
      insert p (Finset.univ.filter fun p' => state p' ≠ 0) := by
    ext p'
    by_cases h_p : p' = p
    · subst h_p
      simp
    · simp [h_p]
  rw [acquired, h_insert, Finset.card_insert_of_notMem (by simp [h_free])]
  rfl

theorem acquired_release {state : Ptr P → Byte} {p : Ptr P} (h_acquired : state p ≠ 0) :
    acquired (Function.update state p 0) + 1 = acquired state := by
  have h_erase : (Finset.univ.filter fun p' => Function.update state p 0 p' ≠ 0) =
      (Finset.univ.filter fun p' => state p' ≠ 0).erase p := by
    ext p'
    by_cases h_p : p' = p
    · subst h_p
      simp
    · simp [h_p]
  rw [acquired, h_erase, Finset.card_erase_add_one]
  · rfl
  · exact Finset.mem_filter.mpr ⟨Finset.mem_univ p, h_acquired⟩

/-- What the books say about the ring. -/
def Books.ring (b : Books P) : BitVec 64 := b.pushed - b.popped - (b.cells.card : BitVec 64)

/-- What the books say about the pool. -/
def Books.pool (b : Books P) : BitVec 64 := b.pushed - b.popped - (acquired b.state : BitVec 64)

/-- What a worker has stored, less what it has taken, without counting it. -/
def Phase.ring : Phase P → BitVec 64
  | free | holding _ => 0
  | stored => 1
  | taken _ | released => -1

/-- What a worker has acquired, less what it has released, without counting it. -/
def Phase.pool : Phase P → BitVec 64
  | free | taken _ => 0
  | holding _ | stored => 1
  | released => -1

theorem PhaseMove.ring {b b' : Books P} {φ φ' : Phase P} (h : PhaseMove b φ b' φ') :
    b'.ring + φ'.ring = b.ring + φ.ring := by
  cases h with
  | stay => rfl
  | acquire p h_free => rfl
  | release p => rfl
  -- the message is in the ring before the worker counts it
  | store p =>
    show b.pushed - b.popped - ((b.cells + {p}).card : BitVec 64) + 1 =
      b.pushed - b.popped - (b.cells.card : BitVec 64) + 0
    rw [Multiset.card_add, Multiset.card_singleton, Nat.cast_add, Nat.cast_one]
    ring
  | countPush =>
    show b.pushed + 1 - b.popped - (b.cells.card : BitVec 64) + 0 =
      b.pushed - b.popped - (b.cells.card : BitVec 64) + 1
    ring
  -- and out of it before the worker counts that
  | take p rest h_cells =>
    show b.pushed - b.popped - (rest.card : BitVec 64) + -1 =
      b.pushed - b.popped - (b.cells.card : BitVec 64) + 0
    rw [h_cells, Multiset.card_add, Multiset.card_singleton, Nat.cast_add, Nat.cast_one]
    ring
  | countPop =>
    show b.pushed - (b.popped + 1) - (b.cells.card : BitVec 64) + 0 =
      b.pushed - b.popped - (b.cells.card : BitVec 64) + -1
    ring

/-- A message that is released must have been acquired. -/
theorem PhaseMove.pool {b b' : Books P} {φ φ' : Phase P} (h : PhaseMove b φ b' φ')
    (h_taken : ∀ p, φ = .taken p → b.state p ≠ 0) : b'.pool + φ'.pool = b.pool + φ.pool := by
  cases h with
  | stay => rfl
  | store p => rfl
  | take p rest h_cells => rfl
  -- both sides gain one slot: in the pool, and in the hands of the worker
  | acquire p h_free =>
    show b.pushed - b.popped - (acquired (Function.update b.state p 1) : BitVec 64) + 1 =
      b.pushed - b.popped - (acquired b.state : BitVec 64) + 0
    rw [acquired_update h_free, Nat.cast_add, Nat.cast_one]
    ring
  | release p =>
    show b.pushed - b.popped - (acquired (Function.update b.state p 0) : BitVec 64) + -1 =
      b.pushed - b.popped - (acquired b.state : BitVec 64) + 0
    rw [← acquired_release (h_taken p rfl), Nat.cast_add, Nat.cast_one]
    ring
  | countPush =>
    show b.pushed + 1 - b.popped - (acquired b.state : BitVec 64) + 0 =
      b.pushed - b.popped - (acquired b.state : BitVec 64) + 1
    ring
  | countPop =>
    show b.pushed - (b.popped + 1) - (acquired b.state : BitVec 64) + 0 =
      b.pushed - b.popped - (acquired b.state : BitVec 64) + -1
    ring

/-! ### The messages in circulation -/

/-- The message a worker has in hand. -/
def Phase.held : Phase P → Multiset (Ptr P)
  | holding p | taken p => {p}
  | free | stored | released => 0

/-- The messages in the ring and in the workers' hands are distinct, and their slots are
acquired. -/
structure Circulating (state : Ptr P → Byte) (messages : Multiset (Ptr P)) : Prop where
  nodup : messages.Nodup
  acquired : ∀ p ∈ messages, state p ≠ 0

theorem Circulating.acquire {state : Ptr P → Byte} {messages : Multiset (Ptr P)} {p : Ptr P}
    (h : Circulating state messages) (h_free : state p = 0) :
    Circulating (Function.update state p 1) ({p} + messages) where
  nodup := by
    rw [Multiset.singleton_add, Multiset.nodup_cons]
    exact ⟨fun h_mem => h.acquired p h_mem h_free, h.nodup⟩
  -- among the messages in circulation all slots are acquired, so a free one is new
  acquired p' h_mem := by
    by_cases h_p : p' = p
    · subst h_p
      rw [Function.update_self]
      decide
    · rw [Function.update_of_ne h_p]
      rcases Multiset.mem_add.mp h_mem with h_new | h_old
      · exact absurd (Multiset.mem_singleton.mp h_new) h_p
      · exact h.acquired p' h_old

theorem Circulating.release {state : Ptr P → Byte} {messages : Multiset (Ptr P)} {p : Ptr P}
    (h : Circulating state ({p} + messages)) :
    Circulating (Function.update state p 0) messages := by
  have h_nodup := h.nodup
  rw [Multiset.singleton_add, Multiset.nodup_cons] at h_nodup
  refine ⟨h_nodup.2, fun p' h_mem => ?_⟩
  -- the released message was there once
  have h_p : p' ≠ p := fun h_eq => h_nodup.1 (h_eq ▸ h_mem)
  rw [Function.update_of_ne h_p]
  exact h.acquired p' (Multiset.mem_add.mpr (Or.inr h_mem))

/-- A move of one worker, with the messages `rest` in the hands of the others. -/
theorem PhaseMove.circulating {b b' : Books P} {φ φ' : Phase P} {rest : Multiset (Ptr P)}
    (h : PhaseMove b φ b' φ') (hI : Circulating b.state (b.cells + (φ.held + rest))) :
    Circulating b'.state (b'.cells + (φ'.held + rest)) := by
  cases h with
  | stay => exact hI
  | countPush => exact hI
  | countPop => exact hI
  | acquire p h_free =>
    -- the worker acquires a slot that nobody holds and holds it
    have h_all : b.cells + ({p} + rest) = {p} + (b.cells + (0 + rest)) := by
      rw [zero_add, add_left_comm]
    simp only [Phase.held] at hI ⊢
    rw [h_all]
    exact hI.acquire h_free
  | release p =>
    -- the worker gives its slot back
    have h_all : b.cells + ({p} + rest) = {p} + (b.cells + (0 + rest)) := by
      rw [zero_add, add_left_comm]
    simp only [Phase.held] at hI ⊢
    rw [h_all] at hI
    exact hI.release
  | store p =>
    -- the message passes between the hand and the ring; the sum is the same
    simp only [Phase.held, zero_add, add_assoc] at hI ⊢
    exact hI
  | take p cells h_cells =>
    simp only [Phase.held, h_cells, zero_add, add_assoc] at hI ⊢
    exact hI

/-! ### Runs of any number of workers -/

/-- A worker as a thread. -/
def Worker.threadStep : Threads.ThreadStep (Shared C P) (Worker C P) Choice Empty :=
  fun sh w ch =>
    match w.step sh ch with
    | none => none
    | some (sh, w) => some (sh, w, [])

theorem Worker.threadStep_eq {sh sh' : Shared C P} {w w' : Worker C P} {ch : Choice}
    {es : List Empty} (h : Worker.threadStep sh w ch = some (sh', w', es)) :
    w.step sh ch = some (sh', w') := by
  simp only [threadStep] at h
  cases h_step : w.step sh ch with
  | none => simp [h_step] at h
  | some r =>
    simp only [h_step] at h
    cases h
    rfl

section

variable {Id : Type*} [DecidableEq Id]

/-- Workers on one runtime, without the supervisor. -/
abbrev Crew (C : Capacity) (P : PoolCapacity) (Id : Type*) := Threads Id (Shared C P) (Worker C P)

/-- Their interleaving. -/
abbrev crew (C : Capacity) (P : PoolCapacity) (Id : Type*) [DecidableEq Id] :
    Machine (Crew C P Id) (Id × Choice) (Id × Empty) := Threads.machine Worker.threadStep

/-- Workers with the given roles and operation counts on a ring and a pool in any state. -/
def Crew.init (queue : MPMC C (Ptr P)) (pool : TaggedPool P) (nextSequence : BitVec 64)
    (ops : Id → ℕ) (role : Id → Role) : Crew C P Id :=
  ⟨⟨queue, pool, 0, 0, nextSequence⟩, fun i => Worker.spawn (ops i) (role i)⟩

theorem crew_valid {c₀ c : Crew C P Id} {tr : List (Id × Empty)}
    (h_init : ∀ i, (c₀.loc i).Valid) (h : (crew C P Id).Reach c₀ tr c) (i : Id) :
    (c.loc i).Valid := by
  refine h.inv (I := fun _ c => ∀ i, Worker.Valid (Threads.loc c i)) h_init ?_ i
  intro tr c a c' es hI _ h_step j
  obtain ⟨sh, w, es', h_thread, rfl, -⟩ := Threads.machine_step h_step
  by_cases h_j : j = a.1
  · subst h_j
    simp only [Function.update_self]
    exact (Worker.step_effect (hI a.1) (Worker.threadStep_eq h_thread)).valid
  · simp only [Function.update_of_ne h_j]
    exact hI j

variable [Fintype Id]

/-- The messages in the ring and in the hands of all workers. -/
def Crew.messages (c : Crew C P Id) : Multiset (Ptr P) :=
  c.shared.books.cells + ∑ i, (c.loc i).phase.held

theorem crew_circulating {c₀ c : Crew C P Id} {tr : List (Id × Empty)}
    (h_valid : ∀ i, (c₀.loc i).Valid)
    (h_init : Circulating c₀.shared.books.state (Crew.messages c₀))
    (h : (crew C P Id).Reach c₀ tr c) :
    Circulating c.shared.books.state (Crew.messages c) := by
  -- the workers stay valid along the run, which the phase lemmas ask for
  have h_inv : (∀ i, (c.loc i).Valid) ∧ Circulating c.shared.books.state (Crew.messages c) := by
    refine h.inv (I := fun _ c => (∀ i, Worker.Valid (Threads.loc c i)) ∧
      Circulating (Shared.books (Threads.shared c)).state (Crew.messages c)) ⟨h_valid, h_init⟩ ?_
    intro tr c a c' es hI _ h_step
    refine ⟨crew_valid hI.1 (by simpa using (Machine.ReachBy.init).step trivial h_step), ?_⟩
    obtain ⟨sh, w, es', h_thread, rfl, -⟩ := Threads.machine_step h_step
    -- `rest` is what the other workers hold
    obtain ⟨rest, h_before, h_after⟩ :=
      Finset.exists_rest (fun w : Worker C P => w.phase.held) c.loc a.1
    have h_move := step_phase (hI.1 a.1) (Worker.threadStep_eq h_thread)
    have h_old := hI.2
    rw [Crew.messages, h_before] at h_old
    rw [Crew.messages, h_after]
    exact h_move.circulating h_old
  exact h_inv.2

omit [DecidableEq Id] in
/-- A worker that holds a message holds an acquired one. -/
theorem Circulating.taken {c : Crew C P Id}
    (h : Circulating c.shared.books.state (Crew.messages c)) {i : Id} {p : Ptr P}
    (h_phase : (c.loc i).phase = .taken p) : c.shared.books.state p ≠ 0 := by
  refine h.acquired p (Multiset.mem_add.mpr (Or.inr ?_))
  refine Multiset.mem_sum.mpr ⟨i, Finset.mem_univ i, ?_⟩
  rw [h_phase]
  exact Multiset.mem_singleton_self p

omit [DecidableEq Id] in
/-- Nothing is owed where every worker is outside a message. -/
theorem total_of_free (g : Shared C P → BitVec 64) {f : Phase P → BitVec 64} {c : Crew C P Id}
    (h_f : f .free = 0) (h : ∀ i, (c.loc i).phase = .free) :
    Threads.total g (fun w => f w.phase) c = g c.shared := by
  have h_sum : ∑ i, f (c.loc i).phase = 0 :=
    Finset.sum_eq_zero fun i _ => by rw [h i, h_f]
  rw [Threads.total, h_sum, add_zero]

/-- A difference of two counters, as an integer. -/
theorem toInt_of_ledger {pushed popped pushed₀ popped₀ : BitVec 64} {n n₀ : ℕ}
    (h : pushed - popped - (n : BitVec 64) = pushed₀ - popped₀ - (n₀ : BitVec 64))
    (h_start : pushed₀ = popped₀) (h_n : n < 2 ^ 63) (h_n₀ : n₀ < 2 ^ 63) :
    (pushed - popped).toInt = (n : ℤ) - n₀ := by
  have h_diff : pushed - popped = BitVec.ofInt 64 ((n : ℤ) - n₀) := by
    have h_cast : BitVec.ofInt 64 ((n : ℤ) - n₀) = (n : BitVec 64) - (n₀ : BitVec 64) :=
      Int.cast_sub (n : ℤ) n₀
    rw [h_start, sub_self, zero_sub] at h
    rw [h_cast, sub_eq_add_neg (n : BitVec 64), ← h, add_sub_cancel]
  rw [h_diff]
  exact BitVec.toInt_ofInt_eq_self (by decide) (by omega) (by omega)

/-- The number of acquired slots fits the counters. -/
theorem acquired_lt (state : Ptr P → Byte) : acquired state < 2 ^ 63 := by
  have h_le : acquired state ≤ P.val := by
    have := Finset.card_le_univ (Finset.univ.filter fun p => state p ≠ 0)
    rwa [Fintype.card_fin] at this
  have h_fits := P.fits
  rw [show sizeofSlot = 384 from rfl] at h_fits
  omega

theorem occupancy_lt (queue : MPMC C (Ptr P)) : queue.occupancy < 2 ^ 63 := by
  have h_le := queue.occupancy_le
  have h_lt := C.lt
  omega

theorem Books.counters_of_ring {b b₀ : Books P} (h : b.ring = b₀.ring)
    (h_start : b₀.pushed = b₀.popped) (h_n : b.cells.card < 2 ^ 63)
    (h_n₀ : b₀.cells.card < 2 ^ 63) :
    (b.pushed - b.popped).toInt = (b.cells.card : ℤ) - b₀.cells.card :=
  toInt_of_ledger h h_start h_n h_n₀

theorem Books.counters_of_pool {b b₀ : Books P} (h : b.pool = b₀.pool)
    (h_start : b₀.pushed = b₀.popped) :
    (b.pushed - b.popped).toInt = (acquired b.state : ℤ) - acquired b₀.state :=
  toInt_of_ledger h h_start (acquired_lt b.state) (acquired_lt b₀.state)

/-- A run from outside all messages to outside all messages moves the ring by the counters. -/
theorem crew_ring {c₀ c : Crew C P Id} {tr : List (Id × Empty)}
    (h_valid : ∀ i, (c₀.loc i).Valid) (h_start : ∀ i, (c₀.loc i).phase = .free)
    (h_end : ∀ i, (c.loc i).phase = .free) (h : (crew C P Id).Reach c₀ tr c) :
    c.shared.books.ring = c₀.shared.books.ring := by
  have h_total := Threads.ledger (I := fun c => ∀ i, Worker.Valid (Threads.loc c i))
    (fun _ _ h_reach => crew_valid h_valid h_reach) (fun sh => Books.ring (Shared.books sh))
    (fun w => Phase.ring (Worker.phase w))
    (fun _ i _ _ _ _ hI h_step => (step_phase (hI i) (Worker.threadStep_eq h_step)).ring) h
  rwa [total_of_free _ rfl h_end, total_of_free _ rfl h_start] at h_total

/-- The same for the pool, if what circulates is acquired. -/
theorem crew_pool {c₀ c : Crew C P Id} {tr : List (Id × Empty)}
    (h_valid : ∀ i, (c₀.loc i).Valid)
    (h_init : Circulating c₀.shared.books.state (Crew.messages c₀))
    (h_start : ∀ i, (c₀.loc i).phase = .free) (h_end : ∀ i, (c.loc i).phase = .free)
    (h : (crew C P Id).Reach c₀ tr c) : c.shared.books.pool = c₀.shared.books.pool := by
  have h_total := Threads.ledger (I := fun c => (∀ i, Worker.Valid (Threads.loc c i)) ∧
      Circulating (Shared.books (Threads.shared c)).state (Crew.messages c))
    (fun _ _ h_reach => ⟨crew_valid h_valid h_reach, crew_circulating h_valid h_init h_reach⟩)
    (fun sh => Books.pool (Shared.books sh)) (fun w => Phase.pool (Worker.phase w))
    (fun _ i _ _ _ _ hI h_step =>
      (step_phase (hI.1 i) (Worker.threadStep_eq h_step)).pool fun _ => hI.2.taken) h
  rwa [total_of_free _ rfl h_end, total_of_free _ rfl h_start] at h_total

/-- **Runtime accounting.** When every worker has finished, `pushed() - popped()` is the change
of the ring's occupancy since the start, whatever ring and pool were then, however many
iterations were skipped for want of a slot. Where the messages in the ring were distinct and
their slots acquired, it is also the change of the number of acquired slots. -/
theorem runtime_accounting (queue : MPMC C (Ptr P)) (pool : TaggedPool P)
    (nextSequence : BitVec 64) (ops : Id → ℕ) (role : Id → Role) {tr : List (Id × Empty)}
    {c : Crew C P Id}
    (h : (crew C P Id).Reach (Crew.init queue pool nextSequence ops role) tr c)
    (h_done : ∀ i, (c.loc i).done = true) :
    (c.shared.pushed - c.shared.popped).toInt =
        (c.shared.queue.occupancy : ℤ) - queue.occupancy ∧
      ((MPMC.cells queue.ring).Nodup →
        (∀ p ∈ MPMC.cells queue.ring, (pool.slots p).state ≠ 0) →
        (c.shared.pushed - c.shared.popped).toInt =
          (acquired fun p => (c.shared.pool.slots p).state : ℤ) -
            (acquired fun p => (pool.slots p).state)) := by
  have h_valid : ∀ i, (Threads.loc (Crew.init queue pool nextSequence ops role) i).Valid :=
    fun i => Worker.spawn_valid (ops i) (role i)
  have h_start : ∀ i, (Threads.loc (Crew.init queue pool nextSequence ops role) i).phase = .free :=
    fun i => spawn_phase (ops i) (role i)
  have h_end : ∀ i, (c.loc i).phase = .free := fun i => done_phase (h_done i)
  refine ⟨?_, fun h_nodup h_acquired => ?_⟩
  · -- what left the hands of all workers is in the ring
    have h_ring := crew_ring h_valid h_start h_end h
    have h_counters := Books.counters_of_ring h_ring rfl (occupancy_lt c.shared.queue)
      (occupancy_lt queue)
    exact h_counters
  · -- at the start nobody holds anything
    have h_hands : ∑ i, (Threads.loc (Crew.init queue pool nextSequence ops role) i).phase.held =
        0 := Finset.sum_eq_zero fun i _ => by rw [h_start i]; rfl
    have h_init : Circulating (fun p => (pool.slots p).state)
        (Crew.messages (Crew.init queue pool nextSequence ops role)) := by
      rw [Crew.messages, h_hands, add_zero]
      exact ⟨h_nodup, h_acquired⟩
    have h_pool := crew_pool h_valid h_init h_start h_end h
    have h_counters := Books.counters_of_pool h_pool rfl
    exact h_counters

end

/-- A producer of two messages on a pool of one slot, which has to skip one, and a consumer of
none. -/
theorem runtime_accounting_skip :
    ∃ c : Crew Capacity.two onePool Bool, (∀ i, (c.loc i).done = true) ∧
      c.shared.pushed = 1 ∧ c.shared.queue.occupancy = 1 ∧
      (c.shared.pushed - c.shared.popped).toInt =
        (acquired fun p => (c.shared.pool.slots p).state : ℤ) -
          (acquired fun p : Ptr onePool =>
            ((TaggedPool.fresh fun _ => TaggedMessage.fresh).slots p).state) := by
  obtain ⟨tr, c, h_reach, h_run⟩ := Machine.exists_reach_of_run
    (crew Capacity.two onePool Bool)
    (Crew.init (.fresh _ _) (.fresh fun _ => TaggedMessage.fresh) 1 (fun i => if i then 0 else 2)
      (fun i => if i then .consumer else .producer))
    ((true, .run) :: List.replicate 10 (false, .run))
    (fun c _ => decide ((∀ i, (c.loc i).done = true) ∧ c.shared.pushed = 1 ∧
      c.shared.queue.occupancy = 1)) (by decide +kernel)
  -- the producer has skipped its second iteration, the consumer was spawned for none
  obtain ⟨h_done, h_pushed, h_occupancy⟩ := of_decide_eq_true h_run
  exact ⟨c, h_done, h_pushed, h_occupancy,
    (runtime_accounting _ _ _ _ _ h_reach h_done).2 (by decide +kernel) (by decide +kernel)⟩

/-- **A pointer to a free slot.** A consumer on a ring that holds one pops it, releases what
is free already and counts it: `pushed() - popped()` is `-1` and no slot has changed hands. -/
theorem runtime_accounting_free :
    ∃ (queue : MPMC Capacity.two (Ptr onePool)) (pool : TaggedPool onePool)
      (tr : List (Unit × Empty)) (c : Crew Capacity.two onePool Unit),
      (crew Capacity.two onePool Unit).Reach
        (Crew.init queue pool 1 (fun _ => 1) fun _ => .consumer) tr c ∧
      (∀ i, (c.loc i).done = true) ∧
      (c.shared.pushed - c.shared.popped).toInt ≠
        (acquired fun p => (c.shared.pool.slots p).state : ℤ) -
          (acquired fun p => (pool.slots p).state) := by
  obtain ⟨tr, c, h_reach, h_run⟩ := Machine.exists_reach_of_run
    (crew Capacity.two onePool Unit)
    (Crew.init ⟨fun slot => if slot.val = 0 then some ⟨0, onePool.pos⟩ else none, 0, 0⟩
      (.fresh fun _ => TaggedMessage.fresh) 1 (fun _ => 1) fun _ => .consumer)
    (List.replicate 6 ((), .run))
    (fun c _ => decide ((∀ i, (c.loc i).done = true) ∧
      (c.shared.pushed - c.shared.popped).toInt ≠
        (acquired fun p => (c.shared.pool.slots p).state : ℤ) -
          (acquired fun p =>
            ((TaggedPool.fresh (P := onePool) fun _ => TaggedMessage.fresh).slots p).state)))
    (by decide +kernel)
  exact ⟨_, _, tr, c, h_reach, of_decide_eq_true h_run⟩

end Runtime

end Hft
