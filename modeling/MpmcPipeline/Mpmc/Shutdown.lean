import Mathlib.Algebra.Order.BigOperators.Group.List
import MpmcPipeline.Mpmc.Runtime

/-!
# Does `stop` return?

`join_all` waits for workers that never look at `running_`. A producer waits for an empty
cell and a consumer for a message, so whether they all finish is a matter of numbers: the
messages in the ring, plus the pushes the producers have still to make, less the messages
the consumers have still to take, is the occupancy of the ring in the end
(`System.surplus`). Only two kinds of step change this number: a spawn, and a producer
that skips an iteration because the pool has no slot for it (`Worker.Effect`).

While the supervisor is being joined, nobody looks at the number. `stop_stuck` is a run
in which it is negative: a single consumer is spawned and `stop` waits for it forever.
`join_all_progress` says when that cannot happen: where `stop` joins the supervisor while
the surplus is between zero and the capacity, and producers then skip iterations only
while it is positive, neither of the two stuck states is reached.

The condition is enough, not necessary. Below zero `join_all` never returns
(`join_all_starved`); above the capacity it does not return as long as no producer skips an
iteration (`join_all_clogged`), but one that does makes the surplus smaller, and then it may.
-/

namespace Hft

namespace Runtime

variable {C : Capacity} {P : PoolCapacity}

/-! ### What a worker still owes -/

/-- Inside `push`. -/
def pushing : MPMC.Pc C (Ptr P) → Bool
  | .pushFetch _ | .pushCas _ _ => true
  | _ => false

/-- Inside `try_pop`. -/
def trying : MPMC.Pc C (Ptr P) → Bool
  | .tryLoad | .tryExchange _ _ | .tryStore _ _ => true
  | _ => false

namespace Worker

/-- The pushes a producer has still to make, if no iteration is skipped. -/
def pushesLeft : Worker C P → ℕ
  | .producer ops i pc =>
    match pc with
    | .fetch | .scan _ _ | .fill _ _ => ops - i
    | .push pc => ops - (i + 1) + pc.pending.length
    | .count => ops - (i + 1)
    | .storeDone | .finished => 0
  | .consumer _ _ _ => 0

/-- The messages a consumer has still to take. -/
def takesLeft : Worker C P → ℕ
  | .producer _ _ _ => 0
  | .consumer ops consumed pc =>
    match pc with
    | .pop pc => ops - consumed - pc.hand.length
    | .release _ | .count => ops - (consumed + 1)
    | .storeDone | .finished => 0

/-- The worker is about to skip an iteration: `acquire` has found no free slot. -/
def skips : Worker C P → Bool
  | .producer _ _ (.scan _ k) => decide (P.val ≤ k)
  | _ => false

/-- A worker inside its loop has an iteration left, and is inside the call it makes; a
worker past its loop has none. -/
def Valid : Worker C P → Prop
  | .producer ops i pc =>
    match pc with
    | .fetch | .scan _ _ | .fill _ _ | .count => i < ops
    | .push pc => i < ops ∧ pushing pc = true
    | .storeDone | .finished => ops ≤ i
  | .consumer ops consumed pc =>
    match pc with
    | .pop pc => consumed < ops ∧ trying pc = true
    | .release _ | .count => consumed < ops
    | .storeDone | .finished => ops ≤ consumed

theorem produce_valid (ops i : ℕ) : (produce ops i : Worker C P).Valid := by
  unfold produce
  split
  · assumption
  · next h_le => exact Nat.not_lt.mp h_le

theorem consume_valid (ops consumed : ℕ) : (consume ops consumed : Worker C P).Valid := by
  unfold consume
  split
  · next h_lt => exact ⟨h_lt, rfl⟩
  · next h_le => exact Nat.not_lt.mp h_le

theorem spawn_valid (ops : ℕ) (role : Role) : (spawn ops role : Worker C P).Valid := by
  cases role with
  | producer => exact produce_valid ops 0
  | consumer => exact consume_valid ops 0

@[simp] theorem produce_pushesLeft (ops i : ℕ) :
    (produce ops i : Worker C P).pushesLeft = ops - i := by
  unfold produce
  split
  · rfl
  · next h_le => exact (Nat.sub_eq_zero_of_le (Nat.not_lt.mp h_le)).symm

@[simp] theorem produce_takesLeft (ops i : ℕ) : (produce ops i : Worker C P).takesLeft = 0 := by
  unfold produce
  split <;> rfl

@[simp] theorem consume_pushesLeft (ops consumed : ℕ) :
    (consume ops consumed : Worker C P).pushesLeft = 0 := by
  unfold consume
  split <;> rfl

@[simp] theorem consume_takesLeft (ops consumed : ℕ) :
    (consume ops consumed : Worker C P).takesLeft = ops - consumed := by
  unfold consume
  split
  · rfl
  · next h_le => exact (Nat.sub_eq_zero_of_le (Nat.not_lt.mp h_le)).symm

/-- A worker that has finished owes nothing. -/
theorem done_owes {w : Worker C P} (h : w.done = true) : w.pushesLeft = 0 ∧ w.takesLeft = 0 := by
  cases w with
  | producer ops i pc => cases pc <;> first | exact ⟨rfl, rfl⟩ | nomatch h
  | consumer ops consumed pc => cases pc <;> first | exact ⟨rfl, rfl⟩ | nomatch h

theorem afterPush_pushesLeft (ops i : ℕ) (pc : MPMC.Pc C (Ptr P)) :
    (afterPush ops i pc).pushesLeft = ops - (i + 1) + pc.pending.length := by
  cases pc <;> rfl

theorem afterPush_takesLeft (ops i : ℕ) (pc : MPMC.Pc C (Ptr P)) :
    (afterPush ops i pc).takesLeft = 0 := by
  cases pc <;> rfl

theorem afterPop_pushesLeft (ops consumed : ℕ) (returned : List (Ptr P))
    (pc : MPMC.Pc C (Ptr P)) : (afterPop ops consumed returned pc).pushesLeft = 0 := by
  cases pc with
  | idle =>
    cases returned with
    | nil => exact consume_pushesLeft ops consumed
    | cons => rfl
  | _ => rfl

/-- A step inside `push` makes the push or leaves it to be made. -/
theorem push_step {q q' : MPMC C (Ptr P)} {pc pc' : MPMC.Pc C (Ptr P)}
    {ch : MPMC.Choice (Ptr P)} {es : List (MPMC.Event (Ptr P))}
    (h : q.step pc ch = some (q', pc', es)) (h_in : pushing pc = true) :
    q'.occupancy + pc'.pending.length = q.occupancy + pc.pending.length ∧
      (pc' = .idle ∨ pushing pc' = true) := by
  have h_steps := MPMC.step_steps h
  have h_balance := h_steps.occupancy
  cases h_steps with
  | fetchPost message => exact ⟨rfl, Or.inr rfl⟩
  | casFail message slot _ h_fail => exact ⟨rfl, Or.inr rfl⟩
  | casStore message slot h_empty => exact ⟨h_balance.symm, Or.inl rfl⟩
  | _ => nomatch h_in

theorem hand_length_le (pc : MPMC.Pc C (Ptr P)) : pc.hand.length ≤ 1 := by
  cases pc with
  | tryStore message idx => exact le_rfl
  | _ => exact Nat.zero_le 1

/-- A step inside `try_pop` takes at most one message, which it returns or holds. -/
theorem pop_step {q q' : MPMC C (Ptr P)} {pc pc' : MPMC.Pc C (Ptr P)}
    {ch : MPMC.Choice (Ptr P)} {es : List (MPMC.Event (Ptr P))}
    (h : q.step pc ch = some (q', pc', es)) (h_in : trying pc = true) :
    q'.occupancy + (MPMC.returns es ++ pc'.hand).length = q.occupancy + pc.hand.length ∧
      (MPMC.returns es ++ pc'.hand).length ≤ 1 ∧
      (pc' = .idle ∨ trying pc' = true ∧ MPMC.returns es = []) := by
  have h_steps := MPMC.step_steps h
  have h_balance := h_steps.occupancy
  have h_hand := congrArg List.length h_steps.hand
  rw [List.length_append] at h_hand
  -- a take moves one message from the ring to the hand, the other operations move none
  cases h_steps with
  | loadPop => exact ⟨rfl, Nat.zero_le 1, Or.inr ⟨rfl, rfl⟩⟩
  | tryTake message slot probe h_full =>
    refine ⟨?_, le_rfl, Or.inr ⟨rfl, rfl⟩⟩
    rw [← h_hand]
    exact h_balance.symm
  | tryMiss slot probe h_empty h_more => exact ⟨rfl, Nat.zero_le 1, Or.inr ⟨rfl, rfl⟩⟩
  | tryFail slot probe h_empty h_last => exact ⟨rfl, Nat.zero_le 1, Or.inl rfl⟩
  | storePop message idx => exact ⟨rfl, le_rfl, Or.inl rfl⟩
  | _ => nomatch h_in

theorem afterPop_takesLeft (ops consumed : ℕ) {returned : List (Ptr P)}
    {pc : MPMC.Pc C (Ptr P)} (h_one : (returned ++ pc.hand).length ≤ 1)
    (h_in : pc = .idle ∨ trying pc = true ∧ returned = []) :
    (afterPop ops consumed returned pc).takesLeft =
      ops - consumed - (returned ++ pc.hand).length := by
  rcases h_in with rfl | ⟨h_in, rfl⟩
  · match returned, h_one with
    | [], _ => exact consume_takesLeft ops consumed
    | [msg], _ => exact (Nat.sub_sub ops consumed 1).symm
  · cases pc <;> first | rfl | nomatch h_in

theorem afterPop_valid {ops consumed : ℕ} (h_lt : consumed < ops) {returned : List (Ptr P)}
    {pc : MPMC.Pc C (Ptr P)} (h_in : pc = .idle ∨ trying pc = true ∧ returned = []) :
    (afterPop ops consumed returned pc).Valid := by
  rcases h_in with rfl | ⟨h_in, rfl⟩
  · cases returned with
    | nil => exact consume_valid ops consumed
    | cons msg rest => exact h_lt
  · cases pc <;> first | exact ⟨h_lt, rfl⟩ | nomatch h_in

theorem afterPush_valid {ops i : ℕ} (h_lt : i < ops) {pc : MPMC.Pc C (Ptr P)}
    (h_in : pc = .idle ∨ pushing pc = true) : (afterPush ops i pc).Valid := by
  rcases h_in with rfl | h_in
  · exact h_lt
  · cases pc <;> first | exact ⟨h_lt, rfl⟩ | nomatch h_in

/-- **What a worker's step does to the balance.** Only a skipped iteration changes it. -/
structure Effect (sh sh' : Shared C P) (w w' : Worker C P) : Prop where
  valid : w'.Valid
  balance : sh'.queue.occupancy + w'.pushesLeft + w.takesLeft + (if w.skips then 1 else 0) =
    sh.queue.occupancy + w.pushesLeft + w'.takesLeft

theorem step_effect {sh sh' : Shared C P} {w w' : Worker C P} {ch : Choice}
    (h_valid : w.Valid) (h : w.step sh ch = some (sh', w')) : Effect sh sh' w w' := by
  cases w with
  | producer ops i pc =>
    cases pc with
    | fetch =>
      cases ch <;> cases h
      exact ⟨h_valid, rfl⟩
    | scan sequence k =>
      have h_lt : i < ops := h_valid
      rw [Worker.step] at h
      split at h
      · next h_k =>
        -- a slot left to look at: claimed or passed over, nothing is owed or made
        have h_more : (Worker.producer ops i (.scan sequence k) : Worker C P).skips = false :=
          decide_eq_false (Nat.not_le.mpr h_k)
        split at h
        · cases h
          refine ⟨h_lt, ?_⟩
          rw [h_more]
          rfl
        · cases h
          refine ⟨h_lt, ?_⟩
          rw [h_more]
          rfl
      · next h_k =>
        -- the pool is exhausted: one push is owed no more and none has been made
        cases h
        have h_skip : (Worker.producer ops i (.scan sequence k) : Worker C P).skips = true :=
          decide_eq_true (Nat.not_lt.mp h_k)
        refine ⟨produce_valid ops (i + 1), ?_⟩
        rw [h_skip, produce_pushesLeft, produce_takesLeft]
        show sh.queue.occupancy + (ops - (i + 1)) + 0 + 1 = sh.queue.occupancy + (ops - i) + 0
        omega
    | fill sequence msg =>
      -- the push that was owed by the loop is now owed by the call
      cases ch <;> cases h
      have h_lt : i < ops := h_valid
      refine ⟨⟨h_lt, rfl⟩, ?_⟩
      show sh.queue.occupancy + (ops - (i + 1) + 1) + 0 + 0 = sh.queue.occupancy + (ops - i) + 0
      omega
    | push pc =>
      obtain ⟨h_lt, h_in⟩ := h_valid
      obtain ⟨q, pc', es, h_step, rfl, rfl⟩ := Worker.step_push h
      obtain ⟨h_balance, h_in'⟩ := push_step h_step h_in
      refine ⟨afterPush_valid h_lt h_in', ?_⟩
      rw [afterPush_pushesLeft, afterPush_takesLeft]
      show q.occupancy + (ops - (i + 1) + pc'.pending.length) + 0 + 0 =
        sh.queue.occupancy + (ops - (i + 1) + pc.pending.length) + 0
      omega
    | count =>
      cases ch <;> cases h
      refine ⟨produce_valid ops (i + 1), ?_⟩
      rw [produce_pushesLeft, produce_takesLeft]
      rfl
    | storeDone =>
      cases ch <;> cases h
      exact ⟨h_valid, rfl⟩
    | finished => cases ch <;> cases h
  | consumer ops consumed pc =>
    cases pc with
    | pop pc =>
      obtain ⟨h_lt, h_in⟩ := h_valid
      obtain ⟨q, pc', es, h_step, rfl, rfl⟩ := Worker.step_pop h
      obtain ⟨h_balance, h_one, h_in'⟩ := pop_step h_step h_in
      refine ⟨afterPop_valid h_lt h_in', ?_⟩
      have h_hand := hand_length_le pc
      rw [afterPop_pushesLeft, afterPop_takesLeft ops consumed h_one h_in']
      show q.occupancy + 0 + (ops - consumed - pc.hand.length) + 0 =
        sh.queue.occupancy + 0 + (ops - consumed - (MPMC.returns es ++ pc'.hand).length)
      omega
    | release msg =>
      cases ch <;> cases h
      exact ⟨h_valid, rfl⟩
    | count =>
      cases ch <;> cases h
      refine ⟨consume_valid ops (consumed + 1), ?_⟩
      rw [consume_pushesLeft, consume_takesLeft]
      rfl
    | storeDone =>
      cases ch <;> cases h
      exact ⟨h_valid, rfl⟩
    | finished => cases ch <;> cases h

end Worker

/-! ### The balance of a whole runtime -/

/-- Replacing one element of a list changes a sum over it by the difference. -/
theorem sum_map_set {α : Type*} (f : α → ℕ) {l : List α} {t : ℕ} {w : α} (w' : α)
    (h : l[t]? = some w) : ((l.set t w').map f).sum + f w = (l.map f).sum + f w' := by
  induction l generalizing t with
  | nil => simp at h
  | cons a l ih =>
    -- the sum does not see where in the list the worker stands
    cases t with
    | zero =>
      obtain rfl := Option.some.inj h
      simp only [List.set_cons_zero, List.map_cons, List.sum_cons]
      omega
    | succ t =>
      have h_rest := ih h
      simp only [List.set_cons_succ, List.map_cons, List.sum_cons]
      omega

/-- The pushes that all producers have still to make. -/
def pushesLeft (threads : List (Worker C P)) : ℕ := (threads.map Worker.pushesLeft).sum

/-- The messages that all consumers have still to take. -/
def takesLeft (threads : List (Worker C P)) : ℕ := (threads.map Worker.takesLeft).sum

/-- What the ring holds in the end, if no producer skips an iteration. -/
def System.surplus (s : System C P) : ℤ :=
  s.shared.queue.occupancy + pushesLeft s.threads - takesLeft s.threads

/-- Inside `join_all`. -/
def OwnerPc.joining : OwnerPc → Bool
  | .joinAll _ _ => true
  | _ => false

/-- The next step of the owner ends the join of the supervisor. -/
def OwnerPc.entering : OwnerPc → Bool
  | .joinSupervisor _ => true
  | _ => false

/-- The action is an iteration skipped by a producer. -/
def System.skipping (s : System C P) : Action → Bool
  | .worker t _ => (s.threads[t]?.map Worker.skips).getD false
  | _ => false

/-- The supervisor is joined while the surplus is between zero and the capacity, and in
`join_all` a producer skips an iteration only while the surplus is positive. -/
def Balanced (s : System C P) (a : Action) : Prop :=
  (a = .owner → s.owner.entering = true → 0 ≤ s.surplus ∧ s.surplus ≤ C.val) ∧
    (s.owner.joining = true → s.skipping a = true → 0 < s.surplus)

/-- Every thread is inside its loop as it should be, every worker that is not in
`workers_` has finished, and `join_all` has no supervisor beside it. -/
structure RuntimeInv (s : System C P) : Prop where
  valid : ∀ w ∈ s.threads, w.Valid
  tracked : ∀ (t : ℕ) w, s.threads[t]? = some w → t ∈ s.workers ∨ w.done = true
  alone : s.owner.joining = true → s.supervisor = .absent
  joined : ∀ k restart, s.owner = .joinAll k restart → ∀ j < k, ∀ t w,
    s.workers[j]? = some t → s.threads[t]? = some w → w.done = true

theorem RuntimeInv.init (queue : MPMC C (Ptr P)) (pool : TaggedPool P) :
    RuntimeInv (System.init queue pool) where
  valid := fun _ h => absurd h List.not_mem_nil
  tracked := fun _ _ h => absurd h (by simp [System.init])
  alone := fun _ => rfl
  joined := nofun

/-- A worker that has finished takes no step. -/
theorem Worker.step_done {sh : Shared C P} {w : Worker C P} {ch : Choice}
    {r : Shared C P × Worker C P} (h : w.step sh ch = some r) : w.done = false := by
  cases w with
  | producer ops i pc =>
    cases pc with
    | finished => cases ch <;> nomatch h
    | _ => rfl
  | consumer ops consumed pc =>
    cases pc with
    | finished => cases ch <;> nomatch h
    | _ => rfl

/-- What the runtime's step is when a worker moves. -/
theorem step_worker {s s' : System C P} {t : ℕ} {ch : Choice} {es : List Event}
    (h : s.step (.worker t ch) = some (s', es)) :
    ∃ w shared w', s.threads[t]? = some w ∧ w.step s.shared ch = some (shared, w') ∧
      s' = { s with shared, threads := s.threads.set t w' } ∧ es = [] := by
  simp only [System.step] at h
  cases h_w : s.threads[t]? with
  | none => simp [h_w] at h
  | some w =>
    cases h_step : w.step s.shared ch with
    | none => simp [h_w, h_step] at h
    | some r =>
      simp only [h_w, h_step, Option.some.injEq, Prod.mk.injEq] at h
      exact ⟨w, r.1, r.2, rfl, h_step, h.1.symm, h.2.symm⟩

/-- Only the entry at `index` is lost. -/
theorem mem_swapRemove {workers : List ℕ} {index t t' : ℕ} (h_index : workers[index]? = some t')
    (h : t ∈ workers) (h_ne : t ≠ t') : t ∈ swapRemove workers index := by
  rcases List.eq_nil_or_concat workers with rfl | ⟨init, back, rfl⟩
  · exact absurd h List.not_mem_nil
  rw [List.concat_eq_append] at h h_index ⊢
  simp only [swapRemove, List.getLast?_concat]
  rcases Nat.lt_or_ge index init.length with h_lt | h_ge
  · -- the last entry takes the place of the one at `index`
    rw [List.set_append_left _ _ h_lt, List.dropLast_concat]
    rw [List.getElem?_append_left h_lt] at h_index
    rcases List.mem_append.mp h with h_init | h_back
    · obtain ⟨j, h_j⟩ := List.mem_iff_getElem?.mp h_init
      have h_other : index ≠ j := by
        rintro rfl
        exact h_ne (Option.some.inj (h_j.symm.trans h_index))
      refine List.mem_iff_getElem?.mpr ⟨j, ?_⟩
      rw [List.getElem?_set_ne h_other, h_j]
    · rw [List.mem_singleton.mp h_back]
      exact List.mem_iff_getElem?.mpr ⟨index, by rw [List.getElem?_set_self h_lt]⟩
  · -- the last entry is moved onto itself and dropped
    rw [List.getElem?_append_right h_ge, List.getElem?_singleton] at h_index
    split at h_index
    · next h_zero =>
      obtain rfl := Option.some.inj h_index
      rw [List.set_append_right _ _ h_ge, h_zero, List.set_cons_zero, List.dropLast_concat]
      rcases List.mem_append.mp h with h_init | h_back
      · exact h_init
      · exact absurd (List.mem_singleton.mp h_back) h_ne
    · exact absurd h_index (by simp)

/-- Everything a step of the supervisor does to the workers: nothing, a join of one that
has finished, or a spawn. -/
inductive Supervised (s s' : System C P) : Prop
  | keep (h_threads : s'.threads = s.threads) (h_workers : s'.workers = s.workers)
  | joined (index t : ℕ) (w : Worker C P) (h_index : s.workers[index]? = some t)
      (h_w : s.threads[t]? = some w) (h_done : w.done = true)
      (h_threads : s'.threads = s.threads) (h_workers : s'.workers = swapRemove s.workers index)
  | spawned (ops : ℕ) (role : Role) (h_threads : s'.threads = s.threads ++ [.spawn ops role])
      (h_workers : s'.workers = s.workers ++ [s.threads.length])

theorem superviseStep_cases {s s' : System C P} {draw : ℕ}
    (h : s.superviseStep draw = some s') :
    Supervised s s' ∧ s'.owner = s.owner ∧ s.supervisor ≠ .absent := by
  unfold System.superviseStep at h
  split at h
  · next h_pc =>
    split at h
    · split at h
      · cases h
        exact ⟨.keep rfl rfl, rfl, by simp [h_pc]⟩
      · cases h
    · cases h
      exact ⟨.keep rfl rfl, rfl, by simp [h_pc]⟩
  -- the load of `done` decides what is next, and changes nothing else
  · next action h_pc =>
    split at h
    · cases h
    · split at h
      · cases h
      · split at h
        · cases h
          exact ⟨.keep rfl rfl, rfl, by simp [h_pc]⟩
        · cases h
          exact ⟨.keep rfl rfl, rfl, by simp [h_pc]⟩
  -- `join` waits until the worker is done, and takes it out of the list
  · next action index h_pc =>
    split at h
    · cases h
    · next t h_index =>
      split at h
      · cases h
      · next w h_w =>
        split at h
        · next h_done =>
          cases h
          exact ⟨.joined index t w h_index h_w h_done rfl rfl, rfl, by simp [h_pc]⟩
        · cases h
  · next action h_pc =>
    cases h
    exact ⟨.keep rfl rfl, rfl, by simp [h_pc]⟩
  · next role h_pc =>
    cases h
    exact ⟨.keep rfl rfl, rfl, by simp [h_pc]⟩
  · next role h_pc =>
    split at h
    · cases h
      exact ⟨.spawned draw role rfl rfl, rfl, by simp [h_pc]⟩
    · cases h
  · next h_pc =>
    cases h
    exact ⟨.keep rfl rfl, rfl, by simp [h_pc]⟩
  · cases h
  · cases h

/-- Everything a step of the owner does: it moves on outside `join_all`, enters it, joins
the next worker, or leaves when the last one has been joined. -/
inductive Owned (s s' : System C P) (es : List Event) : Prop
  | move (h_threads : s'.threads = s.threads) (h_workers : s'.workers = s.workers)
      (h_shared : s'.shared = s.shared) (h_before : s.owner.joining = false)
      (h_entering : s.owner.entering = false) (h_after : s'.owner.joining = false)
      (h_es : es = [])
  | enter (restart : Bool) (h_eq : s' =
        { s with supervisor := .absent, owner := .joinAll 0 restart })
      (h_entering : s.owner.entering = true) (h_es : es = [])
  | join (k t : ℕ) (restart : Bool) (w : Worker C P) (h_owner : s.owner = .joinAll k restart)
      (h_k : s.workers[k]? = some t) (h_w : s.threads[t]? = some w) (h_done : w.done = true)
      (h_eq : s' = { s with owner := .joinAll (k + 1) restart }) (h_es : es = [])
  | leave (k : ℕ) (restart : Bool) (h_owner : s.owner = .joinAll k restart)
      (h_k : s.workers[k]? = none) (h_threads : s'.threads = s.threads)
      (h_workers : s'.workers = []) (h_after : s'.owner.joining = false)
      (h_es : es = [.joinedAll])

theorem ownerStep_cases {s s' : System C P} {es : List Event}
    (h : s.ownerStep = some (s', es)) : Owned s s' es := by
  unfold System.ownerStep at h
  split at h
  · cases h
  · next restart h_pc =>
    cases h
    exact .move rfl rfl rfl (by rw [h_pc]; rfl) (by rw [h_pc]; rfl) rfl rfl
  · next restart h_pc =>
    split at h
    · next h_sup =>
      cases h
      exact .enter restart (by rw [← h_sup]) (by rw [h_pc]; rfl) rfl
    · cases h
      exact .enter restart rfl (by rw [h_pc]; rfl) rfl
    -- the supervisor has not left its loop yet
    · cases h
  · next k restart h_pc =>
    split at h
    · next h_k =>
      cases h
      exact .leave k restart h_pc h_k rfl rfl (by cases restart <;> rfl) rfl
    · next t h_k =>
      split at h
      · cases h
      · next w h_w =>
        split at h
        · next h_done =>
          cases h
          exact .join k t restart w h_pc h_k h_w h_done rfl rfl
        · cases h
  · next h_pc =>
    cases h
    exact .move rfl rfl rfl (by rw [h_pc]; rfl) (by rw [h_pc]; rfl) rfl rfl
  · next h_pc =>
    cases h
    exact .move rfl rfl rfl (by rw [h_pc]; rfl) (by rw [h_pc]; rfl) rfl rfl

/-! ### The invariant -/

theorem RuntimeInv.worker {s : System C P} (hI : RuntimeInv s) {t : ℕ} {ch : Choice}
    {w w' : Worker C P} {shared : Shared C P} (h_w : s.threads[t]? = some w)
    (h_step : w.step s.shared ch = some (shared, w')) :
    RuntimeInv { s with shared, threads := s.threads.set t w' } := by
  have h_live : w.done = false := Worker.step_done h_step
  have h_effect := Worker.step_effect (hI.valid w (List.mem_of_getElem? h_w)) h_step
  refine ⟨fun v h_v => ?_, fun t' v h_v => ?_, hI.alone,
    fun k restart h_owner j h_j t' v h_t' h_v => ?_⟩
  -- every thread but `t` is what it was
  · rcases List.mem_or_eq_of_mem_set h_v with h_old | rfl
    · exact hI.valid v h_old
    · exact h_effect.valid
  · by_cases h_eq : t' = t
    · subst h_eq
      rcases hI.tracked t' w h_w with h_in | h_done
      · exact Or.inl h_in
      · rw [h_live] at h_done
        exact absurd h_done Bool.false_ne_true
    · rw [List.getElem?_set_ne (Ne.symm h_eq)] at h_v
      exact hI.tracked t' v h_v
  · by_cases h_eq : t' = t
    · -- a worker that has been joined does not move
      subst h_eq
      have h_done := hI.joined k restart h_owner j h_j t' w h_t' h_w
      rw [h_live] at h_done
      exact absurd h_done Bool.false_ne_true
    · rw [List.getElem?_set_ne (Ne.symm h_eq)] at h_v
      exact hI.joined k restart h_owner j h_j t' v h_t' h_v

theorem RuntimeInv.supervise {s s' : System C P} (hI : RuntimeInv s) {draw : ℕ}
    (h : s.superviseStep draw = some s') : RuntimeInv s' := by
  obtain ⟨h_cases, h_owner, h_present⟩ := superviseStep_cases h
  -- a supervisor that steps has not been joined, so `stop` is not in `join_all`
  have h_outside : s'.owner.joining = false := by
    rw [h_owner]
    by_contra h_joining
    exact h_present (hI.alone (Bool.not_eq_false _ ▸ h_joining))
  have h_none : ∀ k restart, s'.owner ≠ .joinAll k restart := by
    intro k restart h_eq
    rw [h_eq] at h_outside
    exact absurd h_outside.symm Bool.false_ne_true
  have h_alone : s'.owner.joining = true → s'.supervisor = .absent := by
    rw [h_outside]
    exact fun h_false => absurd h_false Bool.false_ne_true
  refine ⟨?_, ?_, h_alone, fun k restart h_eq => absurd h_eq (h_none k restart)⟩
  · intro w h_w
    cases h_cases with
    | keep h_threads h_workers => exact hI.valid w (h_threads ▸ h_w)
    | joined index t w' h_index h_w' h_done h_threads h_workers =>
      exact hI.valid w (h_threads ▸ h_w)
    | spawned ops role h_threads h_workers =>
      rw [h_threads] at h_w
      rcases List.mem_append.mp h_w with h_old | h_new
      · exact hI.valid w h_old
      · rw [List.mem_singleton.mp h_new]
        exact Worker.spawn_valid ops role
  · intro t w h_w
    cases h_cases with
    | keep h_threads h_workers =>
      rw [h_threads] at h_w
      rw [h_workers]
      exact hI.tracked t w h_w
    | joined index t' w' h_index h_w' h_done h_threads h_workers =>
      rw [h_threads] at h_w
      rw [h_workers]
      by_cases h_eq : t = t'
      · -- the worker that leaves `workers_` has finished
        subst h_eq
        exact Or.inr (Option.some.inj (h_w'.symm.trans h_w) ▸ h_done)
      · exact (hI.tracked t w h_w).imp_left fun h_in => mem_swapRemove h_index h_in h_eq
    | spawned ops role h_threads h_workers =>
      rw [h_threads] at h_w
      rw [h_workers]
      rcases Nat.lt_or_ge t s.threads.length with h_lt | h_ge
      · rw [List.getElem?_append_left h_lt] at h_w
        exact (hI.tracked t w h_w).imp_left fun h_in => List.mem_append_left _ h_in
      · -- the new thread is the last one
        rw [List.getElem?_append_right h_ge, List.getElem?_singleton] at h_w
        split at h_w
        · next h_zero =>
          refine Or.inl (List.mem_append_right _ (List.mem_singleton.mpr ?_))
          omega
        · cases h_w

/-- Where `join_all` has joined every worker, every thread has finished. -/
theorem RuntimeInv.all_done {s : System C P} (hI : RuntimeInv s) {k : ℕ} {restart : Bool}
    (h_owner : s.owner = .joinAll k restart) (h_k : s.workers[k]? = none) :
    ∀ w ∈ s.threads, w.done = true := by
  intro w h_w
  obtain ⟨t, h_t⟩ := List.mem_iff_getElem?.mp h_w
  rcases hI.tracked t w h_t with h_in | h_done
  · obtain ⟨j, h_j⟩ := List.mem_iff_getElem?.mp h_in
    have h_len := List.getElem?_eq_none_iff.mp h_k
    have h_lt : j < s.workers.length := (List.getElem?_eq_some_iff.mp h_j).1
    exact hI.joined k restart h_owner j (by omega) t w h_j h_t
  · exact h_done

theorem RuntimeInv.own {s s' : System C P} {es : List Event} (hI : RuntimeInv s)
    (h : s.ownerStep = some (s', es)) : RuntimeInv s' := by
  -- outside `join_all` its two clauses say nothing
  have h_outside : s'.owner.joining = false → (s'.owner.joining = true → s'.supervisor = .absent) ∧
      ∀ k restart, s'.owner ≠ .joinAll k restart := by
    intro h_false
    refine ⟨fun h_true => ?_, fun k restart h_eq => ?_⟩
    · rw [h_false] at h_true
      exact absurd h_true Bool.false_ne_true
    · rw [h_eq] at h_false
      exact absurd h_false.symm Bool.false_ne_true
  cases ownerStep_cases h with
  | move h_threads h_workers h_shared h_before h_entering h_after h_es =>
    obtain ⟨h_alone, h_none⟩ := h_outside h_after
    refine ⟨?_, ?_, h_alone, fun k restart h_eq => absurd h_eq (h_none k restart)⟩
    · rw [h_threads]
      exact hI.valid
    · rw [h_threads, h_workers]
      exact hI.tracked
  | enter restart h_eq h_entering h_es =>
    subst h_eq
    refine ⟨hI.valid, hI.tracked, fun _ => rfl, fun k r h_owner j h_j => ?_⟩
    obtain ⟨rfl, -⟩ := OwnerPc.joinAll.inj h_owner
    exact absurd h_j (Nat.not_lt_zero j)
  | join k t restart w h_owner h_k h_w h_done h_eq h_es =>
    subst h_eq
    have h_joining : s.owner.joining = true := by rw [h_owner]; rfl
    refine ⟨hI.valid, hI.tracked, fun _ => hI.alone h_joining,
      fun k' r h_eq j h_j t' w' h_t' h_w' => ?_⟩
    obtain ⟨rfl, rfl⟩ := OwnerPc.joinAll.inj h_eq
    rcases Nat.lt_succ_iff_lt_or_eq.mp h_j with h_lt | rfl
    · exact hI.joined k restart h_owner j h_lt t' w' h_t' h_w'
    · -- the worker joined by this step
      obtain rfl := Option.some.inj (h_k.symm.trans h_t')
      rwa [← Option.some.inj (h_w.symm.trans h_w')]
  | leave k restart h_owner h_k h_threads h_workers h_after h_es =>
    obtain ⟨h_alone, h_none⟩ := h_outside h_after
    refine ⟨?_, ?_, h_alone, fun k' r h_eq => absurd h_eq (h_none k' r)⟩
    · rw [h_threads]
      exact hI.valid
    · intro t w h_w
      rw [h_threads] at h_w
      exact Or.inr (hI.all_done h_owner h_k w (List.mem_of_getElem? h_w))

theorem RuntimeInv.step {s s' : System C P} {a : Action} {es : List Event}
    (hI : RuntimeInv s) (h : s.step a = some (s', es)) : RuntimeInv s' := by
  cases a with
  | start | stop =>
    -- both leave the pool, the ring and the workers alone
    simp only [System.step] at h
    split at h
    · cases h
      exact ⟨hI.valid, hI.tracked, nofun, nofun⟩
    · cases h
  | owner => exact hI.own h
  | supervisor draw =>
    -- a supervisor round may spawn a worker or take a finished one out of the list
    simp only [System.step, Option.map_eq_some_iff, Prod.mk.injEq] at h
    obtain ⟨s'', h_step, rfl, -⟩ := h
    exact hI.supervise h_step
  | worker t ch =>
    obtain ⟨w, shared, w', h_w, h_step, rfl, -⟩ := step_worker h
    exact hI.worker h_w h_step

/-! ### The surplus inside `join_all` -/

/-- A worker's step changes the surplus only by skipping. -/
theorem surplus_worker {s : System C P} (hI : RuntimeInv s) {t : ℕ} {ch : Choice}
    {w w' : Worker C P} {shared : Shared C P} (h_w : s.threads[t]? = some w)
    (h_step : w.step s.shared ch = some (shared, w')) :
    ({ s with shared, threads := s.threads.set t w' } : System C P).surplus +
      (if w.skips then 1 else 0) = s.surplus := by
  have h_balance := (Worker.step_effect (hI.valid w (List.mem_of_getElem? h_w)) h_step).balance
  have h_pushes := sum_map_set Worker.pushesLeft w' h_w
  have h_takes := sum_map_set Worker.takesLeft w' h_w
  simp only [System.surplus, pushesLeft, takesLeft]
  split at h_balance <;> split <;> first | contradiction | omega

/-- In `join_all`, the surplus is lowered by every skipped iteration and by nothing else,
and only the end of `join_all` is visible. -/
theorem surplus_step {s s' : System C P} {a : Action} {es : List Event} (hI : RuntimeInv s)
    (h_joining : s.owner.joining = true) (h : s.step a = some (s', es)) :
    s'.owner.joining = true ∧ es = [] ∧
        s'.surplus + (if s.skipping a then 1 else 0) = s.surplus ∨
      s'.owner.joining = false ∧ ∀ w ∈ s.threads, w.done = true := by
  cases a with
  | start | stop =>
    -- `start` and `stop` are called outside `join_all` only
    simp only [System.step] at h
    split at h
    · next h_idle =>
      rw [h_idle] at h_joining
      exact absurd h_joining Bool.false_ne_true
    · cases h
  | owner =>
    -- the owner's own steps either stay in `join_all` or leave it at its end
    cases ownerStep_cases h with
    | move h_threads h_workers h_shared h_before h_entering h_after h_es =>
      -- these steps of the owner are taken outside `join_all`
      rw [h_before] at h_joining
      exact absurd h_joining Bool.false_ne_true
    | enter restart h_eq h_entering h_es =>
      subst h_eq
      exact Or.inl ⟨rfl, h_es, add_zero _⟩
    | join k t restart w h_owner h_k h_w h_done h_eq h_es =>
      subst h_eq
      exact Or.inl ⟨rfl, h_es, add_zero _⟩
    | leave k restart h_owner h_k h_threads h_workers h_after h_es =>
      exact Or.inr ⟨h_after, hI.all_done h_owner h_k⟩
  | supervisor draw =>
    -- by then the supervisor has been joined, so it makes no step
    simp only [System.step, Option.map_eq_some_iff, Prod.mk.injEq] at h
    obtain ⟨s'', h_step, -, -⟩ := h
    exact absurd (hI.alone h_joining) (superviseStep_cases h_step).2.2
  | worker t ch =>
    -- a worker's step is the only one that can lower the surplus
    obtain ⟨w, shared, w', h_w, h_step, rfl, rfl⟩ := step_worker h
    refine Or.inl ⟨h_joining, rfl, ?_⟩
    have h_surplus := surplus_worker hI h_w h_step
    simpa only [System.skipping, h_w, Option.map_some, Option.getD_some] using h_surplus

/-- `join_all` is entered by the step that has joined the supervisor. -/
theorem enter_step {s s' : System C P} {a : Action} {es : List Event}
    (h_before : s.owner.joining = false) (h_after : s'.owner.joining = true)
    (h : s.step a = some (s', es)) :
    a = .owner ∧ s.owner.entering = true ∧ s'.surplus = s.surplus := by
  -- a step that leaves the owner where it was does not enter
  have h_kept : s'.owner = s.owner → False := by
    intro h_eq
    rw [h_eq, h_before] at h_after
    exact Bool.false_ne_true h_after
  cases a with
  | start | stop =>
    simp only [System.step] at h
    split at h
    · cases h
      exact absurd h_after Bool.false_ne_true
    · cases h
  | owner =>
    cases ownerStep_cases h with
    | enter restart h_eq h_entering h_es =>
      subst h_eq
      exact ⟨rfl, h_entering, rfl⟩
    | join k t restart w h_owner h_k h_w h_done h_eq h_es =>
      rw [h_owner] at h_before
      exact absurd h_before.symm Bool.false_ne_true
    | move _ _ _ _ _ h_outside | leave _ _ _ _ _ _ h_outside =>
      -- these steps of the owner end outside `join_all`
      rw [h_outside] at h_after
      exact absurd h_after Bool.false_ne_true
  | supervisor draw =>
    simp only [System.step, Option.map_eq_some_iff, Prod.mk.injEq] at h
    obtain ⟨s'', h_step, rfl, -⟩ := h
    exact absurd (superviseStep_cases h_step).2.1 h_kept
  | worker t ch =>
    obtain ⟨w, shared, w', h_w, h_step, rfl, -⟩ := step_worker h
    exact absurd rfl h_kept

/-- Once every worker has finished, the surplus is the occupancy of the ring. -/
theorem surplus_done {s : System C P} (h : ∀ w ∈ s.threads, w.done = true) :
    0 ≤ s.surplus ∧ s.surplus ≤ C.val := by
  have h_pushes : pushesLeft s.threads = 0 :=
    List.sum_eq_zero fun n h_n => by
      obtain ⟨w, h_w, rfl⟩ := List.mem_map.mp h_n
      exact (Worker.done_owes (h w h_w)).1
  have h_takes : takesLeft s.threads = 0 :=
    List.sum_eq_zero fun n h_n => by
      obtain ⟨w, h_w, rfl⟩ := List.mem_map.mp h_n
      exact (Worker.done_owes (h w h_w)).2
  have h_le := s.shared.queue.occupancy_le
  rw [System.surplus, h_pushes, h_takes]
  omega

/-! ### Where `stop` can get stuck -/

/-- The surplus stays between zero and the capacity in `join_all`. -/
structure Covered (s : System C P) : Prop where
  inv : RuntimeInv s
  bounds : s.owner.joining = true → 0 ≤ s.surplus ∧ s.surplus ≤ C.val

theorem Covered.step {s s' : System C P} {a : Action} {es : List Event} (hI : Covered s)
    (hC : Balanced s a) (h : s.step a = some (s', es)) : Covered s' := by
  refine ⟨hI.inv.step h, fun h_after => ?_⟩
  cases h_before : s.owner.joining with
  | false =>
    -- the step that joins the supervisor, which `Balanced` constrains
    obtain ⟨rfl, h_entering, h_surplus⟩ := enter_step h_before h_after h
    rw [h_surplus]
    exact hC.1 rfl h_entering
  | true =>
    obtain ⟨h_low, h_high⟩ := hI.bounds h_before
    rcases surplus_step hI.inv h_before h with ⟨-, -, h_surplus⟩ | ⟨h_left, -⟩
    · cases h_skip : s.skipping a with
      | true =>
        have h_pos := hC.2 h_before h_skip
        rw [h_skip, if_pos rfl] at h_surplus
        omega
      | false =>
        rw [h_skip, if_neg Bool.false_ne_true] at h_surplus
        omega
    · rw [h_left] at h_after
      exact absurd h_after Bool.false_ne_true

theorem Covered.reach {queue : MPMC C (Ptr P)} {pool : TaggedPool P} {tr : List Event}
    {s : System C P} (h : (machine C P).ReachBy Balanced (System.init queue pool) tr s) :
    Covered s :=
  h.inv (I := fun _ s => Covered s) ⟨RuntimeInv.init queue pool, nofun⟩
    fun _ _ _ _ _ hI hC h_step => hI.step hC h_step

/-- `role` of the worker. -/
def Worker.role : Worker C P → Role
  | .producer _ _ _ => .producer
  | .consumer _ _ _ => .consumer

/-- The consumer has taken a message that it has not counted yet. -/
def ConsumerPc.holding : ConsumerPc C P → Bool
  | .pop (.tryStore _ _) | .release _ | .count => true
  | _ => false

/-- The producer is inside `queue_.push`. -/
def ProducerPc.inPush : ProducerPc C P → Bool
  | .push _ => true
  | _ => false

/-- A list sum of zero has zero terms. -/
theorem eq_zero_of_sum {f : Worker C P → ℕ} {l : List (Worker C P)}
    (h : (l.map f).sum = 0) {w : Worker C P} (h_w : w ∈ l) : f w = 0 :=
  List.sum_eq_zero_iff.mp h _ (List.mem_map_of_mem h_w)

/-- **`stop` is not stuck while the numbers match.** In every run in which `stop` joins
the supervisor while the surplus is between zero and the capacity, and producers skip
iterations in `join_all` only while it is positive: wherever `stop` is inside `join_all`,

* if every producer has finished and the ring is empty, a consumer that has not consumed
  all its messages holds the last of them;
* if every consumer has finished and the ring is full, no producer is inside `push`. -/
theorem join_all_progress {queue : MPMC C (Ptr P)} {pool : TaggedPool P} {tr : List Event}
    {s : System C P} (h : (machine C P).ReachBy Balanced (System.init queue pool) tr s)
    (h_joining : s.owner.joining = true) :
    ((∀ w ∈ s.threads, w.role = .producer → w.done = true) →
        (∀ i, s.shared.queue.ring i = none) →
        ∀ ops consumed pc, Worker.consumer ops consumed pc ∈ s.threads → consumed < ops →
          pc.holding = true ∧ consumed + 1 = ops) ∧
      ((∀ w ∈ s.threads, w.role = .consumer → w.done = true) →
        (∀ i, s.shared.queue.ring i ≠ none) →
        ∀ ops i pc, Worker.producer ops i pc ∈ s.threads → pc.inPush = false) := by
  have hI := Covered.reach h
  obtain ⟨h_low, h_high⟩ := hI.bounds h_joining
  rw [System.surplus] at h_low h_high
  constructor
  · -- nothing to be pushed and nothing in the ring, so nothing is left to take
    intro h_producers h_empty ops consumed pc h_mem h_lt
    have h_none : pushesLeft s.threads = 0 := by
      refine List.sum_eq_zero fun n h_n => ?_
      obtain ⟨w, h_w, rfl⟩ := List.mem_map.mp h_n
      cases w with
      | producer ops i pc => exact (Worker.done_owes (h_producers _ h_w rfl)).1
      | consumer ops consumed pc => rfl
    rw [MPMC.occupancy_of_empty h_empty, h_none] at h_low
    have h_taken : takesLeft s.threads = 0 := by omega
    have h_left := eq_zero_of_sum h_taken h_mem
    have h_valid := hI.inv.valid _ h_mem
    -- only a consumer with the message in its hand has `consumed < ops` and owes nothing
    cases pc with
    | pop pc =>
      have h_left : ops - consumed - pc.hand.length = 0 := h_left
      have h_in : trying pc = true := h_valid.2
      cases pc with
      | tryStore message idx =>
        have h_hand : (MPMC.Pc.tryStore message idx : MPMC.Pc C (Ptr P)).hand.length = 1 := rfl
        exact ⟨rfl, by omega⟩
      | tryLoad =>
        have h_hand : (MPMC.Pc.tryLoad : MPMC.Pc C (Ptr P)).hand.length = 0 := rfl
        omega
      | tryExchange slot probe =>
        have h_hand : (MPMC.Pc.tryExchange slot probe : MPMC.Pc C (Ptr P)).hand.length = 0 := rfl
        omega
      | _ => nomatch h_in
    | release msg =>
      have h_left : ops - (consumed + 1) = 0 := h_left
      exact ⟨rfl, by omega⟩
    | count =>
      have h_left : ops - (consumed + 1) = 0 := h_left
      exact ⟨rfl, by omega⟩
    | storeDone | finished => exact absurd h_lt (Nat.not_lt.mpr h_valid)
  · -- nothing to be taken and a full ring, so nothing is left to push
    intro h_consumers h_full ops i pc h_mem
    have h_none : takesLeft s.threads = 0 := by
      refine List.sum_eq_zero fun n h_n => ?_
      obtain ⟨w, h_w, rfl⟩ := List.mem_map.mp h_n
      cases w with
      | producer ops i pc => rfl
      | consumer ops consumed pc => exact (Worker.done_owes (h_consumers _ h_w rfl)).2
    rw [MPMC.occupancy_of_full h_full, h_none] at h_high
    have h_pushed : pushesLeft s.threads = 0 := by omega
    have h_left := eq_zero_of_sum h_pushed h_mem
    have h_valid := hI.inv.valid _ h_mem
    cases pc with
    | push pc =>
      have h_left : ops - (i + 1) + pc.pending.length = 0 := h_left
      have h_in : pushing pc = true := h_valid.2
      have h_pending : pc.pending.length = 1 := by
        cases pc <;> first | rfl | nomatch h_in
      omega
    | _ => rfl

/-! ### Where `stop` never returns -/

/-- **Too few messages.** Inside `join_all` with a negative surplus, `stop` never
returns. -/
theorem join_all_starved {s s' : System C P} (hI : RuntimeInv s)
    (h_joining : s.owner.joining = true) (h_neg : s.surplus < 0) {tr : List Event}
    (h : (machine C P).Reach s tr s') : tr = [] ∧ s'.owner.joining = true := by
  obtain ⟨-, h_tr, h_in, -⟩ := h.inv
    (I := fun tr s => RuntimeInv s ∧ tr = [] ∧ s.owner.joining = true ∧ s.surplus < 0)
    ⟨hI, rfl, h_joining, h_neg⟩ (by
      rintro tr s a s' es ⟨hI, rfl, h_in, h_neg⟩ - h_step
      rcases surplus_step hI h_in h_step with ⟨h_in', rfl, h_surplus⟩ | ⟨-, h_done⟩
      · refine ⟨hI.step h_step, rfl, h_in', ?_⟩
        split at h_surplus <;> omega
      · -- every worker has finished, so the surplus is an occupancy
        exact absurd (surplus_done h_done).1 (Int.not_le.mpr h_neg))
  exact ⟨h_tr, h_in⟩

/-- **Too many messages.** Inside `join_all` with a surplus above the capacity, `stop`
never returns unless a producer skips an iteration. -/
theorem join_all_clogged {s s' : System C P} (hI : RuntimeInv s)
    (h_joining : s.owner.joining = true) (h_high : (C.val : ℤ) < s.surplus) {tr : List Event}
    (h : (machine C P).ReachBy (fun s a => s.skipping a = false) s tr s') :
    tr = [] ∧ s'.owner.joining = true := by
  -- the surplus is lowered by skipped iterations only, and there are none
  obtain ⟨-, h_tr, h_in, -⟩ := h.inv
    (I := fun tr s => RuntimeInv s ∧ tr = [] ∧ s.owner.joining = true ∧
      (C.val : ℤ) < s.surplus)
    ⟨hI, rfl, h_joining, h_high⟩ (by
      rintro tr s a s' es ⟨hI, rfl, h_in, h_high⟩ h_kept h_step
      rcases surplus_step hI h_in h_step with ⟨h_in', rfl, h_surplus⟩ | ⟨-, h_done⟩
      · rw [h_kept, if_neg Bool.false_ne_true, add_zero] at h_surplus
        exact ⟨hI.step h_step, rfl, h_in', h_surplus ▸ h_high⟩
      · -- a surplus above the capacity does not fit into the ring once all have finished
        exact absurd (surplus_done h_done).2 (Int.not_le.mpr h_high))
  exact ⟨h_tr, h_in⟩

/-! ### Two runs -/

instance (s : System C P) (a : Action) : Decidable (Balanced s a) :=
  inferInstanceAs (Decidable ((_ → _ → _) ∧ (_ → _ → _)))

/-- A runtime on an empty queue of two cells and a pool of one slot. -/
def small : System Capacity.two onePool :=
  System.init (MPMC.fresh _ _) (TaggedPool.fresh fun _ => TaggedMessage.fresh)

/-- `start`, up to the first round of the supervisor. -/
def startRun : List Action := [.start, .owner, .owner, .owner, .owner, .owner]

/-- The supervisor rolls `roll` and spawns a worker with one operation. -/
def spawnRun (roll : ℕ) : List Action :=
  [.supervisor roll, .supervisor 0, .supervisor 1, .supervisor 0]

/-- `stop`, up to the first worker to join. -/
def stopRun : List Action := [.stop, .owner, .supervisor 0, .owner]

/-- `n` steps of a worker. -/
def workerRun (t n : ℕ) : List Action := List.replicate n (.worker t .run)

/-- Inside `join_all` every producer has finished, the ring is empty, and the last worker
is a consumer of one message at `p`. -/
def System.leftWith (s : System Capacity.two onePool)
    (p : ConsumerPc Capacity.two onePool → Bool) : Bool :=
  s.owner.joining && decide (∀ i, s.shared.queue.ring i = none) &&
    (s.threads.all fun w => decide (w.role = .producer → w.done = true)) &&
    match s.threads.getLast? with
    | some (.consumer 1 0 pc) => p pc
    | _ => false

theorem System.leftWith_spec {s : System Capacity.two onePool}
    {p : ConsumerPc Capacity.two onePool → Bool} (h : s.leftWith p = true) :
    s.owner.joining = true ∧ (∀ w ∈ s.threads, w.role = .producer → w.done = true) ∧
      (∀ i, s.shared.queue.ring i = none) ∧
      ∃ pc, p pc = true ∧ Worker.consumer 1 0 pc ∈ s.threads := by
  simp only [System.leftWith, Bool.and_eq_true, decide_eq_true_eq, List.all_eq_true] at h
  obtain ⟨⟨⟨h_joining, h_empty⟩, h_producers⟩, h_last⟩ := h
  refine ⟨h_joining, h_producers, h_empty, ?_⟩
  split at h_last
  · next pc h_pc => exact ⟨pc, h_last, List.mem_of_getLast? h_pc⟩
  · exact absurd h_last Bool.false_ne_true

/-- A producer and a consumer of one message each; the consumer has just taken it. -/
theorem join_all_progress_pair :
    ∃ (tr : List Event) (s : System Capacity.two onePool),
      (machine Capacity.two onePool).ReachBy Balanced small tr s ∧
      s.owner.joining = true ∧
      ∃ pc, Worker.consumer 1 0 pc ∈ s.threads ∧ pc.holding = true := by
  obtain ⟨tr, s, h_reach, h_left⟩ := Machine.exists_reachBy_of_runBy
    (machine Capacity.two onePool) Balanced small
    (startRun ++ spawnRun 40 ++ spawnRun 70 ++ stopRun ++ workerRun 0 7 ++ workerRun 1 2)
    (fun s _ => s.leftWith fun _ => true) (by decide +kernel)
  obtain ⟨h_joining, h_producers, h_empty, pc, -, h_mem⟩ := System.leftWith_spec h_left
  exact ⟨tr, s, h_reach, h_joining, pc, h_mem,
    ((join_all_progress h_reach h_joining).1 h_producers h_empty 1 0 pc h_mem Nat.one_pos).1⟩

/-- **`stop` can be stuck.** Only a consumer is spawned, then `stop` is called: `stop` is
inside `join_all`, every producer has finished, the ring is empty, and the consumer, which
has consumed none of its messages, is inside `try_pop`. No run from there leaves
`join_all`. -/
theorem stop_stuck :
    ∃ (tr : List Event) (s : System Capacity.two onePool),
      (machine Capacity.two onePool).Reach small tr s ∧
      s.owner.joining = true ∧
      (∀ w ∈ s.threads, w.role = .producer → w.done = true) ∧
      (∀ i, s.shared.queue.ring i = none) ∧
      (∃ pc, Worker.consumer 1 0 pc ∈ s.threads ∧ pc.holding = false) ∧
      ∀ tr' s', (machine Capacity.two onePool).Reach s tr' s' → s'.owner.joining = true := by
  obtain ⟨tr, s, h_reach, h_run⟩ := Machine.exists_reach_of_run
    (machine Capacity.two onePool) small (startRun ++ spawnRun 70 ++ stopRun)
    (fun s _ => s.leftWith (fun pc => !pc.holding) && decide (s.surplus < 0))
    (by decide +kernel)
  rw [Bool.and_eq_true, decide_eq_true_eq] at h_run
  obtain ⟨h_joining, h_producers, h_empty, pc, h_pc, h_mem⟩ := System.leftWith_spec h_run.1
  -- the invariant carries the run from here on
  have hI : RuntimeInv s :=
    h_reach.inv (I := fun _ s => RuntimeInv s) (RuntimeInv.init _ _)
      fun _ _ _ _ _ hI _ h_step => hI.step h_step
  exact ⟨tr, s, h_reach, h_joining, h_producers, h_empty,
    ⟨pc, h_mem, by simpa using h_pc⟩,
    fun tr' s' h => (join_all_starved hI h_joining h_run.2 h).2⟩

end Runtime

end Hft
