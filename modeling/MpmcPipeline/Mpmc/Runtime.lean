import MpmcPipeline.Mem.Pool
import MpmcPipeline.Mpmc.Conservation
import MpmcPipeline.Proto.Layouts

/-!
# `Runtime`: producers and consumers spawned at random

`Runtime` (`mpmc_runtime.hpp`) exercises one queue and one pool. A supervisor thread
spawns workers, and joins finished ones, until `stop` clears `running_`; `stop` then
joins the supervisor and every worker. A producer acquires, fills and pushes a message
`ops` times, skipping an iteration when the pool has no slot for it; a consumer pops and
releases until it has consumed `ops` messages. Neither looks at `running_`.

Every atomic operation is a step; plain writes to a message its holder owns happen in the
step before. The random engines are not modelled: whatever they can return is a choice of
the action (`draw`), the roll of the supervisor in `0 .. 99`, the index it picks, the
operation count in `1 .. 12` that a worker draws from its seed. Sleeping is left out. The
thread of the caller of `start` and `stop` is `OwnerPc`.
-/

namespace Hft

namespace Runtime

variable {C : Capacity} {P : PoolCapacity}

/-- `fill_test_message` -/
def fillTestMessage (msg : TaggedMessage) (sequence : BitVec 64) : TaggedMessage :=
  msg.write ItchAddOrder.codec .itch
    { stockLocate := (sequence &&& 0xFFFF).setWidth 16, shares := sequence.setWidth 32 }

/-- `sequence_from` -/
def sequenceFrom (msg : TaggedMessage) : BitVec 64 :=
  (msg.read ItchAddOrder.codec).shares.setWidth 64

/-- A test message carries its sequence number modulo `2 ^ 32`. -/
theorem sequenceFrom_fillTestMessage (msg : TaggedMessage) (sequence : BitVec 64) :
    sequenceFrom (fillTestMessage msg sequence) = (sequence.setWidth 32).setWidth 64 := by
  rw [sequenceFrom, fillTestMessage, TaggedMessage.read_write (by decide)]

/-! ### Workers -/

/-- What the workers share. -/
structure Shared (C : Capacity) (P : PoolCapacity) where
  queue : MPMC C (Ptr P)
  pool : TaggedPool P
  pushed : BitVec 64
  popped : BitVec 64
  nextSequence : BitVec 64

/-- A program point of `producer_main`. -/
inductive ProducerPc (C : Capacity) (P : PoolCapacity)
  /-- `next_sequence_.fetch_add(1)` -/
  | fetch
  /-- `slots_[i].state.compare_exchange_weak(0, 1)` in `acquire`, which returns
  `nullptr` when `i` is past the last slot -/
  | scan (sequence : BitVec 64) (i : ℕ)
  /-- `fill_test_message` -/
  | fill (sequence : BitVec 64) (msg : Ptr P)
  /-- Inside `queue_.push`. -/
  | push (pc : MPMC.Pc C (Ptr P))
  /-- `pushed_.fetch_add(1)` -/
  | count
  /-- `done->store(true)` -/
  | storeDone
  | finished

/-- A program point of `consumer_main`. -/
inductive ConsumerPc (C : Capacity) (P : PoolCapacity)
  /-- Inside `queue_.try_pop`. -/
  | pop (pc : MPMC.Pc C (Ptr P))
  /-- `pool_.release(msg)` -/
  | release (msg : Ptr P)
  /-- `popped_.fetch_add(1)` -/
  | count
  /-- `done->store(true)` -/
  | storeDone
  | finished

/-- A worker thread with its locals: the operation count and how many it has done. -/
inductive Worker (C : Capacity) (P : PoolCapacity)
  | producer (ops i : ℕ) (pc : ProducerPc C P)
  | consumer (ops consumed : ℕ) (pc : ConsumerPc C P)

/-- `enum class Role` -/
inductive Role
  | producer
  | consumer
  deriving DecidableEq

/-- Whether a compare-exchange of the step fails spuriously. -/
inductive Choice
  | run
  | spurious
  deriving DecidableEq

/-- The choice of a step inside the queue. -/
def Choice.inner : Choice → MPMC.Choice (Ptr P)
  | .run => .run
  | .spurious => .spurious

namespace Worker

/-- `for (int i = 0; i < ops; ++i)` -/
def produce (ops i : ℕ) : Worker C P :=
  if i < ops then .producer ops i .fetch else .producer ops i .storeDone

/-- `while (consumed < ops)` -/
def consume (ops consumed : ℕ) : Worker C P :=
  if consumed < ops then .consumer ops consumed (.pop (.start .tryPop))
  else .consumer ops consumed .storeDone

/-- The thread that `try_spawn` starts. -/
def spawn (ops : ℕ) : Role → Worker C P
  | .producer => produce ops 0
  | .consumer => consume ops 0

/-- The flag `done`, which the last step of the thread sets. -/
def done : Worker C P → Bool
  | .producer _ _ .finished => true
  | .consumer _ _ .finished => true
  | _ => false

/-- After a step inside `queue_.push`. -/
def afterPush (ops i : ℕ) : MPMC.Pc C (Ptr P) → Worker C P
  | .idle => .producer ops i .count
  | pc => .producer ops i (.push pc)

/-- After a step inside `queue_.try_pop`, which may have returned a message or `false`. -/
def afterPop (ops consumed : ℕ) (returned : List (Ptr P)) : MPMC.Pc C (Ptr P) → Worker C P
  | .idle =>
    match returned with
    | msg :: _ => .consumer ops consumed (.release msg)
    -- `false`: the loop tries again, without looking at `running_`
    | [] => consume ops consumed
  | pc => .consumer ops consumed (.pop pc)

/-- One step of a worker. -/
def step (sh : Shared C P) : Worker C P → Choice → Option (Shared C P × Worker C P)
  | .producer ops i .fetch, .run =>
    some ({ sh with nextSequence := sh.nextSequence + 1 },
      .producer ops i (.scan sh.nextSequence 0))
  | .producer ops i (.scan sequence k), ch =>
    if h : k < P.val then
      -- the payload is cleared after the exchange, by the thread that won the slot
      if (sh.pool.slots ⟨k, h⟩).state = 0 ∧ ch = .run then
        some ({ sh with pool := (sh.pool.setState ⟨k, h⟩ 1).store ⟨k, h⟩ TaggedMessage.fresh },
          .producer ops i (.fill sequence ⟨k, h⟩))
      else some (sh, .producer ops i (.scan sequence (k + 1)))
    -- `acquire` has returned `nullptr`: `continue`
    else some (sh, produce ops (i + 1))
  | .producer ops i (.fill sequence msg), .run =>
    some ({ sh with pool := sh.pool.store msg (fillTestMessage (sh.pool.load msg) sequence) },
      .producer ops i (.push (.start (.push msg))))
  | .producer ops i (.push pc), ch =>
    match sh.queue.step pc ch.inner with
    | none => none
    | some (queue, pc', _) => some ({ sh with queue }, afterPush ops i pc')
  | .producer ops i .count, .run =>
    some ({ sh with pushed := sh.pushed + 1 }, produce ops (i + 1))
  | .producer ops i .storeDone, .run => some (sh, .producer ops i .finished)
  | .consumer ops consumed (.pop pc), ch =>
    match sh.queue.step pc ch.inner with
    | none => none
    | some (queue, pc', es) =>
      some ({ sh with queue }, afterPop ops consumed (MPMC.returns es) pc')
  | .consumer ops consumed (.release msg), .run =>
    some ({ sh with pool := sh.pool.release (P.address msg) }, .consumer ops consumed .count)
  | .consumer ops consumed .count, .run =>
    some ({ sh with popped := sh.popped + 1 }, consume ops (consumed + 1))
  | .consumer ops consumed .storeDone, .run => some (sh, .consumer ops consumed .finished)
  | _, _ => none

/-- Inversion of a step inside a call on the queue, after which the worker is at `next`. -/
theorem queue_step {sh sh' : Shared C P} {w' : Worker C P} {pc : MPMC.Pc C (Ptr P)}
    {ch : MPMC.Choice (Ptr P)}
    {next : MPMC.Pc C (Ptr P) → List (MPMC.Event (Ptr P)) → Worker C P}
    (h : (match sh.queue.step pc ch with
      | none => none
      | some (queue, pc', es) => some ({ sh with queue }, next pc' es)) = some (sh', w')) :
    ∃ queue pc' es, sh.queue.step pc ch = some (queue, pc', es) ∧
      sh' = { sh with queue } ∧ w' = next pc' es := by
  -- the queue moves, the worker moves with it, and the counters do not
  cases h_step : sh.queue.step pc ch with
  | none => simp [h_step] at h
  | some r =>
    obtain ⟨queue, pc', es⟩ := r
    simp only [h_step, Option.some.injEq, Prod.mk.injEq] at h
    exact ⟨queue, pc', es, rfl, h.1.symm, h.2.symm⟩

/-- Inversion of a step inside `queue_.push`. -/
theorem step_push {sh sh' : Shared C P} {w' : Worker C P} {ops i : ℕ} {pc : MPMC.Pc C (Ptr P)}
    {ch : Choice} (h : (Worker.producer ops i (.push pc)).step sh ch = some (sh', w')) :
    ∃ queue pc' es, sh.queue.step pc ch.inner = some (queue, pc', es) ∧
      sh' = { sh with queue } ∧ w' = afterPush ops i pc' := by
  simp only [step] at h
  exact queue_step h

/-- Inversion of a step inside `queue_.try_pop`. -/
theorem step_pop {sh sh' : Shared C P} {w' : Worker C P} {ops consumed : ℕ}
    {pc : MPMC.Pc C (Ptr P)} {ch : Choice}
    (h : (Worker.consumer ops consumed (.pop pc)).step sh ch = some (sh', w')) :
    ∃ queue pc' es, sh.queue.step pc ch.inner = some (queue, pc', es) ∧
      sh' = { sh with queue } ∧ w' = afterPop ops consumed (MPMC.returns es) pc' := by
  simp only [step] at h
  exact queue_step h

end Worker

/-! ### The supervisor and its owner -/

/-- A program point of `supervise`; `action` is the roll of the current round. -/
inductive SupervisorPc
  /-- No thread to join. -/
  | absent
  /-- `running_.load()` -/
  | check
  /-- `worker.done->load()` of a worker picked at random -/
  | loadDone (action : ℕ)
  /-- `worker.thread.join()` -/
  | join (action index : ℕ)
  /-- `live_threads_.fetch_sub(1)` -/
  | uncount (action : ℕ)
  /-- `next_sequence_.fetch_add(1)`, the seed of the new worker -/
  | seed (role : Role)
  /-- The new thread and its entry in `workers_`. -/
  | create (role : Role)
  /-- `live_threads_.fetch_add(1)` -/
  | count
  /-- Returned, and not yet joined. -/
  | exited
  deriving DecidableEq

/-- A program point of the thread that calls `start` and `stop`; `restart` says whether
this `stop` is the one `start` begins with. -/
inductive OwnerPc
  | idle
  /-- `running_.store(false)` -/
  | clearRunning (restart : Bool)
  /-- `supervisor_.join()` -/
  | joinSupervisor (restart : Bool)
  /-- `workers_[k].thread.join()` in `join_all`; past the last worker, `workers_.clear()`
  and `live_threads_.store(0)` -/
  | joinAll (k : ℕ) (restart : Bool)
  /-- `running_.store(true)` -/
  | setRunning
  /-- `supervisor_ = std::thread(...)` -/
  | launch
  deriving DecidableEq

/-- The whole runtime. `threads` are all workers ever spawned, `workers` is `workers_`. -/
structure System (C : Capacity) (P : PoolCapacity) where
  shared : Shared C P
  threads : List (Worker C P)
  workers : List ℕ
  liveThreads : BitVec 64
  running : Bool
  supervisor : SupervisorPc
  owner : OwnerPc

/-- A constructed runtime on a queue and a pool in any state. -/
def System.init (queue : MPMC C (Ptr P)) (pool : TaggedPool P) : System C P where
  shared := ⟨queue, pool, 0, 0, 1⟩
  threads := []
  workers := []
  liveThreads := 0
  running := false
  supervisor := .absent
  owner := .idle

/-- What moves next. -/
inductive Action
  | start
  | stop
  | owner
  | supervisor (draw : ℕ)
  | worker (t : ℕ) (ch : Choice)
  deriving DecidableEq

/-- What a step makes visible: `join_all` has joined every worker. -/
inductive Event
  | joinedAll
  deriving DecidableEq

/-- `max_live_threads_` -/
def maxLiveThreads : ℕ := 32

/-- `try_spawn`, up to its first atomic operation. -/
def trySpawn (workers : List ℕ) (role : Role) : SupervisorPc :=
  if maxLiveThreads ≤ workers.length then .check else .seed role

/-- The part of a round after `try_join_random`. -/
def spawnByRoll (workers : List ℕ) (action : ℕ) : SupervisorPc :=
  if action < 60 then trySpawn workers .producer
  else if action < 90 then trySpawn workers .consumer
  else .check

/-- A round of the supervisor. -/
def round (workers : List ℕ) (action : ℕ) : SupervisorPc :=
  if action < 30 ∧ workers ≠ [] then .loadDone action else spawnByRoll workers action

/-- `workers_[index] = std::move(workers_.back()); workers_.pop_back();` -/
def swapRemove (workers : List ℕ) (index : ℕ) : List ℕ :=
  match workers.getLast? with
  | none => []
  | some back => (workers.set index back).dropLast

/-- One step of the supervisor. -/
def System.superviseStep (s : System C P) (draw : ℕ) : Option (System C P) :=
  match s.supervisor with
  | .check =>
    if s.running then
      if draw < 100 then some { s with supervisor := round s.workers draw } else none
    else some { s with supervisor := .exited }
  | .loadDone action =>
    match s.workers[draw]? with
    | none => none
    | some t =>
      match s.threads[t]? with
      | none => none
      | some w =>
        if w.done then some { s with supervisor := .join action draw }
        -- still running: `try_join_random` returns and the round goes on
        else some { s with supervisor := spawnByRoll s.workers action }
  | .join action index =>
    match s.workers[index]? with
    | none => none
    | some t =>
      match s.threads[t]? with
      | none => none
      | some w =>
        if w.done then
          some { s with workers := swapRemove s.workers index, supervisor := .uncount action }
        else none
  | .uncount action =>
    some { s with liveThreads := s.liveThreads - 1, supervisor := spawnByRoll s.workers action }
  | .seed role =>
    some { s with
      shared := { s.shared with nextSequence := s.shared.nextSequence + 1 },
      supervisor := .create role }
  | .create role =>
    -- the new thread draws its operation count from the seed
    if 1 ≤ draw ∧ draw ≤ 12 then
      some { s with
        threads := s.threads ++ [.spawn draw role],
        workers := s.workers ++ [s.threads.length],
        supervisor := .count }
    else none
  | .count => some { s with liveThreads := s.liveThreads + 1, supervisor := .check }
  | .absent | .exited => none

/-- One step of the thread that has called `start` or `stop`. -/
def System.ownerStep (s : System C P) : Option (System C P × List Event) :=
  match s.owner with
  | .idle => none
  | .clearRunning restart =>
    some ({ s with running := false, owner := .joinSupervisor restart }, [])
  | .joinSupervisor restart =>
    match s.supervisor with
    -- not `joinable()`
    | .absent => some ({ s with owner := .joinAll 0 restart }, [])
    | .exited => some ({ s with supervisor := .absent, owner := .joinAll 0 restart }, [])
    | _ => none
  | .joinAll k restart =>
    match s.workers[k]? with
    | none =>
      -- every worker has been joined
      some ({ s with workers := [], liveThreads := 0,
                     owner := if restart then .setRunning else .idle }, [.joinedAll])
    | some t =>
      match s.threads[t]? with
      | none => none
      | some w => if w.done then some ({ s with owner := .joinAll (k + 1) restart }, []) else none
  | .setRunning => some ({ s with running := true, owner := .launch }, [])
  | .launch => some ({ s with supervisor := .check, owner := .idle }, [])

/-- One step. -/
def System.step (s : System C P) : Action → Option (System C P × List Event)
  | .start =>
    match s.owner with
    | .idle => some ({ s with owner := .clearRunning true }, [])
    | _ => none
  | .stop =>
    match s.owner with
    | .idle => some ({ s with owner := .clearRunning false }, [])
    | _ => none
  | .owner => s.ownerStep
  | .supervisor draw => (s.superviseStep draw).map fun s' => (s', [])
  | .worker t ch =>
    match s.threads[t]? with
    | none => none
    | some w =>
      match w.step s.shared ch with
      | none => none
      | some (shared, w') => some ({ s with shared, threads := s.threads.set t w' }, [])

/-- The runtime as a machine. -/
abbrev machine (C : Capacity) (P : PoolCapacity) : Machine (System C P) Action Event where
  step := System.step

end Runtime

end Hft
