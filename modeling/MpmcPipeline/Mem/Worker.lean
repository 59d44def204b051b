import MpmcPipeline.Machine.Program
import MpmcPipeline.Mem.Exclusivity
import MpmcPipeline.Mem.Writes

/-!
# Routines on the pool and the queues

A `Routine` is the code of a call: a program over the commands a stage uses, which are the
calls of the pool and of the queues, single reads and writes of a message, and an access to the
members of the stage objects. A worker is a thread that makes one call after the other. Its
steps are those of the hand-off machine of `Mem/Handoff.lean`, so that any number of workers
interleave at every atomic operation and at every byte; in between it reads a kind or a byte of
a message, or accesses a member.

What a step shows is what a stage reads and writes: the kinds and bytes read, the kinds and
bytes written, with the number of the call that writes them, and which message has been put
into or taken out of which queue.

`step_steps` is the inversion of the step function. Forgetting the code, a run of workers is a
run of the hand-off machine (`reach_base`), so that messages have one owner (`exclusive`).
-/

namespace Hft

open Handoff (Passed)

namespace Worker

variable {P : PoolCapacity} {Q Op : Type*} {σ : Type} {cap : Q → Capacity}

/-- What the code of a stage asks for. -/
inductive Cmd (P : PoolCapacity) (Q : Type*) (σ : Type)
  /-- One access to the members; the answer is what they were. -/
  | own (update : σ → σ)
  /-- `pool_.acquire()` -/
  | acquire
  /-- `queue.try_pop(msg)` -/
  | tryPop (q : Q)
  /-- `msg->kind` -/
  | readKind (p : Ptr P)
  /-- `msg->bytes[k]` -/
  | readByte (p : Ptr P) (k : ℕ)
  /-- `msg->kind = kind` -/
  | writeKind (p : Ptr P) (kind : Kind)
  /-- `msg->bytes[k] = b` -/
  | writeByte (p : Ptr P) (k : Fin maxSlotSize) (b : Byte)
  /-- `queue.push(msg)` -/
  | push (q : Q) (p : Ptr P)
  /-- `pool_.release(msg)` -/
  | release (p : Ptr P)
  /-- A loop that does not end. -/
  | spin

/-- The answer to a command. -/
def Cmd.Answer : Cmd P Q σ → Type
  | own _ => σ
  | acquire | tryPop _ => Option (Ptr P)
  | readKind _ => Kind
  | readByte _ _ => Byte
  | writeKind _ _ | writeByte _ _ _ | push _ _ | release _ => Unit
  | spin => Empty

/-- The code of a call. -/
abbrev Routine (P : PoolCapacity) (Q : Type*) (σ α : Type) :=
  Program (Cmd P Q σ) Cmd.Answer α

/-- What the workers share: memory, and the members of the stage objects. -/
structure Shared (P : PoolCapacity) (cap : Q → Capacity) (σ : Type) where
  mem : Handoff.Shared P cap
  parts : σ

/-- A worker: its thread, what is left of its call, and the number of calls so far. -/
structure Local (P : PoolCapacity) (cap : Q → Capacity) (σ : Type) where
  base : Handoff.Local P cap
  code : Routine P Q σ Unit
  calls : ℕ

/-- What decides a step. -/
inductive Choice (Op : Type*)
  | call (op : Op)
  | run
  | spurious

/-- What a step shows. -/
inductive Event (P : PoolCapacity) (Q : Type*)
  /-- A write, in the worker's call of this number. -/
  | write (call : ℕ) (p : Ptr P) (w : Write)
  | readKind (p : Ptr P) (kind : Kind)
  | readByte (p : Ptr P) (k : ℕ) (b : Byte)
  | passed (e : Passed P Q)

/-- What a call has returned, which is the message it has added to the hand. -/
def got (hand hand' : List (Ptr P)) : Option (Ptr P) :=
  if hand.length < hand'.length then hand'.head? else none

/-- The step of the thread with which a command starts, if it is one of the pool or of a queue. -/
def Cmd.start : Cmd P Q σ → Option (Handoff.Choice P Q)
  | acquire => some (.acquire none)
  | tryPop q => some (.call q .tryPop)
  | writeKind p kind => some (.writeKind p kind)
  | writeByte p k b => some (.writeByte p k b)
  | push q p => some (.call q (.push p))
  | release p => some (.release (some p))
  | own _ | readKind _ | readByte _ _ | spin => none

/-- The code after a command that has ended. -/
def goOn (result : Option (Ptr P)) :
    (c : Cmd P Q σ) → (c.Answer → Routine P Q σ Unit) → Routine P Q σ Unit
  | .acquire, next => next result
  | .tryPop _, next => next result
  | .writeKind _ _, next => next ()
  | .writeByte _ _ _, next => next ()
  | .push _ _, next => next ()
  | .release _, next => next ()
  | c, next => .ask c next

/-- The code after a step of the thread: the command has ended once the thread is outside of
the pool and the queues. -/
def codeAfter (base base' : Handoff.Local P cap) (c : Cmd P Q σ)
    (next : c.Answer → Routine P Q σ Unit) : Routine P Q σ Unit :=
  match base'.pc with
  | .idle => goOn (got base.hand base'.hand) c next
  | _ => .ask c next

/-- What a step of the thread shows. -/
def shown (calls : ℕ) (w : Option (Ptr P × Write)) (es : List (Handoff.Event P Q)) :
    List (Event P Q) :=
  w.toList.map (fun w => .write calls w.1 w.2) ++
    (es.filterMap Handoff.Event.passed).map .passed

section

variable [DecidableEq Q]

/-- A step of the thread for a command. -/
def baseStep (sh : Shared P cap σ) (l : Local P cap σ) (c : Cmd P Q σ)
    (next : c.Answer → Routine P Q σ Unit) (ch : Handoff.Choice P Q) :
    Option (Shared P cap σ × Local P cap σ × List (Event P Q)) :=
  match Handoff.step sh.mem l.base ch with
  | none => none
  | some (mem, base, es) =>
    some ({ sh with mem }, ⟨base, codeAfter l.base base c next, l.calls⟩,
      shown l.calls (Handoff.writeOf l.base.pc ch) es)

/-- The first step of a command. -/
def command (sh : Shared P cap σ) (l : Local P cap σ) :
    (c : Cmd P Q σ) → (c.Answer → Routine P Q σ Unit) →
      Option (Shared P cap σ × Local P cap σ × List (Event P Q))
  | .own update, next =>
    some ({ sh with parts := update sh.parts }, { l with code := next sh.parts }, [])
  | .readKind p, next =>
    let kind := (sh.mem.pool.load p).kind
    some (sh, { l with code := next kind }, [.readKind p kind])
  | .readByte p k, next =>
    let b := (sh.mem.pool.load p).memory k
    some (sh, { l with code := next b }, [.readByte p k b])
  | c, next =>
    match c.start with
    | none => none
    | some ch => baseStep sh l c next ch

/-- One step of a worker; `ops` is the code of each call. -/
def step (ops : Op → Routine P Q σ Unit) (sh : Shared P cap σ) (l : Local P cap σ)
    (ch : Choice Op) : Option (Shared P cap σ × Local P cap σ × List (Event P Q)) :=
  match l.code, ch with
  | .done _, .call op => some (sh, { l with code := ops op, calls := l.calls + 1 }, [])
  | .ask c next, .run =>
    match l.base.pc with
    | .idle => command sh l c next
    -- inside a call of the pool or of a queue
    | _ => baseStep sh l c next .run
  | .ask c next, .spurious => baseStep sh l c next .spurious
  | _, _ => none

/-- **Everything a step can do**: start a call, access the members, read, or take a step of the
thread. -/
inductive Steps (ops : Op → Routine P Q σ Unit) (sh : Shared P cap σ) (l : Local P cap σ) :
    Choice Op → Shared P cap σ → Local P cap σ → List (Event P Q) → Prop
  | call (op : Op) (h_code : l.code = .done ()) :
      Steps ops sh l (.call op) sh { l with code := ops op, calls := l.calls + 1 } []
  | own (update : σ → σ) (next : σ → Routine P Q σ Unit) (h_idle : l.base.pc = .idle)
      (h_code : l.code = .ask (.own update) next) :
      Steps ops sh l .run { sh with parts := update sh.parts } { l with code := next sh.parts } []
  | readKind (p : Ptr P) (next : Kind → Routine P Q σ Unit) (h_idle : l.base.pc = .idle)
      (h_code : l.code = .ask (.readKind p) next) :
      Steps ops sh l .run sh { l with code := next (sh.mem.pool.load p).kind }
        [.readKind p (sh.mem.pool.load p).kind]
  | readByte (p : Ptr P) (k : ℕ) (next : Byte → Routine P Q σ Unit) (h_idle : l.base.pc = .idle)
      (h_code : l.code = .ask (.readByte p k) next) :
      Steps ops sh l .run sh { l with code := next ((sh.mem.pool.load p).memory k) }
        [.readByte p k ((sh.mem.pool.load p).memory k)]
  | base {c : Cmd P Q σ} {next : c.Answer → Routine P Q σ Unit} {ch : Choice Op}
      {ch' : Handoff.Choice P Q} {mem : Handoff.Shared P cap} {base : Handoff.Local P cap}
      {es : List (Handoff.Event P Q)} (h_code : l.code = .ask c next)
      (h_ch : c.start = some ch' ∧ l.base.pc = .idle ∨
        (ch' = .run ∨ ch' = .spurious) ∧ l.base.pc ≠ .idle)
      (h_step : Handoff.step sh.mem l.base ch' = some (mem, base, es)) :
      Steps ops sh l ch { sh with mem } ⟨base, codeAfter l.base base c next, l.calls⟩
        (shown l.calls (Handoff.writeOf l.base.pc ch') es)

theorem baseStep_steps {ops : Op → Routine P Q σ Unit} {sh sh' : Shared P cap σ}
    {l l' : Local P cap σ} {c : Cmd P Q σ} {next : c.Answer → Routine P Q σ Unit} {ch : Choice Op}
    {ch' : Handoff.Choice P Q} {es : List (Event P Q)} (h_code : l.code = .ask c next)
    (h_ch : c.start = some ch' ∧ l.base.pc = .idle ∨
      (ch' = .run ∨ ch' = .spurious) ∧ l.base.pc ≠ .idle)
    (h : baseStep sh l c next ch' = some (sh', l', es)) : Steps ops sh l ch sh' l' es := by
  unfold baseStep at h
  split at h
  · exact absurd h (by simp)
  · next h_step =>
    cases h
    exact .base h_code h_ch h_step

/-- **Inversion.** A step of a worker begins a call, does a command that is one operation, or goes
on inside one that is more. -/
theorem step_steps {ops : Op → Routine P Q σ Unit} {sh sh' : Shared P cap σ}
    {l l' : Local P cap σ} {ch : Choice Op} {es : List (Event P Q)}
    (h : step ops sh l ch = some (sh', l', es)) : Steps ops sh l ch sh' l' es := by
  unfold step at h
  split at h
  · next h_code =>
    cases h
    exact .call _ h_code
  · next c next h_code =>
    split at h
    · next h_idle =>
      -- the command is started
      unfold command at h
      split at h
      · cases h
        exact .own _ _ h_idle h_code
      · cases h
        exact .readKind _ _ h_idle h_code
      · cases h
        exact .readByte _ _ _ h_idle h_code
      · split at h
        · exact absurd h (by simp)
        · next h_start => exact baseStep_steps h_code (Or.inl ⟨h_start, h_idle⟩) h
    · next h_busy => exact baseStep_steps h_code (Or.inr ⟨Or.inl rfl, h_busy⟩) h
  · next c next h_code =>
    refine baseStep_steps h_code (Or.inr ⟨Or.inr rfl, fun h_idle => ?_⟩) h
    -- outside of the pool and the queues nothing fails
    obtain ⟨⟨hand, pc⟩, code, calls⟩ := l
    dsimp only at h_idle
    subst h_idle
    simp [baseStep, Handoff.step] at h
  · exact absurd h (by simp)

end

/-! ### Writes -/

section

variable {Id : Type*} {i : Id} {n : ℕ} {p : Ptr P}

/-- The write to `p` that an event of worker `i` shows, with the worker and its call. -/
def Event.writeTo (p : Ptr P) (i : Id) : Event P Q → Option ((Id × ℕ) × Write)
  | .write n p' w => if p' = p then some ((i, n), w) else none
  | _ => none

/-- The writes to `p` in a history, each with the worker and the call that made it. -/
def writes (p : Ptr P) (tr : List (Id × Event P Q)) : List ((Id × ℕ) × Write) :=
  tr.filterMap fun e => e.2.writeTo p e.1

@[simp] theorem writes_nil (p : Ptr P) : writes p ([] : List (Id × Event P Q)) = [] := rfl

@[simp] theorem writes_append (p : Ptr P) (tr tr' : List (Id × Event P Q)) :
    writes p (tr ++ tr') = writes p tr ++ writes p tr' := by
  simp only [writes, List.filterMap_append]

/-- A step that shows one write. -/
theorem writes_single (p : Ptr P) (i : Id) (n : ℕ) (w : Write) :
    writes p ([(.write n p w : Event P Q)].map fun e => (i, e)) = [((i, n), w)] := by
  simp [writes, Event.writeTo]

/-- A message after writes. -/
def replay {Who : Type*} (ws : List (Who × Write)) (m : TaggedMessage) : TaggedMessage :=
  ws.foldl (fun m w => w.2.apply m) m

@[simp] theorem replay_nil {Who : Type*} (m : TaggedMessage) :
    replay ([] : List (Who × Write)) m = m := rfl

@[simp] theorem replay_single {Who : Type*} (who : Who) (w : Write) (m : TaggedMessage) :
    replay [(who, w)] m = w.apply m := rfl

@[simp] theorem replay_append {Who : Type*} (ws ws' : List (Who × Write)) (m : TaggedMessage) :
    replay (ws ++ ws') m = replay ws' (replay ws m) := List.foldl_append

/-- What passes through the queues is not written. -/
theorem writes_shown (n : ℕ) (w : Option (Ptr P × Write)) (es : List (Handoff.Event P Q)) :
    writes p ((shown n w es).map fun e => (i, e)) =
      (w.toList.filter fun w => w.1 = p).map fun w => ((i, n), w.2) := by
  -- a message that passes through a queue keeps its bytes
  have h_passed : writes p (((es.filterMap Handoff.Event.passed).map Event.passed).map
      fun e => (i, e)) = [] := by
    rw [writes, List.filterMap_map, List.filterMap_map]
    exact List.filterMap_eq_nil_iff.mpr fun e _ => rfl
  rw [shown, List.map_append, writes_append, h_passed, List.append_nil]
  cases w with
  | none => rfl
  | some w =>
    -- a write is one to `p`, or to another slot
    by_cases h_w : w.1 = p
    · simp [writes, Event.writeTo, h_w]
    · simp [writes, Event.writeTo, h_w]

theorem replay_shown (n : ℕ) (w : Option (Ptr P × Write)) (es : List (Handoff.Event P Q))
    (pool : TaggedPool P) :
    replay (writes p ((shown n w es).map fun e => (i, e))) (pool.load p) =
      (Handoff.written pool w).load p := by
  rw [writes_shown]
  cases w with
  | none => rfl
  | some w =>
    obtain ⟨p', w⟩ := w
    -- a write to another slot leaves `p` alone
    by_cases h_p : p' = p
    · subst h_p
      simp [replay, Handoff.written]
    · have h_ne : p ≠ p' := fun h_eq => h_p h_eq.symm
      simp [replay, Handoff.written, h_p, TaggedPool.load_store_of_ne _ h_ne]

variable [DecidableEq Q] {ops : Op → Routine P Q σ Unit} {sh sh' : Shared P cap σ}
  {l l' : Local P cap σ} {ch : Choice Op} {es : List (Event P Q)}

/-- **The writes of a step.** Memory after it is memory before it with the writes made that it
shows. -/
theorem step_replay (i : Id) (h : step ops sh l ch = some (sh', l', es)) (p : Ptr P) :
    sh'.mem.pool.load p =
      replay (writes p (es.map fun e => (i, e))) (sh.mem.pool.load p) := by
  cases step_steps h with
  | call | own | readKind | readByte => rfl
  | base _ _ h_step => rw [replay_shown, Handoff.step_written h_step]

/-- A step writes to messages its worker owns. -/
theorem step_writes (i : Id) (h : step ops sh l ch = some (sh', l', es))
    (h_p : p ∉ l.base.owned) : writes p (es.map fun e => (i, e)) = [] := by
  cases step_steps h with
  | call | own | readKind | readByte => rfl
  | base _ _ h_step =>
    rw [writes_shown, List.map_eq_nil_iff, List.filter_eq_nil_iff]
    intro w h_w h_eq
    obtain rfl := of_decide_eq_true h_eq
    exact h_p (Handoff.writeOf_owned h_step (Option.mem_toList.mp h_w))

end

/-! ### What a step depends on -/

/-- Two shared states that differ in the contents of messages only. -/
structure Like (sh sh₂ : Shared P cap σ) : Prop where
  mem : Handoff.Like sh.mem sh₂.mem
  parts : sh₂.parts = sh.parts

section

variable [DecidableEq Q] {ops : Op → Routine P Q σ Unit} {sh sh' sh₂ : Shared P cap σ}
  {l l' : Local P cap σ} {ch : Choice Op} {es : List (Event P Q)}

theorem baseStep_like {c : Cmd P Q σ} {next : c.Answer → Routine P Q σ Unit}
    {ch : Handoff.Choice P Q} (h_like : Like sh sh₂)
    (h : baseStep sh l c next ch = some (sh', l', es)) :
    ∃ sh₂', baseStep sh₂ l c next ch = some (sh₂', l', es) ∧ Like sh' sh₂' := by
  unfold baseStep at h
  split at h
  · exact absurd h (by simp)
  · next h_step =>
    cases h
    obtain ⟨mem₂, es₂, h_step₂, h_mem, h_es⟩ := Handoff.step_like h_like.mem h_step
    refine ⟨{ sh₂ with mem := mem₂ }, ?_, h_mem, h_like.parts⟩
    simp only [baseStep, h_step₂, shown, h_es]

/-- A command of the pool or of a queue is started by its first step. -/
theorem step_start (ops : Op → Routine P Q σ Unit) (sh : Shared P cap σ) {hand : List (Ptr P)}
    {c : Cmd P Q σ} {next : c.Answer → Routine P Q σ Unit} {calls : ℕ} {ch : Handoff.Choice P Q}
    (h_start : c.start = some ch) :
    step ops sh ⟨⟨hand, .idle⟩, .ask c next, calls⟩ .run =
      baseStep sh ⟨⟨hand, .idle⟩, .ask c next, calls⟩ c next ch := by
  cases c <;> cases h_start <;> rfl

/-- Inside the pool or a queue the thread runs on. -/
theorem step_busy (ops : Op → Routine P Q σ Unit) (sh : Shared P cap σ) {hand : List (Ptr P)}
    {pc : Handoff.Pc P cap} {c : Cmd P Q σ} {next : c.Answer → Routine P Q σ Unit} {calls : ℕ}
    (h_busy : pc ≠ .idle) :
    step ops sh ⟨⟨hand, pc⟩, .ask c next, calls⟩ .run =
      baseStep sh ⟨⟨hand, pc⟩, .ask c next, calls⟩ c next .run := by
  cases pc with
  | idle => exact absurd rfl h_busy
  | _ => rfl

/-- **What a step depends on.** If the worker reads the same, it takes the same step. -/
theorem step_like (h_like : Like sh sh₂)
    (h_kind : ∀ p next, l.base.pc = .idle → l.code = .ask (.readKind p) next →
      (sh₂.mem.pool.load p).kind = (sh.mem.pool.load p).kind)
    (h_byte : ∀ p k next, l.base.pc = .idle → l.code = .ask (.readByte p k) next →
      (sh₂.mem.pool.load p).memory k = (sh.mem.pool.load p).memory k)
    (h : step ops sh l ch = some (sh', l', es)) :
    ∃ sh₂', step ops sh₂ l ch = some (sh₂', l', es) ∧ Like sh' sh₂' := by
  obtain ⟨base, code, calls⟩ := l
  cases code with
  | done =>
    cases ch with
    | call op =>
      cases h
      exact ⟨sh₂, rfl, h_like⟩
    | _ => exact absurd h (by simp [step])
  | ask c next =>
    cases ch with
    | call op => exact absurd h (by simp [step])
    | spurious => exact baseStep_like h_like h
    | run =>
      obtain ⟨hand, pc⟩ := base
      by_cases h_idle : pc = .idle
      · subst h_idle
        cases h_start : c.start with
        | some ch' =>
          rw [step_start ops sh h_start] at h
          rw [step_start ops sh₂ h_start]
          exact baseStep_like h_like h
        | none =>
          -- the members, or a read
          cases c with
          | own update =>
            cases h
            refine ⟨⟨sh₂.mem, update sh₂.parts⟩, ?_, h_like.mem, congrArg update h_like.parts⟩
            rw [← h_like.parts]
            rfl
          | readKind p =>
            cases h
            refine ⟨sh₂, ?_, h_like⟩
            rw [← h_kind p next rfl rfl]
            rfl
          | readByte p k =>
            cases h
            refine ⟨sh₂, ?_, h_like⟩
            rw [← h_byte p k next rfl rfl]
            rfl
          | spin => exact absurd h (by simp [step, command, Cmd.start])
          | _ => cases h_start
      · rw [step_busy ops sh h_idle] at h
        rw [step_busy ops sh₂ h_idle]
        exact baseStep_like h_like h

end

/-! ### Runs -/

/-- Workers over one pool, the queues and the members. -/
abbrev System (Id : Type*) (P : PoolCapacity) (cap : Q → Capacity) (σ : Type) :=
  Threads Id (Shared P cap σ) (Local P cap σ)

/-- Every slot free, every queue fresh, no worker in a call. The bodies are whatever the pool
was mapped with. -/
def System.init (Id : Type*) (cap : Q → Capacity) (message : Ptr P → TaggedMessage) (parts : σ) :
    System Id P cap σ :=
  ⟨⟨⟨TaggedPool.fresh message, fun q => MPMC.fresh (cap q) (Ptr P)⟩, parts⟩,
    fun _ => ⟨⟨[], .idle⟩, .done (), 0⟩⟩

theorem System.init_cell {Id : Type*} (message : Ptr P → TaggedMessage) (parts : σ)
    (c : Handoff.Cell cap) : (System.init Id cap message parts).shared.mem.cell c = none := by
  simp [System.init, Handoff.Shared.cell, MPMC.fresh]

/-- The interleaving of any calls of any workers. -/
abbrev machine (Id : Type*) [DecidableEq Id] [DecidableEq Q] (P : PoolCapacity)
    (cap : Q → Capacity) (ops : Op → Routine P Q σ Unit) :
    Machine (System Id P cap σ) (Id × Choice Op) (Id × Event P Q) :=
  Threads.machine (step ops)

/-- The threads, without their code. -/
def System.base {Id : Type*} (s : System Id P cap σ) : Handoff.System Id P cap :=
  ⟨s.shared.mem, fun i => (s.loc i).base⟩

section

variable {Id : Type*} [DecidableEq Id] [DecidableEq Q] {ops : Op → Routine P Q σ Unit}
  {message : Ptr P → TaggedMessage} {parts : σ} {tr : List (Id × Event P Q)}
  {s : System Id P cap σ}

/-- **Forgetting the code** of a run of workers gives a run of threads. -/
theorem reach_base
    (h : (machine Id P cap ops).Reach (System.init Id cap message parts) tr s) :
    ∃ tr', (Handoff.machine Id P cap).Reach (Handoff.System.init Id cap message) tr' s.base := by
  refine h.inv (I := fun _ s => ∃ tr', (Handoff.machine Id P cap).Reach
    (Handoff.System.init Id cap message) tr' s.base) ⟨[], .init⟩ ?_
  rintro _ s ⟨i, ch⟩ s' es ⟨tr', h_reach⟩ - h_step
  obtain ⟨sh, l, es, h_own, rfl, rfl⟩ := Threads.machine_step h_step
  dsimp only at h_own ⊢
  have h_loc : (System.base (⟨sh, Function.update s.loc i l⟩ : System Id P cap σ)) =
      ⟨sh.mem, Function.update s.base.loc i l.base⟩ := by
    simp only [System.base, Threads.mk.injEq, true_and]
    funext j
    by_cases h_j : j = i
    · subst h_j
      rw [Function.update_self, Function.update_self]
    · rw [Function.update_of_ne h_j, Function.update_of_ne h_j]
  rw [h_loc]
  cases step_steps h_own with
  | call | own | readKind | readByte =>
    -- the thread does not move
    refine ⟨tr', ?_⟩
    rw [show (s.loc i).base = s.base.loc i from rfl, Function.update_eq_self]
    exact h_reach
  | @base c next _ ch' mem base es' h_code h_ch h_base =>
    refine ⟨tr' ++ es'.map fun e => (i, e), h_reach.step (a := (i, ch')) trivial ?_⟩
    simp only [Handoff.machine, Threads.machine, System.base, h_base]

/-- **One owner**: every message belongs to one worker or lies in one cell. -/
theorem exclusive
    (h : (machine Id P cap ops).Reach (System.init Id cap message parts) tr s) :
    Exclusive (Handoff.held s.base) fun p => (s.shared.mem.pool.slots p).state = 1 := by
  obtain ⟨tr', h_base⟩ := reach_base h
  exact (Handoff.HandoffInv.reach h_base).exclusive

end

end Worker

end Hft
