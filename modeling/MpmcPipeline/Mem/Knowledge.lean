import MpmcPipeline.Mem.Worker

/-!
# What a routine knows about its message

A call holds at most one message at a time, and at every point of its code it knows something
about it (`Status`): it has just been acquired, it came whole out of a queue, its kind has been
read, or a record is being written to it. `spec` says for each command what must be known
before it and what is known after it: a byte is read only within the `slot_size` of the kind
that has been read, bytes are written only as the image of one record, in order, after its tag,
and only a whole message is pushed. `Clean` is the weakest precondition of a call for these
rules, that it starts and ends without a message.

`Doing` ties the program point of a worker to what its code knows. `Doing.step` says once what
a step of a worker with clean calls does: what it turns that knowledge into (`Turn`), and where
a message that it puts into a queue comes from.
-/

namespace Hft

namespace Worker

variable {P : PoolCapacity} {Q Op : Type*} {σ : Type} {cap : Q → Capacity}

/-- What is known about the message at hand. -/
inductive Status
  /-- Acquired, and not written to since. -/
  | raw
  /-- Taken from a queue. -/
  | whole
  /-- Taken from a queue, and of this kind. -/
  | kinded (kind : Kind)
  /-- Tagged as the record, with the first `k` of its bytes. -/
  | writing (x : Record) (k : ℕ)

/-- The message came out of a queue and has not been written to since. -/
def Status.Readable : Status → Prop
  | whole | kinded _ => True
  | raw | writing _ _ => False

/-- The message can go into a queue. -/
def Status.Complete : Status → Prop
  | whole | kinded _ => True
  | raw => False
  | writing x k => k = x.kind.slotSize

/-- The message at hand, if there is one, and what is known about it. -/
abbrev Held (P : PoolCapacity) := Option (Ptr P × Status)

/-- The messages at hand. -/
def Held.hand : Held P → List (Ptr P)
  | none => []
  | some (p, _) => [p]

/-- **The rules of the commands**, as a worker may use them that knows what it has in hand: one
message at a time, read only what the tag covers, and push only what is complete. -/
def spec : Program.Spec (Cmd P Q σ) Cmd.Answer (Held P)
  | held, .own _, post => ∀ parts, post parts held
  | held, .acquire, post => held = none ∧ post none none ∧ ∀ p, post (some p) (some (p, .raw))
  | held, .tryPop _, post => held = none ∧ post none none ∧ ∀ p, post (some p) (some (p, .whole))
  | held, .readKind p, post =>
    ∃ st, held = some (p, st) ∧ st.Readable ∧ ∀ kind, post kind (some (p, .kinded kind))
  | held, .readByte p k, post =>
    ∃ kind, held = some (p, .kinded kind) ∧ k < kind.slotSize ∧ ∀ b, post b held
  | held, .writeKind p kind, post =>
    ∃ st x, held = some (p, st) ∧ Record.kind x = kind ∧ post () (some (p, .writing x 0))
  | held, .writeByte p k b, post =>
    ∃ x, held = some (p, .writing x k) ∧ k.val < x.kind.slotSize ∧ b = x.byte k ∧
      post () (some (p, .writing x (k + 1)))
  | held, .push _ p, post => ∃ st, held = some (p, st) ∧ st.Complete ∧ post () none
  | held, .release p, post => ∃ st, held = some (p, st) ∧ post () none
  | _, .spin, _ => True

theorem spec_mono : (spec : Program.Spec (Cmd P Q σ) Cmd.Answer (Held P)).Mono := by
  -- for each command the postcondition stands at the end of the rule
  intro held c post post' h_post h
  cases c with
  | own update => exact fun parts => h_post _ _ (h parts)
  | acquire | tryPop q =>
    obtain ⟨h_held, h_none, h_some⟩ := h
    exact ⟨h_held, h_post _ _ h_none, fun p => h_post _ _ (h_some p)⟩
  | readKind p =>
    obtain ⟨st, h_held, h_st, h⟩ := h
    exact ⟨st, h_held, h_st, fun kind => h_post _ _ (h kind)⟩
  | readByte p k =>
    obtain ⟨kind, h_held, h_k, h⟩ := h
    exact ⟨kind, h_held, h_k, fun b => h_post _ _ (h b)⟩
  | writeKind p kind =>
    obtain ⟨st, x, h_held, h_x, h⟩ := h
    exact ⟨st, x, h_held, h_x, h_post _ _ h⟩
  | writeByte p k b =>
    obtain ⟨x, h_held, h_k, h_b, h⟩ := h
    exact ⟨x, h_held, h_k, h_b, h_post _ _ h⟩
  | push q p =>
    obtain ⟨st, h_held, h_st, h⟩ := h
    exact ⟨st, h_held, h_st, h_post _ _ h⟩
  | release p =>
    obtain ⟨st, h_held, h⟩ := h
    exact ⟨st, h_held, h_post _ _ h⟩
  | spin => trivial

/-- The code keeps to the rules, and ends without a message. -/
abbrev Ends (code : Routine P Q σ Unit) (held : Held P) : Prop :=
  code.wp spec held fun _ held => held = none

/-- The call keeps to the rules. -/
abbrev Clean (code : Routine P Q σ Unit) : Prop := Ends code none

/-- One clean call after the other. -/
theorem Clean.bind {p p' : Routine P Q σ Unit} (h : Clean p) (h' : Clean p') :
    Clean (p >>= fun _ => p') := by
  rw [Clean, Ends, Program.wp_bind]
  refine Program.wp_mono spec_mono (fun _ held h_held => ?_) h
  rw [h_held]
  exact h'

/-! ### Program points -/

/-- Inside `acquire`. -/
inductive Acquiring : Handoff.Pc P cap → Prop
  | scan (i : ℕ) : Acquiring (.scan none i)
  | setKind (p : Ptr P) : Acquiring (.setKind none p)
  | clear (p : Ptr P) (k : ℕ) : Acquiring (.clear none p k)

/-- Inside `try_pop`, before a message has been taken. -/
inductive Popping {C : Capacity} : MPMC.Pc C (Ptr P) → Prop
  | load : Popping .tryLoad
  | exchange (slot : BitVec 32) (probe : ℕ) : Popping (.tryExchange slot probe)

/-- Inside a `push` of `p`. -/
inductive Pushing {C : Capacity} (p : Ptr P) : MPMC.Pc C (Ptr P) → Prop
  | fetch : Pushing p (.pushFetch p)
  | cas (slot : Fin C.val) : Pushing p (.pushCas p slot)

/-- **Where a worker is, and what it knows there**: between two commands with what it holds, or
inside one that has begun. -/
inductive Doing : Local P cap σ → Held P → Prop
  | between (held : Held P) {code : Routine P Q σ Unit} (calls : ℕ) (h_code : Ends code held) :
      Doing ⟨⟨held.hand, .idle⟩, code, calls⟩ held
  | acquiring {pc : Handoff.Pc P cap} {next : Option (Ptr P) → Routine P Q σ Unit} (calls : ℕ)
      (h_pc : Acquiring pc) (h_none : Ends (next none) none)
      (h_some : ∀ p, Ends (next (some p)) (some (p, .raw))) :
      Doing ⟨⟨[], pc⟩, .ask .acquire next, calls⟩ none
  | popping {q : Q} {pc : MPMC.Pc (cap q) (Ptr P)} {next : Option (Ptr P) → Routine P Q σ Unit}
      (calls : ℕ) (h_pc : Popping pc) (h_none : Ends (next none) none)
      (h_some : ∀ p, Ends (next (some p)) (some (p, .whole))) :
      Doing ⟨⟨[], .ring q pc⟩, .ask (.tryPop q) next, calls⟩ none
  | popped {q : Q} {p : Ptr P} {idx : Fin (cap q).val}
      {next : Option (Ptr P) → Routine P Q σ Unit} (calls : ℕ)
      (h_some : Ends (next (some p)) (some (p, .whole))) :
      Doing ⟨⟨[], .ring q (.tryStore p idx)⟩, .ask (.tryPop q) next, calls⟩ (some (p, .whole))
  | pushing {q : Q} {p : Ptr P} {pc : MPMC.Pc (cap q) (Ptr P)} {st : Status}
      {next : Unit → Routine P Q σ Unit} (calls : ℕ) (h_pc : Pushing p pc) (h_st : st.Complete)
      (h_next : Ends (next ()) none) :
      Doing ⟨⟨[], .ring q pc⟩, .ask (.push q p) next, calls⟩ (some (p, st))

/-- The message at hand is the worker's. -/
theorem Doing.owned {l : Local P cap σ} {p : Ptr P} {st : Status} (h : Doing l (some (p, st))) :
    p ∈ l.base.owned := by
  cases h with
  | between _ calls h_code => exact List.mem_cons_self
  | popped calls h_some => exact List.mem_cons_self
  | pushing calls h_pc h_st h_next => cases h_pc <;> exact List.mem_cons_self

/-- Outside of the pool and the queues a worker is between two commands. -/
theorem Doing.idle {l : Local P cap σ} {held : Held P} (h : Doing l held)
    (h_idle : l.base.pc = .idle) : l.base = ⟨held.hand, .idle⟩ ∧ Ends l.code held := by
  cases h with
  | between _ calls h_code => exact ⟨rfl, h_code⟩
  | acquiring calls h_pc h_none h_some => cases h_pc <;> exact absurd h_idle (by simp)
  | _ => exact absurd h_idle (by simp)

/-! ### Steps -/

/-- **What a step of worker `i`, in its call `n`, makes of what it knows.** -/
inductive Turn {Id : Type*} (i : Id) (n : ℕ) (sh : Handoff.Shared P cap) (es : List (Event P Q)) :
    Held P → Held P → Prop
  | keep (held : Held P)
      (h_es : ∀ p st, held = some (p, st) → writes p (es.map fun e => (i, e)) = []) :
      Turn i n sh es held held
  | drop (held : Held P) : Turn i n sh es held none
  | acquired (p : Ptr P) : Turn i n sh es none (some (p, .raw))
  | taken (c : Handoff.Cell cap) (p : Ptr P) (h_cell : sh.cell c = some p)
      (h_es : writes p (es.map fun e => (i, e)) = []) :
      Turn i n sh es none (some (p, .whole))
  | seen (p : Ptr P) (st : Status) (h_st : st.Readable)
      (h_es : writes p (es.map fun e => (i, e)) = []) :
      Turn i n sh es (some (p, st)) (some (p, .kinded (sh.pool.load p).kind))
  | tagged (p : Ptr P) (st : Status) (x : Record) (h_es : es = [.write n p (.tag x.kind)]) :
      Turn i n sh es (some (p, st)) (some (p, .writing x 0))
  | copied (p : Ptr P) (x : Record) (k : ℕ) (h_k : k < x.kind.slotSize)
      (h_es : es = [.write n p (.byte k (x.byte k))]) :
      Turn i n sh es (some (p, .writing x k)) (some (p, .writing x (k + 1)))

/-- What a step leads to. A message in a cell was there before, or is the one at hand. -/
structure Advance {Id : Type*} (i : Id) (sh sh' : Handoff.Shared P cap) (l l' : Local P cap σ)
    (es : List (Event P Q)) (held held' : Held P) : Prop where
  doing : Doing l' held'
  turn : Turn i l.calls sh es held held'
  calls : held = none ∨ l'.calls = l.calls
  cell : ∀ c p, sh'.cell c = some p → sh.cell c = some p ∨
    (∃ st, held = some (p, st) ∧ st.Complete) ∧ writes p (es.map fun e => (i, e)) = []

section

variable {Id : Type*} {i : Id} {sh sh' : Handoff.Shared P cap} {l l' : Local P cap σ}
  {held : Held P} {es : List (Event P Q)}

/-- A step that changes neither the cells nor what is known, and does not write to the message
at hand. -/
theorem Advance.stay (h_doing : Doing l' held) (h_calls : l'.calls = l.calls)
    (h_cell : ∀ c, sh'.cell c = sh.cell c)
    (h_es : ∀ p st, held = some (p, st) → writes p (es.map fun e => (i, e)) = []) :
    Advance i sh sh' l l' es held held where
  doing := h_doing
  turn := .keep held h_es
  calls := Or.inr h_calls
  cell c _ h_c := Or.inl (h_cell c ▸ h_c)

/-- A step that turns what is known and leaves the cells. -/
theorem Advance.learn {held' : Held P} (h_doing : Doing l' held') (h_calls : l'.calls = l.calls)
    (h_cell : ∀ c, sh'.cell c = sh.cell c) (h_turn : Turn i l.calls sh es held held') :
    Advance i sh sh' l l' es held held' where
  doing := h_doing
  turn := h_turn
  calls := Or.inr h_calls
  cell c _ h_c := Or.inl (h_cell c ▸ h_c)

variable [DecidableEq Q] {calls : ℕ} {mem : Handoff.Shared P cap} {base : Handoff.Local P cap}
  {es' : List (Handoff.Event P Q)}

/-- The first step of a command. -/
theorem start_advance {c : Cmd P Q σ} {next : c.Answer → Routine P Q σ Unit}
    {ch : Handoff.Choice P Q} (h_start : c.start = some ch) (h_code : Ends (.ask c next) held)
    (h_step : Handoff.step sh ⟨held.hand, .idle⟩ ch = some (mem, base, es')) :
    ∃ held', Advance i sh mem ⟨⟨held.hand, .idle⟩, .ask c next, calls⟩
      ⟨base, codeAfter ⟨held.hand, .idle⟩ base c next, calls⟩
      (shown calls (Handoff.writeOf (.idle : Handoff.Pc P cap) ch) es') held held' := by
  -- what a command leaves to do, and what is known once it is begun
  cases c with
  | own update | readKind p | readByte p k | spin => exact absurd h_start (by simp [Cmd.start])
  | acquire =>
    -- nothing is held, and the scan begins
    cases h_start
    obtain ⟨rfl, h_none, h_some⟩ := h_code
    cases h_step
    exact ⟨_, .stay (.acquiring calls (.scan _) h_none h_some) rfl (fun _ => rfl) (by simp)⟩
  | tryPop q =>
    cases h_start
    obtain ⟨rfl, h_none, h_some⟩ := h_code
    cases h_step
    exact ⟨_, .stay (.popping calls .load h_none h_some) rfl (fun _ => rfl) (by simp)⟩
  | writeKind p kind =>
    cases h_start
    obtain ⟨st, x, rfl, rfl, h_next⟩ := h_code
    -- the kind is written in one step: the command is over, and the message begun
    simp only [Handoff.step, Held.hand, List.mem_singleton, if_true] at h_step
    cases h_step
    exact ⟨_, .learn (.between (some (p, .writing x 0)) calls h_next) rfl (fun _ => rfl)
      (.tagged p st x rfl)⟩
  | writeByte p k b =>
    cases h_start
    obtain ⟨x, rfl, h_k, rfl, h_next⟩ := h_code
    -- so is a byte: the message is known one byte further
    simp only [Handoff.step, Held.hand, List.mem_singleton, if_true] at h_step
    cases h_step
    exact ⟨_, .learn (.between (some (p, .writing x (k + 1))) calls h_next) rfl
      (fun _ => rfl) (.copied p x k h_k rfl)⟩
  | push q p =>
    cases h_start
    obtain ⟨st, rfl, h_st, h_next⟩ := h_code
    simp only [Handoff.step, Held.hand, List.mem_singleton, if_true] at h_step
    cases h_step
    -- the message is out of the worker's hand and inside the call
    refine ⟨some (p, st), .stay ?_ rfl (fun _ => rfl) fun _ _ _ => rfl⟩
    show Doing ⟨⟨[p].erase p, _⟩, _, _⟩ _
    rw [List.erase_cons_head]
    exact .pushing calls .fetch h_st h_next
  | release p =>
    cases h_start
    obtain ⟨st, rfl, h_next⟩ := h_code
    simp only [Handoff.step, Held.hand, List.mem_singleton, if_true] at h_step
    cases h_step
    -- the worker is done with the slot
    refine ⟨none, .learn ?_ rfl (fun _ => rfl) (.drop _)⟩
    show Doing ⟨⟨[p].erase p, _⟩, _, _⟩ _
    rw [List.erase_cons_head]
    exact .between none calls h_next

/-- A step inside `acquire`: the scan ends with `nullptr`, the clearing loop with a message. -/
theorem acquiring_advance {pc : Handoff.Pc P cap} {next : Option (Ptr P) → Routine P Q σ Unit}
    {ch : Handoff.Choice P Q} (h_pc : Acquiring pc) (h_none : Ends (next none) none)
    (h_some : ∀ p, Ends (next (some p)) (some (p, .raw)))
    (h_step : Handoff.step sh ⟨[], pc⟩ ch = some (mem, base, es')) :
    ∃ held', Advance i sh mem ⟨⟨[], pc⟩, .ask .acquire next, calls⟩
      ⟨base, codeAfter ⟨[], pc⟩ base .acquire next, calls⟩
      (shown calls (Handoff.writeOf pc ch) es') none held' := by
  -- what is written here is written before the routine has the message
  have h_stay : ∀ {pc' : Handoff.Pc P cap} {sh' : Handoff.Shared P cap} {es : List (Event P Q)},
      Acquiring pc' → (∀ c, sh'.cell c = sh.cell c) → Advance i sh sh'
        ⟨⟨[], pc⟩, .ask .acquire next, calls⟩ ⟨⟨[], pc'⟩, .ask .acquire next, calls⟩ es none none :=
    fun h_pc' h_cell => .stay (.acquiring calls h_pc' h_none h_some) rfl h_cell (by simp)
  cases h_pc <;> cases ch <;> simp only [Handoff.step, reduceCtorEq] at h_step
  case scan.run j =>
    split at h_step
    · split at h_step
      · cases h_step
        exact ⟨_, h_stay (.setKind _) fun _ => rfl⟩
      · cases h_step
        exact ⟨_, h_stay (.scan _) fun _ => rfl⟩
    · cases h_step
      exact ⟨_, .stay (.between none calls h_none) rfl (fun _ => rfl) (by simp)⟩
  case scan.spurious j =>
    split at h_step
    · cases h_step
      exact ⟨_, h_stay (.scan _) fun _ => rfl⟩
    · exact absurd h_step (by simp)
  case setKind.run p =>
    cases h_step
    exact ⟨_, h_stay (.clear p 0) fun _ => rfl⟩
  case clear.run p k =>
    split at h_step
    · cases h_step
      exact ⟨_, h_stay (.clear p _) fun _ => rfl⟩
    · cases h_step
      exact ⟨_, .learn (.between (some (p, .raw)) calls (h_some p)) rfl (fun _ => rfl)
        (.acquired p)⟩

omit [DecidableEq Q] in
/-- A step inside a queue writes to no message. -/
theorem writes_ring {q : Q} {pc : MPMC.Pc (cap q) (Ptr P)} {ch : Handoff.Choice P Q} (p : Ptr P) :
    writes p ((shown calls (Handoff.writeOf (.ring q pc) ch) es').map fun e => (i, e)) = [] := by
  rw [writes_shown]
  cases ch <;> rfl

/-- What is in a cell after a step of queue `q` was there, or has been put there. -/
theorem cell_of_update (sh : Handoff.Shared P cap) {q : Q} {queue : MPMC (cap q) (Ptr P)}
    {slot : Fin (cap q).val} {x : Option (Ptr P)}
    (h_ring : queue.ring = Function.update (sh.queues q).ring slot x)
    {c : Handoff.Cell cap} {p : Ptr P}
    (h_c : Handoff.Shared.cell { sh with queues := Function.update sh.queues q queue } c = some p) :
    sh.cell c = some p ∨ x = some p := by
  by_cases h_slot : c = ⟨q, slot⟩
  · subst h_slot
    rw [Handoff.cell_update_self, h_ring, Function.update_self] at h_c
    exact Or.inr h_c
  · rw [Handoff.cell_update_other sh q queue h_ring c h_slot] at h_c
    exact Or.inl h_c

/-- A step of a thread that is inside queue `q`. -/
theorem ring_step {hand : List (Ptr P)} {q : Q} {pc : MPMC.Pc (cap q) (Ptr P)}
    {ch : Handoff.Choice P Q}
    (h_step : Handoff.step sh ⟨hand, .ring q pc⟩ ch = some (mem, base, es')) :
    ∃ c queue pc' es, MPMC.Steps (sh.queues q) pc c queue pc' es ∧ (c = .run ∨ c = .spurious) ∧
      mem = { sh with queues := Function.update sh.queues q queue } ∧
      base = ⟨MPMC.returns es ++ hand, .inside q pc'⟩ := by
  -- both choices that a thread inside a ring has are operations on the ring
  have h_ring : ∃ c, (c = .run ∨ c = .spurious) ∧
      Handoff.ringStep sh ⟨hand, .ring q pc⟩ q pc c = some (mem, base, es') := by
    cases ch <;> simp only [Handoff.step, reduceCtorEq] at h_step
    · exact ⟨.run, Or.inl rfl, h_step⟩
    · exact ⟨.spurious, Or.inr rfl, h_step⟩
  obtain ⟨c, h_c, h_ring⟩ := h_ring
  simp only [Handoff.ringStep] at h_ring
  split at h_ring
  · exact absurd h_ring (by simp)
  · next h_queue =>
    cases h_ring
    exact ⟨c, _, _, _, MPMC.step_steps h_queue, h_c, rfl, rfl⟩

/-- A step inside `try_pop`. -/
theorem popping_advance {q : Q} {pc : MPMC.Pc (cap q) (Ptr P)}
    {next : Option (Ptr P) → Routine P Q σ Unit} {ch : Handoff.Choice P Q} (h_pc : Popping pc)
    (h_none : Ends (next none) none) (h_some : ∀ p, Ends (next (some p)) (some (p, .whole)))
    (h_step : Handoff.step sh ⟨[], .ring q pc⟩ ch = some (mem, base, es')) :
    ∃ held', Advance i sh mem ⟨⟨[], .ring q pc⟩, .ask (.tryPop q) next, calls⟩
      ⟨base, codeAfter ⟨[], .ring q pc⟩ base (.tryPop q) next, calls⟩
      (shown calls (Handoff.writeOf (.ring q pc) ch) es') none held' := by
  obtain ⟨c, queue, pc', es, h_steps, -, rfl, rfl⟩ := ring_step h_step
  cases h_pc with
  | load =>
    cases h_steps
    exact ⟨_, .stay (.popping calls (.exchange _ _) h_none h_some) rfl
      (Handoff.cell_update_same sh q _ rfl) (by simp)⟩
  | exchange slot probe =>
    cases h_steps with
    | tryTake p _ _ h_full =>
      -- the message is taken here, and returned by the next step
      refine ⟨_, .popped calls (h_some p), .taken ⟨q, _⟩ p h_full (writes_ring p), Or.inl rfl,
        fun c p' h_c => ?_⟩
      obtain h_before | h_none := cell_of_update sh rfl h_c
      · exact Or.inl h_before
      · exact absurd h_none (by simp)
    | tryMiss =>
      exact ⟨_, .stay (.popping calls (.exchange _ _) h_none h_some) rfl
        (Handoff.cell_update_same sh q _ rfl) (by simp)⟩
    | tryFail =>
      exact ⟨_, .stay (.between none calls h_none) rfl
        (Handoff.cell_update_same sh q _ rfl) (by simp)⟩

/-- The last step of a `try_pop` that has taken a message. -/
theorem popped_advance {q : Q} {p : Ptr P} {idx : Fin (cap q).val}
    {next : Option (Ptr P) → Routine P Q σ Unit} {ch : Handoff.Choice P Q}
    (h_some : Ends (next (some p)) (some (p, .whole)))
    (h_step : Handoff.step sh ⟨[], .ring q (.tryStore p idx)⟩ ch = some (mem, base, es')) :
    ∃ held', Advance i sh mem ⟨⟨[], .ring q (.tryStore p idx)⟩, .ask (.tryPop q) next, calls⟩
      ⟨base, codeAfter ⟨[], .ring q (.tryStore p idx)⟩ base (.tryPop q) next, calls⟩
      (shown calls (Handoff.writeOf (.ring q (.tryStore p idx)) ch) es') (some (p, .whole))
      held' := by
  obtain ⟨c, queue, pc', es, h_steps, -, rfl, rfl⟩ := ring_step h_step
  cases h_steps
  exact ⟨_, .stay (.between (some (p, .whole)) calls h_some) rfl
    (Handoff.cell_update_same sh q _ rfl) fun p' _ _ => writes_ring p'⟩

/-- A step inside `push`. -/
theorem pushing_advance {q : Q} {p : Ptr P} {pc : MPMC.Pc (cap q) (Ptr P)} {st : Status}
    {next : Unit → Routine P Q σ Unit} {ch : Handoff.Choice P Q} (h_pc : Pushing p pc)
    (h_st : st.Complete) (h_next : Ends (next ()) none)
    (h_step : Handoff.step sh ⟨[], .ring q pc⟩ ch = some (mem, base, es')) :
    ∃ held', Advance i sh mem ⟨⟨[], .ring q pc⟩, .ask (.push q p) next, calls⟩
      ⟨base, codeAfter ⟨[], .ring q pc⟩ base (.push q p) next, calls⟩
      (shown calls (Handoff.writeOf (.ring q pc) ch) es') (some (p, st)) held' := by
  obtain ⟨c, queue, pc', es, h_steps, -, rfl, rfl⟩ := ring_step h_step
  cases h_pc with
  | fetch =>
    cases h_steps
    exact ⟨_, .stay (.pushing calls (.cas _) h_st h_next) rfl
      (Handoff.cell_update_same sh q _ rfl) fun p' _ _ => writes_ring p'⟩
  | cas slot =>
    cases h_steps with
    | casStore =>
      -- the message is in the queue, and no longer the worker's
      refine ⟨none, .between none calls h_next, .drop _, Or.inr rfl, fun c p' h_c => ?_⟩
      obtain h_before | h_put := cell_of_update sh rfl h_c
      · exact Or.inl h_before
      · obtain rfl := Option.some.inj h_put
        exact Or.inr ⟨⟨st, rfl, h_st⟩, writes_ring _⟩
    | casFail =>
      exact ⟨_, .stay (.pushing calls (.cas _) h_st h_next) rfl
        (Handoff.cell_update_same sh q _ rfl) fun p' _ _ => writes_ring p'⟩

/-- **One step of a worker with clean calls.** It leads to a program point with new knowledge, which
the step itself justifies. -/
theorem Doing.step {ops : Op → Routine P Q σ Unit} (h_ops : ∀ op, Clean (ops op))
    {sh sh' : Shared P cap σ} {ch : Choice Op} (h_doing : Doing l held)
    (h : Worker.step ops sh l ch = some (sh', l', es)) :
    ∃ held', Advance i sh.mem sh'.mem l l' es held held' := by
  cases step_steps h with
  | call op h_code =>
    cases h_doing with
    | between _ calls h_ends =>
      subst h_code
      obtain rfl : held = none := h_ends
      exact ⟨none, .between none _ (h_ops op), .keep _ (by simp), Or.inl rfl,
        fun c p h_c => Or.inl h_c⟩
    | _ => cases h_code
  | own update next h_idle h_code =>
    obtain ⟨h_base, h_ends⟩ := h_doing.idle h_idle
    rw [h_code] at h_ends
    rw [h_base]
    exact ⟨held, .stay (.between held l.calls (h_ends _)) rfl (fun _ => rfl) fun _ _ _ => rfl⟩
  | readKind p next h_idle h_code =>
    obtain ⟨h_base, h_ends⟩ := h_doing.idle h_idle
    rw [h_code] at h_ends
    obtain ⟨st, rfl, h_st, h_next⟩ := h_ends
    rw [h_base]
    exact ⟨_, .learn (.between (some (p, .kinded _)) l.calls (h_next _)) rfl
      (fun _ => rfl) (.seen p st h_st rfl)⟩
  | readByte p k next h_idle h_code =>
    obtain ⟨h_base, h_ends⟩ := h_doing.idle h_idle
    rw [h_code] at h_ends
    obtain ⟨kind, rfl, h_k, h_next⟩ := h_ends
    rw [h_base]
    exact ⟨_, .stay (.between (some (p, .kinded kind)) l.calls (h_next _)) rfl
      (fun _ => rfl) fun _ _ _ => rfl⟩
  | base h_code h_ch h_step =>
    -- where the worker is decides whether the command is started or goes on
    cases h_doing with
    | between _ calls h_ends =>
      subst h_code
      obtain ⟨h_start, -⟩ | ⟨-, h_busy⟩ := h_ch
      · exact start_advance h_start h_ends h_step
      · exact absurd rfl h_busy
    | acquiring calls h_pc h_none h_some =>
      cases h_code
      exact acquiring_advance h_pc h_none h_some h_step
    | popping calls h_pc h_none h_some =>
      cases h_code
      exact popping_advance h_pc h_none h_some h_step
    | popped calls h_some =>
      cases h_code
      exact popped_advance h_some h_step
    | pushing calls h_pc h_st h_next =>
      cases h_code
      exact pushing_advance h_pc h_st h_next h_step

end

end Worker

end Hft
