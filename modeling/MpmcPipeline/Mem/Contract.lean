import MpmcPipeline.Mem.Copies

/-!
# Contracts between routines

A `Contract` is what routines that share queues agree on: which records may lie in which
queue, which may be released, and what holds of the members of the stage objects. It also
says what is counted: the members account for a quantity (`value`), and so does every record in
a queue (`weight`).

`Contract.rules` are the rules of the commands under a contract. A call may rely on the contract
for what it takes out of a queue, and has to keep it for what it puts in; of its own message it
knows the very record (`Content`), so that what it reads is that record's kind and bytes. What
it takes out and what it counts it comes to owe (`Account.due`), and it ends with nothing at hand
and nothing owed. A call is judged by itself: the other workers are not mentioned.

`Under` ties the program point of a worker to its account, and `Under.step` says what a step
of one worker does to the contract: it is kept, and quantities only move between the members,
a cell and the account (`Shift`). What follows over whole runs is in `Mem/Accounts.lean`.
-/

namespace Hft

namespace Worker

variable {P : PoolCapacity} {Q Op : Type*} {σ G : Type} {cap : Q → Capacity}

/-- **What the workers agree on**: which records a queue may hold and which may be released, and a
quantity that the members of the workers account for and the queued records weigh. -/
structure Contract (Q : Type*) (σ G : Type) where
  /-- What may lie in a queue. -/
  queue : Q → Record → Prop
  /-- What may be released. -/
  discard : Record → Prop
  /-- What holds of the members. -/
  members : σ → Prop
  /-- What the members account for. -/
  value : σ → G
  /-- What a record in a queue accounts for. -/
  weight : Q → Record → G

/-- What a call knows of the contents of its message. -/
inductive Content
  /-- Acquired, and not written to since. -/
  | raw
  /-- The record. -/
  | holds (x : Record)
  /-- Tagged as the record, with the first `k` of its bytes. -/
  | writing (x : Record) (k : ℕ)

/-- The knowledge is right. -/
def Content.Of (m : TaggedMessage) : Content → Prop
  | raw => True
  | holds x => m.Carries x
  | writing x k => m.Begins x k

/-- The record is there whole. -/
def Content.Is (x : Record) : Content → Prop
  | raw => False
  | holds y => y = x
  | writing y k => y = x ∧ k = y.kind.slotSize

theorem Content.Is.carries {c : Content} {x : Record} {m : TaggedMessage} (h : c.Is x)
    (h_of : c.Of m) : m.Carries x := by
  cases c with
  | raw => exact absurd h id
  | holds y =>
    obtain rfl : y = x := h
    exact h_of
  | writing y k =>
    obtain ⟨rfl, rfl⟩ := h
    exact h_of

/-- The account of a call: the message at hand with what is in it, and what the call owes. -/
@[ext] structure Account (P : PoolCapacity) (G : Type) where
  message : Option (Ptr P × Content)
  due : G

/-- The messages at hand. -/
def Account.hand (g : Account P G) : List (Ptr P) :=
  match g.message with
  | none => []
  | some (p, _) => [p]

/-- The contents are what is known of them. -/
def Account.Right (pool : TaggedPool P) (g : Account P G) : Prop :=
  ∀ p c, g.message = some (p, c) → c.Of (pool.load p)

variable [AddCommGroup G]

/-- Nothing at hand, nothing owed. -/
def Account.settled : Account P G := ⟨none, 0⟩

namespace Contract

/-- **The rules of the commands**, as a worker with an account may use them. A message taken adds
its weight to what is owed, a message pushed takes its weight off, and the members may change for
what is owed. -/
def rules (K : Contract Q σ G) : Program.Spec (Cmd P Q σ) Cmd.Answer (Account P G)
  -- what the members no longer account for is owed by the call
  | g, .own update, post => ∀ parts, K.members parts → K.members (update parts) ∧
      post parts ⟨g.message, g.due + K.value parts - K.value (update parts)⟩
  -- one message at a time
  | g, .acquire, post => g.message = none ∧ post none g ∧ ∀ p, post (some p) ⟨some (p, .raw), g.due⟩
  | g, .tryPop q, post => g.message = none ∧ post none g ∧
      ∀ p x, K.queue q x → post (some p) ⟨some (p, .holds x), g.due + K.weight q x⟩
  | g, .readKind p, post => ∃ x, g.message = some (p, .holds x) ∧ post x.kind g
  | g, .readByte p k, post =>
    ∃ x, g.message = some (p, .holds x) ∧ k < x.kind.slotSize ∧ post (x.byte k) g
  | g, .writeKind p kind, post =>
    ∃ c x, g.message = some (p, c) ∧ Record.kind x = kind ∧ post () ⟨some (p, .writing x 0), g.due⟩
  -- the bytes of the record, in order
  | g, .writeByte p k b, post =>
    ∃ x, g.message = some (p, .writing x k) ∧ k.val < x.kind.slotSize ∧ b = x.byte k ∧
      post () ⟨some (p, .writing x (k + 1)), g.due⟩
  -- only a whole record of the queue's kind is handed on
  | g, .push q p, post => ∃ c x, g.message = some (p, c) ∧ c.Is x ∧ K.queue q x ∧
      post () ⟨none, g.due - K.weight q x⟩
  | g, .release p, post =>
    ∃ x, g.message = some (p, .holds x) ∧ K.discard x ∧ post () ⟨none, g.due⟩
  | _, .spin, _ => True

theorem rules_mono (K : Contract Q σ G) :
    (K.rules : Program.Spec (Cmd P Q σ) Cmd.Answer (Account P G)).Mono := by
  -- for each command the postcondition stands at the end of the rule
  intro g c post post' h_post h
  cases c with
  | own update =>
    intro parts h_parts
    obtain ⟨h_members, h⟩ := h parts h_parts
    exact ⟨h_members, h_post _ _ h⟩
  | acquire =>
    obtain ⟨h_message, h_none, h_some⟩ := h
    exact ⟨h_message, h_post _ _ h_none, fun p => h_post _ _ (h_some p)⟩
  | tryPop q =>
    obtain ⟨h_message, h_none, h_some⟩ := h
    exact ⟨h_message, h_post _ _ h_none, fun p x h_x => h_post _ _ (h_some p x h_x)⟩
  | readKind p =>
    obtain ⟨x, h_message, h⟩ := h
    exact ⟨x, h_message, h_post _ _ h⟩
  | readByte p k =>
    obtain ⟨x, h_message, h_k, h⟩ := h
    exact ⟨x, h_message, h_k, h_post _ _ h⟩
  | writeKind p kind =>
    obtain ⟨c, x, h_message, h_x, h⟩ := h
    exact ⟨c, x, h_message, h_x, h_post _ _ h⟩
  | writeByte p k b =>
    obtain ⟨x, h_message, h_k, h_b, h⟩ := h
    exact ⟨x, h_message, h_k, h_b, h_post _ _ h⟩
  | push q p =>
    obtain ⟨c, x, h_message, h_is, h_x, h⟩ := h
    exact ⟨c, x, h_message, h_is, h_x, h_post _ _ h⟩
  | release p =>
    obtain ⟨x, h_message, h_x, h⟩ := h
    exact ⟨x, h_message, h_x, h_post _ _ h⟩
  | spin => trivial

/-- The code keeps the contract, and settles the account. -/
abbrev Settles (K : Contract Q σ G) (code : Routine P Q σ Unit) (g : Account P G) : Prop :=
  code.wp K.rules g fun _ g => g = .settled

/-- The call keeps the contract. -/
abbrev KeptBy (K : Contract Q σ G) (code : Routine P Q σ Unit) : Prop := K.Settles code .settled

/-- One call after the other. -/
theorem KeptBy.bind {K : Contract Q σ G} {p p' : Routine P Q σ Unit} (h : K.KeptBy p)
    (h' : K.KeptBy p') : K.KeptBy (p >>= fun _ => p') := by
  rw [KeptBy, Settles, Program.wp_bind]
  refine Program.wp_mono K.rules_mono (fun _ g h_g => ?_) h
  rw [h_g]
  exact h'

/-- **Where a worker is, and its account there**: between two commands, inside `acquire`, before or
after the take of a `try_pop`, or inside `push` with its message. -/
inductive Under (K : Contract Q σ G) (pool : TaggedPool P) : Local P cap σ → Account P G → Prop
  | between (g : Account P G) {code : Routine P Q σ Unit} (calls : ℕ) (h_code : K.Settles code g)
      (h_right : g.Right pool) : Under K pool ⟨⟨g.hand, .idle⟩, code, calls⟩ g
  | acquiring {pc : Handoff.Pc P cap} {next : Option (Ptr P) → Routine P Q σ Unit} {due : G}
      (calls : ℕ) (h_pc : Acquiring pc) (h_none : K.Settles (next none) ⟨none, due⟩)
      (h_some : ∀ p, K.Settles (next (some p)) ⟨some (p, .raw), due⟩) :
      Under K pool ⟨⟨[], pc⟩, .ask .acquire next, calls⟩ ⟨none, due⟩
  | popping {q : Q} {pc : MPMC.Pc (cap q) (Ptr P)} {next : Option (Ptr P) → Routine P Q σ Unit}
      {due : G} (calls : ℕ) (h_pc : Popping pc) (h_none : K.Settles (next none) ⟨none, due⟩)
      (h_some : ∀ p x, K.queue q x →
        K.Settles (next (some p)) ⟨some (p, .holds x), due + K.weight q x⟩) :
      Under K pool ⟨⟨[], .ring q pc⟩, .ask (.tryPop q) next, calls⟩ ⟨none, due⟩
  | popped {q : Q} {p : Ptr P} {idx : Fin (cap q).val} {x : Record}
      {next : Option (Ptr P) → Routine P Q σ Unit} {due : G} (calls : ℕ)
      (h_x : (pool.load p).Carries x)
      (h_some : K.Settles (next (some p)) ⟨some (p, .holds x), due⟩) :
      Under K pool ⟨⟨[], .ring q (.tryStore p idx)⟩, .ask (.tryPop q) next, calls⟩
        ⟨some (p, .holds x), due⟩
  | pushing {q : Q} {p : Ptr P} {pc : MPMC.Pc (cap q) (Ptr P)} {x : Record}
      {next : Unit → Routine P Q σ Unit} {due : G} (calls : ℕ) (h_pc : Pushing p pc)
      (h_x : (pool.load p).Carries x) (h_queue : K.queue q x)
      (h_next : K.Settles (next ()) ⟨none, due - K.weight q x⟩) :
      Under K pool ⟨⟨[], .ring q pc⟩, .ask (.push q p) next, calls⟩ ⟨some (p, .holds x), due⟩

section

variable {K : Contract Q σ G} {pool pool' : TaggedPool P} {l : Local P cap σ} {g : Account P G}

/-- Outside of the pool and the queues a worker is between two commands. -/
theorem Under.idle (h : K.Under pool l g) (h_idle : l.base.pc = .idle) :
    l.base = ⟨g.hand, .idle⟩ ∧ K.Settles l.code g ∧ g.Right pool := by
  cases h with
  | between _ calls h_code h_right => exact ⟨rfl, h_code, h_right⟩
  | acquiring calls h_pc h_none h_some => cases h_pc <;> exact absurd h_idle (by simp)
  | _ => exact absurd h_idle (by simp)

/-- An account is about messages its worker owns. -/
theorem Under.congr (h : K.Under pool l g)
    (h_load : ∀ p ∈ l.base.owned, pool'.load p = pool.load p) : K.Under pool' l g := by
  -- a worker inside a call has the message in hand, and the bytes of that one stay
  cases h with
  | between g calls h_code h_right =>
    refine .between g calls h_code fun p c h_message => ?_
    rw [h_load p (by simp [Handoff.Local.owned, Handoff.Pc.owned, Account.hand, h_message])]
    exact h_right p c h_message
  | acquiring calls h_pc h_none h_some => exact .acquiring calls h_pc h_none h_some
  | popping calls h_pc h_none h_some => exact .popping calls h_pc h_none h_some
  | @popped q p idx x next due calls h_x h_some =>
    refine .popped calls ?_ h_some
    rw [h_load p List.mem_cons_self]
    exact h_x
  | @pushing q p pc x next due calls h_pc h_x h_queue h_next =>
    refine .pushing calls h_pc ?_ h_queue h_next
    rw [h_load p (by cases h_pc <;> exact List.mem_cons_self)]
    exact h_x

end

/-- **Where quantities move in a step**: between the members and the account, or between the
account and a cell. -/
inductive Shift [DecidableEq Q] (K : Contract Q σ G) (sh sh' : Shared P cap σ)
    (g g' : Account P G) : Prop
  | keep (h_cell : sh'.mem.cell = sh.mem.cell)
      (h_due : K.value sh'.parts + g'.due = K.value sh.parts + g.due)
  | put (c : Handoff.Cell cap) (p : Ptr P) (x : Record) (h_x : (sh'.mem.pool.load p).Carries x)
      (h_queue : K.queue c.1 x) (h_empty : sh.mem.cell c = none)
      (h_cell : sh'.mem.cell = Function.update sh.mem.cell c (some p))
      (h_parts : sh'.parts = sh.parts) (h_due : g'.due + K.weight c.1 x = g.due)
  | take (c : Handoff.Cell cap) (p : Ptr P) (x : Record) (h_x : (sh.mem.pool.load p).Carries x)
      (h_full : sh.mem.cell c = some p)
      (h_cell : sh'.mem.cell = Function.update sh.mem.cell c none)
      (h_parts : sh'.parts = sh.parts) (h_due : g'.due = g.due + K.weight c.1 x)

/-- **What a step leads to.** A slot that becomes free held a record that may be released. -/
structure Forward [DecidableEq Q] (K : Contract Q σ G) (sh sh' : Shared P cap σ)
    (l' : Local P cap σ) (g g' : Account P G) : Prop where
  under : K.Under sh'.mem.pool l' g'
  members : K.members sh'.parts
  shift : K.Shift sh sh' g g'
  freed : ∀ p, (sh.mem.pool.slots p).state = 1 → (sh'.mem.pool.slots p).state ≠ 1 →
    ∃ x, K.discard x ∧ (sh.mem.pool.load p).Carries x

section

variable [DecidableEq Q] {K : Contract Q σ G} {sh sh' : Shared P cap σ} {l' : Local P cap σ}
  {g g' : Account P G} {calls : ℕ} {mem : Handoff.Shared P cap} {base : Handoff.Local P cap}
  {es' : List (Handoff.Event P Q)}

/-- A step that leaves the cells, the members and the debt, and frees no slot. -/
theorem Forward.stay (h_members : K.members sh.parts) (h_under : K.Under mem.pool l' g')
    (h_cell : ∀ c, mem.cell c = sh.mem.cell c) (h_due : g'.due = g.due)
    (h_state : ∀ p, (sh.mem.pool.slots p).state = 1 → (mem.pool.slots p).state = 1) :
    K.Forward sh { sh with mem } l' g g' where
  under := h_under
  members := h_members
  shift := .keep (funext h_cell) (by rw [h_due])
  freed p h_live h_free := absurd (h_state p h_live) h_free

omit [AddCommGroup G] [DecidableEq Q] in
/-- The contents of a message that has been written to. -/
theorem right_store {pool : TaggedPool P} {p : Ptr P} {m : TaggedMessage} {c : Content}
    {due : G} (h : c.Of m) : (⟨some (p, c), due⟩ : Account P G).Right (pool.store p m) := by
  intro p' c' h_message
  cases h_message
  rw [TaggedPool.load_store]
  exact h

/-- The first step of a command. -/
theorem start_forward (h_members : K.members sh.parts) {c : Cmd P Q σ}
    {next : c.Answer → Routine P Q σ Unit} {ch : Handoff.Choice P Q}
    (h_start : c.start = some ch) (h_code : K.Settles (.ask c next) g)
    (h_right : g.Right sh.mem.pool)
    (h_step : Handoff.step sh.mem ⟨g.hand, .idle⟩ ch = some (mem, base, es')) :
    ∃ g', K.Forward sh { sh with mem }
      ⟨base, codeAfter ⟨g.hand, .idle⟩ base c next, calls⟩ g g' := by
  obtain ⟨message, due⟩ := g
  cases c with
  | own update | readKind p | readByte p k | spin => exact absurd h_start (by simp [Cmd.start])
  | acquire =>
    cases h_start
    obtain ⟨rfl, h_none, h_some⟩ := h_code
    cases h_step
    exact ⟨_, .stay h_members (.acquiring calls (.scan _) h_none h_some) (fun _ => rfl) rfl
      fun _ h => h⟩
  | tryPop q =>
    cases h_start
    obtain ⟨rfl, h_none, h_some⟩ := h_code
    cases h_step
    exact ⟨_, .stay h_members (.popping calls .load h_none h_some) (fun _ => rfl) rfl
      fun _ h => h⟩
  | writeKind p kind =>
    cases h_start
    obtain ⟨c, x, rfl, rfl, h_next⟩ := h_code
    simp only [Handoff.step, Account.hand, List.mem_singleton, if_true] at h_step
    cases h_step
    refine ⟨_, .stay h_members (.between ⟨some (p, .writing x 0), due⟩ calls h_next
      (right_store (TaggedMessage.begins_tag _ x))) (fun _ => rfl) rfl fun p' h_p' => ?_⟩
    exact (TaggedPool.store_state ..).trans h_p'
  | writeByte p k b =>
    cases h_start
    obtain ⟨x, rfl, h_k, rfl, h_next⟩ := h_code
    simp only [Handoff.step, Account.hand, List.mem_singleton, if_true] at h_step
    cases h_step
    -- one byte more of the record is there
    have h_begins : (sh.mem.pool.load p).Begins x k := h_right p _ rfl
    have h_copied := h_begins.copied k.isLt
    rw [Write.apply, dif_pos k.isLt] at h_copied
    refine ⟨_, .stay h_members (.between ⟨some (p, .writing x (k + 1)), due⟩ calls h_next
      (right_store h_copied)) (fun _ => rfl) rfl fun p' h_p' => ?_⟩
    exact (TaggedPool.store_state ..).trans h_p'
  | push q p =>
    cases h_start
    obtain ⟨c, x, rfl, h_is, h_queue, h_next⟩ := h_code
    simp only [Handoff.step, Account.hand, List.mem_singleton, if_true] at h_step
    cases h_step
    refine ⟨⟨some (p, .holds x), due⟩, .stay h_members ?_ (fun _ => rfl) rfl fun _ h => h⟩
    show K.Under _ ⟨⟨[p].erase p, _⟩, _, _⟩ _
    rw [List.erase_cons_head]
    exact .pushing calls .fetch (h_is.carries (h_right p c rfl)) h_queue h_next
  | release p =>
    cases h_start
    obtain ⟨x, rfl, h_discard, h_next⟩ := h_code
    simp only [Handoff.step, Account.hand, List.mem_singleton, if_true] at h_step
    cases h_step
    refine ⟨⟨none, due⟩, ?_, h_members, .keep rfl rfl, fun p' h_live h_free => ?_⟩
    · show K.Under _ ⟨⟨[p].erase p, _⟩, _, _⟩ _
      rw [List.erase_cons_head]
      exact .between ⟨none, due⟩ calls h_next (by simp [Account.Right])
    · -- no other slot becomes free
      by_cases h_p : p' = p
      · subst h_p
        exact ⟨x, h_discard, h_right p' _ rfl⟩
      · rw [TaggedPool.release_address, TaggedPool.setState_of_ne _ h_p] at h_free
        exact absurd h_live h_free

/-- A step inside `acquire`. -/
theorem acquiring_forward (h_members : K.members sh.parts) {pc : Handoff.Pc P cap}
    {next : Option (Ptr P) → Routine P Q σ Unit} {due : G} {ch : Handoff.Choice P Q}
    (h_pc : Acquiring pc) (h_none : K.Settles (next none) ⟨none, due⟩)
    (h_some : ∀ p, K.Settles (next (some p)) ⟨some (p, .raw), due⟩)
    (h_step : Handoff.step sh.mem ⟨[], pc⟩ ch = some (mem, base, es')) :
    ∃ g', K.Forward sh { sh with mem }
      ⟨base, codeAfter ⟨[], pc⟩ base .acquire next, calls⟩ ⟨none, due⟩ g' := by
  -- the account stays until `acquire` returns
  have h_stay : ∀ {pc' : Handoff.Pc P cap} {mem' : Handoff.Shared P cap}, Acquiring pc' →
      (∀ c, mem'.cell c = sh.mem.cell c) →
      (∀ p, (sh.mem.pool.slots p).state = 1 → (mem'.pool.slots p).state = 1) →
      K.Forward sh { sh with mem := mem' } ⟨⟨[], pc'⟩, .ask .acquire next, calls⟩ ⟨none, due⟩
        ⟨none, due⟩ :=
    fun h_pc' h_cell h_state =>
      .stay h_members (.acquiring calls h_pc' h_none h_some) h_cell rfl h_state
  cases h_pc <;> cases ch <;> simp only [Handoff.step, reduceCtorEq] at h_step
  case scan.run j =>
    split at h_step
    · split at h_step
      · cases h_step
        refine ⟨_, h_stay (.setKind _) (fun _ => rfl) fun p h_p => ?_⟩
        -- the slot that is claimed was free
        by_cases h_eq : p = ⟨j, by assumption⟩
        · subst h_eq
          exact TaggedPool.setState_self ..
        · exact (TaggedPool.setState_of_ne _ h_eq _).trans h_p
      · cases h_step
        exact ⟨_, h_stay (.scan _) (fun _ => rfl) fun _ h => h⟩
    · cases h_step
      exact ⟨_, .stay h_members (.between ⟨none, due⟩ calls h_none (by simp [Account.Right]))
        (fun _ => rfl) rfl fun _ h => h⟩
  case scan.spurious j =>
    split at h_step
    · cases h_step
      exact ⟨_, h_stay (.scan _) (fun _ => rfl) fun _ h => h⟩
    · exact absurd h_step (by simp)
  case setKind.run p =>
    cases h_step
    exact ⟨_, h_stay (.clear p 0) (fun _ => rfl) fun p' h => (TaggedPool.store_state ..).trans h⟩
  case clear.run p k =>
    split at h_step
    · cases h_step
      exact ⟨_, h_stay (.clear p _) (fun _ => rfl) fun p' h => (TaggedPool.store_state ..).trans h⟩
    · cases h_step
      refine ⟨_, .stay h_members (.between ⟨some (p, .raw), due⟩ calls (h_some p) ?_)
        (fun _ => rfl) rfl fun _ h => h⟩
      intro p' c h_message
      cases h_message
      trivial

omit [AddCommGroup G] in
/-- A step that writes one slot of its queue's ring, as an update of the cells. -/
theorem cell_update (sh : Handoff.Shared P cap) {q : Q} {queue : MPMC (cap q) (Ptr P)}
    {slot : Fin (cap q).val} {x : Option (Ptr P)}
    (h_ring : queue.ring = Function.update (sh.queues q).ring slot x) :
    Handoff.Shared.cell { sh with queues := Function.update sh.queues q queue } =
      Function.update sh.cell ⟨q, slot⟩ x := by
  funext c
  by_cases h_c : c = ⟨q, slot⟩
  · subst h_c
    rw [Function.update_self, Handoff.cell_update_self, h_ring, Function.update_self]
  · rw [Function.update_of_ne h_c, Handoff.cell_update_other sh q queue h_ring c h_c]

/-- A step inside `try_pop`: what is taken is what the contract says of the queue. -/
theorem popping_forward (h_members : K.members sh.parts)
    (h_cells : ∀ c p, sh.mem.cell c = some p →
      ∃ x, K.queue c.1 x ∧ (sh.mem.pool.load p).Carries x)
    {q : Q} {pc : MPMC.Pc (cap q) (Ptr P)} {next : Option (Ptr P) → Routine P Q σ Unit} {due : G}
    {ch : Handoff.Choice P Q} (h_pc : Popping pc) (h_none : K.Settles (next none) ⟨none, due⟩)
    (h_some : ∀ p x, K.queue q x →
      K.Settles (next (some p)) ⟨some (p, .holds x), due + K.weight q x⟩)
    (h_step : Handoff.step sh.mem ⟨[], .ring q pc⟩ ch = some (mem, base, es')) :
    ∃ g', K.Forward sh { sh with mem }
      ⟨base, codeAfter ⟨[], .ring q pc⟩ base (.tryPop q) next, calls⟩ ⟨none, due⟩ g' := by
  obtain ⟨c, queue, pc', es, h_steps, -, rfl, rfl⟩ := ring_step h_step
  cases h_pc with
  | load =>
    cases h_steps
    exact ⟨_, .stay h_members (.popping calls (.exchange _ _) h_none h_some)
      (Handoff.cell_update_same sh.mem q _ rfl) rfl fun _ h => h⟩
  | exchange slot probe =>
    cases h_steps with
    | tryTake p _ _ h_full =>
      -- the message is taken here, and returned by the next step
      obtain ⟨x, h_queue, h_x⟩ := h_cells ⟨q, _⟩ p h_full
      exact ⟨_, .popped calls h_x (h_some p x h_queue), h_members,
        .take ⟨q, _⟩ p x h_x h_full (cell_update sh.mem rfl) rfl rfl,
        fun _ h_live h_free => absurd h_live h_free⟩
    | tryMiss =>
      exact ⟨_, .stay h_members (.popping calls (.exchange _ _) h_none h_some)
        (Handoff.cell_update_same sh.mem q _ rfl) rfl fun _ h => h⟩
    | tryFail =>
      exact ⟨_, .stay h_members (.between ⟨none, due⟩ calls h_none (by simp [Account.Right]))
        (Handoff.cell_update_same sh.mem q _ rfl) rfl fun _ h => h⟩

/-- The last step of a `try_pop` that has taken a message. -/
theorem popped_forward (h_members : K.members sh.parts) {q : Q} {p : Ptr P} {x : Record}
    {idx : Fin (cap q).val} {next : Option (Ptr P) → Routine P Q σ Unit} {due : G}
    {ch : Handoff.Choice P Q} (h_x : (sh.mem.pool.load p).Carries x)
    (h_some : K.Settles (next (some p)) ⟨some (p, .holds x), due⟩)
    (h_step : Handoff.step sh.mem ⟨[], .ring q (.tryStore p idx)⟩ ch = some (mem, base, es')) :
    ∃ g', K.Forward sh { sh with mem }
      ⟨base, codeAfter ⟨[], .ring q (.tryStore p idx)⟩ base (.tryPop q) next, calls⟩
      ⟨some (p, .holds x), due⟩ g' := by
  obtain ⟨c, queue, pc', es, h_steps, -, rfl, rfl⟩ := ring_step h_step
  -- only the cursor moves, the message was taken before
  cases h_steps
  refine ⟨_, .stay h_members (.between ⟨some (p, .holds x), due⟩ calls h_some ?_)
    (Handoff.cell_update_same sh.mem q _ rfl) rfl fun _ h => h⟩
  intro p' c h_message
  cases h_message
  exact h_x

/-- A step inside `push`: what is put into the queue is what the contract allows. -/
theorem pushing_forward (h_members : K.members sh.parts) {q : Q} {p : Ptr P} {x : Record}
    {pc : MPMC.Pc (cap q) (Ptr P)} {next : Unit → Routine P Q σ Unit} {due : G}
    {ch : Handoff.Choice P Q} (h_pc : Pushing p pc) (h_x : (sh.mem.pool.load p).Carries x)
    (h_queue : K.queue q x) (h_next : K.Settles (next ()) ⟨none, due - K.weight q x⟩)
    (h_step : Handoff.step sh.mem ⟨[], .ring q pc⟩ ch = some (mem, base, es')) :
    ∃ g', K.Forward sh { sh with mem }
      ⟨base, codeAfter ⟨[], .ring q pc⟩ base (.push q p) next, calls⟩ ⟨some (p, .holds x), due⟩
      g' := by
  obtain ⟨c, queue, pc', es, h_steps, -, rfl, rfl⟩ := ring_step h_step
  -- the message leaves the account in the step that stores it, and in no other
  cases h_pc with
  | fetch =>
    cases h_steps
    exact ⟨_, .stay h_members (.pushing calls (.cas _) h_x h_queue h_next)
      (Handoff.cell_update_same sh.mem q _ rfl) rfl fun _ h => h⟩
  | cas slot =>
    cases h_steps with
    | casStore _ _ h_empty =>
      exact ⟨_, .between ⟨none, due - K.weight q x⟩ calls h_next (by simp [Account.Right]),
        h_members, .put ⟨q, slot⟩ p x h_x h_queue h_empty (cell_update sh.mem rfl) rfl
          (sub_add_cancel ..), fun _ h_live h_free => absurd h_live h_free⟩
    | casFail =>
      exact ⟨_, .stay h_members (.pushing calls (.cas _) h_x h_queue h_next)
        (Handoff.cell_update_same sh.mem q _ rfl) rfl fun _ h => h⟩

/-- **One step of a worker whose calls keep the contract.** It leads to a program point with a new
account, and what it does to memory and members is what the accounts say. -/
theorem Under.step {ops : Op → Routine P Q σ Unit} {l : Local P cap σ} {ch : Choice Op}
    {es : List (Event P Q)} (h_ops : ∀ op, ch = .call op → K.KeptBy (ops op))
    (h_members : K.members sh.parts)
    (h_cells : ∀ c p, sh.mem.cell c = some p →
      ∃ x, K.queue c.1 x ∧ (sh.mem.pool.load p).Carries x)
    (h_under : K.Under sh.mem.pool l g) (h : Worker.step ops sh l ch = some (sh', l', es)) :
    ∃ g', K.Forward sh sh' l' g g' := by
  cases step_steps h with
  | call op h_code =>
    cases h_under with
    | between _ calls h_settles h_right =>
      subst h_code
      obtain rfl : g = .settled := h_settles
      exact ⟨.settled, .between .settled _ (h_ops op rfl) h_right, h_members, .keep rfl rfl,
        fun _ h_live h_free => absurd h_live h_free⟩
    | _ => cases h_code
  | own update next h_idle h_code =>
    obtain ⟨h_base, h_settles, h_right⟩ := h_under.idle h_idle
    rw [h_code] at h_settles
    obtain ⟨h_after, h_next⟩ := h_settles _ h_members
    rw [h_base]
    -- what the members gain is taken off the debt
    refine ⟨⟨g.message, g.due + K.value sh.parts - K.value (update sh.parts)⟩,
      .between ⟨g.message, g.due + K.value sh.parts - K.value (update sh.parts)⟩ l.calls h_next
        h_right, h_after, .keep rfl ?_, fun _ h_live h_free => absurd h_live h_free⟩
    show K.value (update sh.parts) + (g.due + K.value sh.parts - K.value (update sh.parts)) = _
    rw [add_sub_cancel, add_comm]
  | readKind p next h_idle h_code =>
    obtain ⟨h_base, h_settles, h_right⟩ := h_under.idle h_idle
    rw [h_code] at h_settles
    obtain ⟨x, h_message, h_next⟩ := h_settles
    have h_x : (sh.mem.pool.load p).Carries x := h_right p _ h_message
    rw [h_base]
    refine ⟨g, .between g l.calls ?_ h_right, h_members, .keep rfl rfl,
      fun _ h_live h_free => absurd h_live h_free⟩
    rw [h_x.kind_eq]
    exact h_next
  | readByte p k next h_idle h_code =>
    obtain ⟨h_base, h_settles, h_right⟩ := h_under.idle h_idle
    rw [h_code] at h_settles
    obtain ⟨x, h_message, h_k, h_next⟩ := h_settles
    have h_x : (sh.mem.pool.load p).Carries x := h_right p _ h_message
    rw [h_base]
    refine ⟨g, .between g l.calls ?_ h_right, h_members, .keep rfl rfl,
      fun _ h_live h_free => absurd h_live h_free⟩
    rw [h_x.byte_eq k h_k]
    exact h_next
  | base h_code h_ch h_step =>
    cases h_under with
    | between _ calls h_settles h_right =>
      subst h_code
      obtain ⟨h_start, -⟩ | ⟨-, h_busy⟩ := h_ch
      · exact start_forward h_members h_start h_settles h_right h_step
      · exact absurd rfl h_busy
    | acquiring calls h_pc h_none h_some =>
      cases h_code
      exact acquiring_forward h_members h_pc h_none h_some h_step
    | popping calls h_pc h_none h_some =>
      cases h_code
      exact popping_forward h_members h_cells h_pc h_none h_some h_step
    | popped calls h_x h_some =>
      cases h_code
      exact popped_forward h_members h_x h_some h_step
    | pushing calls h_pc h_x h_queue h_next =>
      cases h_code
      exact pushing_forward h_members h_pc h_x h_queue h_next h_step

end

end Contract

end Worker

end Hft
