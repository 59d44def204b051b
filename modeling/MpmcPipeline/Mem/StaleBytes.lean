import MpmcPipeline.Mem.Coherence

/-!
# No stale bytes

Two runs of workers with clean calls, on the same actions, from states that differ in the
contents of free slots and in what lies behind the records of queued messages only (`Alike`).
Both show the same: the same kinds and bytes are read, the same are written, and the same
messages pass through the queues (`same_run`).

The runs go in lockstep. `agree` is what the calls know, said of two memories at once: a message
at hand is the same in both as far as its worker may read it, and as far as it has written it.
So a worker reads the same in both (`Rel.reads`) and takes the same step, and `Knowing.step`
keeps the agreement.
-/

namespace Hft

namespace Worker

variable {P : PoolCapacity} {Q Op : Type*} {σ : Type} {cap : Q → Capacity} {Id : Type*}

/-- Two states that differ in the contents of messages only, and in the messages in the queues
only behind the record. -/
structure Alike (s s₂ : System Id P cap σ) : Prop where
  loc : s₂.loc = s.loc
  shared : Like s.shared s₂.shared
  queued : ∀ c p, s.shared.mem.cell c = some p →
    (s.shared.mem.pool.load p).Same (s₂.shared.mem.pool.load p)

/-- A pool that was mapped with other bytes. -/
theorem Alike.init (Id : Type*) (cap : Q → Capacity) (message message₂ : Ptr P → TaggedMessage)
    (parts : σ) : Alike (System.init Id cap message parts) (System.init Id cap message₂ parts) := by
  refine ⟨rfl, ⟨⟨rfl, fun _ => rfl⟩, rfl⟩, fun c p h_c => ?_⟩
  rw [System.init_cell] at h_c
  cases h_c

/-- What the calls know, of two memories. -/
def agree (Id : Type*) (mem mem₂ : Handoff.Shared P cap) : Facts P Id where
  hand _ _ p st :=
    match st with
    | .raw => True
    | .whole => (mem.pool.load p).Same (mem₂.pool.load p)
    | .kinded kind =>
      (mem.pool.load p).kind = kind ∧ (mem.pool.load p).Same (mem₂.pool.load p)
    | .writing x k =>
      k ≤ x.kind.slotSize ∧ (mem.pool.load p).Begins x k ∧ (mem₂.pool.load p).Begins x k
  cell p := (mem.pool.load p).Same (mem₂.pool.load p)

/-- Two memories to which the same is written. -/
theorem agree_learns {mem mem' mem₂ mem₂' : Handoff.Shared P cap} {i : Id} {n : ℕ}
    {es : List (Event P Q)}
    (h_load : ∀ p, mem'.pool.load p =
      replay (writes p (es.map fun e => (i, e))) (mem.pool.load p))
    (h_load₂ : ∀ p, mem₂'.pool.load p =
      replay (writes p (es.map fun e => (i, e))) (mem₂.pool.load p)) :
    Learns i n mem es (agree Id mem mem₂) (agree Id mem' mem₂') where
  -- a slot not written to is left alone in both memories
  frame p h_es := by
    have h_same : mem'.pool.load p = mem.pool.load p := by
      rw [h_load, h_es, replay_nil]
    have h_same₂ : mem₂'.pool.load p = mem₂.pool.load p := by
      rw [h_load₂, h_es, replay_nil]
    refine ⟨fun j m st h => ?_, fun h => ?_⟩
    · cases st <;> simp only [agree, h_same, h_same₂] at h ⊢ <;> exact h
    · simp only [agree, h_same, h_same₂] at h ⊢
      exact h
  raw _ _ := trivial
  whole _ _ h := h
  -- the kind read is the same in both, as they agree on the slot
  kinded p st h_read h := by
    cases st with
    | whole => exact ⟨rfl, h⟩
    | kinded kind => exact ⟨rfl, h.2⟩
    | _ => exact absurd h_read id
  tagged p x h_es := by
    -- a tag begins the same message in both
    subst h_es
    refine ⟨Nat.zero_le _, ?_, ?_⟩
    · rw [h_load, writes_single]
      exact TaggedMessage.begins_tag _ x
    · rw [h_load₂, writes_single]
      exact TaggedMessage.begins_tag _ x
  copied p x k h_k h_es h := by
    -- and the same byte goes on with it
    subst h_es
    have h_max := lt_of_lt_of_le h_k x.kind.slotSize_le
    refine ⟨h_k, ?_, ?_⟩
    · rw [h_load, writes_single]
      exact h.2.1.copied h_max
    · rw [h_load₂, writes_single]
      exact h.2.2.copied h_max
  -- a message put into a queue is complete, so it reads the same in both
  stored p st h_st h := by
    cases st with
    | raw => exact absurd h_st id
    | whole => exact h
    | kinded kind => exact h.2
    | writing x k =>
      obtain rfl : k = x.kind.slotSize := h_st
      exact h.2.1.same h.2.2

/-- The relation of the two runs. -/
structure Rel (s s₂ : System Id P cap σ) : Prop where
  loc : s₂.loc = s.loc
  shared : Like s.shared s₂.shared
  knowing : Knowing (agree Id s.shared.mem s₂.shared.mem) s

theorem Rel.alike {s s₂ : System Id P cap σ} (h : Rel s s₂) : Alike s s₂ :=
  ⟨h.loc, h.shared, h.knowing.cell⟩

section

variable [DecidableEq Id] [DecidableEq Q] {ops : Op → Routine P Q σ Unit}
  {message : Ptr P → TaggedMessage} {parts : σ} {tr : List (Id × Event P Q)}
  {s s' s₂ : System Id P cap σ}

/-- Where the messages in hands are the same, the knowledge of a run is that of both. -/
theorem Rel.of_alike (h_ops : ∀ op, Clean (ops op))
    (h : (machine Id P cap ops).Reach (System.init Id cap message parts) tr s)
    (h_alike : Alike s s₂) (h_hand : ∀ i, ∀ p ∈ (s.loc i).base.owned,
      s₂.shared.mem.pool.load p = s.shared.mem.pool.load p) : Rel s s₂ := by
  have hI := CoherentInv.reach h_ops h
  refine ⟨h_alike.loc, h_alike.shared, fun i => ?_, h_alike.queued⟩
  -- what the worker knows of its message holds in the other memory too
  obtain ⟨held, h_doing, h_held⟩ := hI.knowing.hand i
  refine ⟨held, h_doing, fun p st h_st => ?_⟩
  subst h_st
  have h_fact := h_held p st rfl
  have h_same := h_hand i p h_doing.owned
  -- what is in the hand is the same to the byte, so any knowledge of one is of both
  cases st with
  | raw => trivial
  | whole =>
    simp only [agree, h_same]
    exact .refl _
  | kinded kind =>
    obtain ⟨who, x, h_x, h_kind⟩ := h_fact
    simp only [agree, h_same]
    refine ⟨?_, .refl _⟩
    rw [hI.load p, (h_x.replay x.kind.slotSize_le _).kind_eq, h_kind]
  | writing x k =>
    obtain ⟨h_k, h_x⟩ := h_fact
    have h_begins := h_x.replay (h_k.trans x.kind.slotSize_le) (message p)
    rw [← hI.load p] at h_begins
    simp only [agree, h_same]
    exact ⟨h_k, h_begins, h_begins⟩

/-- **A step of one run is a step of the other**, and shows the same. -/
theorem Rel.step (h_ops : ∀ op, Clean (ops op))
    (h : (machine Id P cap ops).Reach (System.init Id cap message parts) tr s) (h_rel : Rel s s₂)
    {a : Id × Choice Op} {es : List (Id × Event P Q)}
    (h_step : (machine Id P cap ops).step s a = some (s', es)) :
    ∃ s₂', (machine Id P cap ops).step s₂ a = some (s₂', es) ∧ Rel s' s₂' := by
  obtain ⟨i, ch⟩ := a
  obtain ⟨sh, l, es, h_own, rfl, rfl⟩ := Threads.machine_step h_step
  dsimp only at h_own
  obtain ⟨held, h_doing, h_held⟩ := h_rel.knowing.hand i
  -- what a worker reads is within what both memories agree on
  obtain ⟨sh₂, h_own₂, h_like⟩ : ∃ sh₂, Worker.step ops s₂.shared (s.loc i) ch =
      some (sh₂, l, es) ∧ Like sh sh₂ := by
    refine step_like h_rel.shared (fun p next h_idle h_code => ?_)
      (fun p k next h_idle h_code => ?_) h_own
    · obtain ⟨-, h_ends⟩ := h_doing.idle h_idle
      rw [h_code] at h_ends
      obtain ⟨st, rfl, h_read, -⟩ := h_ends
      have h_fact := h_held p st rfl
      cases st with
      | whole => exact h_fact.kind_eq
      | kinded kind => exact h_fact.2.kind_eq
      | _ => exact absurd h_read id
    · obtain ⟨-, h_ends⟩ := h_doing.idle h_idle
      rw [h_code] at h_ends
      obtain ⟨kind, rfl, h_k, -⟩ := h_ends
      obtain ⟨h_kind, h_same⟩ := h_held p _ rfl
      refine h_same.byte_eq k ?_
      rw [h_kind]
      exact h_k
  refine ⟨⟨sh₂, Function.update s₂.loc i l⟩, ?_, ?_, h_like, ?_⟩
  · simp only [machine, Threads.machine, h_rel.loc, h_own₂]
  · dsimp only
    rw [h_rel.loc]
  · exact h_rel.knowing.step h_ops (exclusive h) h_own
      (agree_learns (fun p => step_replay i h_own p) fun p => step_replay i h_own₂ p)

/-- **No stale bytes.** From alike states whose workers have the same messages in hand, the same
actions show the same, and lead to alike states. -/
theorem same_run (h_ops : ∀ op, Clean (ops op))
    (h : (machine Id P cap ops).Reach (System.init Id cap message parts) tr s)
    (h_alike : Alike s s₂) (h_hand : ∀ i, ∀ p ∈ (s.loc i).base.owned,
      s₂.shared.mem.pool.load p = s.shared.mem.pool.load p)
    {as : List (Id × Choice Op)} {es : List (Id × Event P Q)}
    (h_run : (machine Id P cap ops).run s as = some (s', es)) :
    ∃ s₂', (machine Id P cap ops).run s₂ as = some (s₂', es) ∧ Alike s' s₂' := by
  have h_rel := Rel.of_alike h_ops h h_alike h_hand
  clear h_alike h_hand
  -- the steps of the first run, one after the other
  induction as generalizing s s₂ tr es with
  | nil =>
    cases h_run
    exact ⟨s₂, rfl, h_rel.alike⟩
  | cons a as ih =>
    obtain ⟨t, es₁, es₂, h_step, h_rest, rfl⟩ := Machine.run_cons h_run
    obtain ⟨t₂, h_step₂, h_rel'⟩ := h_rel.step h_ops h h_step
    obtain ⟨s₂', h_run₂, h_alike⟩ := ih (h.step trivial h_step) h_rest h_rel'
    refine ⟨s₂', ?_, h_alike⟩
    rw [Machine.run, h_step₂]
    dsimp only
    rw [h_run₂]

end

end Worker

end Hft
