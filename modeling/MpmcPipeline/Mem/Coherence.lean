import Mathlib.Data.List.Range
import MpmcPipeline.Mem.Knowledge

/-!
# Tag coherence

What the calls know about their messages, over whole runs. `Facts` gives that knowledge a
meaning: what a status says of a message in a call's hand, and what holds of a message in a
cell. `Knowing` says that every worker is somewhere in its code with the facts of what it knows
there, and `Knowing.step` is the rule for a step: facts that survive steps that do not write to
their message (`frame`), and that follow the turns of the moving worker, hold after the step.
It rests on ownership: no other worker writes to a message at hand, and nobody to a message in
a cell.

The first use is `coherent`: with clean calls, a message in a queue carries the record that
the call which last set its tag has written, and that call has written it whole (`Stamped`).
-/

namespace Hft

namespace Worker

variable {P : PoolCapacity} {Q Op : Type*} {σ : Type} {cap : Q → Capacity} {Id : Type*}

/-- What knowledge says: `hand` of the message in the hand of a worker in its call of a number,
`cell` of a message in a cell. -/
structure Facts (P : PoolCapacity) (Id : Type*) where
  hand : Id → ℕ → Ptr P → Status → Prop
  cell : Ptr P → Prop

/-- Every worker is doing something it knows the facts for. -/
structure Knowing (K : Facts P Id) (s : System Id P cap σ) : Prop where
  hand : ∀ i, ∃ held, Doing (s.loc i) held ∧
    ∀ p st, held = some (p, st) → K.hand i (s.loc i).calls p st
  cell : ∀ c p, s.shared.mem.cell c = some p → K.cell p

/-- The facts `K'` hold after a step of worker `i`, in its call `n`, that shows `es`, where the
facts `K` held before. -/
structure Learns (i : Id) (n : ℕ) (mem : Handoff.Shared P cap) (es : List (Event P Q))
    (K K' : Facts P Id) : Prop where
  frame : ∀ p, writes p (es.map fun e => (i, e)) = [] →
    (∀ j m st, K.hand j m p st → K'.hand j m p st) ∧ (K.cell p → K'.cell p)
  raw : ∀ m p, K'.hand i m p .raw
  whole : ∀ m p, K.cell p → K.hand i m p .whole
  kinded : ∀ p st, st.Readable → K.hand i n p st → K.hand i n p (.kinded (mem.pool.load p).kind)
  tagged : ∀ p x, es = [.write n p (.tag x.kind)] → K'.hand i n p (.writing x 0)
  copied : ∀ p x k, k < x.kind.slotSize → es = [.write n p (.byte k (x.byte k))] →
    K.hand i n p (.writing x k) → K'.hand i n p (.writing x (k + 1))
  stored : ∀ p st, st.Complete → K.hand i n p st → K.cell p

section

variable [DecidableEq Id] [DecidableEq Q] {ops : Op → Routine P Q σ Unit}
  {K K' : Facts P Id} {s : System Id P cap σ} {i : Id} {ch : Choice Op}
  {sh : Shared P cap σ} {l : Local P cap σ} {es : List (Event P Q)}

omit [DecidableEq Id] [DecidableEq Q] in
/-- The turns of the moving worker. -/
theorem Learns.turn {held held' : Held P} {n : ℕ} {mem : Handoff.Shared P cap}
    (h_learns : Learns i n mem es K K') (h_turn : Turn i n mem es held held')
    (h_held : ∀ p st, held = some (p, st) → K.hand i n p st)
    (h_cell : ∀ c p, mem.cell c = some p → K.cell p) {m : ℕ} (h_m : held = none ∨ m = n)
    {p : Ptr P} {st : Status} (h_st : held' = some (p, st)) : K'.hand i m p st := by
  -- what the worker held before is known before, what it holds now it learns in this step
  cases h_turn with
  | keep held h_es =>
    subst h_st
    obtain rfl : m = n := h_m.resolve_left (by simp)
    exact (h_learns.frame p (h_es p st rfl)).1 i _ st (h_held p st rfl)
  | drop => exact absurd h_st (by simp)
  | acquired p' =>
    -- nothing is known of a slot just acquired
    cases h_st
    exact h_learns.raw m p
  | taken c p' h_c h_es =>
    -- a message out of a queue is whole, whoever has filled it
    cases h_st
    exact (h_learns.frame p h_es).1 i m _ (h_learns.whole m p (h_cell c p h_c))
  | seen p' st' h_read h_es =>
    cases h_st
    obtain rfl : m = n := h_m.resolve_left (by simp)
    exact (h_learns.frame p h_es).1 i _ _ (h_learns.kinded p st' h_read (h_held p st' rfl))
  | tagged p' st' x h_es =>
    cases h_st
    obtain rfl : m = n := h_m.resolve_left (by simp)
    exact h_learns.tagged p x h_es
  | copied p' x k h_k h_es =>
    -- one more byte is as it should be
    cases h_st
    obtain rfl : m = n := h_m.resolve_left (by simp)
    exact h_learns.copied p x k h_k h_es (h_held p _ rfl)

/-- **The rule for a step.** What a clean call knows of its message it knows after the step, with
what it has learnt by it, and the knowledge of the others is of other messages. -/
theorem Knowing.step (h_ops : ∀ op, Clean (ops op))
    (hE : Exclusive (Handoff.held s.base) fun p => (s.shared.mem.pool.slots p).state = 1)
    (hK : Knowing K s) (h : Worker.step ops s.shared (s.loc i) ch = some (sh, l, es))
    (h_learns : Learns i (s.loc i).calls s.shared.mem es K K') :
    Knowing K' (⟨sh, Function.update s.loc i l⟩ : System Id P cap σ) := by
  obtain ⟨held, h_doing, h_held⟩ := hK.hand i
  obtain ⟨held', h_adv⟩ := h_doing.step (i := i) h_ops h
  refine ⟨fun j => ?_, fun c p h_c => ?_⟩
  · by_cases h_j : j = i
    · subst h_j
      dsimp only
      rw [Function.update_self]
      exact ⟨held', h_adv.doing, fun p st h_st =>
        h_learns.turn h_adv.turn h_held hK.cell h_adv.calls h_st⟩
    · -- another worker: the step does not write to its message
      dsimp only
      rw [Function.update_of_ne h_j]
      obtain ⟨held_j, h_doing_j, h_held_j⟩ := hK.hand j
      refine ⟨held_j, h_doing_j, fun p st h_st => ?_⟩
      subst h_st
      have h_p : p ∉ (s.loc i).base.owned := fun h_own => h_j (by
        have := hE.unique (.hand j) (.hand i) p h_doing_j.owned h_own
        simpa using this)
      exact (h_learns.frame p (step_writes i h h_p)).1 j _ st (h_held_j p st rfl)
  · obtain h_before | ⟨⟨st, rfl, h_st⟩, h_es⟩ := h_adv.cell c p h_c
    · -- a message in a cell is nobody's to write to
      have h_p : p ∉ (s.loc i).base.owned := fun h_own => by
        have h_place : p ∈ Handoff.held s.base (.cell c) := by
          show p ∈ (s.shared.mem.cell c).toList
          rw [h_before]
          exact List.mem_singleton_self p
        exact absurd (hE.unique (.cell c) (.hand i) p h_place h_own) (by simp)
      exact (h_learns.frame p (step_writes i h h_p)).2 (hK.cell c p h_before)
    · exact (h_learns.frame p h_es).2 (h_learns.stored p st h_st (h_held p st rfl))

end

/-! ### Records written whole -/

/-- The last writes are those of `who`: the tag of the record, and then the first `k` bytes of
its object representation, in order. -/
def Stamped {Who : Type*} (who : Who) (x : Record) (k : ℕ) (ws : List (Who × Write)) : Prop :=
  ∃ before, ws = before ++ (who, .tag x.kind) ::
    (List.range k).map fun j => (who, .byte j (x.byte j))

section

variable {Who : Type*} {who : Who} {x : Record} {k : ℕ} {ws : List (Who × Write)}

theorem Stamped.tagged (who : Who) (x : Record) (ws : List (Who × Write)) :
    Stamped who x 0 (ws ++ [(who, .tag x.kind)]) := ⟨ws, rfl⟩

theorem Stamped.copied (h : Stamped who x k ws) :
    Stamped who x (k + 1) (ws ++ [(who, .byte k (x.byte k))]) := by
  obtain ⟨before, rfl⟩ := h
  refine ⟨before, ?_⟩
  rw [List.range_succ, List.map_append, List.append_assoc, List.cons_append]
  rfl

/-- A message after a tag and some bytes of the record. -/
theorem Stamped.replay (h : Stamped who x k ws) (h_k : k ≤ maxSlotSize) (m : TaggedMessage) :
    (replay ws m).Begins x k := by
  induction k generalizing ws with
  | zero =>
    obtain ⟨before, rfl⟩ := h
    rw [replay_append]
    exact TaggedMessage.begins_tag _ x
  | succ k ih =>
    -- the last write is that of byte `k`
    obtain ⟨before, rfl⟩ := h
    rw [List.range_succ, List.map_append, ← List.cons_append, ← List.append_assoc, replay_append]
    exact (ih ⟨before, rfl⟩ (by omega)).copied h_k

end

/-- **The facts of a history.** What is known of a message is by which call its last writes were
made, and of which record: all of it in a queue, the tag and the first bytes in a hand that is
writing. -/
def stamps (tr : List (Id × Event P Q)) : Facts P Id where
  hand i n p st :=
    match st with
    | .raw => True
    | .whole => ∃ who x, Stamped who x x.kind.slotSize (writes p tr)
    | .kinded kind => ∃ who x, Stamped who x x.kind.slotSize (writes p tr) ∧ x.kind = kind
    | .writing x k => k ≤ x.kind.slotSize ∧ Stamped (i, n) x k (writes p tr)
  cell p := ∃ who x, Stamped who x x.kind.slotSize (writes p tr)

section

variable [DecidableEq Id] [DecidableEq Q] {ops : Op → Routine P Q σ Unit}
  {message : Ptr P → TaggedMessage} {parts : σ} {tr : List (Id × Event P Q)}
  {s : System Id P cap σ}

omit [DecidableEq Id] [DecidableEq Q] in
/-- A step adds what it writes to the history. -/
theorem stamps_learns {mem : Handoff.Shared P cap}
    (h_load : ∀ p, mem.pool.load p = replay (writes p tr) (message p)) (i : Id) (n : ℕ)
    (es : List (Event P Q)) :
    Learns i n mem es (stamps tr) (stamps (tr ++ es.map fun e => (i, e))) where
  frame p h_es := by
    have h_same : writes p (tr ++ es.map fun e => (i, e)) = writes p tr := by
      rw [writes_append, h_es, List.append_nil]
    refine ⟨fun j m st h => ?_, fun h => ?_⟩
    · cases st <;> simp only [stamps, h_same] at h ⊢ <;> exact h
    · simp only [stamps, h_same] at h ⊢
      exact h
  raw _ _ := trivial
  whole _ _ h := h
  kinded p st h_read h := by
    have h_stamped : ∃ who x, Stamped who x x.kind.slotSize (writes p tr) := by
      cases st with
      | whole => exact h
      | kinded kind =>
        obtain ⟨who, x, h_x, -⟩ := h
        exact ⟨who, x, h_x⟩
      | _ => exact absurd h_read id
    -- the kind that is read is the one that was written last
    obtain ⟨who, x, h_x⟩ := h_stamped
    refine ⟨who, x, h_x, ?_⟩
    rw [h_load p, (h_x.replay x.kind.slotSize_le _).kind_eq]
  tagged p x h_es := by
    subst h_es
    refine ⟨Nat.zero_le _, ?_⟩
    rw [writes_append, writes_single]
    exact .tagged (i, n) x _
  copied p x k h_k h_es h := by
    subst h_es
    refine ⟨h_k, ?_⟩
    rw [writes_append, writes_single]
    exact h.2.copied
  stored p st h_st h := by
    cases st with
    | raw => exact absurd h_st id
    | whole => exact h
    | kinded kind =>
      obtain ⟨who, x, h_x, -⟩ := h
      exact ⟨who, x, h_x⟩
    | writing x k =>
      obtain rfl : k = x.kind.slotSize := h_st
      exact ⟨_, x, h.2⟩

/-- The run invariant: memory is what has been written to it, and what the calls know is what
the history says. -/
structure CoherentInv (message : Ptr P → TaggedMessage) (tr : List (Id × Event P Q))
    (s : System Id P cap σ) : Prop where
  load : ∀ p, s.shared.mem.pool.load p = replay (writes p tr) (message p)
  knowing : Knowing (stamps tr) s

theorem CoherentInv.reach (h_ops : ∀ op, Clean (ops op))
    (h : (machine Id P cap ops).Reach (System.init Id cap message parts) tr s) :
    CoherentInv message tr s := by
  -- by induction on the run, with the bytes of a slot replayed from the history of its writes
  induction h with
  | init =>
    refine ⟨fun _ => rfl, fun i => ⟨none, .between none 0 rfl, by simp⟩, fun c p h_c => ?_⟩
    rw [System.init_cell] at h_c
    cases h_c
  | @step tr s s' a es h_reach _ h_step ih =>
    obtain ⟨sh, l, es, h_own, rfl, rfl⟩ := Threads.machine_step h_step
    refine ⟨fun p => ?_, ih.knowing.step h_ops (exclusive h_reach) h_own
      (stamps_learns ih.load _ _ _)⟩
    rw [writes_append, replay_append, ← ih.load p]
    exact step_replay a.1 h_own p

/-- **Tag coherence.** In every state that workers with clean calls reach, a message in a queue
carries a record, and the last writes to it are those of one call, the tag of this record and
then all of its bytes. -/
theorem coherent (h_ops : ∀ op, Clean (ops op))
    (h : (machine Id P cap ops).Reach (System.init Id cap message parts) tr s)
    {c : Handoff.Cell cap} {p : Ptr P} (h_c : s.shared.mem.cell c = some p) :
    ∃ who x, Stamped who x x.kind.slotSize (writes p tr) ∧
      (s.shared.mem.pool.load p).Carries x := by
  have hI := CoherentInv.reach h_ops h
  obtain ⟨who, x, h_x⟩ := hI.knowing.cell c p h_c
  have h_carries := h_x.replay x.kind.slotSize_le (message p)
  rw [← hI.load p] at h_carries
  exact ⟨who, x, h_x, h_carries⟩

end

end Worker

end Hft
