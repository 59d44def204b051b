import Mathlib.Data.List.Nodup
import MpmcPipeline.Machine.Recorded
import MpmcPipeline.Mpmc.Steps

/-!
# One `try_pop` among other threads

A `try_pop` loads its cursor and then exchanges the cells one by one; between any two of
these steps the other threads may do anything to the ring and to the cursors. The call
looks at the cursor once, so its probes are the cells `index (slot + 0)`,
`index (slot + 1)`, … of the value it has loaded, whatever that value is.

The runs here are recorded ones, in which every step is kept with the states around it; every
run of the queue has such a record (`Machine.ReachBy.recorded`).

`InCall i ts pc` is what the transitions `ts` since the start of the call say about
thread `i` at program point `pc`. It is kept by every transition of every thread
(`InCall.step`), and read at the end of the call it is `tryPop_complete`: a call that
fails has exchanged every cell once, found each of them empty at that moment and written
nothing; a call whose way is lined by a cell that stays full until it gets there
succeeds.
-/

namespace Hft

open Capacity (two)

namespace MPMC

open Machine Threads

variable {Id : Type*} [DecidableEq Id] {C : Capacity} {α : Type*}

/-- One step of some thread on the queue, with the states around it. -/
abbrev Move (Id : Type*) (C : Capacity) (α : Type*) :=
  Transition (Shared Id C α) (Id × Choice α) (Id × Event α)

/-- The cell that thread `i` exchanges for its `try_pop` in a transition. -/
def probed (i : Id) (t : Move Id C α) : Option (Fin C.val) :=
  if t.action.1 = i then
    match t.pre.loc i with
    | .tryExchange slot probe => some (C.index (slot + BitVec.ofNat 32 probe))
    | _ => none
  else none

/-- The cells the `try_pop` of thread `i` has exchanged, in order. -/
def exchanged (i : Id) (ts : List (Move Id C α)) : List (Fin C.val) := ts.filterMap (probed i)

/-- The number of steps thread `i` has made. -/
def ownSteps (i : Id) (ts : List (Move Id C α)) : ℕ := ts.countP fun t => t.action.1 = i

/-- What thread `i` has made visible. -/
def eventsBy (i : Id) (ts : List (Move Id C α)) : List (Event α) := eventsOf i (shown ts)

/-- Thread `i` has taken `message` out of a cell that held it, all at once. -/
def Removed (i : Id) (ts : List (Move Id C α)) (message : α) : Prop :=
  ∃ t ∈ ts, t.action.1 = i ∧ ∃ cell, t.pre.shared.ring cell = some message ∧
    t.post.shared.ring = Function.update t.pre.shared.ring cell none

/-- The call has returned true with `message`, which it alone has removed. -/
structure Succeeded (i : Id) (ts : List (Move Id C α)) (message : α) : Prop where
  events : eventsBy i ts = [.take message, .ret (some message)]
  removed : Removed i ts message

/-- The call has returned false. -/
structure Failed (i : Id) (ts : List (Move Id C α)) : Prop where
  events : eventsBy i ts = [.ret none]
  /-- No cell is exchanged twice. -/
  nodup : (exchanged i ts).Nodup
  /-- Every cell is exchanged. -/
  complete : ∀ cell, cell ∈ exchanged i ts
  /-- The steps of the call have written neither a cell nor a cursor. -/
  unchanged : ∀ t ∈ ts, t.action.1 = i → t.post.shared = t.pre.shared
  /-- `out` is assigned before the store of the cursor, where the call never was. -/
  noStore : ∀ t ∈ ts, ∀ message idx, t.pre.loc i ≠ .tryStore message idx

/-- Cell `cell` is full whenever the call is probing and has not come to it. -/
def HeldUntilProbed (i : Id) (ts : List (Move Id C α)) (cell : Fin C.val) : Prop :=
  ∀ ts₁ t ts₂, ts = ts₁ ++ t :: ts₂ → (∃ slot probe, t.pre.loc i = .tryExchange slot probe) →
    cell ∉ exchanged i ts₁ → t.pre.shared.ring cell ≠ none

section Lists

variable (i : Id) (ts ts' : List (Move Id C α)) (t : Move Id C α)

theorem exchanged_append : exchanged i (ts ++ ts') = exchanged i ts ++ exchanged i ts' :=
  List.filterMap_append

theorem ownSteps_append : ownSteps i (ts ++ ts') = ownSteps i ts + ownSteps i ts' :=
  List.countP_append

theorem eventsBy_append : eventsBy i (ts ++ ts') = eventsBy i ts ++ eventsBy i ts' := by
  rw [eventsBy, shown_append, eventsOf_append]
  rfl

variable {i t}

theorem probed_other (h : t.action.1 ≠ i) : probed i t = none := if_neg h

theorem exchanged_other (h : t.action.1 ≠ i) : exchanged i [t] = [] := by
  rw [exchanged, List.filterMap_cons, probed_other h]
  rfl

theorem ownSteps_other (h : t.action.1 ≠ i) : ownSteps i [t] = 0 := by
  rw [ownSteps, List.countP_singleton, if_neg (by simpa using h)]

theorem ownSteps_own (h : t.action.1 = i) : ownSteps i [t] = 1 := by
  rw [ownSteps, List.countP_singleton, if_pos (by simpa using h)]

theorem exchanged_own {slot : BitVec 32} {probe : ℕ} (h : t.action.1 = i)
    (h_pc : t.pre.loc i = .tryExchange slot probe) :
    exchanged i [t] = [C.index (slot + BitVec.ofNat 32 probe)] := by
  have h_probed : probed i t = some (C.index (slot + BitVec.ofNat 32 probe)) := by
    rw [probed, if_pos h, h_pc]
  rw [exchanged, List.filterMap_cons, h_probed]
  rfl

theorem exchanged_none (h : ∀ slot probe, t.pre.loc i ≠ .tryExchange slot probe) :
    exchanged i [t] = [] := by
  have h_probed : probed i t = none := by
    rw [probed]
    split
    · split
      · next slot probe h_pc => exact absurd h_pc (h slot probe)
      · rfl
    · rfl
  rw [exchanged, List.filterMap_cons, h_probed]
  rfl

end Lists

/-- A cell that is exchanged twice is listed twice: in a list without duplicates it had not
been exchanged before. -/
theorem not_exchanged_before {i : Id} {ts ts₁ ts₂ : List (Move Id C α)} {t : Move Id C α}
    {cell : Fin C.val} (h_nodup : (exchanged i ts).Nodup) (h_ts : ts = ts₁ ++ t :: ts₂)
    (h_cell : probed i t = some cell) : cell ∉ exchanged i ts₁ := by
  intro h_mem
  rw [h_ts, exchanged_append, exchanged, exchanged, List.filterMap_cons, h_cell] at h_nodup
  exact (List.nodup_append.mp h_nodup).2.2 cell h_mem cell List.mem_cons_self rfl

/-! ### During the call -/

/-- The first `probe` probes from cursor value `slot` have found nothing. -/
structure Missed (i : Id) (ts : List (Move Id C α)) (slot : BitVec 32) (probe : ℕ) : Prop where
  exchanged_eq : exchanged i ts =
    (List.range probe).map fun k => C.index (slot + BitVec.ofNat 32 k)
  empty : ∀ t ∈ ts, ∀ cell, probed i t = some cell → t.pre.shared.ring cell = none
  unchanged : ∀ t ∈ ts, t.action.1 = i → t.post.shared = t.pre.shared
  noStore : ∀ t ∈ ts, ∀ message idx, t.pre.loc i ≠ .tryStore message idx

/-- What the transitions since the start of the call say about thread `i`. -/
inductive InCall (i : Id) (ts : List (Move Id C α)) : Pc C α → Prop
  | loading (h_events : eventsBy i ts = []) (h_steps : ownSteps i ts = 0)
      (h_missed : ∀ slot, Missed i ts slot 0) : InCall i ts .tryLoad
  | probing (slot : BitVec 32) (probe : ℕ) (h_events : eventsBy i ts = [])
      (h_steps : ownSteps i ts = probe + 1) (h_probe : probe < C.val)
      (h_missed : Missed i ts slot probe) : InCall i ts (.tryExchange slot probe)
  | storing (message : α) (idx : Fin C.val) (h_events : eventsBy i ts = [.take message])
      (h_steps : ownSteps i ts ≤ C.val + 1) (h_removed : Removed i ts message) :
      InCall i ts (.tryStore message idx)
  | succeeded (message : α) (h : Succeeded i ts message) : InCall i ts .idle
  | failed (slot : BitVec 32) (h_events : eventsBy i ts = [.ret none])
      (h_missed : Missed i ts slot C.val) : InCall i ts .idle

section Steps

variable {i : Id} {ts : List (Move Id C α)} {t : Move Id C α}

omit [DecidableEq Id] in
theorem Removed.append {message : α} (h : Removed i ts message) (ts' : List (Move Id C α)) :
    Removed i (ts ++ ts') message := by
  obtain ⟨t, h_mem, h_t⟩ := h
  exact ⟨t, List.mem_append_left ts' h_mem, h_t⟩

omit [DecidableEq Id] in
/-- What holds of the old transitions and of the new one holds of all. -/
theorem forall_mem_snoc {p : Move Id C α → Prop} (h_old : ∀ t' ∈ ts, p t') (h_new : p t) :
    ∀ t' ∈ ts ++ [t], p t' :=
  List.forall_mem_append.mpr ⟨h_old, List.forall_mem_singleton.mpr h_new⟩

theorem Missed.nil (i : Id) (slot : BitVec 32) : Missed i ([] : List (Move Id C α)) slot 0 where
  exchanged_eq := rfl
  empty _ h_mem := absurd h_mem List.not_mem_nil
  unchanged _ h_mem := absurd h_mem List.not_mem_nil
  noStore _ h_mem := absurd h_mem List.not_mem_nil

/-- One more transition that has exchanged nothing and, where it is the thread's own, written
nothing. -/
theorem Missed.snoc {slot : BitVec 32} {probe : ℕ} (h : Missed i ts slot probe)
    (h_probed : exchanged i [t] = []) (h_same : t.action.1 = i → t.post.shared = t.pre.shared)
    (h_pc : ∀ message idx, t.pre.loc i ≠ .tryStore message idx) :
    Missed i (ts ++ [t]) slot probe where
  exchanged_eq := by rw [exchanged_append, h_probed, List.append_nil, h.exchanged_eq]
  empty := by
    refine forall_mem_snoc h.empty fun cell h_cell => ?_
    -- the new transition has exchanged no cell
    rw [exchanged, List.filterMap_cons, h_cell] at h_probed
    cases h_probed
  unchanged := forall_mem_snoc h.unchanged h_same
  noStore := forall_mem_snoc h.noStore h_pc

/-- One more probe of an empty cell. -/
theorem Missed.probe {slot : BitVec 32} {probe : ℕ} (h : Missed i ts slot probe)
    (h_own : t.action.1 = i) (h_pc : t.pre.loc i = .tryExchange slot probe)
    (h_empty : t.pre.shared.ring (C.index (slot + BitVec.ofNat 32 probe)) = none)
    (h_same : t.post.shared = t.pre.shared) : Missed i (ts ++ [t]) slot (probe + 1) where
  exchanged_eq := by
    rw [exchanged_append, exchanged_own h_own h_pc, h.exchanged_eq, List.range_succ,
      List.map_append]
    rfl
  empty := by
    refine forall_mem_snoc h.empty fun cell h_cell => ?_
    -- the cell it has exchanged is the one of this probe
    rw [probed, if_pos h_own, h_pc] at h_cell
    obtain rfl := Option.some.inj h_cell
    exact h_empty
  unchanged := forall_mem_snoc h.unchanged fun _ => h_same
  noStore := by
    refine forall_mem_snoc h.noStore fun message idx h_store => ?_
    rw [h_pc] at h_store
    cases h_store

/-- Another thread's step leaves what is known of the call. -/
theorem InCall.other (h : InCall i ts (t.pre.loc i)) (h_inside : t.pre.loc i ≠ .idle)
    (h_other : t.action.1 ≠ i) (h_silent : eventsBy i [t] = []) :
    InCall i (ts ++ [t]) (t.pre.loc i) := by
  have h_events : eventsBy i (ts ++ [t]) = eventsBy i ts := by
    rw [eventsBy_append, h_silent, List.append_nil]
  have h_steps : ownSteps i (ts ++ [t]) = ownSteps i ts := by
    rw [ownSteps_append, ownSteps_other h_other, Nat.add_zero]
  have h_same : t.action.1 = i → t.post.shared = t.pre.shared := fun h => absurd h h_other
  -- the call is where it was, and its own events and steps are the old ones
  generalize h_pc : t.pre.loc i = pc at h h_inside ⊢
  cases h with
  | loading h_ev h_st h_missed =>
    refine .loading (h_events.trans h_ev) (h_steps.trans h_st) fun slot => ?_
    refine (h_missed slot).snoc (exchanged_other h_other) h_same fun message idx h_store => ?_
    rw [h_pc] at h_store
    cases h_store
  | probing slot probe h_ev h_st h_probe h_missed =>
    refine .probing slot probe (h_events.trans h_ev) (h_steps.trans h_st) h_probe ?_
    refine h_missed.snoc (exchanged_other h_other) h_same fun message idx h_store => ?_
    rw [h_pc] at h_store
    cases h_store
  | storing message idx h_ev h_st h_removed =>
    exact .storing message idx (h_events.trans h_ev) (h_steps.trans_le h_st) (h_removed.append _)
  | succeeded | failed => exact absurd rfl h_inside

/-- The thread's own step moves the call on. -/
theorem InCall.own (h : InCall i ts (t.pre.loc i)) (h_inside : t.pre.loc i ≠ .idle)
    (h_own : t.action.1 = i) {ch : Choice α} {pc' : Pc C α} {es : List (Event α)}
    (h_step : Steps t.pre.shared (t.pre.loc i) ch t.post.shared pc' es)
    (h_shown : eventsBy i [t] = es) : InCall i (ts ++ [t]) pc' := by
  have h_events : eventsBy i (ts ++ [t]) = eventsBy i ts ++ es := by
    rw [eventsBy_append, h_shown]
  have h_steps : ownSteps i (ts ++ [t]) = ownSteps i ts + 1 := by
    rw [ownSteps_append, ownSteps_own h_own]
  have h_mem : t ∈ ts ++ [t] := List.mem_append_right ts List.mem_cons_self
  -- at each point of the call its next steps are known: `Steps` has one rule for each
  generalize h_pc : t.pre.loc i = pc at h h_inside h_step
  generalize h_post : t.post.shared = q' at h_step
  cases h with
  | loading h_ev h_st h_missed =>
    cases h_step with
    | loadPop =>
      have h_none : exchanged i [t] = [] := exchanged_none fun slot probe h_probe => by
        rw [h_pc] at h_probe
        cases h_probe
      have h_store : ∀ message idx, t.pre.loc i ≠ .tryStore message idx :=
        fun message idx h_store => by
          rw [h_pc] at h_store
          cases h_store
      refine .probing _ 0 (h_events.trans (by rw [h_ev]; rfl)) (by rw [h_steps, h_st]) C.pos ?_
      exact (h_missed _).snoc h_none (fun _ => h_post) h_store
  | probing slot probe h_ev h_st h_probe h_missed =>
    cases h_step with
    | tryTake message _ _ h_full =>
      refine .storing message _ (h_events.trans (by rw [h_ev]; rfl)) (by omega) ?_
      exact ⟨t, h_mem, h_own, _, h_full, by rw [h_post]⟩
    | tryMiss _ _ h_empty h_more =>
      refine .probing slot (probe + 1) (h_events.trans (by rw [h_ev]; rfl)) (by omega) h_more ?_
      exact h_missed.probe h_own h_pc h_empty h_post
    | tryFail _ _ h_empty h_last =>
      -- the last probe: all of them have been made
      have h_all : probe + 1 = C.val := by omega
      have h_done := h_missed.probe h_own h_pc h_empty h_post
      rw [h_all] at h_done
      exact .failed slot (h_events.trans (by rw [h_ev]; rfl)) h_done
  | storing message idx h_ev h_st h_removed =>
    cases h_step with
    | storePop =>
      refine .succeeded message ⟨h_events.trans (by rw [h_ev]; rfl), ?_⟩
      exact h_removed.append [t]
  | succeeded | failed => exact absurd rfl h_inside

end Steps

/-! ### The whole call -/

/-- Inside a call a thread can always run on. -/
theorem step_run_of_ne_idle (q : MPMC C α) {pc : Pc C α} (h : pc ≠ .idle) :
    ∃ next, q.step pc .run = some next := by
  cases pc with
  | idle => exact absurd rfl h
  | pushCas message slot | popExchange slot =>
    -- both outcomes of an atomic operation are steps
    simp only [step]
    split
    · exact ⟨_, rfl⟩
    · exact ⟨_, rfl⟩
  | tryExchange slot probe =>
    -- a full cell, an empty cell with more to probe, the last empty cell
    simp only [step]
    split
    · exact ⟨_, rfl⟩
    · split
      · exact ⟨_, rfl⟩
      · exact ⟨_, rfl⟩
  | pushFetch | popFetch | tryLoad | tryStore => exact ⟨_, rfl⟩

section Call

variable {i : Id} {s₀ s : Shared Id C α} {ts : List (Move Id C α)}

/-- **One transition**, of the scanning thread or of another, keeps the account of what the call has
probed so far. -/
theorem InCall.step {s' : Shared Id C α} {a : Id × Choice α} {es : List (Id × Event α)}
    (h : InCall i ts (s.loc i)) (h_inside : s.loc i ≠ .idle)
    (h_step : (machine Id C α).step s a = some (s', es)) :
    InCall i (ts ++ [⟨s, a, s', es⟩]) (s'.loc i) := by
  obtain ⟨q, pc, es', h_thread, rfl, rfl⟩ := machine_step h_step
  -- own steps make the call go on, steps of others leave its record alone
  by_cases h_own : a.1 = i
  · subst h_own
    show InCall a.1 _ (Function.update s.loc a.1 pc a.1)
    rw [Function.update_self]
    exact h.own (t := ⟨s, a, ⟨q, Function.update s.loc a.1 pc⟩, es'.map fun e => (a.1, e)⟩)
      h_inside rfl (step_steps h_thread) (by simp [eventsBy])
  · show InCall i _ (Function.update s.loc a.1 pc i)
    rw [Function.update_of_ne (Ne.symm h_own)]
    exact h.other (t := ⟨s, a, ⟨q, Function.update s.loc a.1 pc⟩, es'.map fun e => (a.1, e)⟩)
      h_inside h_own (by simp [eventsBy, eventsOf_map_of_ne h_own])

/-- **The whole call**: from its start to wherever the run has come, the account tells where the
call is and what it has seen. -/
theorem InCall.of_run (h_start : s₀.loc i = .tryLoad)
    (h : (machine Id C α).recorded.ReachBy (fun s _ => s.loc i ≠ .idle) s₀ ts s) :
    InCall i ts (s.loc i) := by
  refine h.recorded_inv (I := fun ts s => InCall i ts (s.loc i)) ?_ ?_
  · rw [h_start]
    exact .loading rfl rfl (Missed.nil i)
  · intro ts s a s' es h_in h_inside h_step
    exact h_in.step h_inside h_step

/-- A call that has found every cell empty has failed. -/
theorem Missed.failed {slot : BitVec 32} (h : Missed i ts slot C.val)
    (h_events : eventsBy i ts = [.ret none]) : Failed i ts where
  events := h_events
  nodup := by
    rw [h.exchanged_eq]
    refine List.Nodup.map_on ?_ List.nodup_range
    intro k h_k n h_n h_eq
    rw [C.index_add, C.index_add] at h_eq
    exact C.advance_injective _ (List.mem_range.mp h_k) (List.mem_range.mp h_n) h_eq
  complete cell := by
    -- `Capacity` probes from any cursor meet every cell
    obtain ⟨n, h_n, rfl⟩ := C.exists_advance (C.index slot) cell
    rw [h.exchanged_eq, List.mem_map]
    exact ⟨n, List.mem_range.mpr h_n, C.index_add slot n⟩
  unchanged := h.unchanged
  noStore := h.noStore

/-- A call that has found every cell empty has found none full. -/
theorem Missed.not_held {slot : BitVec 32} (h : Missed i ts slot C.val)
    (h_failed : Failed i ts) (cell : Fin C.val) : ¬ HeldUntilProbed i ts cell := by
  intro h_held
  obtain ⟨t, h_mem, h_cell⟩ := List.mem_filterMap.mp (h_failed.complete cell)
  obtain ⟨ts₁, ts₂, h_ts⟩ := List.append_of_mem h_mem
  refine h_held ts₁ t ts₂ h_ts ?_ ?_ (h.empty t h_mem cell h_cell)
  · -- a transition that exchanges a cell starts at a probe
    unfold probed at h_cell
    split at h_cell
    · split at h_cell
      · next slot probe h_pc => exact ⟨slot, probe, h_pc⟩
      · cases h_cell
    · cases h_cell
  · exact not_exchanged_before h_failed.nodup h_ts h_cell

/-- The steps of the call are bounded at every point of it. -/
theorem InCall.ownSteps_lt (h : InCall i ts (s.loc i)) (h_inside : s.loc i ≠ .idle) :
    ownSteps i ts < C.val + 2 := by
  generalize s.loc i = pc at h h_inside
  cases h with
  | loading _ h_steps => omega
  | probing _ _ _ h_steps h_probe => omega
  | storing _ _ _ h_steps => omega
  | succeeded | failed => exact absurd rfl h_inside

/-- **`try_pop` among other threads.** In any interleaving from the start of the call on, a
call that has not returned can run on and has made fewer than `Capacity + 2` steps; once it
has returned, it has either removed one message and returned it, or exchanged every cell
once, written nothing and returned false; and if some cell was full until the call came to
it, it has returned a message. -/
theorem tryPop_complete (h_start : s₀.loc i = .tryLoad)
    (h : (machine Id C α).recorded.ReachBy (fun s _ => s.loc i ≠ .idle) s₀ ts s) :
    (s.loc i ≠ .idle →
      (∃ next, (machine Id C α).step s (i, .run) = some next) ∧ ownSteps i ts < C.val + 2) ∧
    (s.loc i = .idle → (∃ message, Succeeded i ts message) ∨ Failed i ts) ∧
    (s.loc i = .idle → (∃ cell, HeldUntilProbed i ts cell) →
      ∃ message, Succeeded i ts message) := by
  have h_call := InCall.of_run h_start h
  refine ⟨fun h_inside => ⟨?_, h_call.ownSteps_lt h_inside⟩, fun h_idle => ?_,
    fun h_idle h_held => ?_⟩
  · -- the next operation of the thread is enabled whatever the others have done
    obtain ⟨⟨q, pc, es⟩, h_next⟩ := step_run_of_ne_idle s.shared h_inside
    refine ⟨(⟨q, Function.update s.loc i pc⟩, es.map fun e => (i, e)), ?_⟩
    simp only [machine, Threads.machine, h_next]
  · rw [h_idle] at h_call
    cases h_call with
    | succeeded message h => exact Or.inl ⟨message, h⟩
    | failed slot h_events h_missed => exact Or.inr (h_missed.failed h_events)
  · -- a call that failed has exchanged that cell, and it was empty then
    rw [h_idle] at h_call
    cases h_call with
    | succeeded message h => exact ⟨message, h⟩
    | failed slot h_events h_missed =>
      obtain ⟨cell, h_cell⟩ := h_held
      exact absurd h_cell (h_missed.not_held (h_missed.failed h_events) cell)

/-- A cell that is full at every probe of the call. -/
theorem heldUntilProbed_of_all {cell : Fin C.val}
    (h : ∀ t ∈ ts, (∃ slot probe, t.pre.loc i = .tryExchange slot probe) →
      t.pre.shared.ring cell ≠ none) : HeldUntilProbed i ts cell := by
  rintro ts₁ t ts₂ rfl h_pc -
  exact h t (List.mem_append_right ts₁ List.mem_cons_self) h_pc

end Call

/-- Message 7 is in the second of two cells, the cursor has wrapped to `-2`, and thread
`false` is about to load it. -/
def scanned : Shared Bool two ℕ where
  shared := ⟨fun slot => if slot = two.index 1 then some 7 else none, 0, -2⟩
  loc i := if i then .idle else .tryLoad

/-- Thread `true` pushes a message behind the scan and starts a scan of its own. -/
def interfered : List (Bool × Choice ℕ) :=
  [(false, .run), (true, .call (.push 8)), (false, .run), (true, .run), (true, .run),
    (false, .run), (true, .call .tryPop), (true, .run), (false, .run)]

/-- The cell is full in every transition at whose start thread `false` probes. -/
def fullAtProbes (cell : Fin two.val) (t : Move Bool two ℕ) : Bool :=
  match t.pre.loc false with
  | .tryExchange _ _ => (t.pre.shared.ring cell).isSome
  | _ => true

theorem tryPop_complete_interfered :
    ∃ ts s, (machine Bool two ℕ).recorded.ReachBy (fun s _ => s.loc false ≠ .idle) scanned ts s ∧
      HeldUntilProbed false ts (two.index 1) ∧ ∃ message, Succeeded false ts message := by
  obtain ⟨ts, s, h_reach, h_run⟩ := Machine.exists_reachBy_of_runBy
    (machine Bool two ℕ).recorded (fun s _ => s.loc false ≠ .idle) scanned interfered
    (fun s ts => decide (s.loc false = .idle) && ts.all (fullAtProbes (two.index 1)))
    (by decide +kernel)
  rw [Bool.and_eq_true, decide_eq_true_eq, List.all_eq_true] at h_run
  have h_held : HeldUntilProbed false ts (two.index 1) :=
    heldUntilProbed_of_all fun t h_mem h_pc => by
      obtain ⟨slot, probe, h_pc⟩ := h_pc
      have h_full := h_run.2 t h_mem
      rw [fullAtProbes, h_pc] at h_full
      exact Option.isSome_iff_ne_none.mp h_full
  exact ⟨ts, s, h_reach, h_held, (tryPop_complete rfl h_reach).2.2 h_run.1 ⟨_, h_held⟩⟩

end MPMC

end Hft
