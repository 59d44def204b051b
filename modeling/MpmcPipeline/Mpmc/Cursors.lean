import Mathlib.Data.List.Induction
import MpmcPipeline.Mpmc.Scan

/-!
# The arithmetic of the cursors

The cursors are atomic `int`s, whose `fetch_add` wraps. What the calls compute from them are
plain `int`s, for which a sum out of range is undefined: `slot + 1` in the probe loops of
`push` and `pop`, and `slot + probe` in the scan of `try_pop` (`Pc.InRange`). `push` and `pop`
mask the cursor they have fetched and so add to a cell number. `try_pop` adds to the cursor as
it has loaded it. It stores a masked one, but every `pop` after that has moved it on.

`drift` counts, along a recorded run, where the cursor would be without the wraparound.
`cursor_arithmetic_iff` says that a run stays in range if and only if no `try_pop` loads the
cursor at a drift that is, modulo `2 ^ 32`, less than the capacity before `2 ^ 31`; a run with
too few `pop`s for that always does (`not_nearMax_of_few_pops`). `exists_reach_rounds` gets the
cursor anywhere.
-/

namespace Hft

open Capacity (two)

namespace MPMC

open Machine Threads

variable {Id : Type*} {C : Capacity} {α : Type*}

/-- The values of `int`. -/
def IsInt (v : ℤ) : Prop := -2 ^ 31 ≤ v ∧ v < 2 ^ 31

instance : DecidablePred IsInt := fun v =>
  inferInstanceAs (Decidable (-2 ^ 31 ≤ v ∧ v < 2 ^ 31))

/-- The sums that a call computes from its slot are `int`s: `slot + 1` in `push` and `pop`,
`slot + probe` for every probe in `try_pop`, and `idx + 1` for its store. -/
def Pc.InRange : Pc C α → Prop
  | .pushCas _ slot => IsInt (slot.val + 1)
  | .popExchange slot => IsInt (slot.val + 1)
  | .tryExchange slot _ => ∀ probe < C.val, IsInt (slot.toInt + probe)
  | .tryStore _ idx => IsInt (idx.val + 1)
  | _ => True

/-- No call computes a sum out of range. -/
def Shared.InRange (s : Shared Id C α) : Prop := ∀ i, (s.loc i).InRange

/-- The sum after a cell number is an `int`. -/
theorem isInt_cell_succ (slot : Fin C.val) : IsInt (slot.val + 1) := by
  have h_slot := slot.isLt
  have h_lt := C.lt
  unfold IsInt
  omega

/-- **What a step can do to the range**: only the load of `try_pop` can leave it. -/
theorem Steps.inRange_iff {q q' : MPMC C α} {pc pc' : Pc C α} {ch : Choice α}
    {es : List (Event α)} (h : Steps q pc ch q' pc' es) (h_pc : pc.InRange) :
    pc'.InRange ↔ (pc = .tryLoad → ∀ probe < C.val, IsInt (q.popCursor.toInt + probe)) := by
  -- every other operation masks the cursor before it uses it
  cases h with
  | call c => cases c <;> simp [Pc.start, Pc.InRange]
  | fetchPost message => simp [Pc.InRange, isInt_cell_succ]
  | casStore message slot h_empty => simp [Pc.InRange]
  | casFail message slot ch h_fail => simp [Pc.InRange, isInt_cell_succ]
  | fetchPop => simp [Pc.InRange, isInt_cell_succ]
  | popTake message slot h_full => simp [Pc.InRange]
  | popMiss slot h_empty => simp [Pc.InRange, isInt_cell_succ]
  | loadPop => simp [Pc.InRange]
  | tryTake message slot probe h_full => simp [Pc.InRange, isInt_cell_succ]
  | tryMiss slot probe h_empty h_more => exact iff_of_true h_pc (fun h => by cases h)
  | tryFail slot probe h_empty h_last => simp [Pc.InRange]
  | storePop message idx => simp [Pc.InRange]

/-! ### The cursor of `pop` along a run -/

/-- The `fetch_add` of `pop`. -/
def Pc.fetches : Pc C α → Bool
  | .popFetch => true
  | _ => false

/-- What the step from a program point does to the cursor of `pop`, without the wraparound. -/
def Pc.drift (n : ℕ) : Pc C α → ℕ
  | .popFetch => n + 1
  | .tryStore _ idx => C.next idx
  | _ => n

/-- The program point a transition starts from. -/
def mover (t : Move Id C α) : Pc C α := t.pre.loc t.action.1

/-- The cell that the last `try_pop` has stored, 0 if none has, and the `pop`s since. -/
def drift (ts : List (Move Id C α)) : ℕ := ts.foldl (fun n t => (mover t).drift n) 0

@[simp] theorem drift_concat (ts : List (Move Id C α)) (t : Move Id C α) :
    drift (ts ++ [t]) = (mover t).drift (drift ts) := by
  rw [drift, List.foldl_append]
  rfl

theorem Steps.popCursor_eq {q q' : MPMC C α} {pc pc' : Pc C α} {ch : Choice α}
    {es : List (Event α)} (h : Steps q pc ch q' pc' es) {n : ℕ}
    (h_q : q.popCursor = BitVec.ofNat 32 n) : q'.popCursor = BitVec.ofNat 32 (pc.drift n) := by
  cases h with
  | fetchPop =>
    rw [Pc.drift, BitVec.ofNat_add, ← h_q]
    rfl
  | storePop message idx => rfl
  -- nothing else writes the cursor
  | _ => exact h_q

/-- The drift is so near before `2 ^ 31` that adding a probe goes past it. -/
def NearMax (C : Capacity) (n : ℕ) : Prop := n % 2 ^ 32 < 2 ^ 31 ∧ 2 ^ 31 < n % 2 ^ 32 + C.val

/-- The scan from a cursor stays in range if and only if its drift is not near the end. -/
theorem scan_inRange_iff (n : ℕ) :
    (∀ probe < C.val, IsInt ((BitVec.ofNat 32 n).toInt + probe)) ↔ ¬NearMax C n := by
  have h_pos := C.pos
  have h_lt := C.lt
  have h_mod : n % 2 ^ 32 < 2 ^ 32 := Nat.mod_lt _ (by norm_num)
  -- the cursor as an `int` is negative in the upper half, where no probe can overflow
  rw [BitVec.toInt_eq_toNat_cond, BitVec.toNat_ofNat]
  unfold NearMax IsInt
  constructor
  · -- the last probe is the greatest
    intro h_all h_near
    have h_last := (h_all (C.val - 1) (by omega)).2
    rw [if_pos (by omega)] at h_last
    omega
  · intro h_near probe h_probe
    split <;> omega

/-- A transition loads the cursor for a `try_pop`. -/
def Loads (t : Move Id C α) : Prop := mover t = .tryLoad

/-- The drift is at most the last cell and the number of `pop`s. -/
theorem drift_lt (ts : List (Move Id C α)) :
    drift ts < C.val + ts.countP fun t => (mover t).fetches := by
  induction ts using List.reverseRecOn with
  | nil => exact C.pos
  | append_singleton ts t ih =>
    rw [drift_concat, List.countP_append, List.countP_singleton]
    cases mover t with
    | popFetch =>
      -- a `fetch_add` of `pop` moves the drift by one
      rw [Pc.drift, Pc.fetches, if_pos rfl]
      omega
    | tryStore message idx =>
      -- a store by `try_pop` sets the drift back to a cell's number
      have h_idx := (C.next idx).isLt
      rw [Pc.drift]
      omega
    | _ => exact lt_of_lt_of_le ih (Nat.add_le_add_left (Nat.le_add_right _ _) _)

/-- **Too few `pop`s** to bring the cursor near the end: below about two thousand million of them
the arithmetic is safe in any run. -/
theorem not_nearMax_of_few_pops {ts : List (Move Id C α)}
    (h_few : (ts.countP fun t => (mover t).fetches) + 2 * C.val ≤ 2 ^ 31 + 1) :
    AtEach (fun ts₁ t => Loads t → ¬NearMax C (drift ts₁)) ts := by
  rintro ts₁ t ts₂ rfl - ⟨-, h_near⟩
  have h_drift := drift_lt ts₁
  rw [List.countP_append] at h_few
  have h_mod := Nat.mod_le (drift ts₁) (2 ^ 32)
  omega

/-- Along a recorded run the drift tells the cursor, and the loads tell the range. -/
structure Tracks (ts : List (Move Id C α)) (s : Shared Id C α) : Prop where
  cursor : s.shared.popCursor = BitVec.ofNat 32 (drift ts)
  last : (∀ t ∈ ts, t.post.InRange) → s.InRange
  iff : (∀ t ∈ ts, t.post.InRange) ↔
    AtEach (fun ts₁ t => Loads t → ¬NearMax C (drift ts₁)) ts

theorem inRange_init : (Shared.init Id C α).InRange := fun _ => trivial

theorem tracks_init : Tracks [] (Shared.init Id C α) where
  cursor := rfl
  last _ := inRange_init
  iff := iff_of_true (by simp) atEach_nil

variable [DecidableEq Id]

/-- The other threads stay at their program points. -/
theorem inRange_step_iff {s s' : Shared Id C α} {a : Id × Choice α} {es : List (Id × Event α)}
    (h_s : s.InRange) (h : (machine Id C α).step s a = some (s', es)) :
    s'.InRange ↔ (s.loc a.1 = .tryLoad →
      ∀ probe < C.val, IsInt (s.shared.popCursor.toInt + probe)) := by
  obtain ⟨q, pc, es', h_step, rfl, -⟩ := machine_step h
  rw [← (step_steps h_step).inRange_iff (h_s a.1)]
  -- only the thread that moved can have left the range
  constructor
  · intro h_range
    have h_own : (Function.update s.loc a.1 pc a.1).InRange := h_range a.1
    rwa [Function.update_self] at h_own
  · intro h_pc i
    change (Function.update s.loc a.1 pc i).InRange
    by_cases h_i : i = a.1
    · rwa [h_i, Function.update_self]
    · rw [Function.update_of_ne h_i]
      exact h_s i

theorem Tracks.step {ts : List (Move Id C α)} {s s' : Shared Id C α} {a : Id × Choice α}
    {es : List (Id × Event α)} (h_ts : Tracks ts s)
    (h : (machine Id C α).step s a = some (s', es)) : Tracks (ts ++ [⟨s, a, s', es⟩]) s' where
  cursor := by
    obtain ⟨q, pc, es', h_step, rfl, -⟩ := machine_step h
    rw [drift_concat]
    exact (step_steps h_step).popCursor_eq h_ts.cursor
  last h_all := h_all ⟨s, a, s', es⟩ (by simp)
  iff := by
    rw [atEach_concat, ← h_ts.iff, List.forall_mem_append]
    refine and_congr_right fun h_before => ?_
    rw [List.forall_mem_singleton, inRange_step_iff (h_ts.last h_before) h, h_ts.cursor,
      scan_inRange_iff]
    rfl

/-- **The range of the cursor arithmetic.** In a run of any threads and calls no sum leaves the
range of `int` if and only if no `try_pop` loads the cursor at a drift near the end. The drift is
the cell that a `try_pop` has last stored and the number of `pop`s since, and nothing but these
moves the cursor. -/
theorem cursor_arithmetic_iff {ts : List (Move Id C α)} {s : Shared Id C α}
    (h : (machine Id C α).recorded.Reach (Shared.init Id C α) ts s) :
    ((Shared.init Id C α).InRange ∧ ∀ t ∈ ts, t.post.InRange) ↔
      ∀ ts₁ t ts₂, ts = ts₁ ++ t :: ts₂ → Loads t → ¬NearMax C (drift ts₁) := by
  have h_tracks : Tracks ts s :=
    h.recorded_inv tracks_init fun ts s a s' es h_ts _ h_step => h_ts.step h_step
  rw [and_iff_right inRange_init]
  exact h_tracks.iff

/-- `push`, `pop`, `push` and `try_pop` by one thread. -/
def fourCalls : List (Unit × Choice ℕ) :=
  [((), .call (.push 7)), ((), .run), ((), .run), ((), .call .pop), ((), .run), ((), .run),
    ((), .call (.push 8)), ((), .run), ((), .run), ((), .call .tryPop), ((), .run), ((), .run),
    ((), .run)]

theorem cursor_arithmetic_iff_fourCalls :
    ∃ ts s, (machine Unit two ℕ).recorded.Reach (Shared.init Unit two ℕ) ts s ∧
      ts.length = fourCalls.length ∧ ∀ t ∈ ts, t.post.InRange := by
  obtain ⟨ts, s, h_reach, h_run⟩ := Machine.exists_reach_of_run (machine Unit two ℕ).recorded
    (Shared.init Unit two ℕ) fourCalls
    (fun _ ts => decide (ts.length = fourCalls.length) &&
      decide ((ts.countP fun t => (mover t).fetches) = 1))
    (by decide +kernel)
  rw [Bool.and_eq_true, decide_eq_true_eq, decide_eq_true_eq] at h_run
  refine ⟨ts, s, h_reach, h_run.1, ((cursor_arithmetic_iff h_reach).mpr ?_).2⟩
  apply not_nearMax_of_few_pops
  rw [h_run.2]
  decide

/-! ### A run that leaves the range -/

/-- One `push` and one `pop` of a thread, on an empty ring whose cursors agree. -/
theorem exists_reach_round (i : Id) (message : α) (n : ℕ) :
    ∃ tr, (machine Id C α).Reach
      ⟨⟨fun _ => none, BitVec.ofNat 32 n, BitVec.ofNat 32 n⟩, fun _ => .idle⟩ tr
      ⟨⟨fun _ => none, BitVec.ofNat 32 (n + 1), BitVec.ofNat 32 (n + 1)⟩, fun _ => .idle⟩ := by
  let q : MPMC C α := ⟨fun _ => none, BitVec.ofNat 32 n, BitVec.ofNat 32 n⟩
  let filled : MPMC C α :=
    ⟨Function.update q.ring (C.index q.postCursor) (some message), q.postCursor + 1, q.popCursor⟩
  have h_push : q.push strong 1 (some message) = some filled := rfl
  have h_pop : filled.pop 1 = some (message, { q with
      postCursor := q.postCursor + 1, popCursor := q.popCursor + 1 }) := by
    -- the cursors agree, so `pop` finds the message in the first cell it looks at
    simp only [pop, popLoop, filled, q, Function.update_self, Function.update_idem,
      Function.update_eq_self]
  obtain ⟨chs, h_run⟩ := solo_push h_push
  obtain ⟨chs', h_run'⟩ := solo_pop h_pop
  have h_solo := (reach_of_run h_run).trans (reach_of_run h_run')
  rw [solo_eq] at h_solo
  have h_reach := reach_of_solo i (fun _ => Pc.idle) h_solo
  rw [Function.update_eq_self_iff.mpr rfl] at h_reach
  rw [BitVec.ofNat_add]
  exact ⟨_, h_reach⟩

/-- The cursors can get anywhere. -/
theorem exists_reach_rounds (i : Id) (message : α) (n : ℕ) :
    ∃ tr, (machine Id C α).Reach (Shared.init Id C α) tr
      ⟨⟨fun _ => none, BitVec.ofNat 32 n, BitVec.ofNat 32 n⟩, fun _ => .idle⟩ := by
  induction n with
  | zero => exact ⟨[], .init⟩
  | succ n ih =>
    obtain ⟨tr, h_reach⟩ := ih
    obtain ⟨tr', h_round⟩ := exists_reach_round (C := C) i message n
    exact ⟨tr ++ tr', h_reach.trans h_round⟩

/-- **The defect**: with two cells or more, one thread can make a `try_pop` add a probe to the
last `int`. -/
theorem exists_reach_not_inRange (i : Id) (message : α) (h_two : 2 ≤ C.val) :
    ∃ tr s, (machine Id C α).Reach (Shared.init Id C α) tr s ∧ ¬s.InRange := by
  obtain ⟨tr, h_rounds⟩ := exists_reach_rounds (C := C) i message (2 ^ 31 - 1)
  let q : MPMC C α := ⟨fun _ => none, BitVec.ofNat 32 (2 ^ 31 - 1), BitVec.ofNat 32 (2 ^ 31 - 1)⟩
  have h_load : q.step .tryLoad .run = some (q, .tryExchange q.popCursor 0, []) := rfl
  have h_solo := (solo_single (step_call q .tryPop)).trans (solo_single h_load)
  have h_call := reach_of_solo i (fun _ => Pc.idle) h_solo
  refine ⟨_, _, h_rounds.trans h_call, fun h_range => ?_⟩
  have h_scan : (Function.update (fun _ : Id => Pc.idle) i
      (.tryExchange q.popCursor 0 : Pc C α) i).InRange := h_range i
  rw [Function.update_self] at h_scan
  have h_sum : IsInt ((BitVec.ofNat 32 (2 ^ 31 - 1)).toInt + (1 : ℕ)) := h_scan 1 (by omega)
  exact absurd h_sum (by decide)

/-- One thread on two cells overflows the sum: 2147483647 times `push` and `pop`, and then `try_pop`
loads the cursor at the last `int` and adds to it. -/
theorem cursor_overflow :
    ∃ tr s, (machine Unit two ℕ).Reach (Shared.init Unit two ℕ) tr s ∧ ¬s.InRange :=
  exists_reach_not_inRange () 7 le_rfl

end MPMC

end Hft
