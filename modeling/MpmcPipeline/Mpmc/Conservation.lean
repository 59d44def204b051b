import Mathlib.Algebra.Order.BigOperators.Group.Finset
import Mathlib.Data.Fintype.BigOperators
import Mathlib.Data.Multiset.Filter
import Mathlib.Tactic.Abel
import MpmcPipeline.Machine.Ledger
import MpmcPipeline.Mpmc.Steps

/-!
# Conservation of messages

Whatever the cursors do (they are only hints: stale, moved backwards by `try_pop`,
wrapped), a cell is written by two kinds of step alone. A compare-exchange turns an
empty cell into a full one, an exchange turns a full cell into an empty one. Each step
therefore balances the messages it stores against those it takes (`Steps.balance`), and
summed over a run of any number of threads this is `conservation`: the messages whose
push has taken effect are those in the cells plus those taken.

A message taken by `try_pop` stays in the hand of the thread until the cursor store is
done; `Pc.hand` accounts for it, so that every taken message is returned to the caller
of the thread that took it, and to no other.
-/

namespace Hft

open Capacity (two)

namespace MPMC

variable {C : Capacity} {α : Type*}

/-- The messages put into cells. -/
def stores (es : List (Event α)) : List α :=
  es.filterMap fun
    | .store message => some message
    | _ => none

/-- The messages taken out of cells. -/
def takes (es : List (Event α)) : List α :=
  es.filterMap fun
    | .take message => some message
    | _ => none

/-- The messages returned to callers. -/
def returns (es : List (Event α)) : List α :=
  es.filterMap fun
    | .ret result => result
    | _ => none

@[simp] theorem stores_append (es es' : List (Event α)) :
    stores (es ++ es') = stores es ++ stores es' := List.filterMap_append

@[simp] theorem takes_append (es es' : List (Event α)) :
    takes (es ++ es') = takes es ++ takes es' := List.filterMap_append

@[simp] theorem returns_append (es es' : List (Event α)) :
    returns (es ++ es') = returns es ++ returns es' := List.filterMap_append

/-- The content of one cell. -/
def cell : Option α → Multiset α
  | none => 0
  | some message => {message}

/-- The messages now in the cells. -/
def cells (ring : Fin C.val → Option α) : Multiset α := ∑ i, cell (ring i)

/-- Writing one cell exchanges its content. -/
theorem cells_update (ring : Fin C.val → Option α) (slot : Fin C.val) (x : Option α) :
    cells (Function.update ring slot x) + cell (ring slot) = cells ring + cell x := by
  -- split the written cell off both sums; the others agree
  obtain ⟨rest, h_before, h_after⟩ := Finset.exists_rest cell ring slot
  rw [cells, cells, h_before, h_after]
  abel

theorem cells_update_some {ring : Fin C.val → Option α} {slot : Fin C.val} {message : α}
    (h_empty : ring slot = none) :
    cells (Function.update ring slot (some message)) = cells ring + {message} := by
  have h := cells_update ring slot (some message)
  rw [h_empty] at h
  simpa [cell] using h

theorem cells_update_none {ring : Fin C.val → Option α} {slot : Fin C.val} {message : α}
    (h_full : ring slot = some message) :
    cells (Function.update ring slot none) + {message} = cells ring := by
  have h := cells_update ring slot none
  rw [h_full] at h
  simpa [cell] using h

/-- How often a message is in the cells. -/
theorem count_cells [DecidableEq α] (ring : Fin C.val → Option α) (message : α) :
    (cells ring).count message = (Finset.univ.filter fun i => ring i = some message).card := by
  simp only [cells, Multiset.count_sum', Finset.card_filter]
  refine Finset.sum_congr rfl fun i _ => ?_
  cases h_cell : ring i with
  | none => simp [cell]
  | some m =>
    by_cases h_eq : m = message
    · simp [cell, h_eq]
    · simp [cell, h_eq, Ne.symm h_eq]

theorem sum_toList (ring : Fin C.val → Option α) :
    ∑ slot, ((ring slot).toList : Multiset α) = cells ring := by
  refine Finset.sum_congr rfl fun slot _ => ?_
  cases ring slot <;> rfl

theorem mem_cells {ring : Fin C.val → Option α} {message : α} :
    message ∈ cells ring ↔ ∃ slot, ring slot = some message := by
  rw [cells, Multiset.mem_sum]
  refine exists_congr fun slot => ?_
  cases ring slot with
  | none => simp [cell]
  | some m => simp [cell, eq_comm]

/-- Where no message is twice in the cells, it is in one. -/
theorem slot_unique {ring : Fin C.val → Option α} {message : α} {slot slot' : Fin C.val}
    (h : (cells ring).Nodup) (h_slot : ring slot = some message)
    (h_slot' : ring slot' = some message) : slot = slot' := by
  classical
  have h_count := Multiset.nodup_iff_count_le_one.mp h message
  rw [count_cells] at h_count
  exact Finset.card_le_one.mp h_count slot (by simp [h_slot]) slot' (by simp [h_slot'])

/-- The number of messages in the cells. -/
def occupancy (q : MPMC C α) : ℕ := Multiset.card (cells q.ring)

theorem occupancy_eq_sum (q : MPMC C α) :
    q.occupancy = ∑ i, Multiset.card (cell (q.ring i)) := by
  rw [occupancy, cells, Multiset.card_sum]

theorem occupancy_le (q : MPMC C α) : q.occupancy ≤ C.val := by
  have h_cell : ∀ i ∈ Finset.univ, Multiset.card (cell (q.ring i)) ≤ 1 := by
    intro i _
    cases q.ring i <;> simp [cell]
  calc q.occupancy = ∑ i, Multiset.card (cell (q.ring i)) := q.occupancy_eq_sum
    _ ≤ ∑ _i : Fin C.val, 1 := Finset.sum_le_sum h_cell
    _ = C.val := by simp

theorem occupancy_of_empty {q : MPMC C α} (h : ∀ i, q.ring i = none) : q.occupancy = 0 := by
  rw [occupancy_eq_sum]
  exact Finset.sum_eq_zero fun i _ => by rw [h i]; rfl

theorem occupancy_of_full {q : MPMC C α} (h : ∀ i, q.ring i ≠ none) : q.occupancy = C.val := by
  have h_cell : ∀ i ∈ Finset.univ, Multiset.card (cell (q.ring i)) = 1 := by
    intro i _
    obtain ⟨message, h_eq⟩ := Option.ne_none_iff_exists'.mp (h i)
    rw [h_eq]
    rfl
  rw [occupancy_eq_sum, Finset.sum_congr rfl h_cell]
  simp

/-- Fewer messages than cells leave a cell empty. -/
theorem exists_empty_of_room {q : MPMC C α} (h_room : q.occupancy < C.val) :
    ∃ i, q.ring i = none := by
  by_contra h_full
  exact absurd (occupancy_of_full (not_exists.mp h_full)) (Nat.ne_of_lt h_room)

/-- A push that returns has filled one cell more. -/
theorem push_occupancy {weak : Weak} {fuel : ℕ} {q q' : MPMC C α} {message : α}
    (h : q.push weak fuel (some message) = some q') : q'.occupancy = q.occupancy + 1 := by
  obtain ⟨slot, h_empty, rfl⟩ := push_eq_some h
  rw [occupancy, cells_update_some h_empty, Multiset.card_add, Multiset.card_singleton, occupancy]

/-- A message whose push has not taken effect yet. -/
def Pc.pending : Pc C α → List α
  | .pushFetch message => [message]
  | .pushCas message _ => [message]
  | _ => []

/-- A message a thread has taken out of a cell and not yet returned. -/
def Pc.hand : Pc C α → List α
  | .tryStore message _ => [message]
  | _ => []

/-- **One step balances.** What it stores and what was in the cells is what it takes and
what is in the cells after it. -/
theorem Steps.balance {q q' : MPMC C α} {pc pc' : Pc C α} {ch : Choice α}
    {es : List (Event α)} (h : Steps q pc ch q' pc' es) :
    cells q.ring + (stores es : Multiset α) = cells q'.ring + (takes es : Multiset α) := by
  cases h with
  | casStore message slot h_empty =>
    simp [cells_update_some h_empty, stores, takes]
  | popTake message slot h_full =>
    simp [← cells_update_none h_full, stores, takes]
  | tryTake message slot probe h_full =>
    simp [← cells_update_none h_full, stores, takes]
  | _ => rfl

theorem Steps.occupancy {q q' : MPMC C α} {pc pc' : Pc C α} {ch : Choice α}
    {es : List (Event α)} (h : Steps q pc ch q' pc' es) :
    q.occupancy + (stores es).length = q'.occupancy + (takes es).length := by
  have h_card := congrArg Multiset.card h.balance
  rwa [Multiset.card_add, Multiset.card_add, Multiset.coe_card, Multiset.coe_card] at h_card

/-- **One step hands on.** A thread returns what it has taken. -/
theorem Steps.hand {q q' : MPMC C α} {pc pc' : Pc C α} {ch : Choice α}
    {es : List (Event α)} (h : Steps q pc ch q' pc' es) :
    pc.hand ++ takes es = returns es ++ pc'.hand := by
  cases h with
  | call c => cases c <;> rfl
  | _ => rfl

/-- The run invariant behind `conservation`. -/
structure Balanced {Id : Type*} [DecidableEq Id] (tr : List (Id × Event α))
    (s : Shared Id C α) : Prop where
  messages : (stores (Threads.events tr) : Multiset α) =
    cells s.shared.ring + (takes (Threads.events tr) : Multiset α)
  hands : ∀ i, takes (Threads.eventsOf i tr) =
    returns (Threads.eventsOf i tr) ++ (s.loc i).hand

theorem Balanced.init {Id : Type*} [DecidableEq Id] :
    Balanced [] (Shared.init Id C α) where
  messages := by simp [Threads.events, stores, takes, Shared.init, fresh, cells, cell]
  hands := fun _ => rfl

theorem Balanced.step {Id : Type*} [DecidableEq Id] {tr : List (Id × Event α)}
    {s s' : Shared Id C α} {a : Id × Choice α} {es : List (Id × Event α)}
    (hI : Balanced tr s) (h : (machine Id C α).step s a = some (s', es)) :
    Balanced (tr ++ es) s' := by
  obtain ⟨q, pc, es', h_step, rfl, rfl⟩ := Threads.machine_step h
  have h_steps := step_steps h_step
  refine ⟨?_, fun i => ?_⟩
  · -- the step of one thread moves the sum over all of them
    have h_balance := h_steps.balance
    simp only [Threads.events_append, Threads.events_map_pair, stores_append, takes_append,
      ← Multiset.coe_add, hI.messages]
    rw [add_right_comm, h_balance]
    abel
  · by_cases h_eq : i = a.1
    · subst h_eq
      simp only [Threads.eventsOf_append, Threads.eventsOf_map_self, takes_append,
        returns_append, hI.hands, List.append_assoc, Function.update_self]
      rw [h_steps.hand]
    · -- a thread that did not move has taken and returned nothing
      simp only [Threads.eventsOf_append, Threads.eventsOf_map_of_ne (Ne.symm h_eq),
        List.append_nil, Function.update_of_ne h_eq]
      exact hI.hands i

theorem Balanced.reach {Id : Type*} [DecidableEq Id] {tr : List (Id × Event α)}
    {s : Shared Id C α} (h : (machine Id C α).Reach (Shared.init Id C α) tr s) :
    Balanced tr s :=
  h.inv Balanced.init fun _ _ _ _ _ hI _ h_step => hI.step h_step

/-- **Conservation.** In every state any number of threads reach by any calls in any
interleaving, the messages whose push has taken effect are the messages in the cells
plus the messages taken by an exchange. A thread's caller is handed what that thread
took, in order; and a message pushed once is either in exactly one cell or has been
taken exactly once. -/
theorem conservation {Id : Type*} [DecidableEq Id] [DecidableEq α]
    {tr : List (Id × Event α)} {s : Shared Id C α}
    (h : (machine Id C α).Reach (Shared.init Id C α) tr s) :
    (stores (Threads.events tr) : Multiset α) =
        cells s.shared.ring + (takes (Threads.events tr) : Multiset α) ∧
      (∀ i, takes (Threads.eventsOf i tr) =
        returns (Threads.eventsOf i tr) ++ (s.loc i).hand) ∧
      ∀ message, (stores (Threads.events tr)).count message = 1 →
        (Finset.univ.filter fun i => s.shared.ring i = some message).card +
          (takes (Threads.events tr)).count message = 1 := by
  have hB := Balanced.reach h
  refine ⟨hB.messages, hB.hands, fun message h_once => ?_⟩
  -- count the message on both sides: it is one cell or one exchange
  have h_count := congrArg (Multiset.count message) hB.messages
  rw [Multiset.count_add, Multiset.coe_count, Multiset.coe_count, count_cells] at h_count
  omega

/-- One thread pushes `7`, another takes it with `try_pop`. -/
def handOver : List (Bool × Choice ℕ) :=
  [(false, .call (.push 7)), (true, .call .tryPop), (false, .run), (true, .run),
    (false, .run), (true, .run), (true, .run)]

/-- The hand-over run meets the hypothesis of `conservation`. -/
theorem conservation_handOver :
    ∃ (tr : List (Bool × Event ℕ)) (s : Shared Bool two ℕ),
      (machine Bool two ℕ).Reach (Shared.init Bool two ℕ) tr s ∧
      returns (Threads.eventsOf true tr) = [7] ∧
      (stores (Threads.events tr) : Multiset ℕ) =
        cells s.shared.ring + (takes (Threads.events tr) : Multiset ℕ) := by
  obtain ⟨tr, s, h_reach, h_ret⟩ := Machine.exists_reach_of_run
    (machine Bool two ℕ) (Shared.init Bool two ℕ) handOver
    (fun _ tr => decide (returns (Threads.eventsOf true tr) = [7])) (by decide)
  exact ⟨tr, s, h_reach, of_decide_eq_true h_ret, (conservation h_reach).1⟩

end MPMC

end Hft
