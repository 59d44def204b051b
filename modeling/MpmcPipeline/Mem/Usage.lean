import Mathlib.Data.Fintype.Sigma
import Mathlib.Data.Fintype.Sum
import MpmcPipeline.Mem.Coherence
import MpmcPipeline.Mem.Sequential

/-!
# The slots in use

Ownership as a count. Every slot is free, or its message lies in one cell or belongs to one
thread, so the free slots, the messages in the queues and the messages that threads own add up
to the capacity of the pool, in every state of every interleaving (`Handoff.slots_total`). A
worker with clean calls owns one message at most, and none between two calls
(`Worker.slots_total`).
-/

namespace Hft

namespace Handoff

variable {P : PoolCapacity} {Q : Type*} {cap : Q → Capacity} {Id : Type*}

/-- The places, as threads and cells. -/
def Place.equiv (Id : Type*) (cap : Q → Capacity) : Place Id cap ≃ Id ⊕ Cell cap where
  toFun
    | .hand i => .inl i
    | .cell c => .inr c
  invFun
    | .inl i => .hand i
    | .inr c => .cell c
  left_inv place := by cases place <;> rfl
  right_inv place := by cases place <;> rfl

instance [Fintype Id] [Fintype Q] : Fintype (Place Id cap) :=
  Fintype.ofEquiv _ (Place.equiv Id cap).symm

section

variable [DecidableEq Id] [DecidableEq Q] {message : Ptr P → TaggedMessage}
  {tr : List (Id × Event P Q)} {s : System Id P cap}

/-- A state byte is 0 or 1. -/
theorem state_bit (h : (machine Id P cap).Reach (System.init Id cap message) tr s) (p : Ptr P) :
    (s.shared.pool.slots p).state = 0 ∨ (s.shared.pool.slots p).state = 1 := by
  refine h.inv (I := fun _ s => ∀ p, (s.shared.pool.slots p).state = 0 ∨
    (s.shared.pool.slots p).state = 1) (fun _ => Or.inl rfl) ?_ p
  rintro _ s ⟨i, ch⟩ s' es hI - h_step p
  obtain ⟨sh, l, es, h_own, rfl, rfl⟩ := Threads.machine_step h_step
  dsimp only
  -- a move leaves the state bytes, or sets one
  have h_set : ∀ p' (b : Byte), b = 0 ∨ b = 1 → sh.pool = s.shared.pool.setState p' b →
      (sh.pool.slots p).state = 0 ∨ (sh.pool.slots p).state = 1 := by
    intro p' b h_b h_pool
    rw [h_pool]
    by_cases h_p : p = p'
    · subst h_p
      rw [TaggedPool.setState_self]
      exact h_b
    · rw [TaggedPool.setState_of_ne _ h_p]
      exact hI p
  cases step_move h_own with
  | keep _ h_state _ _ _ =>
    rw [h_state]
    exact hI p
  | claim p' _ _ h_pool _ _ => exact h_set p' 1 (Or.inr rfl) h_pool
  | free p' _ h_pool _ _ => exact h_set p' 0 (Or.inl rfl) h_pool
  | put _ _ _ h_pool _ _ _ _ | take _ _ _ h_pool _ _ _ _ =>
    rw [h_pool]
    exact hI p

/-- **Every slot is accounted for**: it is free, in a queue, or with a thread. -/
theorem slots_total [Fintype Id] [Fintype Q]
    (h : (machine Id P cap).Reach (System.init Id cap message) tr s) :
    s.shared.pool.free + ∑ q, (s.shared.queues q).occupancy + ∑ i, (s.loc i).owned.length =
      P.val := by
  have hE := (HandoffInv.reach h).exclusive
  -- the slots in use, counted by the places that hold their messages
  have h_used : (Finset.univ.filter fun p => (s.shared.pool.slots p).state = 1).card =
      ∑ place, (held s place).length := by
    have h_used : Exclusive (held s)
        (· ∈ (Finset.univ.filter fun p => (s.shared.pool.slots p).state = 1).val) :=
      ⟨hE.nodup, hE.unique, fun p => by
        rw [← hE.live_iff p]
        simp⟩
    have h_sum := h_used.sum_eq (Finset.nodup _)
    rw [← Finset.card_val, ← h_sum, Multiset.card_sum]
    rfl
  have h_places : ∑ place, (held s place).length =
      ∑ i, (s.loc i).owned.length + ∑ q, (s.shared.queues q).occupancy := by
    rw [← (Place.equiv Id cap).symm.sum_comp, Fintype.sum_sum_type, ← Shared.card_full,
      Finset.card_filter]
    refine congrArg _ (Finset.sum_congr rfl fun c _ => ?_)
    show (s.shared.cell c).toList.length = _
    cases s.shared.cell c <;> rfl
  -- a slot that is not free is in use
  have h_bit : (Finset.univ.filter fun p => ¬(s.shared.pool.slots p).state = 0) =
      Finset.univ.filter fun p => (s.shared.pool.slots p).state = 1 := by
    refine Finset.filter_congr fun p _ => ⟨(state_bit h p).resolve_left, fun h_one h_zero => ?_⟩
    exact absurd (h_one.symm.trans h_zero) (by decide)
  have h_all := Finset.card_filter_add_card_filter_not
    (s := (Finset.univ : Finset (Ptr P))) fun p => (s.shared.pool.slots p).state = 0
  rw [h_bit, h_used, h_places, Finset.card_univ, Fintype.card_fin] at h_all
  rw [TaggedPool.free]
  omega

end

end Handoff

namespace Worker

variable {P : PoolCapacity} {Q Op : Type*} {σ : Type} {cap : Q → Capacity} {Id : Type*}

/-- A call holds one message at most. -/
theorem Doing.owned_length_le {l : Local P cap σ} {held : Held P} (h : Doing l held) :
    l.base.owned.length ≤ 1 := by
  -- none while it scans or is about to pop, one from then on
  cases h with
  | between held calls h_code =>
    cases held with
    | none => exact Nat.zero_le 1
    | some held => exact le_refl 1
  | acquiring calls h_pc h_none h_some =>
    cases h_pc with
    | scan => exact Nat.zero_le 1
    | _ => exact le_refl 1
  | popping calls h_pc h_none h_some => cases h_pc <;> exact Nat.zero_le 1
  | popped calls h_some => exact le_refl 1
  | pushing calls h_pc h_st h_next => cases h_pc <;> exact le_refl 1

/-- Between two calls a worker has no message. -/
theorem Doing.owned_of_done {l : Local P cap σ} {held : Held P} (h : Doing l held)
    (h_code : l.code = .done ()) : l.base.owned = [] := by
  cases h with
  | between held calls h_ends =>
    subst h_code
    obtain rfl : held = none := h_ends
    rfl
  | _ => cases h_code

section

variable [DecidableEq Id] [DecidableEq Q] [Fintype Id] [Fintype Q]
  {ops : Op → Routine P Q σ Unit} {message : Ptr P → TaggedMessage} {parts : σ}
  {tr : List (Id × Event P Q)} {s : System Id P cap σ}

/-- **The slots in use.** With clean calls, what is not free is in a queue or with one of the
workers that are in a call. -/
theorem slots_total (h_ops : ∀ op, Clean (ops op))
    (h : (machine Id P cap ops).Reach (System.init Id cap message parts) tr s) :
    s.shared.mem.pool.free + ∑ q, (s.shared.mem.queues q).occupancy +
        ∑ i, (s.loc i).base.owned.length = P.val ∧
      ∀ i, (s.loc i).base.owned.length ≤ 1 ∧
        ((s.loc i).code = .done () → (s.loc i).base.owned = []) := by
  obtain ⟨tr', h_base⟩ := reach_base h
  refine ⟨Handoff.slots_total h_base, fun i => ?_⟩
  obtain ⟨held, h_doing, -⟩ := (CoherentInv.reach h_ops h).knowing.hand i
  exact ⟨h_doing.owned_length_le, h_doing.owned_of_done⟩

end

end Worker

end Hft
