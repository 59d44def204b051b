import Mathlib.Data.Int.GCD
import Mathlib.Data.Nat.ModEq
import Mathlib.Data.Int.ModEq
import Mathlib.Logic.Function.Iterate
import Mathlib.Tactic.LinearCombination

/-!
# A queue that rotates past servers

`m` servers poll one queue in turn, server `t mod m` at time `t`. A server keeps the item
at the head if it is its own (`own a ≡ t [MOD m]`) and puts it back at the tail otherwise.

A *pass* is as many polls as there are items. It offers every item once, the `i`-th at time
`t + i`, and leaves the `survivors` in order. A queue is *stuck* if no item meets its own
server in this pass or, the queue being what it is, in any later one; as later passes offer
the `i`-th item at the times `t + i + k * length`, that is a congruence modulo the greatest
common divisor of length and `m` (`Stuck`). The queue is emptied exactly if no pass leaves
it stuck (`exists_polls_eq_nil_iff`).
-/

namespace Rotation

variable {α : Type*} (m : ℕ) (own : α → ℕ)

/-- One poll at time `t`. -/
def poll (t : ℕ) : List α → List α
  | [] => []
  | a :: l => if own a ≡ t [MOD m] then l else l ++ [a]

/-- `n` polls from time `t` on. -/
def polls : ℕ → ℕ → List α → List α
  | 0, _, l => l
  | n + 1, t, l => polls n (t + 1) (poll m own t l)

/-- The items that do not meet their own server, if the first is offered at time `t`. -/
def survivors : ℕ → List α → List α
  | _, [] => []
  | t, a :: l => if own a ≡ t [MOD m] then survivors (t + 1) l else a :: survivors (t + 1) l

/-- One pass, from a time and a queue to a time and a queue. -/
def pass (s : ℕ × List α) : ℕ × List α := (s.1 + s.2.length, survivors m own s.1 s.2)

/-- No item will ever meet its own server. -/
structure Stuck (s : ℕ × List α) : Prop where
  ne_nil : s.2 ≠ []
  unmet : ∀ i a, s.2[i]? = some a → ¬own a ≡ s.1 + i [MOD s.2.length.gcd m]

@[simp] theorem polls_nil (n t : ℕ) : polls m own n t [] = [] := by
  induction n generalizing t with
  | zero => rfl
  | succ n ih => exact ih (t + 1)

theorem polls_add (n k t : ℕ) (l : List α) :
    polls m own (n + k) t l = polls m own k (t + n) (polls m own n t l) := by
  induction n generalizing t l with
  | zero => rw [Nat.zero_add]; rfl
  | succ n ih =>
    rw [Nat.succ_add_eq_add_succ, Nat.add_succ, polls, ih, polls]
    congr 1
    omega

/-- An empty queue stays empty. -/
theorem polls_eq_nil_of_le {n k t : ℕ} {l : List α} (h : polls m own n t l = []) (h_le : n ≤ k) :
    polls m own k t l = [] := by
  rw [← Nat.add_sub_cancel' h_le, polls_add, h, polls_nil]

/-- A pass over the front of a queue. -/
theorem polls_append (t : ℕ) (l r : List α) :
    polls m own l.length t (l ++ r) = r ++ survivors m own t l := by
  -- induction on the front; what is put back joins the tail `r`
  induction l generalizing t r with
  | nil => simp [polls, survivors]
  | cons a l ih =>
    rw [List.length_cons, polls, List.cons_append, poll, survivors]
    split
    · exact ih (t + 1) r
    · rw [List.append_assoc, ih, List.append_assoc]
      rfl

/-- A pass is as many polls as there are items. -/
theorem polls_length (t : ℕ) (l : List α) :
    polls m own l.length t l = survivors m own t l := by
  simpa using polls_append m own t l []

/-- Passes are polls. -/
theorem exists_polls_eq_pass (k t : ℕ) (l : List α) :
    ∃ n, (pass m own)^[k] (t, l) = (t + n, polls m own n t l) := by
  induction k with
  | zero => exact ⟨0, rfl⟩
  | succ k ih =>
    obtain ⟨n, h_n⟩ := ih
    refine ⟨n + (polls m own n t l).length, ?_⟩
    rw [Function.iterate_succ_apply', h_n, pass, polls_add, polls_length, Nat.add_assoc]

theorem survivors_sublist (t : ℕ) (l : List α) : (survivors m own t l).Sublist l := by
  induction l generalizing t with
  | nil => exact List.Sublist.refl _
  | cons a l ih =>
    rw [survivors]
    split
    · exact (ih (t + 1)).cons a
    · exact (ih (t + 1)).cons_cons a

/-- Passes add no items. -/
theorem iterate_length_le (k : ℕ) (s : ℕ × List α) :
    ((pass m own)^[k] s).2.length ≤ s.2.length := by
  induction k with
  | zero => exact le_rfl
  | succ k ih =>
    rw [Function.iterate_succ_apply']
    exact (survivors_sublist m own _ _).length_le.trans ih

variable {m own} {t n : ℕ} {l : List α} {s : ℕ × List α}

/-- All items survive if none meets its own server. -/
theorem survivors_eq_self (h : ∀ i a, l[i]? = some a → ¬own a ≡ t + i [MOD m]) :
    survivors m own t l = l := by
  induction l generalizing t with
  | nil => rfl
  | cons a l ih =>
    have h_tail : ∀ i b, l[i]? = some b → ¬own b ≡ t + 1 + i [MOD m] := by
      intro i b h_b
      have := h (i + 1) b (by rw [List.getElem?_cons_succ]; exact h_b)
      rwa [show t + (i + 1) = t + 1 + i by omega] at this
    rw [survivors, if_neg (by simpa using h 0 a rfl), ih h_tail]

/-- An item that meets its own server does not survive. -/
theorem survivors_length_lt {i : ℕ} {a : α} (h_a : l[i]? = some a)
    (h_own : own a ≡ t + i [MOD m]) : (survivors m own t l).length < l.length := by
  induction l generalizing t i with
  | nil => cases h_a
  | cons b l ih =>
    have h_rest := (survivors_sublist m own (t + 1) l).length_le
    rw [survivors]
    split
    · -- `b` meets its own server, so it is gone already
      exact Nat.lt_succ_of_le h_rest
    · next h_b =>
      cases i with
      | zero =>
        cases h_a
        -- `b` is the item, and it was said to survive
        exact absurd h_own h_b
      | succ i =>
        rw [List.getElem?_cons_succ] at h_a
        -- the item is behind `b`: its server comes one turn later
        rw [show t + (i + 1) = t + 1 + i by omega] at h_own
        exact Nat.succ_lt_succ (ih h_a h_own)

/-! ### Stuck queues -/

/-- A pass leaves a stuck queue as it is, and stuck. -/
theorem Stuck.pass_eq (h : Stuck m own s) :
    pass m own s = (s.1 + s.2.length, s.2) ∧ Stuck m own (pass m own s) := by
  have h_self : survivors m own s.1 s.2 = s.2 :=
    survivors_eq_self fun i a h_a h_own =>
      h.unmet i a h_a (h_own.of_dvd (Nat.gcd_dvd_right _ _))
  have h_pass : pass m own s = (s.1 + s.2.length, s.2) := by rw [pass, h_self]
  refine ⟨h_pass, ?_⟩
  rw [h_pass]
  refine ⟨h.ne_nil, fun i a h_a h_own => h.unmet i a h_a (h_own.trans ?_)⟩
  have h_len : s.2.length ≡ 0 [MOD s.2.length.gcd m] :=
    Nat.modEq_zero_iff_dvd.mpr (Nat.gcd_dvd_left _ _)
  simpa using ((Nat.ModEq.refl s.1).add h_len).add (Nat.ModEq.refl i)

theorem Stuck.iterate (h : Stuck m own s) (k : ℕ) :
    (pass m own)^[k] s = (s.1 + k * s.2.length, s.2) := by
  induction k with
  | zero => simp
  | succ k ih =>
    have h_k : ∀ k, Stuck m own ((pass m own)^[k] s) := by
      intro k
      induction k with
      | zero => exact h
      | succ k ih =>
        rw [Function.iterate_succ_apply']
        exact ih.pass_eq.2
    rw [Function.iterate_succ_apply', (h_k k).pass_eq.1, ih, Nat.add_assoc, Nat.succ_mul]

/-- Multiples of `n` reach, modulo `m`, everything congruent modulo `gcd n m`. -/
theorem exists_mul_modEq {a b : ℕ} (hm : 0 < m) (h : a ≡ b [MOD n.gcd m]) :
    ∃ k, a ≡ b + k * n [MOD m] := by
  -- Bézout gives an integer factor, which is then made nonnegative modulo `m`
  obtain ⟨q, h_q⟩ := Nat.modEq_iff_dvd.mp h
  have h_bezout := Nat.gcd_eq_gcd_ab n m
  have h_m : (m : ℤ) ≠ 0 := by exact_mod_cast hm.ne'
  refine ⟨((-(n.gcdA m * q)) % m).toNat, Nat.modEq_iff_dvd.mpr ?_⟩
  have h_k : (((-(n.gcdA m * q)) % m).toNat : ℤ) = -(n.gcdA m * q) % m :=
    Int.toNat_of_nonneg (Int.emod_nonneg _ h_m)
  have h_div := Int.emod_add_mul_ediv (-(n.gcdA m * q)) m
  push_cast
  rw [h_k]
  refine ⟨n.gcdB m * q - n * (-(n.gcdA m * q) / m), ?_⟩
  rw [h_bezout] at h_q
  linear_combination h_q + n * h_div

/-- A queue that is not stuck loses an item in some pass. -/
theorem exists_pass_length_lt (hm : 0 < m) (h : ¬Stuck m own s) (h_ne : s.2 ≠ []) :
    ∃ k, ((pass m own)^[k] s).2.length < s.2.length := by
  -- some item meets its own server in pass `k`, if all items are still there
  obtain ⟨i, a, h_a, h_own⟩ : ∃ i a, s.2[i]? = some a ∧
      own a ≡ s.1 + i [MOD s.2.length.gcd m] := by
    by_contra h_none
    exact h ⟨h_ne, fun i a h_a h_own => h_none ⟨i, a, h_a, h_own⟩⟩
  obtain ⟨k, h_k⟩ := exists_mul_modEq hm h_own
  by_contra h_all
  -- a pass that removes nothing leaves the queue as it is
  have h_stay : ∀ j, (pass m own)^[j] s = (s.1 + j * s.2.length, s.2) := by
    intro j
    induction j with
    | zero => simp
    | succ j ih =>
      have h_next := Function.iterate_succ_apply' (pass m own) j s
      rw [ih, pass] at h_next
      have h_len : s.2.length ≤ (survivors m own (s.1 + j * s.2.length) s.2).length := by
        by_contra h_lt
        refine h_all ⟨j + 1, ?_⟩
        rw [h_next]
        exact not_le.mp h_lt
      rw [h_next, (survivors_sublist m own _ _).eq_of_length_le h_len, Nat.add_assoc, Nat.succ_mul]
  refine h_all ⟨k + 1, ?_⟩
  rw [Function.iterate_succ_apply', h_stay k]
  refine survivors_length_lt h_a ?_
  rwa [show s.1 + i + k * s.2.length = s.1 + k * s.2.length + i by omega] at h_k

/-- **A queue is emptied exactly if no pass leaves it stuck.** Polling strikes out what stands
opposite its own server, and a pass that strikes out nothing repeats itself only when the rest comes
round to the same servers. -/
theorem exists_polls_eq_nil_iff (hm : 0 < m) (t : ℕ) (l : List α) :
    (∃ n, polls m own n t l = []) ↔ ∀ k, ¬Stuck m own ((pass m own)^[k] (t, l)) := by
  constructor
  · rintro ⟨n, h_n⟩ k h_stuck
    -- a stuck queue is still there after `n` more passes, which is `n` polls at least
    have h_later := h_stuck.iterate n
    obtain ⟨n₀, h_n₀⟩ := exists_polls_eq_pass m own k t l
    rw [h_n₀] at h_stuck h_later
    obtain ⟨n', h_n'⟩ := exists_polls_eq_pass m own n (t + n₀)
      (polls m own n₀ t l)
    rw [h_later, Prod.mk.injEq, ← polls_add] at h_n'
    have h_pos : 0 < (polls m own n₀ t l).length := List.length_pos_iff.mpr h_stuck.ne_nil
    have h_long : n ≤ n * (polls m own n₀ t l).length := Nat.le_mul_of_pos_right n h_pos
    have h_first : t + n₀ + n * (polls m own n₀ t l).length = t + n₀ + n' := h_n'.1
    refine h_stuck.ne_nil ?_
    rw [h_n'.2]
    exact polls_eq_nil_of_le m own h_n (by omega)
  · -- induction on the length: a queue that is not stuck gets shorter in some pass
    induction h_len : l.length using Nat.strong_induction_on generalizing t l with
    | _ length ih =>
      intro h_never
      by_cases h_nil : l = []
      · exact ⟨0, h_nil⟩
      obtain ⟨k, h_k⟩ := exists_pass_length_lt (s := (t, l)) hm (h_never 0) h_nil
      obtain ⟨n, h_n⟩ := exists_polls_eq_pass m own k t l
      have h_short : (polls m own n t l).length < length := by
        rw [h_n] at h_k
        exact h_k.trans_eq h_len
      obtain ⟨n', h_n'⟩ := ih _ h_short (t + n) (polls m own n t l) rfl fun j => by
        rw [← h_n, ← Function.iterate_add_apply]
        exact h_never (j + k)
      exact ⟨n + n', by rw [polls_add, h_n']⟩

end Rotation
