import Mathlib.Logic.Function.Iterate

/-!
# Loops that count

A loop is a test and a body on the values of its variables. `Loop.run` evaluates it with
`fuel` for the evaluations of the test, and `Loop.Visits` are the values of the variables
each time the test is evaluated, so a property of the values on the way (that a counter stays
in its type, that a product does not overflow) is a property of what is visited.

`Loop.Rounds` says that the loop makes exactly `n` rounds. Then any fuel above `n` gives the
`n`-th iterate of the body (`Rounds.run_eq`), and the iterates up to it are all that is visited
(`Rounds.exists_of_visits`); every round begins with one of the first `n`
(`Rounds.exists_of_test`).
-/

/-- `while (test) body`, on the values `S` of the variables. -/
structure Loop (S : Type*) where
  test : S → Bool
  body : S → S

namespace Loop

variable {S : Type*} (L : Loop S)

/-- The values at the end, `none` when the fuel runs out before. -/
def run : ℕ → S → Option S
  | 0, _ => none
  | fuel + 1, s => if L.test s then run fuel (L.body s) else some s

/-- The values with which the test is evaluated. -/
inductive Visits (s₀ : S) : S → Prop
  | start : Visits s₀ s₀
  | round {s : S} : Visits s₀ s → L.test s = true → Visits s₀ (L.body s)

/-- The loop makes `n` rounds. -/
structure Rounds (s₀ : S) (n : ℕ) : Prop where
  test : ∀ k < n, L.test (L.body^[k] s₀) = true
  stop : L.test (L.body^[n] s₀) = false

variable {L} {s₀ s : S} {n : ℕ}

/-- The rounds after the first. -/
theorem Rounds.tail (h : L.Rounds s₀ (n + 1)) : L.Rounds (L.body s₀) n where
  test k h_k := h.test (k + 1) (Nat.succ_lt_succ h_k)
  stop := h.stop

/-- **Termination**: fuel for the rounds and for the last test is enough, and the loop ends where
its body has been applied as often as there are rounds. -/
theorem Rounds.run_eq (h : L.Rounds s₀ n) {fuel : ℕ} (h_fuel : n < fuel) :
    L.run fuel s₀ = some (L.body^[n] s₀) := by
  -- one unit of fuel for each round
  induction n generalizing s₀ fuel with
  | zero =>
    obtain ⟨fuel, rfl⟩ := Nat.exists_eq_succ_of_ne_zero (Nat.ne_zero_of_lt h_fuel)
    have h_stop : ¬L.test s₀ = true := Bool.eq_false_iff.mp h.stop
    rw [run, if_neg h_stop]
    rfl
  | succ n ih =>
    obtain ⟨fuel, rfl⟩ := Nat.exists_eq_succ_of_ne_zero (Nat.ne_zero_of_lt h_fuel)
    have h_first : L.test s₀ = true := h.test 0 (Nat.succ_pos n)
    rw [run, if_pos h_first, ih h.tail (Nat.lt_of_succ_lt_succ h_fuel)]
    rfl

/-- After the last round the test fails. -/
theorem Rounds.lt_of_test (h : L.Rounds s₀ n) {k : ℕ} (h_k : k ≤ n)
    (h_test : L.test (L.body^[k] s₀) = true) : k < n := by
  rcases Nat.lt_or_eq_of_le h_k with h_lt | rfl
  · exact h_lt
  · rw [h.stop] at h_test
    exact absurd h_test Bool.false_ne_true

theorem Rounds.exists_of_visits (h : L.Rounds s₀ n) (h_s : L.Visits s₀ s) :
    ∃ k ≤ n, s = L.body^[k] s₀ := by
  induction h_s with
  | start => exact ⟨0, Nat.zero_le n, rfl⟩
  | round _ h_test ih =>
    obtain ⟨k, h_k, rfl⟩ := ih
    exact ⟨k + 1, h.lt_of_test h_k h_test, (Function.iterate_succ_apply' L.body k s₀).symm⟩

theorem Rounds.exists_of_test (h : L.Rounds s₀ n) (h_s : L.Visits s₀ s)
    (h_test : L.test s = true) : ∃ k < n, s = L.body^[k] s₀ := by
  obtain ⟨k, h_k, rfl⟩ := h.exists_of_visits h_s
  exact ⟨k, h.lt_of_test h_k h_test, rfl⟩

end Loop
