import Mathlib.Algebra.BigOperators.Group.Finset.Piecewise
import Mathlib.Algebra.Group.Basic
import MpmcPipeline.Machine.Basic

/-!
# Ledgers

The threads of an interleaving each account for a quantity that depends on their local
state only, and the shared state accounts for the rest. A step of one thread leaves the
entries of all others as they are, so a quantity that every step conserves between the
shared state and the thread that moves is conserved in total, over every run
(`Threads.ledger`).

`Finset.exists_rest` is the arithmetic of it: one entry is split off a sum over all
threads, and the rest does not depend on it.
-/

/-- Updating one summand: the rest of the sum stays. -/
theorem Finset.exists_rest {Id Local M : Type*} [Fintype Id] [DecidableEq Id] [AddCommMonoid M]
    (f : Local → M) (loc : Id → Local) (i : Id) :
    ∃ rest, ∑ j, f (loc j) = f (loc i) + rest ∧
      ∀ l, ∑ j, f (Function.update loc i l j) = f l + rest := by
  refine ⟨∑ j ∈ Finset.univ \ {i}, f (loc j), ?_, fun l => ?_⟩
  · rw [Finset.sdiff_singleton_eq_erase]
    exact (Finset.add_sum_erase Finset.univ (fun j => f (loc j)) (Finset.mem_univ i)).symm
  · have h_comp : (fun j => f (Function.update loc i l j)) =
        Function.update (fun j => f (loc j)) i (f l) := by
      funext j
      exact Function.apply_update (fun _ => f) loc i l j
    rw [h_comp]
    exact Finset.sum_update_of_mem (Finset.mem_univ i) _ _

namespace Threads

variable {Id Shared Local Action Event M : Type*} [Fintype Id] [DecidableEq Id]
  [AddCommMonoid M]

/-- What the shared state and the threads account for together. -/
def total (g : Shared → M) (f : Local → M) (c : Threads Id Shared Local) : M :=
  g c.shared + ∑ i, f (c.loc i)

/-- **The ledger rule.** Where a step of one thread, from a state that meets the invariant
`I`, moves the quantity between the shared state and this thread, the total of every
reached state is that of the start. -/
theorem ledger {tstep : ThreadStep Shared Local Action Event}
    {C : Threads Id Shared Local → Id × Action → Prop} {c₀ : Threads Id Shared Local}
    {I : Threads Id Shared Local → Prop}
    (h_inv : ∀ tr c, (machine tstep).ReachBy C c₀ tr c → I c) (g : Shared → M) (f : Local → M)
    (h_step : ∀ c i a sh l es, I c → tstep c.shared (c.loc i) a = some (sh, l, es) →
      g sh + f l = g c.shared + f (c.loc i))
    {tr : List (Id × Event)} {c : Threads Id Shared Local}
    (h : (machine tstep).ReachBy C c₀ tr c) : total g f c = total g f c₀ := by
  induction h with
  | init => rfl
  | @step tr c c' a es h_reach hC h_machine ih =>
    obtain ⟨sh, l, es', h_thread, rfl, -⟩ := machine_step h_machine
    -- `rest` is what the other threads hold; the step leaves it alone
    obtain ⟨rest, h_before, h_after⟩ := Finset.exists_rest f c.loc a.1
    rw [← ih]
    calc total g f ⟨sh, Function.update c.loc a.1 l⟩
        = g sh + f l + rest := by rw [total, h_after, add_assoc]
      _ = g c.shared + f (c.loc a.1) + rest := by
          rw [h_step c a.1 a.2 sh l es' (h_inv tr c h_reach) h_thread]
      _ = total g f c := by rw [total, h_before, add_assoc]

end Threads
