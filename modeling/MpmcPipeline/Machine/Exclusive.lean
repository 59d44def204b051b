import Mathlib.Algebra.BigOperators.Group.Finset.Basic
import Mathlib.Algebra.Order.BigOperators.Group.Finset
import Mathlib.Data.List.Nodup
import Mathlib.Data.List.Perm.Basic

/-!
# Exclusive ownership

Tokens are held at places: a place holds a list of tokens, and a token may be *live* or
not. `Exclusive held live` says that the live tokens are exactly the held ones and that
no token is held twice, at two places or at one. The rules say that it survives the four
things that can happen to a token:

* a token that is not live appears in a place (`Exclusive.claim`);
* a held token disappears (`Exclusive.free`);
* a token moves from one place to another (`Exclusive.move`);
* the tokens of every place stay (`Exclusive.congr`).

Each rule describes the new places pointwise and up to permutation, so that it applies
to any way of writing the update.
-/

variable {Place Token : Type*}

/-- The live tokens are the held ones, each held once. -/
structure Exclusive (held : Place → List Token) (live : Token → Prop) : Prop where
  nodup : ∀ a, (held a).Nodup
  unique : ∀ a b t, t ∈ held a → t ∈ held b → a = b
  live_iff : ∀ t, live t ↔ ∃ a, t ∈ held a

namespace Exclusive

variable {held held' : Place → List Token} {live live' : Token → Prop} {a b : Place}
  {t : Token}

theorem empty : Exclusive (fun _ : Place => ([] : List Token)) (fun _ => False) where
  nodup := fun _ => List.nodup_nil
  unique := fun _ _ _ h_mem => absurd h_mem List.not_mem_nil
  live_iff := fun _ => ⟨False.elim, fun ⟨_, h_mem⟩ => absurd h_mem List.not_mem_nil⟩

/-- A live token is held at exactly one place. -/
theorem existsUnique (h : Exclusive held live) (h_live : live t) :
    ∃! a, t ∈ held a := by
  obtain ⟨a, h_mem⟩ := (h.live_iff t).mp h_live
  exact ⟨a, h_mem, fun b h_b => h.unique b a t h_b h_mem⟩

/-- A held token is live. -/
theorem live_of_mem (h : Exclusive held live) (h_mem : t ∈ held a) : live t :=
  (h.live_iff t).mpr ⟨a, h_mem⟩

/-- A token that is not live is held nowhere. -/
theorem not_mem (h : Exclusive held live) (h_dead : ¬live t) (a : Place) : t ∉ held a :=
  fun h_mem => h_dead (h.live_of_mem h_mem)

/-- What a place holds, no other place holds. -/
theorem not_mem_of_ne (h : Exclusive held live) (h_mem : t ∈ held a) (h_ne : b ≠ a) :
    t ∉ held b :=
  fun h_b => h_ne (h.unique b a t h_b h_mem)

/-- Every place keeps its tokens. -/
theorem congr (h : Exclusive held live) (h_held : ∀ a, (held' a).Perm (held a))
    (h_live : ∀ u, live' u ↔ live u) : Exclusive held' live' where
  nodup a := (h_held a).nodup_iff.mpr (h.nodup a)
  unique a b u h_a h_b := h.unique a b u ((h_held a).mem_iff.mp h_a) ((h_held b).mem_iff.mp h_b)
  live_iff u := by
    rw [h_live, h.live_iff]
    exact exists_congr fun a => (h_held a).mem_iff.symm

/-- A token that was not live appears in place `a`. -/
theorem claim (h : Exclusive held live) (h_dead : ¬live t)
    (h_a : (held' a).Perm (t :: held a)) (h_other : ∀ b, b ≠ a → (held' b).Perm (held b))
    (h_live : ∀ u, live' u ↔ u = t ∨ live u) : Exclusive held' live' := by
  have h_fresh := h.not_mem h_dead
  -- what a place holds now is what it held, and the new token in `a`
  have h_mem : ∀ b u, u ∈ held' b ↔ (b = a ∧ u = t) ∨ u ∈ held b := by
    intro b u
    by_cases h_b : b = a
    · subst h_b
      rw [h_a.mem_iff, List.mem_cons]
      simp
    · rw [(h_other b h_b).mem_iff]
      simp [h_b]
  refine ⟨fun b => ?_, fun b c u h_b h_c => ?_, fun u => ?_⟩
  · by_cases h_b : b = a
    · subst h_b
      exact h_a.nodup_iff.mpr (List.nodup_cons.mpr ⟨h_fresh b, h.nodup b⟩)
    · exact (h_other b h_b).nodup_iff.mpr (h.nodup b)
  · -- the new token was held nowhere, so it is not also an old one
    rcases (h_mem b u).mp h_b with ⟨rfl, rfl⟩ | h_b
    · rcases (h_mem c u).mp h_c with ⟨rfl, -⟩ | h_c
      · rfl
      · exact absurd h_c (h_fresh c)
    · rcases (h_mem c u).mp h_c with ⟨rfl, rfl⟩ | h_c
      · exact absurd h_b (h_fresh b)
      · exact h.unique b c u h_b h_c
  · rw [h_live, h.live_iff]
    constructor
    · rintro (rfl | ⟨b, h_b⟩)
      · exact ⟨a, (h_mem a u).mpr (Or.inl ⟨rfl, rfl⟩)⟩
      · exact ⟨b, (h_mem b u).mpr (Or.inr h_b)⟩
    · rintro ⟨b, h_b⟩
      rcases (h_mem b u).mp h_b with ⟨-, rfl⟩ | h_b
      · exact Or.inl rfl
      · exact Or.inr ⟨b, h_b⟩

/-- A token held in place `a` disappears. -/
theorem free (h : Exclusive held live) (h_a : (held a).Perm (t :: held' a))
    (h_other : ∀ b, b ≠ a → (held' b).Perm (held b))
    (h_live : ∀ u, live' u ↔ u ≠ t ∧ live u) : Exclusive held' live' := by
  have h_nodup := h_a.nodup_iff.mp (h.nodup a)
  -- what a place holds now is what it held, less the token
  have h_held : t ∈ held a := h_a.mem_iff.mpr List.mem_cons_self
  have h_mem : ∀ b u, u ∈ held' b ↔ u ≠ t ∧ u ∈ held b := by
    intro b u
    by_cases h_b : b = a
    · subst h_b
      rw [h_a.mem_iff, List.mem_cons]
      constructor
      · intro h_u
        exact ⟨fun h_eq => (List.nodup_cons.mp h_nodup).1 (h_eq ▸ h_u), Or.inr h_u⟩
      · rintro ⟨h_ne, h_eq | h_u⟩
        · exact absurd h_eq h_ne
        · exact h_u
    · rw [(h_other b h_b).mem_iff]
      constructor
      · intro h_u
        exact ⟨fun h_eq => h.not_mem_of_ne h_held h_b (h_eq ▸ h_u), h_u⟩
      · exact And.right
  refine ⟨fun b => ?_, fun b c u h_b h_c => ?_, fun u => ?_⟩
  · by_cases h_b : b = a
    · subst h_b
      exact (List.nodup_cons.mp h_nodup).2
    · exact (h_other b h_b).nodup_iff.mpr (h.nodup b)
  · exact h.unique b c u ((h_mem b u).mp h_b).2 ((h_mem c u).mp h_c).2
  · rw [h_live, h.live_iff, ← exists_and_left]
    exact exists_congr fun b => (h_mem b u).symm

/-- A token moves from place `a` to place `b`. -/
theorem move (h : Exclusive held live) (h_ne : a ≠ b)
    (h_a : (held a).Perm (t :: held' a)) (h_b : (held' b).Perm (t :: held b))
    (h_other : ∀ c, c ≠ a → c ≠ b → (held' c).Perm (held c))
    (h_live : ∀ u, live' u ↔ live u) : Exclusive held' live' := by
  classical
  -- through the state in which nobody holds the token
  have h_mid : Exclusive (Function.update held a (held' a)) (fun u => u ≠ t ∧ live u) := by
    refine h.free (t := t) (a := a) ?_ (fun c h_c => ?_) fun u => Iff.rfl
    · rw [Function.update_self]
      exact h_a
    · rw [Function.update_of_ne h_c]
  have h_t : live t := h.live_of_mem (h_a.mem_iff.mpr List.mem_cons_self)
  refine h_mid.claim (t := t) (a := b) (fun h_live => h_live.1 rfl) ?_ (fun c h_c => ?_)
    fun u => ?_
  · rw [Function.update_of_ne h_ne.symm]
    exact h_b
  · by_cases h_ca : c = a
    · subst h_ca
      rw [Function.update_self]
    · rw [Function.update_of_ne h_ca]
      exact h_other c h_ca h_c
  · rw [h_live]
    by_cases h_u : u = t
    · simp [h_u, h_t]
    · simp [h_u]

/-- All places together hold the live tokens. -/
theorem sum_eq [Fintype Place] [DecidableEq Token] {tokens : Multiset Token}
    (h : Exclusive held (· ∈ tokens)) (h_nodup : tokens.Nodup) :
    ∑ a, (held a : Multiset Token) = tokens := by
  ext t
  rw [Multiset.count_sum']
  by_cases h_t : t ∈ tokens
  · obtain ⟨a, h_a, h_unique⟩ := h.existsUnique h_t
    -- one place counts one, the others nothing
    rw [Finset.sum_eq_single a, Multiset.coe_count, List.count_eq_one_of_mem (h.nodup a) h_a,
      Multiset.count_eq_one_of_mem h_nodup h_t]
    · intro b _ h_b
      rw [Multiset.coe_count]
      exact List.count_eq_zero.mpr fun h_mem => h_b (h_unique b h_mem)
    · exact fun h_a => absurd (Finset.mem_univ a) h_a
  · rw [Multiset.count_eq_zero.mpr h_t]
    refine Finset.sum_eq_zero fun a _ => ?_
    rw [Multiset.coe_count]
    exact List.count_eq_zero.mpr (h.not_mem h_t a)

end Exclusive
