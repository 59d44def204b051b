import Mathlib.Data.List.GetD
import Mathlib.Data.List.Induction
import Mathlib.Order.Interval.Finset.Nat

/-!
# The lives of objects in a history

Every event of a history is about one object, its `key`. `lastAt key tr k` is the last
event about the object `k`, and `Lives R tr` says that every event of `tr` relates by `R`
to the event before it in the life of its object, or to `none` where it is the first.

`Next key tr i j` relates the positions of two events that follow each other in the life
of one object. Each position has at most one predecessor and at most one successor
(`Next.left_unique`, `Next.right_unique`), and in a history of lives every event is the
first of its object or follows another as `R` says (`Lives.next`). `countP_le_countP`
compares numbers of events by a relation of their positions.
-/

namespace History

variable {Event Key : Type*} (key : Event → Key)

/-- The events at `i` and `j` are about one object, with no other event about it between
them. -/
structure Next (tr : List Event) (i j : ℕ) : Prop where
  lt : i < j
  same : ∃ e f, tr[i]? = some e ∧ tr[j]? = some f ∧ key e = key f
  between : ∀ n, i < n → n < j → ∀ e f, tr[n]? = some e → tr[j]? = some f → key e ≠ key f

variable {key}

theorem Next.left_unique {tr : List Event} {i i' j : ℕ} (h : Next key tr i j)
    (h' : Next key tr i' j) : i = i' := by
  obtain ⟨e, f, h_e, h_f, h_key⟩ := h.same
  obtain ⟨e', f', h_e', h_f', h_key'⟩ := h'.same
  rw [h_f, Option.some.injEq] at h_f'
  subst h_f'
  -- the later of two predecessors would stand between the earlier one and `j`
  rcases Nat.lt_trichotomy i i' with h_lt | h_eq | h_gt
  · exact absurd h_key' (h.between i' h_lt h'.lt e' f h_e' h_f)
  · exact h_eq
  · exact absurd h_key (h'.between i h_gt h.lt e f h_e h_f)

theorem Next.right_unique {tr : List Event} {i j j' : ℕ} (h : Next key tr i j)
    (h' : Next key tr i j') : j = j' := by
  obtain ⟨e, f, h_e, h_f, h_key⟩ := h.same
  obtain ⟨e', f', h_e', h_f', h_key'⟩ := h'.same
  rw [h_e, Option.some.injEq] at h_e'
  subst h_e'
  have h_same : key f = key f' := h_key.symm.trans h_key'
  rcases Nat.lt_trichotomy j j' with h_lt | h_eq | h_gt
  · exact absurd h_same (h'.between j h.lt h_lt f f' h_f h_f')
  · exact h_eq
  · exact absurd h_same.symm (h.between j' h'.lt h_gt f' f h_f' h_f)

theorem Next.key_eq {tr : List Event} {i j : ℕ} {e f : Event} (h : Next key tr i j)
    (h_e : tr[i]? = some e) (h_f : tr[j]? = some f) : key e = key f := by
  obtain ⟨e', f', h_e', h_f', h_key⟩ := h.same
  rw [h_e, Option.some.injEq] at h_e'
  rw [h_f, Option.some.injEq] at h_f'
  rw [h_e', h_f', h_key]

/-- Two events about one object, one right after the other. -/
theorem Next.succ {tr : List Event} {i : ℕ} {e f : Event} (h_e : tr[i]? = some e)
    (h_f : tr[i + 1]? = some f) (h_key : key e = key f) : Next key tr i (i + 1) where
  lt := Nat.lt_succ_self i
  same := ⟨e, f, h_e, h_f, h_key⟩
  between _ h_n h_n' := absurd h_n' (Nat.not_lt.mpr h_n)

/-! ### Counting -/

/-- The positions of the events that satisfy `p`. -/
def positions (p : Event → Bool) (tr : List Event) : Finset ℕ :=
  (Finset.range tr.length).filter fun i => (tr[i]?).any p

theorem mem_positions {tr : List Event} {p : Event → Bool} {i : ℕ} :
    i ∈ positions p tr ↔ ∃ e, tr[i]? = some e ∧ p e = true := by
  rw [positions, Finset.mem_filter, Finset.mem_range, Option.any_eq_true]
  refine ⟨And.right, ?_⟩
  rintro ⟨e, h_e, h_p⟩
  exact ⟨(List.getElem?_eq_some_iff.mp h_e).1, e, h_e, h_p⟩

theorem card_positions (p : Event → Bool) (tr : List Event) :
    (positions p tr).card = tr.countP p := by
  -- from the end, as `lastAt` and the runs are: the new position is the largest
  induction tr using List.reverseRecOn with
  | nil => rfl
  | append_singleton tr e ih =>
    have h_old : (Finset.range tr.length).filter (fun i => ((tr ++ [e])[i]?).any p) =
        positions p tr :=
      Finset.filter_congr fun i h_i => by
        rw [List.getElem?_append_left (Finset.mem_range.mp h_i)]
    rw [positions, List.length_append, List.length_singleton, Finset.range_add_one,
      Finset.filter_insert, h_old, List.countP_append, List.countP_singleton, ← ih]
    have h_last : (tr ++ [e])[tr.length]? = some e := by simp
    rw [h_last, Option.any_some]
    split
    · rw [Finset.card_insert_of_notMem]
      intro h_mem
      obtain ⟨f, h_f, -⟩ := mem_positions.mp h_mem
      exact absurd (List.getElem?_eq_some_iff.mp h_f).1 (lt_irrefl _)
    · rfl

/-- **Counting along a relation.** If every `q` stems from a `p`, and no two from one, there
are at least as many `p`s. -/
theorem countP_le_countP {tr : List Event} {p q : Event → Bool} (Stems : ℕ → ℕ → Prop)
    (h_exists : ∀ j, j ∈ positions q tr → ∃ i, i ∈ positions p tr ∧ Stems i j)
    (h_unique : ∀ i j j', Stems i j → Stems i j' → j = j') : tr.countP q ≤ tr.countP p := by
  rw [← card_positions, ← card_positions]
  -- an injection of the positions of `q` into those of `p`
  choose! origin h_origin h_stems using h_exists
  refine Finset.card_le_card_of_injOn origin h_origin fun j h_j j' h_j' h_eq => ?_
  exact h_unique _ _ _ (h_stems j h_j) (h_eq ▸ h_stems j' h_j')

/-! ### Lives -/

variable [DecidableEq Key] (key)

/-- The last event about an object. -/
def lastAt (tr : List Event) (k : Key) : Option Event :=
  (tr.filter fun e => key e = k).getLast?

@[simp] theorem lastAt_nil (k : Key) : lastAt key [] k = none := rfl

@[simp] theorem lastAt_snoc_self (tr : List Event) (e : Event) :
    lastAt key (tr ++ [e]) (key e) = some e := by
  simp [lastAt, List.filter_append]

theorem lastAt_snoc_of_ne (tr : List Event) {e : Event} {k : Key} (h : k ≠ key e) :
    lastAt key (tr ++ [e]) k = lastAt key tr k := by
  simp [lastAt, List.filter_append, Ne.symm h]

/-- Every event follows the one before it about the same object. -/
def Lives (R : Option Event → Event → Prop) (tr : List Event) : Prop :=
  ∀ tr₁ e tr₂, tr = tr₁ ++ e :: tr₂ → R (lastAt key tr₁ (key e)) e

variable {key} {R : Option Event → Event → Prop} {tr : List Event} {e : Event}

theorem Lives.nil : Lives key R [] := by
  intro tr₁ e tr₂ h_tr
  exact absurd h_tr (by simp)

/-- One more event. -/
theorem Lives.snoc (h : Lives key R tr) (h_e : R (lastAt key tr (key e)) e) :
    Lives key R (tr ++ [e]) := by
  intro tr₁ f tr₂ h_tr
  -- the event is the new one or one of the old
  rcases List.eq_nil_or_concat tr₂ with rfl | ⟨tr₂, g, rfl⟩
  · obtain ⟨rfl, h_f⟩ := List.append_inj' h_tr rfl
    rw [← List.singleton_inj.mp h_f]
    exact h_e
  · have h_last : tr ++ [e] = (tr₁ ++ f :: tr₂) ++ [g] := by
      rw [h_tr, List.concat_eq_append, List.append_assoc, List.cons_append]
    exact h tr₁ f tr₂ (List.append_inj' h_last rfl).1

/-- Where the last event about an object is. -/
theorem exists_of_lastAt {k : Key} (h : lastAt key tr k = some e) :
    ∃ i : ℕ, tr[i]? = some e ∧ key e = k ∧
      ∀ (n : ℕ) f, i < n → tr[n]? = some f → key f ≠ k := by
  induction tr using List.reverseRecOn with
  -- the history is taken from its end, as `lastAt` is
  | nil => cases h
  | append_singleton tr f ih =>
    by_cases h_key : k = key f
    · -- the new event is about the object, and nothing comes after it
      subst h_key
      rw [lastAt_snoc_self, Option.some.injEq] at h
      subst h
      refine ⟨tr.length, by simp, rfl, fun n g h_n h_g => ?_⟩
      rw [List.getElem?_eq_none (by simp; omega)] at h_g
      cases h_g
    · rw [lastAt_snoc_of_ne key tr h_key] at h
      -- the last event about `k` is an old one, and the new event is about another object
      obtain ⟨i, h_i, h_e, h_after⟩ := ih h
      have h_lt : i < tr.length := (List.getElem?_eq_some_iff.mp h_i).1
      refine ⟨i, by rw [List.getElem?_append_left h_lt, h_i], h_e, fun n g h_n h_g => ?_⟩
      rcases Nat.lt_or_ge n tr.length with h_old | h_new
      · rw [List.getElem?_append_left h_old] at h_g
        exact h_after n g h_n h_g
      · rw [List.getElem?_append_right h_new, List.getElem?_singleton] at h_g
        split at h_g
        · cases h_g
          exact Ne.symm h_key
        · cases h_g

theorem key_of_lastAt {k : Key} (h : lastAt key tr k = some e) : key e = k := by
  obtain ⟨-, -, h_key, -⟩ := exists_of_lastAt h
  exact h_key

/-- **Every event follows another or is the first.** In a history of lives an event about a key
either may begin the key's life, or may follow the event about the same key that stands before it.
-/
theorem Lives.next (h : Lives key R tr) {j : ℕ} (h_j : tr[j]? = some e) :
    R none e ∨ ∃ i f, Next key tr i j ∧ tr[i]? = some f ∧ R (some f) e := by
  obtain ⟨h_lt, h_get⟩ := List.getElem?_eq_some_iff.mp h_j
  -- what comes before position `j` is the history that `Lives` speaks of
  have h_tr : tr = tr.take j ++ e :: tr.drop (j + 1) := by
    rw [← h_get, ← List.drop_eq_getElem_cons h_lt, List.take_append_drop]
  have h_R := h _ _ _ h_tr
  cases h_last : lastAt key (tr.take j) (key e) with
  | none => exact Or.inl (h_last ▸ h_R)
  | some f =>
    obtain ⟨i, h_i, h_key, h_after⟩ := exists_of_lastAt h_last
    have h_old : ∀ n, n < j → (tr.take j)[n]? = tr[n]? :=
      fun n h_n => List.getElem?_take_of_lt h_n
    have h_ij : i < j := by
      have := (List.getElem?_eq_some_iff.mp h_i).1
      rw [List.length_take] at this
      omega
    rw [h_old i h_ij] at h_i
    refine Or.inr ⟨i, f, ⟨h_ij, ⟨f, e, h_i, h_j, h_key⟩, fun n h_n h_n' g e' h_g h_e' => ?_⟩,
      h_i, h_last ▸ h_R⟩
    rw [h_j, Option.some.injEq] at h_e'
    subst h_e'
    exact h_after n g h_n (by rw [h_old n h_n', h_g])

end History
