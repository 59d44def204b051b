import Mathlib.Data.List.Nodup
import Mathlib.Data.List.Sublists

/-!
# A queue whose items can be put back

The item at the head of a queue is removed, or put back at the tail, any number of times
and by whatever rule. `Requeue.State` has the items that were removed, in the order of
their removal, the queue, and how often each item has been put back.

Removals leave the order of the items as it was; putting one back moves it behind all
others of the queue. So of two items the one that stood in front keeps in front exactly as
long as it has been put back no more often than the other (`Ordered`): two items that
are both gone went in their first order if and only if that is so (`Ordered.sublist_iff`).
-/

namespace Requeue

variable {α : Type*}

/-! ### What stands in front of what -/

section

variable {x y z : α} {l r : List α}

/-- What is in the front stands in front of what is in the rest. -/
theorem before_append (h_x : x ∈ l) (h_y : y ∈ r) : [x, y].Sublist (l ++ r) :=
  (List.singleton_sublist.mpr h_x).append (List.singleton_sublist.mpr h_y)

theorem not_before_of_before (h_nodup : l.Nodup) (h : [x, y].Sublist l) :
    ¬[y, x].Sublist l := by
  -- induction on the list: the first item of a pair is found before the other
  induction l with
  | nil => cases h
  | cons a l ih =>
    obtain ⟨h_a, h_rest⟩ := List.nodup_cons.mp h_nodup
    intro h'
    cases h with
    | cons _ h =>
      cases h' with
      | cons _ h' => exact ih h_rest h h'
      | cons_cons _ h' => exact h_a (h.subset (by simp))
    | cons_cons _ h =>
      cases h' with
      | cons _ h' => exact h_a (h'.subset (by simp))
      | cons_cons _ h' => exact h_a (List.singleton_sublist.mp h)

/-- Of two items one stands in front. -/
theorem before_or_before (h_ne : x ≠ y) (h_x : x ∈ l) (h_y : y ∈ l) :
    [x, y].Sublist l ∨ [y, x].Sublist l := by
  induction l with
  | nil => cases h_x
  | cons a l ih =>
    rcases List.mem_cons.mp h_x with rfl | h_xl
    · rcases List.mem_cons.mp h_y with rfl | h_yl
      · exact absurd rfl h_ne
      · exact Or.inl ((List.singleton_sublist.mpr h_yl).cons_cons x)
    · rcases List.mem_cons.mp h_y with rfl | h_yl
      · exact Or.inr ((List.singleton_sublist.mpr h_xl).cons_cons y)
      · rcases ih h_xl h_yl with h | h
        · exact Or.inl (h.cons a)
        · exact Or.inr (h.cons a)

/-- What stands behind the head of the queue is in the rest of it. -/
theorem mem_rest_of_before (h_nodup : (l ++ z :: r).Nodup) (h : [z, x].Sublist (l ++ z :: r)) :
    x ∈ r := by
  have h_x : x ∈ l ++ z :: r := h.subset (by simp)
  rcases List.mem_append.mp h_x with h_l | h_r
  · -- in front of the queue it would stand in front of the head
    exact absurd h (not_before_of_before h_nodup (before_append h_l List.mem_cons_self))
  · rcases List.mem_cons.mp h_r with rfl | h_r
    · exact absurd (h_nodup.sublist h) (by simp)
    · exact h_r

/-- What stands in front of the head of the queue is gone. -/
theorem mem_gone_of_before (h_nodup : (l ++ z :: r).Nodup) (h : [x, z].Sublist (l ++ z :: r)) :
    x ∈ l := by
  have h_x : x ∈ l ++ z :: r := h.subset (by simp)
  rcases List.mem_append.mp h_x with h_l | h_r
  · exact h_l
  · rcases List.mem_cons.mp h_r with rfl | h_r
    · exact absurd (h_nodup.sublist h) (by simp)
    · refine absurd h (not_before_of_before h_nodup ?_)
      exact ((List.singleton_sublist.mpr h_r).cons_cons z).trans (List.sublist_append_right _ _)

/-- Moving the head to the tail leaves two other items as they stood. -/
theorem before_rotate [DecidableEq α] (h_x : x ≠ z) (h_y : y ≠ z)
    (h : [x, y].Sublist (l ++ z :: r)) : [x, y].Sublist (l ++ (r ++ [z])) := by
  have h_filter := h.filter (· ≠ z)
  simp only [ne_eq, decide_not, List.filter_append, List.filter_cons, h_x, h_y, decide_false,
    decide_true, Bool.not_false, Bool.not_true, if_true, List.filter_nil, Bool.false_eq_true,
    if_false] at h_filter
  have h_rest := h_filter.trans (List.filter_sublist.append List.filter_sublist)
  rw [← List.append_assoc]
  exact h_rest.trans (List.sublist_append_left _ _)

end

/-! ### Removing and putting back -/

/-- The items removed, the queue, and the items put back, once for each time. -/
structure State (α : Type*) where
  gone : List α
  queue : List α
  back : List α

/-- What can happen to the head of the queue. -/
inductive Step : State α → State α → Prop
  | remove (gone : List α) (x : α) (rest back : List α) :
      Step ⟨gone, x :: rest, back⟩ ⟨gone ++ [x], rest, back⟩
  | putBack (gone : List α) (x : α) (rest back : List α) :
      Step ⟨gone, x :: rest, back⟩ ⟨gone, rest ++ [x], back ++ [x]⟩

/-- No item is there twice. -/
theorem Step.nodup {s s' : State α} (h : Step s s') (h_nodup : (s.gone ++ s.queue).Nodup) :
    (s'.gone ++ s'.queue).Nodup := by
  cases h with
  | remove gone x rest back => rwa [List.append_assoc]
  | putBack gone x rest back =>
    exact ((List.perm_append_singleton x rest).append_left gone).nodup_iff.mpr h_nodup

variable [DecidableEq α]

/-- Which of the items `x` and `y` is in front, `x` having been in front at the start, and how
often the two have been put back. In the queue they take turns at it. -/
def Ordered (x y : α) (s : State α) : Prop :=
  ([x, y].Sublist (s.gone ++ s.queue) ∧ s.back.count x ≤ s.back.count y ∧
    (x ∈ s.queue → s.back.count x = s.back.count y)) ∨
  ([y, x].Sublist (s.gone ++ s.queue) ∧ s.back.count y < s.back.count x ∧
    (y ∈ s.queue → s.back.count x = s.back.count y + 1))

theorem Ordered.start {x y : α} {l : List α} (h : [x, y].Sublist l) :
    Ordered x y ⟨[], l, []⟩ :=
  Or.inl ⟨h, le_rfl, fun _ => rfl⟩

theorem count_snoc_self (back : List α) (z : α) : (back ++ [z]).count z = back.count z + 1 := by
  rw [List.count_append, List.count_singleton_self]

theorem count_snoc_of_ne (back : List α) {x z : α} (h : x ≠ z) :
    (back ++ [z]).count x = back.count x := by
  rw [List.count_append, List.count_singleton, if_neg (by simpa using h.symm), Nat.add_zero]

theorem Ordered.remove {x y z : α} {gone rest back : List α}
    (hI : Ordered x y ⟨gone, z :: rest, back⟩) : Ordered x y ⟨gone ++ [z], rest, back⟩ := by
  unfold Ordered at hI ⊢
  dsimp only at hI ⊢
  rw [List.append_assoc, List.singleton_append]
  rcases hI with ⟨h_front, h_le, h_turn⟩ | ⟨h_front, h_lt, h_turn⟩
  · exact Or.inl ⟨h_front, h_le, fun h_x => h_turn (List.mem_cons_of_mem z h_x)⟩
  · exact Or.inr ⟨h_front, h_lt, fun h_y => h_turn (List.mem_cons_of_mem z h_y)⟩

theorem Ordered.putBack {x y z : α} {gone rest back : List α} (h_ne : x ≠ y)
    (h_nodup : (gone ++ z :: rest).Nodup) (hI : Ordered x y ⟨gone, z :: rest, back⟩) :
    Ordered x y ⟨gone, rest ++ [z], back ++ [z]⟩ := by
  unfold Ordered at hI ⊢
  dsimp only at hI ⊢
  -- an item occurs once, so the one put back is neither gone nor behind itself
  have h_tail : z ∈ rest ++ [z] := List.mem_append_right _ (List.mem_singleton_self z)
  have h_fresh : z ∉ rest := (List.nodup_cons.mp h_nodup.of_append_right).1
  have h_gone : ∀ u, u ∈ gone → u ∉ z :: rest := fun u h_u h_queue =>
    List.disjoint_of_nodup_append h_nodup h_u h_queue
  by_cases h_x : x = z
  · -- the first of the two is put back, behind the other if that is still there
    subst h_x
    rw [count_snoc_self, count_snoc_of_ne back h_ne.symm]
    rcases hI with ⟨h_front, h_le, h_turn⟩ | ⟨h_front, h_lt, h_turn⟩
    · have h_y := mem_rest_of_before h_nodup h_front
      have h_eq := h_turn List.mem_cons_self
      refine Or.inr ⟨?_, by omega, fun _ => by omega⟩
      exact (before_append h_y (List.mem_singleton_self x)).trans (List.sublist_append_right _ _)
    · -- the other item was in front: from now on this one has one turn more
      have h_y := mem_gone_of_before h_nodup h_front
      refine Or.inr ⟨before_append h_y h_tail, by omega, fun h_queue => ?_⟩
      exact absurd h_queue fun h_queue => h_gone y h_y (by simpa [or_comm] using h_queue)
  · by_cases h_y : y = z
    · subst h_y
      -- the second of the two is put back
      rw [count_snoc_self, count_snoc_of_ne back h_ne]
      rcases hI with ⟨h_front, h_le, h_turn⟩ | ⟨h_front, h_lt, h_turn⟩
      · have h_x' := mem_gone_of_before h_nodup h_front
        refine Or.inl ⟨before_append h_x' h_tail, by omega, fun h_queue => ?_⟩
        exact absurd h_queue fun h_queue => h_gone x h_x' (by simpa [or_comm] using h_queue)
      · have h_x' := mem_rest_of_before h_nodup h_front
        have h_eq := h_turn List.mem_cons_self
        refine Or.inl ⟨?_, by omega, fun _ => by omega⟩
        exact (before_append h_x' (List.mem_singleton_self y)).trans (List.sublist_append_right _ _)
    · -- neither of the two
      have h_queue : ∀ u, u ∈ rest ++ [z] → u ∈ z :: rest := fun u h_u => by
        simpa [or_comm] using h_u
      rw [count_snoc_of_ne back h_x, count_snoc_of_ne back h_y]
      rcases hI with ⟨h_front, h_le, h_turn⟩ | ⟨h_front, h_lt, h_turn⟩
      · exact Or.inl ⟨before_rotate h_x h_y h_front, h_le, fun h_u => h_turn (h_queue x h_u)⟩
      · exact Or.inr ⟨before_rotate h_y h_x h_front, h_lt, fun h_u => h_turn (h_queue y h_u)⟩

/-- **Step.** Whatever happens to the head, removed or put back at the tail, how two items stand to
each other follows from how often each has been put back. -/
theorem Ordered.step {x y : α} {s s' : State α} (h_ne : x ≠ y)
    (h_nodup : (s.gone ++ s.queue).Nodup) (hI : Ordered x y s) (h : Step s s') :
    Ordered x y s' := by
  cases h with
  | remove gone z rest back => exact hI.remove
  | putBack gone z rest back => exact hI.putBack h_ne h_nodup

/-- **The order of removal.** Of two items that are gone the one that stood first was removed first
exactly if it had been put back no more often than the other. -/
theorem Ordered.sublist_iff {x y : α} {s : State α} (h_ne : x ≠ y)
    (h_nodup : (s.gone ++ s.queue).Nodup) (hI : Ordered x y s) (h_x : x ∈ s.gone)
    (h_y : y ∈ s.gone) : [x, y].Sublist s.gone ↔ s.back.count x ≤ s.back.count y := by
  have h_prefix : s.gone.Sublist (s.gone ++ s.queue) := List.sublist_append_left _ _
  constructor
  · intro h_gone
    -- in front of the other it has had as many turns or one fewer
    rcases hI with ⟨-, h_le, -⟩ | ⟨h_front, -, -⟩
    · exact h_le
    · exact absurd h_front (not_before_of_before h_nodup (h_gone.trans h_prefix))
  · intro h_le
    rcases hI with ⟨h_front, -, -⟩ | ⟨-, h_lt, -⟩
    · rcases before_or_before h_ne h_x h_y with h_gone | h_gone
      · exact h_gone
      · exact absurd h_front (not_before_of_before h_nodup (h_gone.trans h_prefix))
    · -- behind the other it has had strictly more
      omega

/-- The same of those removed items that are kept. -/
theorem Ordered.sublist_kept_iff {x y : α} {s : State α} {kept : List α} (h_ne : x ≠ y)
    (h_nodup : (s.gone ++ s.queue).Nodup) (hI : Ordered x y s) (h_kept : kept.Sublist s.gone)
    (h_x : x ∈ kept) (h_y : y ∈ kept) :
    [x, y].Sublist kept ↔ s.back.count x ≤ s.back.count y := by
  rw [← hI.sublist_iff h_ne h_nodup (h_kept.subset h_x) (h_kept.subset h_y)]
  refine ⟨fun h => h.trans h_kept, fun h_gone => ?_⟩
  rcases before_or_before h_ne h_x h_y with h | h
  · exact h
  · exact absurd (h.trans h_kept) (not_before_of_before h_nodup.of_append_left h_gone)

end Requeue
