import MpmcPipeline.Machine.Requeue
import MpmcPipeline.Trading.Routing

/-!
# The order of the orders

Consumers that share the signal queue and are called one after the other, in any order. Such
a schedule is one of the interleavings of `Routing.lean` (`schedule_routing`).

As long as no compare-exchange of a push fails spuriously both queues are lists, and a call
does one of four things to the signal queue (`Turn`): nothing if it is empty, or the signal at
its head goes back to the tail, is released, or is pushed as an order. This is
`Machine/Requeue.lean`: the orders are in the order in which their signals were emitted,
except where the earlier one was put back more often than the later (`venue_order_iff`). One
call of another venue's consumer is enough for that (`venue_order_reversed`).
-/

namespace Hft

open Handoff (Env)

namespace Trading

variable {P : PoolCapacity} {cap : Stage → Capacity}

/-! ### Calls one after the other -/

/-- A call of `poll_once`. -/
def pollCall : Threads.ThreadStep (Memory P cap) Consumer Env (PollEvent P)
  | mem, self, env =>
    match self.pollOnce env mem with
    | none => none
    | some (mem', self', _) => some (mem', self', self.treats mem)

/-- Consumers of one signal queue, called one after the other. -/
abbrev schedule (Id : Type) [DecidableEq Id] (P : PoolCapacity) (cap : Stage → Capacity) :
    Machine (Threads Id (Memory P cap) Consumer) (Id × Env) (Id × PollEvent P) :=
  Threads.machine pollCall

theorem pollCall_eq {mem mem' : Memory P cap} {c c' : Consumer} {env : Env}
    {es : List (PollEvent P)} (h : pollCall mem c env = some (mem', c', es)) :
    (∃ es', c.pollOnce env mem = some (mem', c', es')) ∧ es = c.treats mem := by
  simp only [pollCall] at h
  split at h
  · cases h
  · next h_poll =>
    cases h
    exact ⟨⟨_, h_poll⟩, rfl⟩

/-- **Refinement.** Calls one after the other are an interleaving of their steps, so what is proved
of the consumers among each other holds of a schedule. -/
theorem schedule_routing {Id : Type} [DecidableEq Id]
    {C : Threads Id (Memory P cap) Consumer → Id × Env → Prop}
    {s₀ s : Threads Id (Memory P cap) Consumer} {tr : List (Id × PollEvent P)}
    (h : (schedule Id P cap).ReachBy C s₀ tr s) :
    (routing Id P cap).Reach (Routing.init s₀.shared s₀.loc) tr
      (Routing.init s.shared s.loc) := by
  -- a call is the steps of one consumer, while the others stand still
  induction h with
  | init => exact .init
  | @step tr s s' a es _ _ h_step ih =>
    obtain ⟨mem', c', es', h_call, rfl, rfl⟩ := Threads.machine_step h_step
    obtain ⟨⟨es, h_poll⟩, rfl⟩ := pollCall_eq h_call
    have h_reach := Threads.reach_of_solo a.1 (fun i => (s.loc i, PollPc.idle (P := P)))
      (Consumer.pollOnce_reach h_poll)
    have h_loc : Function.update (fun i => (s.loc i, PollPc.idle (P := P))) a.1 (c', .idle) =
        fun i => (Function.update s.loc a.1 c' i, .idle) := by
      funext i
      by_cases h_i : i = a.1
      · subst h_i
        rw [Function.update_self, Function.update_self]
      · rw [Function.update_of_ne h_i, Function.update_of_ne h_i]
    rw [h_loc] at h_reach
    exact ih.trans h_reach

/-! ### Turns at the head of the queue -/

/-- The messages put back. -/
def putBacks (es : List (PollEvent P)) : List (Ptr P) :=
  es.filterMap fun
    | .putBack msg => some msg
    | _ => none

@[simp] theorem putBacks_append (es es' : List (PollEvent P)) :
    putBacks (es ++ es') = putBacks es ++ putBacks es' := List.filterMap_append

/-- What a call does to the list of queued signals. -/
inductive Turn : List (Ptr P) → List (PollEvent P) → List (Ptr P) → Prop
  | empty : Turn [] [] []
  | putBack (msg : Ptr P) (rest : List (Ptr P)) :
      Turn (msg :: rest) [.putBack msg] (rest ++ [msg])
  | release (msg : Ptr P) (rest : List (Ptr P)) : Turn (msg :: rest) [.released msg] rest
  | push (msg : Ptr P) (rest : List (Ptr P)) : Turn (msg :: rest) [.pushed msg] rest

/-- **Inversion.** A call is a turn, and an order goes to the tail of the pending queue. -/
theorem pollCall_turn {mem mem' : Memory P cap} {c c' : Consumer} {env : Env}
    {es : List (PollEvent P)} {l pend : List (Ptr P)}
    (h_signal : (mem.queues .signal).Represents l)
    (h_pending : (mem.queues .pending).Represents pend) (h_strong : env.push = MPMC.strong)
    (h : pollCall mem c env = some (mem', c', es)) :
    ∃ l', Turn l es l' ∧ (mem'.queues .signal).Represents l' ∧
      (mem'.queues .pending).Represents (pend ++ pushes es) := by
  obtain ⟨⟨es', h_poll⟩, rfl⟩ := pollCall_eq h
  obtain ⟨b, h_call, rfl⟩ := Consumer.pollOnce_call h_poll
  -- a message taken is the head, and taking it leaves the pending queue as it is
  have h_taken : ∀ {mem₁ : Memory P cap} {msg : Ptr P}, mem.tryPop .signal = (some msg, mem₁) →
      ∃ rest, l = msg :: rest ∧ (mem₁.queues .signal).Represents rest ∧
        (mem₁.queues .pending).Represents (pend ++ []) := by
    intro mem₁ msg h_pop
    obtain ⟨rest, queue, h_l, h_queue, rfl⟩ := Handoff.Shared.tryPop_eq_cons h_signal h_pop
    refine ⟨rest, h_l, ?_, ?_⟩
    · rwa [Handoff.Shared.setQueue_self]
    · rwa [Handoff.Shared.setQueue_of_ne _ (by decide), List.append_nil]
  cases h_call with
  | empty h_pop =>
    obtain ⟨rfl, rfl⟩ := Handoff.Shared.tryPop_eq_nil h_signal h_pop
    rw [Consumer.treats, h_pop]
    exact ⟨[], .empty, h_signal, by rwa [pushes, List.filterMap_nil, List.append_nil]⟩
  | noSignal msg h_pop h_kind =>
    obtain ⟨rest, rfl, h_rest, h_kept⟩ := h_taken h_pop
    rw [Consumer.treats_of_pop h_pop, if_neg h_kind]
    exact ⟨rest, .release msg rest, h_rest, h_kept⟩
  | putBack msg h_pop h_kind h_feed h_push =>
    -- from the head to the tail of the same queue
    obtain ⟨rest, rfl, h_rest, h_kept⟩ := h_taken h_pop
    rw [Consumer.treats_of_pop h_pop, if_pos h_kind, if_pos h_feed]
    obtain ⟨queue, h_queue, rfl⟩ := Handoff.Shared.push_eq_snoc h_rest h_strong h_push
    refine ⟨rest ++ [msg], .putBack msg rest, ?_, ?_⟩
    · rwa [Handoff.Shared.setQueue_self]
    · rw [Handoff.Shared.setQueue_of_ne _ (by decide)]
      exact h_kept
  | noSide msg h_pop h_kind h_feed h_side =>
    obtain ⟨rest, rfl, h_rest, h_kept⟩ := h_taken h_pop
    rw [Consumer.treats_of_pop h_pop, if_pos h_kind, if_neg (not_not.mpr h_feed), if_pos h_side]
    exact ⟨rest, .release msg rest, h_rest, h_kept⟩
  | submit msg h_pop h_kind h_feed h_side h_push =>
    obtain ⟨rest, rfl, h_rest, h_kept⟩ := h_taken h_pop
    rw [Consumer.treats_of_pop h_pop, if_pos h_kind, if_neg (not_not.mpr h_feed), if_neg h_side]
    rw [List.append_nil] at h_kept
    obtain ⟨queue, h_queue, rfl⟩ :=
      Handoff.Shared.push_eq_snoc (by exact h_kept) h_strong h_push
    refine ⟨rest, .push msg rest, ?_, ?_⟩
    · rwa [Handoff.Shared.setQueue_of_ne _ (by decide)]
    · rwa [Handoff.Shared.setQueue_self]

/-- What has left the signal queue, in order. -/
def removals (es : List (PollEvent P)) : List (Ptr P) :=
  es.filterMap fun
    | .released msg | .pushed msg => some msg
    | .putBack _ => none

@[simp] theorem removals_append (es es' : List (PollEvent P)) :
    removals (es ++ es') = removals es ++ removals es' := List.filterMap_append

/-- The orders are among what has left the signal queue. -/
theorem pushes_sublist_removals (es : List (PollEvent P)) :
    (pushes es).Sublist (removals es) := by
  induction es with
  | nil => exact .slnil
  | cons e es ih =>
    cases e with
    -- a signal that is put back stays in the queue
    | putBack msg => exact ih
    | released msg => exact ih.cons msg
    | pushed msg => exact ih.cons_cons msg

/-- The queue as the library has it. -/
def requeueState (es : List (PollEvent P)) (l : List (Ptr P)) : Requeue.State (Ptr P) :=
  ⟨removals es, l, putBacks es⟩

/-- A turn that shows something is a step of the library's queue. -/
theorem Turn.step {l l' : List (Ptr P)} {es : List (PollEvent P)} (h : Turn l es l')
    (before : List (PollEvent P)) :
    requeueState (before ++ es) l' = requeueState before l ∨
      Requeue.Step (requeueState before l) (requeueState (before ++ es) l') := by
  unfold requeueState
  rw [removals_append, putBacks_append]
  -- an empty poll shows nothing; the others are a put back or a removal of the queue
  cases h with
  | empty => exact Or.inl (by simp [removals, putBacks])
  | putBack msg rest =>
    have h_step := Requeue.Step.putBack (removals before) msg rest (putBacks before)
    exact Or.inr (by simpa [removals, putBacks] using h_step)
  | release msg =>
    have h_step := Requeue.Step.remove (removals before) msg l' (putBacks before)
    exact Or.inr (by simpa [removals, putBacks] using h_step)
  | push msg =>
    have h_step := Requeue.Step.remove (removals before) msg l' (putBacks before)
    exact Or.inr (by simpa [removals, putBacks] using h_step)

/-! ### The order of the orders -/

/-- **The invariant.** The signals `l` are left in the queue, and the pending queue has the
orders behind what it had. -/
structure Scheduled (ptrs pend : List (Ptr P)) (es : List (PollEvent P)) (l : List (Ptr P))
    (mem : Memory P cap) : Prop where
  signal : (mem.queues .signal).Represents l
  pending : (mem.queues .pending).Represents (pend ++ pushes es)
  nodup : ((requeueState es l).gone ++ (requeueState es l).queue).Nodup
  ordered : ∀ x y, [x, y].Sublist ptrs → Requeue.Ordered x y (requeueState es l)

section

variable {ptrs pend l : List (Ptr P)} {mem mem' : Memory P cap} {c c' : Consumer} {env : Env}
  {es es' : List (PollEvent P)}

theorem Scheduled.start (h_signal : (mem.queues .signal).Represents ptrs)
    (h_pending : (mem.queues .pending).Represents pend) (h_nodup : ptrs.Nodup) :
    Scheduled ptrs pend [] ptrs mem :=
  ⟨h_signal, by simpa [pushes] using h_pending, h_nodup, fun _ _ h => Requeue.Ordered.start h⟩

/-- **Step.** A call takes the head of the signal queue and leaves it at the tail, or removes it,
and an order goes behind those that are pending. -/
theorem Scheduled.call (hI : Scheduled ptrs pend es l mem) (h_nodup : ptrs.Nodup)
    (h_strong : env.push = MPMC.strong) (h : pollCall mem c env = some (mem', c', es')) :
    ∃ l', Scheduled ptrs pend (es ++ es') l' mem' := by
  -- the poll is a turn of the queue, as a strong push goes to the tail
  obtain ⟨l', h_turn, h_signal, h_pending⟩ := pollCall_turn hI.signal hI.pending h_strong h
  rw [List.append_assoc, ← pushes_append] at h_pending
  refine ⟨l', h_signal, h_pending, ?_, fun x y h_before => ?_⟩
  · -- the queue of the library is the same, or has taken a step
    rcases h_turn.step es with h_eq | h_step
    · rw [h_eq]
      exact hI.nodup
    · exact h_step.nodup hI.nodup
  · rcases h_turn.step es with h_eq | h_step
    · rw [h_eq]
      exact hI.ordered x y h_before
    · -- two messages before each other are two messages
      have h_ne : x ≠ y := by simpa using h_nodup.sublist h_before
      exact (hI.ordered x y h_before).step h_ne hI.nodup h_step

end

section

variable {Id : Type} [DecidableEq Id] {s₀ s : Threads Id (Memory P cap) Consumer}
  {tr : List (Id × PollEvent P)} {ptrs pend : List (Ptr P)}

/-- **Run.** So both queues are known after every schedule whose pushes do not fail spuriously. -/
theorem Scheduled.reach (h_signal : (s₀.shared.queues .signal).Represents ptrs)
    (h_pending : (s₀.shared.queues .pending).Represents pend) (h_nodup : ptrs.Nodup)
    (h : (schedule Id P cap).ReachBy (fun _ a => a.2.push = MPMC.strong) s₀ tr s) :
    ∃ l, Scheduled ptrs pend (Threads.events tr) l s.shared := by
  refine h.inv (I := fun tr s => ∃ l, Scheduled ptrs pend (Threads.events tr) l s.shared)
    ⟨ptrs, .start h_signal h_pending h_nodup⟩ ?_
  rintro tr s a s' es ⟨l, hI⟩ h_strong h_step
  obtain ⟨mem', c', es', h_call, rfl, rfl⟩ := Threads.machine_step h_step
  rw [Threads.events_append, Threads.events_map_pair]
  exact hI.call h_nodup h_strong h_call

/-- **The order of the orders.** Whatever the schedule, as long as pushes do not fail
spuriously: the orders stand in the pending queue behind what was there before, each is built
by a consumer of its signal's feed from one of the signals of the start, and of two orders the
one whose signal was emitted first stands first exactly if that signal has been put back no
more often than the other. -/
theorem venue_order_iff (h_signal : (s₀.shared.queues .signal).Represents ptrs)
    (h_pending : (s₀.shared.queues .pending).Represents pend) (h_nodup : ptrs.Nodup)
    (h : (schedule Id P cap).ReachBy (fun _ a => a.2.push = MPMC.strong) s₀ tr s) :
    (s.shared.queues .pending).Represents (pend ++ pushes (Threads.events tr)) ∧
    (∀ msg ∈ pushes (Threads.events tr), msg ∈ ptrs ∧ ∃ (i : Id) (order : Order),
      (signalAt s₀.shared msg).feed = (s₀.loc i).feed ∧
      OrderOf (signalAt s₀.shared msg) order ∧ order.HeldBy (s.shared.load msg)) ∧
    ∀ x y, [x, y].Sublist ptrs → x ∈ pushes (Threads.events tr) →
      y ∈ pushes (Threads.events tr) →
      ([x, y].Sublist (pushes (Threads.events tr)) ↔
        (putBacks (Threads.events tr)).count x ≤ (putBacks (Threads.events tr)).count y) := by
  obtain ⟨l, hI⟩ := Scheduled.reach h_signal h_pending h_nodup h
  refine ⟨hI.pending, fun msg h_msg => ?_, fun x y h_before h_x h_y => ?_⟩
  · -- what is in the orders, from the interleaving that the schedule is
    have h_routed := RoutedInv.reach (h_signal.cells_nodup h_nodup) (schedule_routing h)
    have h_live := h_routed.exclusive.live_of_mem (a := .inr (.inr true)) h_msg
    obtain ⟨i, k, h_k⟩ := exists_pushedBy h_msg
    have h_built := h_routed.pushed i k msg h_k
    refine ⟨h_signal.mem_cells_iff.mp h_live, i, _, h_built.feed_eq, ?_, h_built.held⟩
    exact ((s₀.loc i).after k 0).orderOf (by rw [h_built.feed_eq, Consumer.after_feed])
  · have h_ne : x ≠ y := by simpa using h_nodup.sublist h_before
    exact (hI.ordered x y h_before).sublist_kept_iff h_ne hI.nodup
      (pushes_sublist_removals _) h_x h_y

end

/-- Four cells in every queue. -/
def four : Stage → Capacity := fun _ => .four

/-- Two ITCH signals, and the four consumers. -/
def twoItch (cap : Stage → Capacity) : Threads Venue (Memory threePool cap) Consumer :=
  ⟨emitted [.itch { price := 9000 }, .itch { price := 9000 }], Venue.consumer⟩

/-- The two signals, in order. -/
def itchPtrs : List (Ptr threePool) := threePtrs.take 2

/-- Consumers called in turn, without spurious failures. -/
def calls (venues : List Venue) : List (Venue × Env) :=
  venues.map fun venue => (venue, ⟨MPMC.strong, MPMC.strong, 4⟩)

theorem calls_strong (venues : List Venue) : ∀ a ∈ calls venues, ∀ _ : Threads Venue
    (Memory threePool four) Consumer, a.2.push = MPMC.strong := by
  intro a h_a _
  obtain ⟨venue, -, rfl⟩ := List.mem_map.mp h_a
  rfl

/-- Each signal is put back once, and the orders are in their order. -/
theorem venue_order_iff_twoItch :
    ∃ (tr : List (Venue × PollEvent threePool)) (s : Threads Venue _ Consumer),
      (schedule Venue threePool four).ReachBy
        (fun _ a => a.2.push = MPMC.strong) (twoItch four) tr s ∧
      putBacks (Threads.events tr) = itchPtrs ∧
      (s.shared.queues .pending).Represents (pushes (Threads.events tr)) ∧
      itchPtrs.Sublist (pushes (Threads.events tr)) := by
  obtain ⟨tr, s, h_reach, h_run⟩ := Machine.exists_reachBy_of_run
    (schedule Venue threePool four) _ (twoItch four)
    (calls [.nnf, .mcx, .ouch, .ouch])
    (fun _ tr => decide (putBacks (Threads.events tr) = itchPtrs ∧
      ∀ msg ∈ itchPtrs, msg ∈ pushes (Threads.events tr))) (calls_strong _) (by decide +kernel)
  obtain ⟨h_back, h_pushed⟩ := of_decide_eq_true h_run
  have h_signal : ((twoItch four).shared.queues .signal).Represents itchPtrs := by decide +kernel
  have h_empty : ((twoItch four).shared.queues .pending).Represents [] := by decide +kernel
  -- each signal has been put back once, so the orders come as the signals did
  obtain ⟨h_pending, -, h_order⟩ := venue_order_iff h_signal h_empty (by decide) h_reach
  refine ⟨tr, s, h_reach, h_back, h_pending, ?_⟩
  refine (h_order _ _ (List.Sublist.refl _) (h_pushed _ ?_) (h_pushed _ ?_)).mpr ?_
  · decide
  · decide
  · rw [h_back]
    decide

/-- **Out of order.** The first of two ITCH signals meets the NNF consumer, goes to the tail,
and its order is the second one. And where a push fails spuriously, the first order can go to
the second cell and the second order to the first, with nothing put back. -/
theorem venue_order_reversed :
    (((twoItch four).shared.queues .signal).Represents itchPtrs ∧
      (∀ msg ∈ itchPtrs, (signalAt (twoItch four).shared msg).feed = .itch) ∧
      ¬∀ (tr : List (Venue × PollEvent threePool)) (s : Threads Venue _ Consumer),
        (schedule Venue threePool four).ReachBy
          (fun _ a => a.2.push = MPMC.strong) (twoItch four) tr s →
        ∀ x y, [x, y].Sublist itchPtrs → x ∈ pushes (Threads.events tr) →
          y ∈ pushes (Threads.events tr) → [x, y].Sublist (pushes (Threads.events tr))) ∧
    ∃ (tr : List (Venue × PollEvent threePool)) (s : Threads Venue _ Consumer),
      (schedule Venue threePool fun _ => Capacity.two).Reach (twoItch fun _ => Capacity.two) tr s ∧
      putBacks (Threads.events tr) = [] ∧ pushes (Threads.events tr) = itchPtrs ∧
      (s.shared.queues .pending).Represents itchPtrs.reverse := by
  refine ⟨⟨by decide +kernel, by decide +kernel, fun h_all => ?_⟩, ?_⟩
  · obtain ⟨tr, s, h_reach, h_run⟩ := Machine.exists_reachBy_of_run
      (schedule Venue threePool four) _ (twoItch four) (calls [.nnf, .ouch, .ouch])
      (fun _ tr => decide (pushes (Threads.events tr) = itchPtrs.reverse)) (calls_strong _)
      (by decide +kernel)
    -- the NNF consumer has put the first signal back, and OUCH has found the second in front
    have h_pushes := of_decide_eq_true h_run
    have h_order := h_all tr s h_reach _ _ (List.Sublist.refl _)
    rw [h_pushes] at h_order
    exact absurd (h_order (by decide) (by decide)) (by decide)
  · -- the first push fails at the first cell, so the second order goes there
    obtain ⟨tr, s, h_reach, h_run⟩ := Machine.exists_reach_of_run
      (schedule Venue threePool fun _ => Capacity.two) (twoItch fun _ => Capacity.two)
      [(.ouch, ⟨MPMC.strong, fun k => k == 0, 4⟩), (.ouch, ⟨MPMC.strong, MPMC.strong, 4⟩)]
      (fun s tr => decide (putBacks (Threads.events tr) = [] ∧
        pushes (Threads.events tr) = itchPtrs ∧
        (s.shared.queues .pending).Represents itchPtrs.reverse)) (by decide +kernel)
    exact ⟨tr, s, h_reach, of_decide_eq_true h_run⟩

end Trading

end Hft
