import Mathlib.Data.List.Basic
import Mathlib.Logic.Function.Basic

/-!
# Machines, runs and invariants

A machine is a partial step function: from a state and an *action* it computes the
next state together with the *events* the step makes visible, or `none` where the
action is not enabled. All nondeterminism (which thread moves, what it calls, whether a
weak compare-exchange fails) is in the choice of the action, so a machine can be run
on a list of actions (`Machine.run`) and every reachable state is the result of one.

Invariant reasoning goes through `Machine.ReachBy C s₀ tr s`: the state `s` is
reached from `s₀` by steps that each meet the condition `C`, and `tr` is the list of
events made visible on the way. `ReachBy.inv` is the history-aware invariant rule.

`Threads.machine` is the interleaving of threads over a shared state: a thread's step
function sees the shared state and its own local state, and one action is one step of
one thread. `Threads.machine_step` is its inversion lemma; `Threads.reach_of_solo` finds in it
the runs of a thread by itself.
-/

/-- A partial, executable transition function with visible events. -/
structure Machine (State Action Event : Type*) where
  step : State → Action → Option (State × List Event)

namespace Machine

variable {State Action Event : Type*} (M : Machine State Action Event)

/-- Run a list of actions, collecting the events. -/
def run : State → List Action → Option (State × List Event)
  | s, [] => some (s, [])
  | s, a :: as =>
    match M.step s a with
    | none => none
    | some (s', es) =>
      match run s' as with
      | none => none
      | some (s'', es') => some (s'', es ++ es')

/-- States reached from `s₀` by steps that all meet `C`, with the events made
visible on the way. -/
inductive ReachBy (C : State → Action → Prop) (s₀ : State) : List Event → State → Prop
  | init : ReachBy C s₀ [] s₀
  | step {tr : List Event} {s s' : State} {a : Action} {es : List Event} :
      ReachBy C s₀ tr s → C s a → M.step s a = some (s', es) →
      ReachBy C s₀ (tr ++ es) s'

/-- States reached from `s₀` by any steps. -/
abbrev Reach (s₀ : State) (tr : List Event) (s : State) : Prop :=
  M.ReachBy (fun _ _ => True) s₀ tr s

variable {M} {C C' : State → Action → Prop} {s₀ s s' : State} {tr : List Event}

/-- **The invariant rule.** A relation between history and state that holds at the
start and is kept by every step meeting `C` holds of every reached state. -/
theorem ReachBy.inv {I : List Event → State → Prop} (h_init : I [] s₀)
    (h_step : ∀ tr s a s' es, I tr s → C s a → M.step s a = some (s', es) →
      I (tr ++ es) s')
    (h : M.ReachBy C s₀ tr s) : I tr s := by
  induction h with
  | init => exact h_init
  | step _ hC hs ih => exact h_step _ _ _ _ _ ih hC hs

/-- The first action of an executed list. -/
theorem run_cons {a : Action} {as : List Action} (h : M.run s (a :: as) = some (s', tr)) :
    ∃ t es es', M.step s a = some (t, es) ∧ M.run t as = some (s', es') ∧ tr = es ++ es' := by
  rw [run] at h
  split at h
  · cases h
  · next t es h_step =>
    split at h
    · cases h
    · next h_rest =>
      cases h
      exact ⟨t, es, _, h_step, h_rest, rfl⟩

/-- Weakening the condition on the steps. -/
theorem ReachBy.mono (hCC : ∀ s a, C s a → C' s a) (h : M.ReachBy C s₀ tr s) :
    M.ReachBy C' s₀ tr s := by
  induction h with
  | init => exact .init
  | step _ hC hs ih => exact ih.step (hCC _ _ hC) hs

/-- Runs compose. -/
theorem ReachBy.trans {tr' : List Event} (h : M.ReachBy C s₀ tr s)
    (h' : M.ReachBy C s tr' s') : M.ReachBy C s₀ (tr ++ tr') s' := by
  -- the induction is on the second run: the first is only carried along
  induction h' with
  | init => simpa using h
  | step _ hC hs ih =>
    rw [← List.append_assoc]
    exact ih.step hC hs

/-- Where steps show at most one event, an event of a history is the event of a step
from a state reached with the history before it. -/
theorem ReachBy.exists_step (h_one : ∀ s a s' es, M.step s a = some (s', es) → es.length ≤ 1)
    (h : M.ReachBy C s₀ tr s) {tr₁ tr₂ : List Event} {e : Event} (h_tr : tr = tr₁ ++ e :: tr₂) :
    ∃ s₁ a s₂, M.ReachBy C s₀ tr₁ s₁ ∧ C s₁ a ∧ M.step s₁ a = some (s₂, [e]) := by
  induction h generalizing tr₂ with
  | init => exact absurd h_tr (by simp)
  | @step tr s s' a es h_reach hC hs ih =>
    match es, h_one _ _ _ _ hs with
    | [], _ =>
      -- a silent step: the event is in the history before it
      exact ih (by rwa [List.append_nil] at h_tr)
    | [x], _ =>
      rcases List.eq_nil_or_concat tr₂ with rfl | ⟨tr₂, y, rfl⟩
      · -- the event is the last one
        obtain ⟨rfl, h_e⟩ := List.append_inj' h_tr rfl
        rw [List.singleton_inj.mp h_e] at hs
        exact ⟨s, a, s', h_reach, hC, hs⟩
      · -- the event is an earlier one
        have h_last : tr ++ [x] = (tr₁ ++ e :: tr₂) ++ [y] := by
          rw [h_tr, List.concat_eq_append, List.append_assoc, List.cons_append]
        exact ih (List.append_inj' h_last rfl).1

/-- A reached state extended by one more step. -/
theorem ReachBy.head {s₁ : State} {a : Action} {es : List Event} (hC : C s₀ a)
    (hs : M.step s₀ a = some (s₁, es)) (h : M.ReachBy C s₁ tr s) :
    M.ReachBy C s₀ (es ++ tr) s := by
  have h_first : M.ReachBy C s₀ es s₁ := by simpa using (ReachBy.init).step hC hs
  exact h_first.trans h

/-- Executing actions reaches the result. -/
theorem reach_of_run {as : List Action} (h : M.run s₀ as = some (s, tr)) : M.Reach s₀ tr s := by
  induction as generalizing s₀ tr with
  | nil =>
    cases h
    exact .init
  | cons a as ih =>
    obtain ⟨t, es, es', h_step, h_rest, rfl⟩ := run_cons h
    exact (ih h_rest).head trivial h_step

/-- Run a list of actions as long as each meets `C`. -/
def runBy (C : State → Action → Prop) [∀ s a, Decidable (C s a)] :
    State → List Action → Option (State × List Event)
  | s, [] => some (s, [])
  | s, a :: as =>
    if C s a then
      match M.step s a with
      | none => none
      | some (s', es) =>
        match runBy C s' as with
        | none => none
        | some (s'', es') => some (s'', es ++ es')
    else none

/-- Executing actions that meet `C` reaches the result. -/
theorem reachBy_of_runBy [∀ s a, Decidable (C s a)] {as : List Action}
    (h : M.runBy C s₀ as = some (s, tr)) : M.ReachBy C s₀ tr s := by
  -- `runBy` consumes the list from the front, `ReachBy` grows at the end: `head` turns one
  -- into the other
  induction as generalizing s₀ tr with
  | nil =>
    simp only [runBy, Option.some.injEq, Prod.mk.injEq] at h
    obtain ⟨rfl, rfl⟩ := h
    exact .init
  | cons a as ih =>
    rw [runBy] at h
    split at h
    · next hC =>
      cases hs : M.step s₀ a with
      | none => simp [hs] at h
      | some p =>
        obtain ⟨s₁, es⟩ := p
        simp only [hs] at h
        cases hr : M.runBy C s₁ as with
        | none => simp [hr] at h
        | some q =>
          obtain ⟨s₂, es'⟩ := q
          simp only [hr, Option.some.injEq, Prod.mk.injEq] at h
          obtain ⟨rfl, rfl⟩ := h
          exact (ih hr).head hC hs
    · exact absurd h (by simp)

/-- Reading a decidable fact off an executed run whose steps meet `C`. -/
theorem exists_reachBy_of_runBy (M : Machine State Action Event)
    (C : State → Action → Prop) [∀ s a, Decidable (C s a)] (s₀ : State)
    (as : List Action) (p : State → List Event → Bool)
    (h : (M.runBy C s₀ as).map (fun r => p r.1 r.2) = some true) :
    ∃ tr s, M.ReachBy C s₀ tr s ∧ p s tr = true := by
  cases hr : M.runBy C s₀ as with
  | none => simp [hr] at h
  | some r =>
    obtain ⟨s, tr⟩ := r
    simp only [hr, Option.map_some, Option.some.injEq] at h
    exact ⟨tr, s, reachBy_of_runBy hr, h⟩

/-- A condition that the listed actions meet in every state is no condition. -/
theorem runBy_of_forall [∀ s a, Decidable (C s a)] {as : List Action}
    (h : ∀ a ∈ as, ∀ s, C s a) (s : State) :
    M.runBy C s as = M.runBy (fun _ _ => True) s as := by
  induction as generalizing s with
  | nil => rfl
  | cons a as ih =>
    have h_rest := ih fun b h_b => h b (List.mem_cons_of_mem a h_b)
    simp only [runBy, if_pos (h a List.mem_cons_self s), if_true, h_rest]

/-- Reading a decidable fact off an executed run whose actions meet `C` in every state. -/
theorem exists_reachBy_of_run (M : Machine State Action Event) (C : State → Action → Prop)
    (s₀ : State) (as : List Action) (p : State → List Event → Bool)
    (h_as : ∀ a ∈ as, ∀ s, C s a)
    (h : (M.runBy (fun _ _ => True) s₀ as).map (fun r => p r.1 r.2) = some true) :
    ∃ tr s, M.ReachBy C s₀ tr s ∧ p s tr = true := by
  classical
  refine M.exists_reachBy_of_runBy C s₀ as p ?_
  rw [runBy_of_forall h_as]
  exact h

/-- Reading a decidable fact off an executed run. -/
theorem exists_reach_of_run (M : Machine State Action Event) (s₀ : State)
    (as : List Action) (p : State → List Event → Bool)
    (h : (M.runBy (fun _ _ => True) s₀ as).map (fun r => p r.1 r.2) = some true) :
    ∃ tr s, M.Reach s₀ tr s ∧ p s tr = true :=
  M.exists_reachBy_of_runBy _ s₀ as p h

/-- **Forward simulation.** If every step meeting `C` from related states is matched by
a step of `M'` with the same events, every trace of `M` is a trace of `M'`. -/
theorem ReachBy.simulate {State' Action' : Type*} {M' : Machine State' Action' Event}
    {R : State → State' → Prop} {t₀ : State'} (h_init : R s₀ t₀)
    (h_step : ∀ s t a s' es, R s t → C s a → M.step s a = some (s', es) →
      ∃ a' t', M'.step t a' = some (t', es) ∧ R s' t')
    (h : M.ReachBy C s₀ tr s) : ∃ t, M'.Reach t₀ tr t ∧ R s t := by
  induction h with
  | init => exact ⟨t₀, .init, h_init⟩
  | step _ hC hs ih =>
    obtain ⟨t, h_reach, hR⟩ := ih
    obtain ⟨a', t', hs', hR'⟩ := h_step _ _ _ _ _ hR hC hs
    exact ⟨t', h_reach.step trivial hs', hR'⟩

end Machine

/-! ### Interleaving threads -/

/-- A configuration of threads: the shared state and each thread's local state. -/
structure Threads (Id Shared Local : Type*) where
  shared : Shared
  loc : Id → Local

namespace Threads

variable {Id Shared Local Action Event : Type*} [DecidableEq Id]

/-- One step of one thread: it sees the shared state and its own local state. -/
abbrev ThreadStep (Shared Local Action Event : Type*) :=
  Shared → Local → Action → Option (Shared × Local × List Event)

/-- The interleaving of threads that all run `tstep`. An action names the thread that
moves; events carry the thread that caused them. -/
def machine (tstep : ThreadStep Shared Local Action Event) :
    Machine (Threads Id Shared Local) (Id × Action) (Id × Event) where
  step c a :=
    match tstep c.shared (c.loc a.1) a.2 with
    | none => none
    | some (sh, l, es) =>
      some (⟨sh, Function.update c.loc a.1 l⟩, es.map fun e => (a.1, e))

/-- **Inversion.** A step of the interleaving is a step of the named thread; every
other thread keeps its local state. -/
theorem machine_step {tstep : ThreadStep Shared Local Action Event}
    {c c' : Threads Id Shared Local} {a : Id × Action} {es : List (Id × Event)}
    (h : (machine tstep).step c a = some (c', es)) :
    ∃ sh l es', tstep c.shared (c.loc a.1) a.2 = some (sh, l, es') ∧
      c' = ⟨sh, Function.update c.loc a.1 l⟩ ∧ es = es'.map fun e => (a.1, e) := by
  simp only [machine] at h
  cases ht : tstep c.shared (c.loc a.1) a.2 with
  | none => simp [ht] at h
  | some r =>
    obtain ⟨sh, l, es'⟩ := r
    simp only [ht, Option.some.injEq, Prod.mk.injEq] at h
    exact ⟨sh, l, es', rfl, h.1.symm, h.2.symm⟩

/-- One thread by itself. -/
def solo (tstep : ThreadStep Shared Local Action Event) :
    Machine (Shared × Local) Action Event where
  step s a :=
    match tstep s.1 s.2 a with
    | none => none
    | some (sh, l, es) => some ((sh, l), es)

theorem solo_single {tstep : ThreadStep Shared Local Action Event} {sh sh' : Shared}
    {l l' : Local} {a : Action} {es : List Event} (h : tstep sh l a = some (sh', l', es)) :
    (solo tstep).Reach (sh, l) es (sh', l') := by
  have h_step : (solo tstep).step (sh, l) a = some ((sh', l'), es) := by simp only [solo, h]
  simpa using (Machine.ReachBy.init).step trivial h_step

/-- A silent step first. -/
theorem solo_head {tstep : ThreadStep Shared Local Action Event} {sh sh' : Shared}
    {l l' : Local} {a : Action} {tr : List Event} {s : Shared × Local}
    (h : tstep sh l a = some (sh', l', [])) (h_reach : (solo tstep).Reach (sh', l') tr s) :
    (solo tstep).Reach (sh, l) tr s :=
  (solo_single h).trans h_reach

/-- **No interruption.** What a thread can do by itself it can do among others that wait. -/
theorem reach_of_solo {tstep : ThreadStep Shared Local Action Event} {sh : Shared}
    {s : Shared × Local} {tr : List Event} (i : Id) (loc : Id → Local)
    (h : (solo tstep).Reach (sh, loc i) tr s) :
    (machine tstep).Reach ⟨sh, loc⟩ (tr.map fun e => (i, e))
      ⟨s.1, Function.update loc i s.2⟩ := by
  induction h with
  | init =>
    -- the thread has not moved, so neither has its program point
    rw [Function.update_eq_self]
    exact .init
  | @step tr s s' a es _ _ h_step ih =>
    cases h_t : tstep s.1 s.2 a with
    | none =>
      simp only [solo, h_t] at h_step
      cases h_step
    | some r =>
      simp only [solo, h_t] at h_step
      cases h_step
      rw [List.map_append]
      -- among the others the step is that of thread `i`, at the same shared state
      refine ih.step (a := (i, a)) trivial ?_
      simp only [machine, Function.update_self, h_t, Function.update_idem]

/-- The events of one thread, in order. -/
def eventsOf (i : Id) (tr : List (Id × Event)) : List Event :=
  (tr.filter fun e => e.1 = i).map Prod.snd

@[simp] theorem eventsOf_nil (i : Id) : eventsOf i ([] : List (Id × Event)) = [] := rfl

@[simp] theorem eventsOf_append (i : Id) (tr tr' : List (Id × Event)) :
    eventsOf i (tr ++ tr') = eventsOf i tr ++ eventsOf i tr' := by
  simp [eventsOf]

@[simp] theorem eventsOf_map_self (i : Id) (es : List Event) :
    eventsOf i (es.map fun e => (i, e)) = es := by
  simp [eventsOf, List.filter_map, Function.comp_def]

theorem eventsOf_map_of_ne {i j : Id} (h : j ≠ i) (es : List Event) :
    eventsOf i (es.map fun e => (j, e)) = [] := by
  simp [eventsOf, List.filter_map, Function.comp_def, h]

/-- The events of all threads, without their names. -/
def events (tr : List (Id × Event)) : List Event := tr.map Prod.snd

omit [DecidableEq Id] in
@[simp] theorem events_append (tr tr' : List (Id × Event)) :
    events (tr ++ tr') = events tr ++ events tr' := by
  simp [events]

omit [DecidableEq Id] in
@[simp] theorem events_map_pair (i : Id) (es : List Event) :
    events (es.map fun e => (i, e)) = es := by
  simp [events, Function.comp_def]

end Threads
