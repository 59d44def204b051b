import MpmcPipeline.Machine.Basic

/-!
# Runs with their states

The history of a run has what its steps make visible. A property that speaks of the
states on the way (a cell is full *until* some step) needs the steps themselves.
`Machine.recorded` is the machine whose events are its own transitions, so the rules for
histories apply to lists of transitions, and `ReachBy.recorded` says that every run has
such a record, with the same events.
-/

namespace Machine

variable {State Action Event : Type*}

/-- One step, with the states before and after it. -/
structure Transition (State Action Event : Type*) where
  pre : State
  action : Action
  post : State
  events : List Event

/-- The machine that shows its transitions. -/
def recorded (M : Machine State Action Event) :
    Machine State Action (Transition State Action Event) where
  step s a :=
    match M.step s a with
    | none => none
    | some (s', es) => some (s', [⟨s, a, s', es⟩])

variable {M : Machine State Action Event} {C : State → Action → Prop} {s₀ s s' : State}

theorem recorded_step {a : Action} {ts : List (Transition State Action Event)} :
    M.recorded.step s a = some (s', ts) ↔
      ∃ es, M.step s a = some (s', es) ∧ ts = [⟨s, a, s', es⟩] := by
  unfold recorded
  constructor
  · intro h
    cases h_step : M.step s a with
    | none =>
      simp only [h_step] at h
      cases h
    | some r =>
      simp only [h_step] at h
      cases h
      exact ⟨r.2, rfl, rfl⟩
  · rintro ⟨es, h_step, rfl⟩
    simp only [h_step]

/-- What the recorded steps have made visible. -/
def shown (ts : List (Transition State Action Event)) : List Event :=
  ts.flatMap Transition.events

@[simp] theorem shown_nil : shown ([] : List (Transition State Action Event)) = [] := rfl

@[simp] theorem shown_append (ts ts' : List (Transition State Action Event)) :
    shown (ts ++ ts') = shown ts ++ shown ts' := List.flatMap_append

@[simp] theorem shown_singleton (t : Transition State Action Event) : shown [t] = t.events :=
  List.append_nil _

/-- **Every run has a record**: the same states and the same events, with each transition kept
whole. -/
theorem ReachBy.recorded {tr : List Event} (h : M.ReachBy C s₀ tr s) :
    ∃ ts, M.recorded.ReachBy C s₀ ts s ∧ shown ts = tr := by
  induction h with
  | init => exact ⟨[], .init, rfl⟩
  | step _ h_C h_step ih =>
    obtain ⟨ts, h_reach, rfl⟩ := ih
    refine ⟨_, h_reach.step h_C (recorded_step.mpr ⟨_, h_step, rfl⟩), ?_⟩
    rw [shown_append, shown_singleton]

/-- `P` holds of every transition of the record, with the record before it. -/
def AtEach (P : List (Transition State Action Event) → Transition State Action Event → Prop)
    (ts : List (Transition State Action Event)) : Prop :=
  ∀ ts₁ t ts₂, ts = ts₁ ++ t :: ts₂ → P ts₁ t

section AtEach

variable {P : List (Transition State Action Event) → Transition State Action Event → Prop}
  {ts : List (Transition State Action Event)}

theorem atEach_nil : AtEach P [] := fun _ _ _ h => absurd h.symm (by simp)

/-- The last transition of a record. -/
theorem atEach_concat (t : Transition State Action Event) :
    AtEach P (ts ++ [t]) ↔ AtEach P ts ∧ P ts t := by
  constructor
  · intro h
    refine ⟨fun ts₁ t' ts₂ h_ts => h ts₁ t' (ts₂ ++ [t]) ?_, h ts t [] rfl⟩
    rw [h_ts, List.append_assoc, List.cons_append]
  · rintro ⟨h_before, h_last⟩ ts₁ t' ts₂ h_ts
    rcases List.eq_nil_or_concat ts₂ with rfl | ⟨ts₂, t'', rfl⟩
    · obtain ⟨rfl, h_t⟩ := List.append_inj' h_ts rfl
      rwa [← List.singleton_inj.mp h_t]
    · rw [List.concat_eq_append, ← List.cons_append, ← List.append_assoc] at h_ts
      exact h_before ts₁ t' ts₂ (List.append_inj' h_ts rfl).1

end AtEach

/-- The invariant rule for records: one transition at a time. -/
theorem ReachBy.recorded_inv {I : List (Transition State Action Event) → State → Prop}
    {ts : List (Transition State Action Event)} (h_init : I [] s₀)
    (h_step : ∀ ts s a s' es, I ts s → C s a → M.step s a = some (s', es) →
      I (ts ++ [⟨s, a, s', es⟩]) s')
    (h : M.recorded.ReachBy C s₀ ts s) : I ts s := by
  refine h.inv h_init ?_
  rintro ts s a s' _ h_I h_C h_rec
  obtain ⟨es, h_s, rfl⟩ := recorded_step.mp h_rec
  exact h_step ts s a s' es h_I h_C h_s

end Machine
