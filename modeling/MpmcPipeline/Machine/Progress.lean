import MpmcPipeline.Machine.Parallel

/-!
# Getting through a program

A program is a finite tree, so a thread gets through it as soon as every command it can ask for is
answered sooner or later. What comes before the answer may be steps of the thread inside the
command, or steps of others that it waits for: `Parallel.Leads` says that some steps lead from one
state to another, while the threads in `still` do not go on, and `Parallel.exists_done` puts the
commands of a program together.

This is about what can happen, from every state: a system that passes has no state from which the
thread is lost whatever the others do.
-/

namespace Parallel

variable {Id Shared Env Event Cmd : Type*} {Answer : Cmd → Type*} [DecidableEq Id]

/-- Some steps, each of which meets the conditions, lead from `s` to `s'`, and the threads in
`still` have not gone on. -/
def Leads (sys : Parallel Id Shared Env Event Cmd Answer) (C : Id → Env → Shared → Cmd → Prop)
    (D : Env → Shared → Prop) (still : Id → Prop) (s s' : State Id Shared Cmd Answer) : Prop :=
  (∃ tr, sys.machine.ReachBy (Meets C D) s tr s') ∧ ∀ i, still i → s'.code i = s.code i

instance (C : Id → Env → Shared → Cmd → Prop) (D : Env → Shared → Prop)
    [∀ i env s c, Decidable (C i env s c)] [∀ env s, Decidable (D env s)]
    (s : State Id Shared Cmd Answer) : (a : Action Id Env) → Decidable (Meets C D s a)
  | .run i env =>
    match h : s.code i with
    | .done _ => isTrue fun _ _ h' => by cases h.symm.trans h'
    | .ask c next => decidable_of_iff (C i env s.shared c)
      ⟨fun h_c _ _ h' => by cases h.symm.trans h'; exact h_c, fun h_all => h_all c next h⟩
  | .other env => inferInstanceAs (Decidable (D env s.shared))

/-- What a step can be. -/
theorem step_cases {sys : Parallel Id Shared Env Event Cmd Answer}
    {s s' : State Id Shared Cmd Answer} {a : Action Id Env} {es : List Event}
    (h : sys.machine.step s a = some (s', es)) :
    (∃ i env, a = .run i env ∧ s.code i = .done () ∧ s'.shared = s.shared) ∨
      (∃ i env c next r, a = .run i env ∧ s.code i = .ask c next ∧
        sys.exec i env s.shared c = some (s'.shared, r, es)) ∨
      ∃ env, a = .other env ∧ sys.other env s.shared = some (s'.shared, es) := by
  cases a with
  | run i env =>
    cases h_code : s.code i with
    | done a =>
      -- a finished thread makes steps that change nothing
      simp only [machine, h_code] at h
      split at h <;> cases h
      exact Or.inl ⟨i, env, rfl, h_code, rfl⟩
    | ask c next =>
      simp only [machine, h_code] at h
      refine Or.inr (Or.inl ⟨i, env, c, next, ?_⟩)
      split at h
      · -- the command waits
        cases h
      · next h_exec =>
        -- the command does its work and the thread stays at it
        cases h
        exact ⟨none, rfl, h_code, h_exec⟩
      · next r _ h_exec =>
        -- the command answers and the thread goes on
        cases h
        exact ⟨some r, rfl, h_code, h_exec⟩
  | other env =>
    simp only [machine] at h
    split at h
    · cases h
    · next h_other =>
      cases h
      exact Or.inr (Or.inr ⟨env, rfl, h_other⟩)

namespace Leads

variable {sys : Parallel Id Shared Env Event Cmd Answer} {C : Id → Env → Shared → Cmd → Prop}
  {D : Env → Shared → Prop} {still still' : Id → Prop} {s s' s'' : State Id Shared Cmd Answer}

theorem refl : Leads sys C D still s s := ⟨⟨[], .init⟩, fun _ _ => rfl⟩

theorem trans (h : Leads sys C D still s s') (h' : Leads sys C D still s' s'') :
    Leads sys C D still s s'' := by
  obtain ⟨⟨tr, h_tr⟩, h_still⟩ := h
  obtain ⟨⟨tr', h_tr'⟩, h_still'⟩ := h'
  exact ⟨⟨tr ++ tr', h_tr.trans h_tr'⟩, fun i h_i => (h_still' i h_i).trans (h_still i h_i)⟩

/-- Fewer threads stand still. -/
theorem mono (h : Leads sys C D still s s') (h_still : ∀ i, still' i → still i) :
    Leads sys C D still' s s' := ⟨h.1, fun i h_i => h.2 i (h_still i h_i)⟩

/-- One step. -/
theorem single (a : Action Id Env) (es : List Event) (h_meets : Meets C D s a)
    (h_step : sys.machine.step s a = some (s', es))
    (h_still : ∀ i, still i → s'.code i = s.code i) :
    Leads sys C D still s s' := ⟨⟨_, Machine.ReachBy.init.step h_meets h_step⟩, h_still⟩

section

variable {i : Id} {c : Cmd} {next : Answer c → Program Cmd Answer Unit} {sh : Shared}

omit [DecidableEq Id] in
theorem meets_run {env : Env} (h_code : s.code i = .ask c next) (h_C : C i env s.shared c) :
    Meets C D s (.run i env) := by
  intro c' next' h_code'
  cases h_code.symm.trans h_code'
  exact h_C

/-- A step inside a command. -/
theorem within (env : Env) (es : List Event) (h_code : s.code i = .ask c next)
    (h_C : C i env s.shared c)
    (h_exec : sys.exec i env s.shared c = some (sh, none, es)) :
    Leads sys C D still s { s with shared := sh } := by
  refine single (.run i env) es (meets_run h_code h_C) ?_ fun _ _ => rfl
  simp only [machine, h_code, h_exec]

/-- A command is answered. -/
theorem answer {r : Answer c} (env : Env) (es : List Event) (h_code : s.code i = .ask c next)
    (h_C : C i env s.shared c)
    (h_exec : sys.exec i env s.shared c = some (sh, some r, es)) (h_i : ¬still i) :
    Leads sys C D still s ⟨sh, Function.update s.code i (next r)⟩ := by
  refine single (.run i env) es (meets_run h_code h_C) ?_ fun j h_j => ?_
  · simp only [machine, h_code, h_exec]
  · exact Function.update_of_ne (fun h_eq : j = i => h_i (h_eq ▸ h_j)) _ _

/-- A thread that has finished a program begins the next one. -/
theorem enter {p : Program Cmd Answer Unit} (env : Env) (h_code : s.code i = .done ())
    (h_enter : sys.enter i s.shared = some p) (h_i : ¬still i) :
    Leads sys C D still s { s with code := Function.update s.code i p } := by
  refine single (.run i env) [] (fun c next h_ask => ?_) ?_ fun j h_j => ?_
  · cases h_code.symm.trans h_ask
  · simp only [machine, h_code, h_enter]
  · exact Function.update_of_ne (fun h_eq : j = i => h_i (h_eq ▸ h_j)) _ _

/-- The rest of the system takes a step. -/
theorem other (env : Env) (es : List Event) (h_D : D env s.shared)
    (h_other : sys.other env s.shared = some (sh, es)) :
    Leads sys C D still s { s with shared := sh } := by
  refine single (.other env) es h_D ?_ fun _ _ => rfl
  simp only [machine, h_other]

end

end Leads

/-- **Getting through.** A thread whose every command is answered, or `stop` met, gets to the end of
its program, or `stop` is met. -/
theorem exists_done {sys : Parallel Id Shared Env Event Cmd Answer}
    {C : Id → Env → Shared → Cmd → Prop} {D : Env → Shared → Prop} {still : Id → Prop} {i : Id}
    {I stop : State Id Shared Cmd Answer → Prop}
    (h_keep : ∀ s s', I s → Leads sys C D still s s' → I s')
    (h_answer : ∀ s c next, I s → s.code i = .ask c next →
      ∃ s', Leads sys C D still s s' ∧ (stop s' ∨ ∃ r, s'.code i = next r))
    {s : State Id Shared Cmd Answer} (h : I s) :
    ∃ s', Leads sys C D still s s' ∧ (stop s' ∨ s'.code i = .done ()) := by
  -- induction on what is left of the program
  generalize h_code : s.code i = p
  induction p generalizing s with
  | done a => exact ⟨s, Leads.refl, Or.inr h_code⟩
  | ask c next ih =>
    obtain ⟨s', h_leads, h_stop | ⟨r, h_next⟩⟩ := h_answer s c next h h_code
    · exact ⟨s', h_leads, Or.inl h_stop⟩
    · obtain ⟨s'', h_leads', h_end⟩ := ih r (h_keep s s' h h_leads) h_next
      exact ⟨s'', h_leads.trans h_leads', h_end⟩

end Parallel
