import MpmcPipeline.Machine.Basic
import MpmcPipeline.Machine.Program

/-!
# Programs in parallel

A `Parallel` system has threads that run programs over the same commands. A step of a thread is
a step inside the command it asks for, which may take several of them or wait; once there is an
answer the program goes on with it. A thread that has finished a program can enter another one,
and the rest of the system (devices, other threads that are no programs) takes steps of its own.

An `Outline` is a proof about such a system. Each thread knows something: `spec` says what a
command needs of this knowledge and leads to, and `inv` relates the history, the shared state
and what the threads know. `Outline.Sound` says that a step of one thread keeps `inv` and
changes the knowledge of no other thread. Then in every reached state every thread is about to
do something for which it has what is needed (`Outline.Sound.reach`).
-/

/-- Threads that run programs over commands on a shared state. -/
structure Parallel (Id Shared Env Event Cmd : Type*) (Answer : Cmd → Type*) where
  /-- A step inside a command; with the answer the command has ended. -/
  exec : Id → Env → Shared → (c : Cmd) → Option (Shared × Option (Answer c) × List Event)
  /-- The next program of a thread that has finished one. -/
  enter : Id → Shared → Option (Program Cmd Answer Unit)
  /-- A step of the rest of the system. -/
  other : Env → Shared → Option (Shared × List Event)

namespace Parallel

/-- The shared state, and what is left of the program of each thread. -/
structure State (Id Shared Cmd : Type*) (Answer : Cmd → Type*) where
  shared : Shared
  code : Id → Program Cmd Answer Unit

/-- Whose step it is, with what its environment contributes. -/
inductive Action (Id Env : Type*)
  | run (i : Id) (env : Env)
  | other (env : Env)

variable {Id Shared Env Event Cmd S : Type*} {Answer : Cmd → Type*} [DecidableEq Id]

/-- The threads and the rest of the system, one step at a time. -/
def machine (sys : Parallel Id Shared Env Event Cmd Answer) :
    Machine (State Id Shared Cmd Answer) (Action Id Env) Event where
  step s
    | .run i env =>
      match s.code i with
      | .done _ =>
        match sys.enter i s.shared with
        | none => none
        | some p => some ({ s with code := Function.update s.code i p }, [])
      | .ask c next =>
        match sys.exec i env s.shared c with
        | none => none
        | some (sh, none, es) => some ({ s with shared := sh }, es)
        | some (sh, some r, es) => some (⟨sh, Function.update s.code i (next r)⟩, es)
    | .other env =>
      match sys.other env s.shared with
      | none => none
      | some (sh, es) => some ({ s with shared := sh }, es)

/-- A condition on the steps: on those inside commands and on those of the rest. -/
def Meets (C : Id → Env → Shared → Cmd → Prop) (D : Env → Shared → Prop)
    (s : State Id Shared Cmd Answer) : Action Id Env → Prop
  | .run i env => ∀ c next, s.code i = .ask c next → C i env s.shared c
  | .other env => D env s.shared

omit [DecidableEq Id] in
/-- No condition. -/
theorem meets_true (s : State Id Shared Cmd Answer) (a : Action Id Env) :
    Meets (fun _ _ _ _ => True) (fun _ _ => True) s a := by
  cases a with
  | run i env => exact fun _ _ _ => trivial
  | other env => trivial

omit [DecidableEq Id] in
/-- A weaker condition on the rest. -/
theorem Meets.mono {C : Id → Env → Shared → Cmd → Prop} {D D' : Env → Shared → Prop}
    (h : ∀ env sh, D env sh → D' env sh) {s : State Id Shared Cmd Answer} {a : Action Id Env}
    (h_meets : Meets C D s a) : Meets C D' s a := by
  cases a with
  | run i env => exact h_meets
  | other env => exact h env s.shared h_meets

/-- A proof outline: what each command needs and leads to, and what the threads know of the
shared state. -/
structure Outline (Id Shared Event Cmd S : Type*) (Answer : Cmd → Type*) where
  spec : Id → Program.Spec Cmd Answer S
  inv : List Event → Shared → (Id → S) → Prop
  /-- What a thread knows when it has finished. -/
  rest : Id → S → Prop

namespace Outline

variable {O : Outline Id Shared Event Cmd S Answer} {sys : Parallel Id Shared Env Event Cmd Answer}
  {C : Id → Env → Shared → Cmd → Prop} {D : Env → Shared → Prop}

/-- What has to be known after a step inside a command: with an answer, what comes after it. -/
def After (spec : Program.Spec Cmd Answer S) (k : S) (c : Cmd) (post : Answer c → S → Prop) :
    Option (Answer c) → Prop
  | none => spec k c post
  | some a => post a k

/-- Every step keeps the outline, and concerns the knowledge of one thread only. -/
structure Sound (O : Outline Id Shared Event Cmd S Answer)
    (sys : Parallel Id Shared Env Event Cmd Answer) (C : Id → Env → Shared → Cmd → Prop)
    (D : Env → Shared → Prop) : Prop where
  exec : ∀ tr sh K i env c post sh' r es, O.inv tr sh K → O.spec i (K i) c post → C i env sh c →
    sys.exec i env sh c = some (sh', r, es) →
    ∃ k, O.inv (tr ++ es) sh' (Function.update K i k) ∧ After (O.spec i) k c post r
  enter : ∀ tr sh K i p, O.inv tr sh K → O.rest i (K i) → sys.enter i sh = some p →
    ∃ k, O.inv tr sh (Function.update K i k) ∧ p.wp (O.spec i) k fun _ => O.rest i
  other : ∀ tr sh K env sh' es, O.inv tr sh K → D env sh → sys.other env sh = some (sh', es) →
    O.inv (tr ++ es) sh' K

/-- The threads know enough for what is left of their programs. -/
def Holds (O : Outline Id Shared Event Cmd S Answer) (tr : List Event)
    (s : State Id Shared Cmd Answer) : Prop :=
  ∃ K, O.inv tr s.shared K ∧ ∀ i, (s.code i).wp (O.spec i) (K i) fun _ => O.rest i

/-- One thread goes on. -/
theorem wp_update {K : Id → S} {code : Id → Program Cmd Answer Unit} {i : Id} {k : S}
    {p : Program Cmd Answer Unit}
    (h : ∀ j, (code j).wp (O.spec j) (K j) fun _ => O.rest j)
    (h_i : p.wp (O.spec i) k fun _ => O.rest i) (j : Id) :
    (Function.update code i p j).wp (O.spec j) (Function.update K i k j) fun _ => O.rest j := by
  by_cases h_j : j = i
  · subst h_j
    rw [Function.update_self, Function.update_self]
    exact h_i
  · rw [Function.update_of_ne h_j, Function.update_of_ne h_j]
    exact h j

/-- **A step keeps the outline.** The thread that moves keeps its own part, by what its command
guarantees, and the outline is such that the parts of the others are not disturbed. -/
theorem Sound.step (hO : O.Sound sys C D) {tr es : List Event}
    {s s' : State Id Shared Cmd Answer} {a : Action Id Env} (h : O.Holds tr s)
    (hC : Meets C D s a) (h_step : sys.machine.step s a = some (s', es)) :
    O.Holds (tr ++ es) s' := by
  obtain ⟨K, h_inv, h_wp⟩ := h
  cases a with
  | run i env =>
    have h_i := h_wp i
    cases h_code : s.code i with
    | done a =>
      rw [h_code] at h_i
      simp only [machine, h_code] at h_step
      cases h_enter : sys.enter i s.shared with
      | none =>
        rw [h_enter] at h_step
        cases h_step
      | some p =>
        rw [h_enter] at h_step
        cases h_step
        obtain ⟨k, h_inv', h_p⟩ := hO.enter tr s.shared K i p h_inv h_i h_enter
        rw [List.append_nil]
        exact ⟨_, h_inv', wp_update h_wp h_p⟩
    | ask c next =>
      rw [h_code] at h_i
      simp only [machine, h_code] at h_step
      -- the thread has what its command needs
      cases h_exec : sys.exec i env s.shared c with
      | none =>
        rw [h_exec] at h_step
        cases h_step
      | some x =>
        obtain ⟨sh, r, es'⟩ := x
        rw [h_exec] at h_step
        obtain ⟨k, h_inv', h_k⟩ := hO.exec tr s.shared K i env c _ sh r es' h_inv h_i
          (hC c next h_code) h_exec
        cases r with
        | none =>
          cases h_step
          refine ⟨_, h_inv', ?_⟩
          have h_all := wp_update h_wp (i := i) (k := k) (p := .ask c next) h_k
          rwa [← h_code, Function.update_eq_self] at h_all
        | some a =>
          cases h_step
          exact ⟨_, h_inv', wp_update h_wp h_k⟩
  | other env =>
    simp only [machine] at h_step
    cases h_other : sys.other env s.shared with
    | none =>
      rw [h_other] at h_step
      cases h_step
    | some x =>
      rw [h_other] at h_step
      cases h_step
      exact ⟨K, hO.other tr s.shared K env _ _ h_inv hC h_other, h_wp⟩

/-- **Every reached state keeps the outline**, in every run whose steps meet the conditions on
commands and on the rest of the system. -/
theorem Sound.reach (hO : O.Sound sys C D) {s₀ s : State Id Shared Cmd Answer} {tr : List Event}
    (h_init : O.Holds [] s₀) (h : sys.machine.ReachBy (Meets C D) s₀ tr s) : O.Holds tr s :=
  h.inv h_init fun _ _ _ _ _ h_holds hC h_step => hO.step h_holds hC h_step

omit [DecidableEq Id] in
/-- A thread that asks for a command has what the command needs. -/
theorem Holds.asks {tr : List Event} {s : State Id Shared Cmd Answer} (h : O.Holds tr s) {i : Id}
    {c : Cmd} {next : Answer c → Program Cmd Answer Unit} (h_code : s.code i = .ask c next) :
    ∃ K post, O.inv tr s.shared K ∧ O.spec i (K i) c post := by
  obtain ⟨K, h_inv, h_wp⟩ := h
  have h_i := h_wp i
  rw [h_code] at h_i
  exact ⟨K, _, h_inv, h_i⟩

omit [DecidableEq Id] in
/-- A thread that has finished knows what it should. -/
theorem Holds.finished {tr : List Event} {s : State Id Shared Cmd Answer} (h : O.Holds tr s)
    {i : Id} (h_code : s.code i = .done ()) : ∃ K, O.inv tr s.shared K ∧ O.rest i (K i) := by
  obtain ⟨K, h_inv, h_wp⟩ := h
  have h_i := h_wp i
  rw [h_code] at h_i
  exact ⟨K, h_inv, h_i⟩

end Outline

end Parallel
