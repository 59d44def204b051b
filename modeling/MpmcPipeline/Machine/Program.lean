import Mathlib.Tactic.TypeStar

/-!
# Programs over commands

A program is finished with a result, or asks for a command and goes on with the answer. What
the commands do is not part of it: a program can be run by a machine, one command at a step
and among others, or be reasoned about from what each command needs and what it leads to.

Such a description of the commands is a `Spec`: in a state of knowledge, a command and a
postcondition on the answer and the knowledge after it. `wp` carries it over to whole programs;
`wp_bind` composes, `wp_mono` is the rule of consequence, and `wp_lift` takes a program over to
other commands.
-/

universe u

/-- A program with a result in `α`. -/
inductive Program (Cmd : Type*) (Answer : Cmd → Type*) (α : Type*)
  | done (a : α)
  | ask (c : Cmd) (next : Answer c → Program Cmd Answer α)

namespace Program

variable {Cmd S : Type*} {Answer : Cmd → Type*} {α β : Type u}

/-- One program after the other. -/
def bind : Program Cmd Answer α → (α → Program Cmd Answer β) → Program Cmd Answer β
  | done a, f => f a
  | ask c next, f => ask c fun r => (next r).bind f

instance : Monad (Program Cmd Answer) where
  pure := done
  bind := bind

/-- The program of one command. -/
def perform (c : Cmd) : Program Cmd Answer (Answer c) := ask c done

/-- What the commands need and lead to. -/
abbrev Spec (Cmd : Type*) (Answer : Cmd → Type*) (S : Type*) :=
  S → (c : Cmd) → (Answer c → S → Prop) → Prop

/-- A weaker postcondition needs no more. -/
def Spec.Mono (spec : Spec Cmd Answer S) : Prop :=
  ∀ s c (post post' : Answer c → S → Prop), (∀ r s', post r s' → post' r s') →
    spec s c post → spec s c post'

/-- **The weakest precondition** of a program: started with the knowledge `s`, every command
has what it needs, and a result comes with the knowledge `post` asks for. -/
def wp (spec : Spec Cmd Answer S) : Program Cmd Answer α → S → (α → S → Prop) → Prop
  | done a, s, post => post a s
  | ask c next, s, post => spec s c fun r s' => (next r).wp spec s' post

variable {spec : Spec Cmd Answer S} {s : S}

@[simp] theorem wp_pure (a : α) (post : α → S → Prop) :
    (pure a : Program Cmd Answer α).wp spec s post ↔ post a s := Iff.rfl

/-- **Composition.** -/
@[simp] theorem wp_bind (p : Program Cmd Answer α) (f : α → Program Cmd Answer β)
    (post : β → S → Prop) :
    (p >>= f).wp spec s post ↔ p.wp spec s fun a s' => (f a).wp spec s' post := by
  suffices h : (p.bind f).wp spec s post = p.wp spec s fun a s' => (f a).wp spec s' post by
    exact iff_of_eq h
  induction p generalizing s with
  | done a => rfl
  | ask c next ih => exact congrArg (spec s c) (funext fun r => funext fun s' => ih r)

/-- **Consequence.** What is proved of a program with one postcondition holds with every weaker one,
as long as the commands' rules are monotone in theirs. -/
theorem wp_mono (h_mono : spec.Mono) {p : Program Cmd Answer α} {post post' : α → S → Prop}
    (h_post : ∀ a s', post a s' → post' a s') (h : p.wp spec s post) : p.wp spec s post' := by
  induction p generalizing s with
  | done a => exact h_post a s h
  | ask c next ih => exact h_mono s c _ _ (fun r s' h_next => ih r h_next) h

/-- **Change of knowledge.** Where the commands concern a part of the knowledge only, so does a
program. -/
theorem wp_zoom {T : Type*} {spec' : Spec Cmd Answer T} {set : T → S}
    (h : ∀ t c post, spec (set t) c post ↔ spec' t c fun r t' => post r (set t'))
    (p : Program Cmd Answer α) {t : T} (post : α → S → Prop) :
    p.wp spec (set t) post ↔ p.wp spec' t fun a t' => post a (set t') := by
  suffices h_eq : p.wp spec (set t) post = p.wp spec' t fun a t' => post a (set t') by
    exact iff_of_eq h_eq
  induction p generalizing t with
  | done a => rfl
  | ask c next ih =>
    refine (propext (h t c _)).trans (congrArg (spec' t c) ?_)
    exact funext fun r => funext fun t' => ih r

/-- A program that keeps a property of the knowledge. -/
def Keeps (spec : Spec Cmd Answer S) (I : S → Prop) (p : Program Cmd Answer α) : Prop :=
  ∀ s, I s → ∀ post : α → S → Prop, (∀ a s', I s' → post a s') → p.wp spec s post

theorem Keeps.pure {I : S → Prop} (a : α) : Keeps spec I (pure a : Program Cmd Answer α) :=
  fun s h_s _ h_post => h_post a s h_s

theorem Keeps.bind {I : S → Prop} {p : Program Cmd Answer α} {f : α → Program Cmd Answer β}
    (h_p : Keeps spec I p) (h_f : ∀ a, Keeps spec I (f a)) : Keeps spec I (p >>= f) := by
  intro s h_s post h_post
  rw [wp_bind]
  exact h_p s h_s _ fun a s' h_s' => h_f a s' h_s' post h_post

/-- A program that leaves the knowledge as it is, and of whose result `R` is known. -/
def Answers (spec : Spec Cmd Answer S) (s : S) (R : α → Prop) (p : Program Cmd Answer α) : Prop :=
  ∀ post : α → S → Prop, (∀ a, R a → post a s) → p.wp spec s post

theorem Answers.bind {R : α → Prop} {R' : β → Prop} {p : Program Cmd Answer α}
    {f : α → Program Cmd Answer β} (h_p : Answers spec s R p)
    (h_f : ∀ a, R a → Answers spec s R' (f a)) : Answers spec s R' (p >>= f) := by
  intro post h_post
  rw [wp_bind]
  exact h_p _ fun a h_a => h_f a h_a post h_post

/-- `a && b && …`: the programs after a `false` are left out. -/
def allOf : List (Program Cmd Answer Bool) → Program Cmd Answer Bool
  | [] => pure true
  | p :: ps => do
    if ← p then allOf ps else pure false

/-- What is known of `true` and of every single result is known of all. -/
theorem Answers.allOf {R : Bool → Prop} {ps : List (Program Cmd Answer Bool)} (h_true : R true)
    (h : ∀ p ∈ ps, Answers spec s R p) : Answers spec s R (allOf ps) := by
  induction ps with
  | nil => exact fun post h_post => h_post true h_true
  | cons p ps ih =>
    intro post h_post
    rw [Program.allOf, wp_bind]
    refine h p List.mem_cons_self _ fun r h_r => ?_
    cases r with
    | true => exact ih (fun q h_q => h q (List.mem_cons_of_mem p h_q)) post h_post
    | false => exact h_post false h_r

theorem Keeps.allOf {I : S → Prop} {ps : List (Program Cmd Answer Bool)}
    (h : ∀ p ∈ ps, Keeps spec I p) : Keeps spec I (allOf ps) := by
  induction ps with
  | nil => exact Keeps.pure true
  | cons p ps ih =>
    refine (h p List.mem_cons_self).bind fun r => ?_
    cases r with
    | true => exact ih fun q h_q => h q (List.mem_cons_of_mem p h_q)
    | false => exact Keeps.pure false

/-- The same program over other commands. -/
def lift {Cmd' : Type*} {Answer' : Cmd' → Type*} (f : Cmd → Cmd')
    (answer : ∀ c, Answer' (f c) → Answer c) : Program Cmd Answer α → Program Cmd' Answer' α
  | done a => done a
  | ask c next => ask (f c) fun r => (next (answer c r)).lift f answer

/-- **Change of commands.** -/
@[simp] theorem wp_lift {Cmd' : Type*} {Answer' : Cmd' → Type*} {f : Cmd → Cmd'}
    {answer : ∀ c, Answer' (f c) → Answer c} {spec' : Spec Cmd' Answer' S}
    (p : Program Cmd Answer α) (post : α → S → Prop) :
    (p.lift f answer).wp spec' s post ↔
      p.wp (fun s c post => spec' s (f c) fun r => post (answer c r)) s post := by
  suffices h : (p.lift f answer).wp spec' s post =
      p.wp (fun s c post => spec' s (f c) fun r => post (answer c r)) s post by
    exact iff_of_eq h
  induction p generalizing s with
  | done a => rfl
  | ask c next ih =>
    exact congrArg (spec' s (f c)) (funext fun r => funext fun s' => ih (answer c r))

end Program
