import MpmcPipeline.Mem.Copies
import MpmcPipeline.Mem.Sequential

/-!
# A routine by itself

What a routine does while no other worker moves: each of its commands is the operation of
`Mem/Sequential.lean`, in an environment of its own (`Does`). As a command may do one thing or
another, `code.wp alone s post` says that the code can be run from `s` to an end where `post`
holds.

Workers can do this, step by step (`runs_of_alone`): a call that keeps to the rules of
`Mem/Knowledge.lean` and does something alone does the same as a run of its worker. So whatever
is shown of the interleaving of workers holds of calls that come one after the other.
-/

namespace Hft

open Handoff (Env)

namespace Worker

variable {P : PoolCapacity} {Q Op : Type*} [DecidableEq Q] {σ : Type} {cap : Q → Capacity}

/-- What a command does, if it runs to its end. -/
inductive Does (sh : Shared P cap σ) : (c : Cmd P Q σ) → c.Answer → Shared P cap σ → Prop
  | own (update : σ → σ) :
      Does sh (.own update) sh.parts { sh with parts := update sh.parts }
  | acquire (env : Env) :
      Does sh .acquire (sh.mem.acquire env).1 { sh with mem := (sh.mem.acquire env).2 }
  | tryPop (q : Q) :
      Does sh (.tryPop q) (sh.mem.tryPop q).1 { sh with mem := (sh.mem.tryPop q).2 }
  | readKind (p : Ptr P) : Does sh (.readKind p) (sh.mem.load p).kind sh
  | readByte (p : Ptr P) (k : ℕ) : Does sh (.readByte p k) ((sh.mem.load p).memory k) sh
  | writeKind (p : Ptr P) (kind : Kind) :
      Does sh (.writeKind p kind) () { sh with mem := sh.mem.write p { sh.mem.load p with kind } }
  | writeByte (p : Ptr P) (k : Fin maxSlotSize) (b : Byte) :
      Does sh (.writeByte p k b) () { sh with mem := sh.mem.write p ((sh.mem.load p).setByte k b) }
  | push {env : Env} {q : Q} {p : Ptr P} {mem : Handoff.Shared P cap}
      (h : sh.mem.push env q p = some mem) : Does sh (.push q p) () { sh with mem }
  | release (p : Ptr P) : Does sh (.release p) () { sh with mem := sh.mem.release p }

/-- The commands alone. -/
def alone : Program.Spec (Cmd P Q σ) Cmd.Answer (Shared P cap σ) :=
  fun sh c post => ∃ r sh', Does sh c r sh' ∧ post r sh'

theorem alone_mono :
    (alone : Program.Spec (Cmd P Q σ) Cmd.Answer (Shared P cap σ)).Mono := by
  rintro sh c post post' h_post ⟨r, sh', h_does, h⟩
  exact ⟨r, sh', h_does, h_post r sh' h⟩

/-! ### Runs of one worker -/

section

variable (ops : Op → Routine P Q σ Unit)

/-- A worker by itself gets from one state to another. -/
def Runs (s s' : Shared P cap σ × Local P cap σ) : Prop :=
  ∃ tr, (Threads.solo (step ops)).Reach s tr s'

variable {ops} {s s' s'' : Shared P cap σ × Local P cap σ} {sh sh' : Shared P cap σ}
  {l l' : Local P cap σ} {es : List (Event P Q)}

theorem Runs.refl (s : Shared P cap σ × Local P cap σ) : Runs ops s s := ⟨[], .init⟩

theorem Runs.trans (h : Runs ops s s') (h' : Runs ops s' s'') : Runs ops s s'' := by
  obtain ⟨tr, h_reach⟩ := h
  obtain ⟨tr', h_reach'⟩ := h'
  exact ⟨tr ++ tr', h_reach.trans h_reach'⟩

theorem Runs.single (ch : Choice Op) (h : step ops sh l ch = some (sh', l', es)) :
    Runs ops (sh, l) (sh', l') :=
  ⟨es, Threads.solo_single h⟩

variable {hand hand' : List (Ptr P)} {pc pc' : Handoff.Pc P cap} {c : Cmd P Q σ}
  {next : c.Answer → Routine P Q σ Unit} {n : ℕ} {mem : Handoff.Shared P cap}
  {ch' : Handoff.Choice P Q}

theorem baseStep_eq {es' : List (Handoff.Event P Q)} {l : Local P cap σ}
    {base : Handoff.Local P cap}
    (h : Handoff.step sh.mem l.base ch' = some (mem, base, es')) :
    baseStep sh l c next ch' =
      some ({ sh with mem }, ⟨base, codeAfter l.base base c next, l.calls⟩,
        shown l.calls (Handoff.writeOf l.base.pc ch') es') := by
  rw [baseStep, h]

/-- The first step of a command. -/
theorem Runs.start (es' : List (Handoff.Event P Q)) (h_start : c.start = some ch')
    (h : Handoff.step sh.mem ⟨hand, .idle⟩ ch' = some (mem, ⟨hand', pc'⟩, es')) :
    Runs ops (sh, ⟨⟨hand, .idle⟩, .ask c next, n⟩)
      ({ sh with mem }, ⟨⟨hand', pc'⟩, codeAfter ⟨hand, .idle⟩ ⟨hand', pc'⟩ c next, n⟩) :=
  .single .run ((step_start ops sh h_start).trans (baseStep_eq h))

/-- A step inside a command. -/
theorem Runs.inside (es' : List (Handoff.Event P Q)) (h_busy : pc ≠ .idle)
    (h_ch : ch' = .run ∨ ch' = .spurious)
    (h : Handoff.step sh.mem ⟨hand, pc⟩ ch' = some (mem, ⟨hand', pc'⟩, es')) :
    Runs ops (sh, ⟨⟨hand, pc⟩, .ask c next, n⟩)
      ({ sh with mem }, ⟨⟨hand', pc'⟩, codeAfter ⟨hand, pc⟩ ⟨hand', pc'⟩ c next, n⟩) := by
  obtain rfl | rfl := h_ch
  · exact .single .run ((step_busy ops sh h_busy).trans (baseStep_eq h))
  · exact .single .spurious (baseStep_eq h)

/-! ### The pool -/

variable {nextMsg : Option (Ptr P) → Routine P Q σ Unit} {p : Ptr P}

/-- The worker in the middle of an `acquire`. -/
abbrev acquiring (nextMsg : Option (Ptr P) → Routine P Q σ Unit) (n : ℕ) (pc : Handoff.Pc P cap) :
    Local P cap σ := ⟨⟨[], pc⟩, .ask .acquire nextMsg, n⟩

/-- The loop that clears a body, from byte `k` on. -/
theorem runs_clear (left k : ℕ) (h_left : k + left = maxSlotSize) {pool : TaggedPool P}
    (h_filled : Handoff.Filled pool (.clear none p k : Handoff.Pc P cap))
    (sh : Shared P cap σ) :
    Runs ops ({ sh with mem := { sh.mem with pool } }, acquiring nextMsg n (.clear none p k))
      ({ sh with mem := { sh.mem with pool := pool.store p .fresh } },
        ⟨⟨[p], .idle⟩, nextMsg (some p), n⟩) := by
  induction left generalizing k pool with
  | zero =>
    -- the body is fresh already
    have h_k : ¬k < maxSlotSize := by omega
    rw [← h_filled.clear_done h_k, TaggedPool.store_load]
    refine .inside [.acquired none p (pool.load p)] (by simp) (Or.inl rfl) ?_
    simp only [Handoff.step, dif_neg h_k]
  | succ left ih =>
    have h_k : k < maxSlotSize := by omega
    have h_rest := ih (k + 1) (by omega) (h_filled.clear_step h_k)
    rw [TaggedPool.store_store] at h_rest
    refine .trans (.inside [] (by simp) (Or.inl rfl) ?_) h_rest
    simp only [Handoff.step, dif_pos h_k]
    rfl

/-- An exchange that fails; a weak one can. -/
theorem runs_scan_next (sh : Shared P cap σ) {i : ℕ} (h_lt : i < P.val) :
    Runs ops (sh, acquiring nextMsg n (.scan none i))
      (sh, acquiring nextMsg n (.scan none (i + 1))) := by
  refine .inside [] (by simp) (Or.inr rfl) ?_
  simp only [Handoff.step, if_pos h_lt]

/-- A scan that finds no slot, from slot `i` on. -/
theorem runs_scan_none (sh : Shared P cap σ) (weak : MPMC.Weak) (left i : ℕ)
    (h_left : i + left = P.val) (h : TaggedPool.acquireLoop weak sh.mem.pool left i = none) :
    Runs ops (sh, acquiring nextMsg n (.scan none i)) (sh, ⟨⟨[], .idle⟩, nextMsg none, n⟩) := by
  induction left generalizing i with
  | zero =>
    refine .inside [] (by simp) (Or.inl rfl) ?_
    simp only [Handoff.step, dif_neg (by omega : ¬i < P.val)]
  | succ left ih =>
    have h_lt : i < P.val := by omega
    rw [TaggedPool.acquireLoop, dif_pos h_lt] at h
    split at h
    · cases h
    · exact (runs_scan_next sh h_lt).trans (ih (i + 1) (by omega) h)

/-- A scan that finds one, and marks it. -/
theorem runs_scan_some (sh : Shared P cap σ) (weak : MPMC.Weak) (left i : ℕ)
    (h_left : i + left = P.val) (h : TaggedPool.acquireLoop weak sh.mem.pool left i = some p) :
    Runs ops (sh, acquiring nextMsg n (.scan none i))
      ({ sh with mem := { sh.mem with pool := sh.mem.pool.setState p 1 } },
        acquiring nextMsg n (.setKind none p)) := by
  -- the scan and the loop go over the slots together
  induction left generalizing i with
  | zero => cases h
  | succ left ih =>
    have h_lt : i < P.val := by omega
    rw [TaggedPool.acquireLoop, dif_pos h_lt] at h
    split at h
    · -- a free slot whose exchange does not fail is marked by one operation
      next h_free =>
      cases h
      refine .inside [.claimed ⟨i, h_lt⟩] (by simp) (Or.inl rfl) ?_
      simp only [Handoff.step, dif_pos h_lt, if_pos h_free.1]
    · -- any other slot costs one operation, and the scan goes on
      exact (runs_scan_next sh h_lt).trans (ih (i + 1) (by omega) h)

/-- **`acquire` alone** gives what the sequential `acquire` gives: the same slot, or none after the
last. -/
theorem runs_acquire (sh : Shared P cap σ) (env : Env) :
    Runs ops (sh, ⟨⟨[], .idle⟩, .ask .acquire nextMsg, n⟩)
      ({ sh with mem := (sh.mem.acquire env).2 },
        ⟨⟨(sh.mem.acquire env).1.toList, .idle⟩, nextMsg (sh.mem.acquire env).1, n⟩) := by
  have h_start : Runs ops (sh, ⟨⟨[], .idle⟩, .ask .acquire nextMsg, n⟩)
      (sh, acquiring nextMsg n (.scan none 0)) := .start [] rfl rfl
  refine h_start.trans ?_
  cases h_loop : TaggedPool.acquireLoop env.acquire sh.mem.pool P.val 0 with
  | none =>
    have h_acquire : sh.mem.acquire env = (none, sh.mem) := by
      simp only [Handoff.Shared.acquire, TaggedPool.acquire, h_loop]
    rw [h_acquire]
    exact runs_scan_none sh env.acquire P.val 0 (Nat.zero_add _) h_loop
  | some p =>
    have h_acquire : sh.mem.acquire env = (some p,
        { sh.mem with pool := (sh.mem.pool.setState p 1).store p .fresh }) := by
      simp only [Handoff.Shared.acquire, TaggedPool.acquire, h_loop]
    rw [h_acquire]
    refine (runs_scan_some sh env.acquire P.val 0 (Nat.zero_add _) h_loop).trans ?_
    -- the kind first, then the bytes
    refine .trans (.inside [] (by simp) (Or.inl rfl) rfl) ?_
    rw [← TaggedPool.store_store]
    exact runs_clear maxSlotSize 0 (Nat.zero_add _)
      (Handoff.Filled.clear_start (sh.mem.pool.setState p 1) none p) sh

/-! ### The queues -/

omit [DecidableEq Q] in
theorem got_nil (hand : List (Ptr P)) : got [] hand = hand.head? := by
  cases hand <;> rfl

/-- What a step inside a call decides it with, and that a message is returned at its end. -/
theorem steps_busy {C : Capacity} {α : Type*} {q q' : MPMC C α} {pc pc' : MPMC.Pc C α}
    {ch : MPMC.Choice α} {es : List (MPMC.Event α)} (h : MPMC.Steps q pc ch q' pc' es)
    (h_busy : pc ≠ .idle) :
    (ch = .run ∨ ch = .spurious) ∧ (pc' ≠ .idle → MPMC.returns es = []) := by
  cases h with
  | call c => exact absurd rfl h_busy
  | casFail message slot _ h_fail => exact ⟨h_fail.symm.imp_left And.left, fun _ => rfl⟩
  | casStore | popTake | tryFail | storePop => exact ⟨Or.inl rfl, fun h => absurd rfl h⟩
  | _ => exact ⟨Or.inl rfl, fun _ => rfl⟩

theorem solo_step {C : Capacity} {α : Type*} {q q' : MPMC C α} {pc pc' : MPMC.Pc C α}
    {ch : MPMC.Choice α} {es : List (MPMC.Event α)}
    (h : MPMC.solo.step (q, pc) ch = some ((q', pc'), es)) : q.step pc ch = some (q', pc', es) := by
  dsimp only at h
  split at h
  · cases h
  · next h_step =>
    cases h
    exact h_step

/-- A call on a queue, once it has been entered, returns what the queue returns. -/
theorem runs_ring {q : Q} {chs : List (MPMC.Choice (Ptr P))} {pc : MPMC.Pc (cap q) (Ptr P)}
    {queue : MPMC (cap q) (Ptr P)} {es : List (MPMC.Event (Ptr P))} (h_busy : pc ≠ .idle)
    (h_es : ∀ c, .called c ∉ es) (sh : Shared P cap σ)
    (h : MPMC.solo.run (sh.mem.queues q, pc) chs = some ((queue, .idle), es)) :
    Runs ops (sh, ⟨⟨[], .ring q pc⟩, .ask c next, n⟩)
      ({ sh with mem := sh.mem.setQueue q queue },
        ⟨⟨MPMC.returns es, .idle⟩, goOn (MPMC.returns es).head? c next, n⟩) := by
  -- induction on the steps that the queue has been shown to take by itself
  induction chs generalizing pc sh es with
  | nil =>
    cases h
    exact absurd rfl h_busy
  | cons ch chs ih =>
    obtain ⟨⟨queue₁, pc₁⟩, es₁, es₂, h_step, h_rest, rfl⟩ := Machine.run_cons h
    have h_queue := solo_step h_step
    obtain ⟨h_ch, h_returns⟩ := steps_busy (MPMC.step_steps h_queue) h_busy
    have h_thread : Handoff.ringStep sh.mem ⟨[], .ring q pc⟩ q pc ch =
        some (sh.mem.setQueue q queue₁, ⟨MPMC.returns es₁, .inside q pc₁⟩,
          es₁.filterMap (Handoff.ringEvent sh.mem.pool q)) := by
      rw [Handoff.ringStep, h_queue]
      dsimp only
      rw [List.append_nil]
      rfl
    have h_inside : Runs ops (sh, ⟨⟨[], .ring q pc⟩, .ask c next, n⟩)
        ({ sh with mem := sh.mem.setQueue q queue₁ },
          ⟨⟨MPMC.returns es₁, .inside q pc₁⟩, codeAfter ⟨[], .ring q pc⟩
            ⟨MPMC.returns es₁, .inside q pc₁⟩ c next, n⟩) := by
      obtain rfl | rfl := h_ch
      · exact .inside _ (by simp) (Or.inl rfl) h_thread
      · exact .inside _ (by simp) (Or.inr rfl) h_thread
    by_cases h_idle : pc₁ = .idle
    · -- the call has returned, and is not entered again
      subst h_idle
      cases chs with
      | nil =>
        cases h_rest
        rw [List.append_nil]
        rw [codeAfter, got_nil] at h_inside
        exact h_inside
      | cons ch' chs =>
        obtain ⟨⟨queue₂, pc₂⟩, es₃, es₄, h_next, -, rfl⟩ := Machine.run_cons h_rest
        cases MPMC.step_steps (solo_step h_next) with
        | call c' => exact absurd (by simp) (h_es c')
    · have h_pc : Handoff.Pc.inside q pc₁ = .ring q pc₁ := by
        cases pc₁ <;> first | rfl | exact absurd rfl h_idle
      rw [h_returns h_idle, h_pc] at h_inside
      have h_ih := ih h_idle (fun c' h_c' => h_es c' (List.mem_append_right _ h_c'))
        { sh with mem := sh.mem.setQueue q queue₁ } (by
          rw [Handoff.Shared.setQueue_self]
          exact h_rest)
      rw [Handoff.Shared.setQueue_setQueue] at h_ih
      rw [MPMC.returns_append, h_returns h_idle, List.nil_append]
      exact h_inside.trans h_ih

omit [DecidableEq Q] in
/-- A call that runs from outside of the queue begins by entering it. -/
theorem solo_called {C : Capacity} {α : Type*} {q q' : MPMC C α} {chs : List (MPMC.Choice α)}
    {call : MPMC.Call α} {es : List (MPMC.Event α)}
    (h : MPMC.solo.run (q, .idle) chs = some ((q', .idle), .called call :: es)) :
    ∃ chs', MPMC.solo.run (q, .start call) chs' = some ((q', .idle), es) := by
  cases chs with
  | nil => cases h
  | cons ch chs =>
    obtain ⟨⟨q₁, pc₁⟩, es₁, es₂, h_step, h_rest, h_es⟩ := Machine.run_cons h
    cases MPMC.step_steps (solo_step h_step) with
    | call c =>
      cases h_es
      exact ⟨chs, h_rest⟩

/-- **`try_pop` alone** gives what the sequential `try_pop` of the queue gives. -/
theorem runs_tryPop (sh : Shared P cap σ) (q : Q) :
    Runs ops (sh, ⟨⟨[], .idle⟩, .ask (.tryPop q) nextMsg, n⟩)
      ({ sh with mem := (sh.mem.tryPop q).2 },
        ⟨⟨(sh.mem.tryPop q).1.toList, .idle⟩, nextMsg (sh.mem.tryPop q).1, n⟩) := by
  -- the call itself touches neither ring nor pool
  have h_start : Runs ops (sh, ⟨⟨[], .idle⟩, .ask (.tryPop q) nextMsg, n⟩)
      (sh, ⟨⟨[], .ring q .tryLoad⟩, .ask (.tryPop q) nextMsg, n⟩) :=
    .start [] rfl rfl
  refine h_start.trans ?_
  rcases h_pop : (sh.mem.queues q).tryPop with ⟨msg, queue⟩
  have h_tryPop : sh.mem.tryPop q = (msg, sh.mem.setQueue q queue) := by
    rw [Handoff.Shared.tryPop, h_pop]
  -- the ring's own run, made from the same program point
  obtain ⟨chs, h_run⟩ := MPMC.solo_tryPop h_pop
  obtain ⟨chs', h_run'⟩ := solo_called h_run
  -- what `try_pop` returns is what it has taken
  have h_returns : MPMC.returns (msg.toList.map .take ++ [.ret msg]) = msg.toList := by
    cases msg <;> rfl
  have h_head : msg.toList.head? = msg := by cases msg <;> rfl
  have h_ring : Runs ops (sh, ⟨⟨[], .ring q .tryLoad⟩, .ask (.tryPop q) nextMsg, n⟩)
      ({ sh with mem := sh.mem.setQueue q queue },
        ⟨⟨MPMC.returns (msg.toList.map .take ++ [.ret msg]), .idle⟩,
          nextMsg (MPMC.returns (msg.toList.map .take ++ [.ret msg])).head?, n⟩) :=
    runs_ring (by simp) (by cases msg <;> simp) sh h_run'
  rw [h_returns, h_head] at h_ring
  rw [h_tryPop]
  exact h_ring

/-- **`push` alone** stores where the sequential `push` stores, if that returns. -/
theorem runs_push {nextPush : Unit → Routine P Q σ Unit} {env : Env} (sh : Shared P cap σ) {q : Q}
    (h : sh.mem.push env q p = some mem) :
    Runs ops (sh, ⟨⟨[p], .idle⟩, .ask (.push q p) nextPush, n⟩)
      ({ sh with mem }, ⟨⟨[], .idle⟩, nextPush (), n⟩) := by
  have h_start : Runs ops (sh, ⟨⟨[p], .idle⟩, .ask (.push q p) nextPush, n⟩)
      (sh, ⟨⟨[], .ring q (.pushFetch p)⟩, .ask (.push q p) nextPush, n⟩) := by
    -- the thread gives the message up as it calls
    refine .start [] rfl ?_
    simp only [Handoff.step, List.mem_singleton, if_true, List.erase_cons_head]
    rfl
  refine h_start.trans ?_
  simp only [Handoff.Shared.push] at h
  -- a `push` that does not return is none of this
  split at h
  · cases h
  · next queue h_push =>
    cases h
    obtain ⟨chs, h_run⟩ := MPMC.solo_push h_push
    obtain ⟨chs', h_run'⟩ := solo_called h_run
    exact runs_ring (by simp [MPMC.Pc.start]) (by simp) sh h_run'

/-- **A call alone is a run of its worker.** What a routine does by the sequential rules its worker
does step by step, from where the call begins to where nothing is in hand. -/
theorem runs_of_alone {code : Routine P Q σ Unit} {held : Held P} {sh : Shared P cap σ}
    {post : Unit → Shared P cap σ → Prop} (n : ℕ) (h_ends : Ends code held)
    (h : code.wp alone sh post) :
    ∃ sh', Runs ops (sh, ⟨⟨held.hand, .idle⟩, code, n⟩) (sh', ⟨⟨[], .idle⟩, .done (), n⟩) ∧
      post () sh' := by
  -- induction on the code; what the rules say of the hand is what the thread needs to move
  induction code generalizing held sh with
  | done =>
    obtain rfl : held = none := h_ends
    exact ⟨sh, .refl _, h⟩
  | ask c next ih =>
    obtain ⟨r, sh₁, h_does, h⟩ := h
    cases h_does with
    | own update =>
      obtain ⟨sh', h_runs, h_post⟩ := ih _ (h_ends _) h
      exact ⟨sh', .trans (.single .run rfl) h_runs, h_post⟩
    | acquire env =>
      obtain ⟨rfl, h_none, h_some⟩ := h_ends
      suffices h_msg : ∃ sh', Runs ops
          ({ sh with mem := (sh.mem.acquire env).2 },
            ⟨⟨(sh.mem.acquire env).1.toList, .idle⟩, next (sh.mem.acquire env).1, n⟩)
          (sh', ⟨⟨[], .idle⟩, .done (), n⟩) ∧ post () sh' by
        obtain ⟨sh', h_runs, h_post⟩ := h_msg
        exact ⟨sh', (runs_acquire sh env).trans h_runs, h_post⟩
      cases h_msg : (sh.mem.acquire env).1 with
      | none => exact ih none h_none (h_msg ▸ h)
      | some p => exact ih (some p) (h_some p) (h_msg ▸ h)
    | tryPop q =>
      obtain ⟨rfl, h_none, h_some⟩ := h_ends
      suffices h_msg : ∃ sh', Runs ops
          ({ sh with mem := (sh.mem.tryPop q).2 },
            ⟨⟨(sh.mem.tryPop q).1.toList, .idle⟩, next (sh.mem.tryPop q).1, n⟩)
          (sh', ⟨⟨[], .idle⟩, .done (), n⟩) ∧ post () sh' by
        obtain ⟨sh', h_runs, h_post⟩ := h_msg
        exact ⟨sh', (runs_tryPop sh q).trans h_runs, h_post⟩
      cases h_msg : (sh.mem.tryPop q).1 with
      | none => exact ih none h_none (h_msg ▸ h)
      | some p => exact ih (some p) (h_some p) (h_msg ▸ h)
    | readKind p =>
      obtain ⟨st, rfl, -, h_next⟩ := h_ends
      obtain ⟨sh', h_runs, h_post⟩ := ih _ (h_next _) h
      exact ⟨sh', .trans (.single .run rfl) h_runs, h_post⟩
    | readByte p k =>
      obtain ⟨kind, rfl, -, h_next⟩ := h_ends
      obtain ⟨sh', h_runs, h_post⟩ := ih _ (h_next _) h
      exact ⟨sh', .trans (.single .run rfl) h_runs, h_post⟩
    | writeKind p kind =>
      obtain ⟨st, x, rfl, -, h_next⟩ := h_ends
      obtain ⟨sh', h_runs, h_post⟩ := ih () h_next h
      refine ⟨sh', .trans (.start [] rfl ?_) h_runs, h_post⟩
      simp only [Handoff.step, Held.hand, List.mem_singleton, if_true]
      rfl
    | writeByte p k b =>
      obtain ⟨x, rfl, -, -, h_next⟩ := h_ends
      obtain ⟨sh', h_runs, h_post⟩ := ih () h_next h
      refine ⟨sh', .trans (.start [] rfl ?_) h_runs, h_post⟩
      simp only [Handoff.step, Held.hand, List.mem_singleton, if_true]
      rfl
    | push h_push =>
      obtain ⟨st, rfl, -, h_next⟩ := h_ends
      obtain ⟨sh', h_runs, h_post⟩ := ih () h_next h
      exact ⟨sh', (runs_push sh h_push).trans h_runs, h_post⟩
    | release p =>
      obtain ⟨st, rfl, h_next⟩ := h_ends
      obtain ⟨sh', h_runs, h_post⟩ := ih () h_next h
      refine ⟨sh', .trans (.start [.released p] rfl ?_) h_runs, h_post⟩
      simp only [Handoff.step, Held.hand, List.mem_singleton, if_true, List.erase_cons_head]
      rfl

end

/-! ### The commands -/

section

variable {sh : Shared P cap σ} {env : Env} {mem : Handoff.Shared P cap} {msg : Option (Ptr P)}
  {q : Q} {p : Ptr P}

theorem alone_acquire {post : Option (Ptr P) → Shared P cap σ → Prop}
    (h : sh.mem.acquire env = (msg, mem)) (h_post : post msg { sh with mem }) :
    (acquire : Routine P Q σ (Option (Ptr P))).wp alone sh post := by
  refine ⟨_, _, .acquire env, ?_⟩
  rw [h]
  exact h_post

theorem alone_tryPop {post : Option (Ptr P) → Shared P cap σ → Prop}
    (h : sh.mem.tryPop q = (msg, mem)) (h_post : post msg { sh with mem }) :
    (tryPop q : Routine P Q σ (Option (Ptr P))).wp alone sh post := by
  refine ⟨_, _, .tryPop q, ?_⟩
  rw [h]
  exact h_post

theorem alone_readKind {post : Kind → Shared P cap σ → Prop} (h : post (sh.mem.load p).kind sh) :
    (readKind p : Routine P Q σ Kind).wp alone sh post := ⟨_, _, .readKind p, h⟩

theorem alone_push {post : Unit → Shared P cap σ → Prop} (h : sh.mem.push env q p = some mem)
    (h_post : post () { sh with mem }) :
    (push q p : Routine P Q σ Unit).wp alone sh post := ⟨_, _, .push h, h_post⟩

theorem alone_release {post : Unit → Shared P cap σ → Prop}
    (h : post () { sh with mem := sh.mem.release p }) :
    (release p : Routine P Q σ Unit).wp alone sh post := ⟨_, _, .release p, h⟩

end

/-! ### Copies -/

section

variable {α β : Type} {A : Codec α} {a : α} {p : Ptr P} {kind : Kind} {sh : Shared P cap σ}

theorem alone_readBytes {post : List Byte → Shared P cap σ → Prop} (left k : ℕ)
    (h : post ((List.range left).map fun j => (sh.mem.load p).memory (k + j)) sh) :
    (readBytes p left k : Routine P Q σ (List Byte)).wp alone sh post := by
  -- the bytes are read one at a time, so `post` has to know of the rest what it knows of all
  induction left generalizing k post with
  | zero => exact h
  | succ left ih =>
    refine ⟨_, _, .readByte p k, ?_⟩
    show (readBytes p left (k + 1) >>= _).wp alone _ _
    rw [Program.wp_bind]
    refine ih (k + 1) ?_
    rw [List.range_succ_eq_map, List.map_cons, List.map_map] at h
    -- what is left of the list is the same list from the next byte on
    have h_tail : (fun j => (sh.mem.load p).memory (k + 1 + j)) =
        (fun j => (sh.mem.load p).memory (k + j)) ∘ Nat.succ := by
      funext j
      rw [Function.comp_apply, Nat.succ_eq_add_one, Nat.add_right_comm, Nat.add_assoc]
    rw [h_tail]
    exact h

/-- A copy out of a message reads its record. -/
theorem alone_copyOut {post : α → Shared P cap σ → Prop} (h : post ((sh.mem.load p).read A) sh) :
    (copyOut A p : Routine P Q σ α).wp alone sh post := by
  rw [copyOut, Program.wp_bind]
  refine alone_readBytes _ _ ?_
  have h_read : A.get (fun k => ((List.range A.size).map fun j =>
      (sh.mem.load p).memory (0 + j)).getD k 0) = (sh.mem.load p).read A := by
    refine A.get_congr fun k h_k => ?_
    rw [List.getD_eq_getElem _ _ (by simpa using h_k), List.getElem_map, List.getElem_range,
      Nat.zero_add]
  show post _ sh
  rw [h_read]
  exact h

/-- The bytes from `k` on, in a message that has been written to. -/
theorem alone_writeBytes {post : Unit → Shared P cap σ → Prop} (byte : ℕ → Byte) (left k : ℕ)
    (h_left : k + left ≤ maxSlotSize) (m : TaggedMessage)
    (h : post () { sh with mem := sh.mem.write p ⟨m.kind, fun j =>
      if k ≤ j.val ∧ j.val < k + left then byte j else m.bytes j⟩ }) :
    (writeBytes p byte left k : Routine P Q σ Unit).wp alone
      { sh with mem := sh.mem.write p m } post := by
  induction left generalizing k m with
  | zero =>
    have h_same : (⟨m.kind, fun j => if k ≤ j.val ∧ j.val < k + 0 then byte j else m.bytes j⟩ :
        TaggedMessage) = m :=
      TaggedMessage.ext rfl (funext fun j => if_neg (by omega))
    rw [h_same] at h
    exact h
  | succ left ih =>
    rw [writeBytes, dif_pos (by omega)]
    -- byte `k` now, and the bytes behind it later
    have h_bytes : (fun j : Fin maxSlotSize => if k + 1 ≤ j.val ∧ j.val < k + 1 + left then byte j
        else (m.setByte ⟨k, by omega⟩ (byte k)).bytes j) =
        fun j : Fin maxSlotSize =>
          if k ≤ j.val ∧ j.val < k + (left + 1) then byte j else m.bytes j := by
      funext j
      by_cases h_j : j = ⟨k, by omega⟩
      · rw [h_j, if_neg (by simp), TaggedMessage.setByte_self, if_pos (by simp)]
      · have h_ne : j.val ≠ k := fun h_eq => h_j (Fin.ext h_eq)
        rw [TaggedMessage.setByte_of_ne _ h_j]
        exact if_congr (by omega) rfl rfl
    have h_rest := ih (k + 1) (by omega) (m.setByte ⟨k, by omega⟩ (byte k))
      (by rw [TaggedMessage.setByte_kind, h_bytes]; exact h)
    rw [← Handoff.Shared.write_write sh.mem p m] at h_rest
    nth_rewrite 2 [← Handoff.Shared.load_write sh.mem p m] at h_rest
    exact ⟨_, _, .writeByte p _ _, h_rest⟩

/-- A tag and a copy. -/
theorem alone_fill {post : Unit → Shared P cap σ → Prop} (h_size : A.size ≤ maxSlotSize)
    (h : post () { sh with mem := sh.mem.write p ((sh.mem.load p).write A kind a) }) :
    (do writeKind p kind; copyIn p A a : Routine P Q σ Unit).wp alone sh post := by
  refine ⟨_, _, .writeKind p kind, ?_⟩
  show (copyIn p A a).wp alone _ post
  refine alone_writeBytes _ _ _ (by omega) _ ?_
  have h_bytes : (fun j : Fin maxSlotSize => if 0 ≤ j.val ∧ j.val < 0 + A.size then A.put a j
      else (sh.mem.load p).bytes j) = ((sh.mem.load p).write A kind a).bytes := by
    funext j
    exact if_congr (by omega) rfl rfl
  rw [h_bytes]
  exact h

theorem alone_fill_bind {rest : Routine P Q σ β} {post : β → Shared P cap σ → Prop}
    (h_size : A.size ≤ maxSlotSize) (h : rest.wp alone
      { sh with mem := sh.mem.write p ((sh.mem.load p).write A kind a) } post) :
    (do writeKind p kind; copyIn p A a; rest).wp alone sh post := by
  have h_fill : (do writeKind p kind; copyIn p A a : Routine P Q σ Unit).wp alone sh
      fun _ sh' => rest.wp alone sh' post := alone_fill h_size h
  simp only [Program.wp_bind] at h_fill ⊢
  exact h_fill

theorem alone_acquireFilled [W : WireMessage α] {post : Option (Ptr P) → Shared P cap σ → Prop}
    (env : Env) (h : post (sh.mem.acquireFilled env a).1
      { sh with mem := (sh.mem.acquireFilled env a).2 }) :
    (acquireFilled a : Routine P Q σ (Option (Ptr P))).wp alone sh post := by
  rw [acquireFilled, Program.wp_bind]
  refine ⟨_, _, .acquire env, ?_⟩
  rcases h_acquire : sh.mem.pool.acquire env.acquire with ⟨_ | slot, pool⟩
  · simp only [Handoff.Shared.acquireFilled, Handoff.Shared.acquire, TaggedPool.acquireFilled,
      h_acquire] at h ⊢
    exact h
  · simp only [Handoff.Shared.acquireFilled, Handoff.Shared.acquire, TaggedPool.acquireFilled,
      h_acquire] at h ⊢
    exact alone_fill_bind (W.size_eq ▸ W.kindOf.slotSize_le) h

end

end Worker

end Hft
