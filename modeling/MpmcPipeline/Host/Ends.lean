import MpmcPipeline.Host.Blocking
import MpmcPipeline.Host.Delivery
import MpmcPipeline.Host.Watch
import MpmcPipeline.Machine.Progress

/-!
# Whether `main` comes to an end

From every state of every run, whatever the operating system has answered, `main` can be brought to
its end (`main_ends_or_hangs`), unless one of three things comes in between. `sequence` may be about
to wrap. `main` may hang (`Process.Hangs`): the reader has exited, the hub's thread waits for a
frame that nobody will process, and `main` for the hub's thread. That takes a hub that `main` has
forgotten, since `MulticastSimulator::start` has failed after `MulticastHub::start` had succeeded;
in orderly runs it never comes to it (`main_can_end`). Or the reader may be in an ingest call that
does not return (`Process.Blocked`), and then whoever waits for the reader waits for ever. Anybody
who sends the hub more orders than the market queue has room for brings that about.

`main` is the one of `Host/Process.lean`: what comes after the last frame, the stages and the
`Runtime`, is not in it.

The steps that bring `main` to its end are steps of the program tree (`Parallel.exists_done`): every
command is answered at once, or after steps of the reader or of the hub's thread.
-/

namespace Hft

namespace Host

open Net (Sys)

/-- The reader has exited, and the hub's thread waits for a frame that has not been processed. -/
def Process.Hangs (s : Process) : Prop :=
  s.feed.reader.pc = .exited ∧ ∃ q, s.feed.writer .hub = .wait q ∧ s.feed.inlet.processed < q

/-- `sequence` would wrap. -/
def Full (s : State) : Prop := s.shared.feed.inlet.sequence = BitVec.allOnes 64

/-- What may come in between. -/
def Stops (lz4 : Feed.Lz4) (s : State) : Prop :=
  s.shared.Hangs ∨ Full s ∨ s.shared.Blocked lz4

/-- Nobody else sends datagrams, and no `acquire` of the reader fails spuriously. -/
def Undisturbed (env : Env) (_ : Process) : Prop := Honest env ∧ env.Calm

/-- Some orderly steps lead from `s` to `s'`, and nothing else comes in between. -/
abbrev Onward (lz4 : Feed.Lz4) (still : Party → Prop) (s s' : State) : Prop :=
  Parallel.Leads (system lz4) Orderly Undisturbed still s s'

namespace Watch

/-- The threads know enough. -/
def Good (s : State) : Prop := ∃ tr, outline.Holds tr s

variable {lz4 : Feed.Lz4} {still : Party → Prop} {s s' : State} {i : Party}

theorem Good.reach (h : Good s) {tr : List Event}
    (h_reach : (system lz4).machine.ReachBy (Parallel.Meets Unwrapped fun _ _ => True) s tr s') :
    Good s' :=
  h_reach.inv (I := fun _ s => Good s) h fun _ _ _ _ _ h_good hC h_step => by
    obtain ⟨tr, h_holds⟩ := h_good
    exact ⟨_, (sound lz4).step h_holds hC h_step⟩

theorem orderly_meets {D : Env → Process → Prop} {a : Parallel.Action Party Env}
    (h : Parallel.Meets Orderly D s a) : Parallel.Meets Unwrapped (fun _ _ => True) s a := by
  cases a with
  | run i env => exact fun c next h_code => (h c next h_code).unwrapped
  | other env => trivial

theorem Good.onward (h : Good s) (h_onward : Onward lz4 still s s') : Good s' := by
  obtain ⟨⟨tr, h_reach⟩, -⟩ := h_onward
  exact h.reach (h_reach.mono fun _ _ => orderly_meets)

/-- What a thread knows that asks for a command. -/
theorem Good.main (h : Good s) {c : Cmd} {next : c.Answer → Code Unit}
    (h_code : s.code .main = .ask c next) :
    ∃ m k post, Inv s.shared m k ∧ mainSpec m c post := by
  obtain ⟨tr, K, h_inv, h_wp⟩ := h
  have h_i := h_wp .main
  rw [h_code] at h_i
  exact ⟨_, _, _, h_inv, h_i⟩

theorem Good.hub (h : Good s) {c : Cmd} {next : c.Answer → Code Unit}
    (h_code : s.code .hub = .ask c next) :
    ∃ m k post, Inv s.shared m k ∧ hubSpec k c post := by
  obtain ⟨tr, K, h_inv, h_wp⟩ := h
  have h_i := h_wp .hub
  rw [h_code] at h_i
  exact ⟨_, _, _, h_inv, h_i⟩

/-! ### Single steps -/

section

variable {c : Cmd} {next : c.Answer → Code Unit}

/-- A command is answered. -/
theorem onward_answer (lz4 : Feed.Lz4) (env : Env) (sh : Process) (r : c.Answer)
    (es : List Event) (h_code : s.code i = .ask c next) (h_i : ¬still i)
    (h_orderly : Orderly i env s.shared c)
    (h_exec : Process.exec lz4 i env s.shared c = some (sh, some r, es)) :
    ∃ s', Onward lz4 still s s' ∧ s'.code i = next r ∧ s'.shared = sh :=
  ⟨_, Parallel.Leads.answer env es h_code h_orderly h_exec h_i, Function.update_self .., rfl⟩

/-- The reader alone, up to a call that does not return. -/
theorem onward_reads (still : Party → Prop) {feed : Feed.System Party}
    (h : Feed.Reads lz4 s.shared.feed feed) :
    ∃ s', Onward lz4 still s s' ∧ (Stops lz4 s' ∨
      s'.code = s.code ∧ ∃ mem, s'.shared = { s.shared with feed, mem }) := by
  -- step by step, unless a step is into a call that does not return
  induction h with
  | refl => exact ⟨s, Parallel.Leads.refl, Or.inr ⟨rfl, s.shared.mem, rfl⟩⟩
  | @step feed inlet reader os _ h_step ih =>
    obtain ⟨s₁, h_onward, h_stops | ⟨h_code, mem, h_shared⟩⟩ := ih
    · exact ⟨s₁, h_onward, Or.inl h_stops⟩
    · have h_step₁ : s₁.shared.feed.reader.step lz4 s₁.shared.feed.running s₁.shared.feed.inlet =
          some (inlet, reader, os) := by rw [h_shared]; exact h_step
      -- the reader goes on, or is blocked here
      rcases Process.blocked_or_read h_step₁ with h_blocked | ⟨env, mem', h_rest, h_calm, h_read⟩
      · exact ⟨s₁, h_onward, Or.inl (Or.inr (Or.inr h_blocked))⟩
      · -- the step brings no datagram in
        have h_honest : Honest env := fun c datagram h_arrive =>
          Rest.noConfusion (h_rest.symm.trans h_arrive)
        have h_other : Process.other lz4 env s₁.shared = some ({ s₁.shared with
            feed := { s₁.shared.feed with inlet, reader }, mem := mem' },
            (os.map .outcome).map .feed) := by
          rw [Process.other, h_rest]
          exact h_read
        refine ⟨_, h_onward.trans (Parallel.Leads.other env _ ⟨h_honest, h_calm⟩ h_other),
          Or.inr ⟨h_code, mem', ?_⟩⟩
        dsimp only
        rw [h_shared]

/-- A step of a writer. -/
theorem feedStep_write {s : Process} {inlet : Feed.SharedInlet} {pc : Feed.WriterPc}
    {es : List (Feed.Event Party)}
    (h : (s.feed.writer i).step i s.feed.inlet = some (inlet, pc, es)) :
    s.feedStep lz4 (.write i) = some ({ s with feed := { s.feed with
      inlet, writer := Function.update s.feed.writer i pc } }, es.map .feed) := by
  simp only [Process.feedStep, Feed.machine, h]

/-- A step inside `publish`. -/
theorem onward_returned (lz4 : Feed.Lz4) (still : Party → Prop) {next : Unit → Code Unit}
    (h_code : s.code i = .ask Cmd.returned next)
    (h_load : s.shared.feed.writer i ≠ .loadSequence) (h_full : ¬Full s)
    {inlet : Feed.SharedInlet} {pc : Feed.WriterPc} {es : List (Feed.Event Party)}
    (h_step : (s.shared.feed.writer i).step i s.shared.feed.inlet = some (inlet, pc, es)) :
    Onward lz4 still s { s with shared := { s.shared with feed := { s.shared.feed with
      inlet, writer := Function.update s.shared.feed.writer i pc } } } := by
  refine Parallel.Leads.within {} (es.map .feed) h_code (fun _ => h_full) ?_
  simp only [system, Process.exec, feedStep_write h_step, Option.map_some]

/-- A step of a wait. -/
theorem onward_await (lz4 : Feed.Lz4) (still : Party → Prop) (inlet : Feed.SharedInlet)
    (pc : Feed.WriterPc) (es : List (Feed.Event Party)) {next : Unit → Code Unit}
    (h_code : s.code i = .ask Cmd.await next)
    (h_waits : (s.shared.feed.writer i).increments = false)
    (h_step : (s.shared.feed.writer i).step i s.shared.feed.inlet = some (inlet, pc, es)) :
    Onward lz4 still s { s with shared := { s.shared with feed := { s.shared.feed with
      inlet, writer := Function.update s.shared.feed.writer i pc } } } := by
  refine Parallel.Leads.within {} (es.map .feed) h_code (fun h_inc => ?_) ?_
  · -- a wait increments nothing, so nothing can wrap
    exact absurd (h_waits.symm.trans h_inc) Bool.noConfusion
  · simp only [system, Process.exec, feedStep_write h_step, Option.map_some]
    split
    · -- an idle writer makes no step
      next h_writer =>
      rw [h_writer] at h_step
      cases h_step
    · rfl

/-- A method of a socket is answered. -/
theorem onward_net (lz4 : Feed.Lz4) {c : Sys Socket} {next : c.Answer → Code Unit}
    (h_code : s.code i = .ask (Cmd.net c) next) (h_i : ¬still i) :
    ∃ s' r, Onward lz4 still s s' ∧ s'.code i = next r := by
  suffices h : ∃ env sh r es, Process.exec lz4 i env s.shared (.net c) = some (sh, some r, es) ∧
      Orderly i env s.shared (.net c) by
    obtain ⟨env, sh, r, es, h_exec, h_orderly⟩ := h
    obtain ⟨s', h_onward, h_next, -⟩ := onward_answer lz4 env sh r es h_code h_i h_orderly h_exec
    exact ⟨s', r, h_onward, h_next⟩
  cases c with
  | socket =>
    -- there is always a descriptor that is not open
    obtain ⟨fd, h_fd, h_new⟩ : ∃ fd : Int, 0 ≤ fd ∧ ∀ x ∈ s.shared.table.opened, x < fd := by
      induction s.shared.table.opened with
      | nil => exact ⟨0, le_rfl, fun x h_x => absurd h_x List.not_mem_nil⟩
      | cons y ys ih =>
        obtain ⟨fd, h_fd, h_new⟩ := ih
        refine ⟨max fd (y + 1), le_trans h_fd (le_max_left _ _), fun x h_x => ?_⟩
        rcases List.mem_cons.mp h_x with rfl | h_x
        · exact lt_of_lt_of_le (Int.lt_succ x) (le_max_right _ _)
        · exact lt_of_lt_of_le (h_new x h_x) (le_max_left _ _)
    have h_free : fd ∉ s.shared.table.opened := fun h_mem => lt_irrefl fd (h_new fd h_mem)
    refine ⟨{ reply := { fd } }, { s.shared with table := { s.shared.table with
      opened := fd :: s.shared.table.opened } }, fd, [], ?_, fun _ => h_fd⟩
    simp only [Process.exec, Net.Table.exec, if_neg (not_lt.mpr h_fd), if_neg h_free]
  | setsockopt _ _ => exact ⟨{}, _, _, _, rfl, fun _ => rfl⟩
  | recvfrom k fd capacity =>
    refine ⟨{}, s.shared, none, [], ?_, trivial⟩
    cases k <;> rfl
  | sendto k fd buffer address port =>
    refine ⟨{}, s.shared, none, [], ?_, trivial⟩
    cases k <;> rfl
  | _ => exact ⟨{}, _, _, _, rfl, trivial⟩

end

/-! ### Publishing -/

/-- The steps of a publish that are left. -/
def ahead : Feed.WriterPc → ℕ
  | .loadPublished frame => frame.writes + 3
  | .write _ frame n => frame.writes - n + 2
  | .fetchAdd _ => 1
  | .idle | .loadSequence | .wait _ => 0

theorem Good.call_returned (h : Good s) {next : Unit → Code Unit}
    (h_code : s.code i = .ask Cmd.returned next) :
    Call.publishing.Of (s.shared.feed.writer i) := by
  cases i with
  | main =>
    obtain ⟨m, k, post, h_inv, h_call, -⟩ := h.main h_code
    have h_of := h_inv.main
    rwa [h_call] at h_of
  | hub =>
    obtain ⟨m, k, post, h_inv, h_call, -⟩ := h.hub h_code
    have h_of := h_inv.hub
    rwa [h_call] at h_of

/-- `publish` returns. -/
theorem Good.returned (h : Good s) (lz4 : Feed.Lz4) (h_i : ¬still i) {next : Unit → Code Unit}
    (h_code : s.code i = .ask Cmd.returned next) :
    ∃ s', Onward lz4 still s s' ∧ (Stops lz4 s' ∨ ∃ r, s'.code i = next r) := by
  -- induction on the steps of the publish that are left
  generalize h_n : ahead (s.shared.feed.writer i) = n
  induction n using Nat.strong_induction_on generalizing s with
  | _ n ih =>
    by_cases h_full : Full s
    · exact ⟨s, Parallel.Leads.refl, Or.inl (Or.inr (Or.inl h_full))⟩
    by_cases h_load : s.shared.feed.writer i = .loadSequence
    · obtain ⟨s', h_onward, h_next, -⟩ := onward_answer (c := .returned) lz4 {} s.shared ()
        [] h_code h_i (fun _ => h_full)
        (by simp only [Process.exec, h_load])
      exact ⟨s', h_onward, Or.inr ⟨(), h_next⟩⟩
    obtain ⟨h_idle, h_wait⟩ := h.call_returned h_code
    -- one step, after which less is left
    obtain ⟨inlet, pc, es, h_step, h_less⟩ : ∃ inlet pc es,
        (s.shared.feed.writer i).step i s.shared.feed.inlet = some (inlet, pc, es) ∧
          ahead pc < n := by
      rw [← h_n]
      cases h_pc : s.shared.feed.writer i with
      | idle => exact absurd h_pc h_idle
      | loadPublished frame => exact ⟨_, _, _, rfl, by simp [ahead]⟩
      | write w frame n =>
        by_cases h_lt : n < frame.writes
        · refine ⟨_, _, _, by simp only [Feed.WriterPc.step, if_pos h_lt]; rfl, ?_⟩
          simp only [ahead]
          omega
        · exact ⟨_, _, _, by simp only [Feed.WriterPc.step, if_neg h_lt]; rfl, by simp [ahead]⟩
      | fetchAdd frame => exact ⟨_, _, _, rfl, by simp [ahead]⟩
      | loadSequence => exact absurd h_pc h_load
      | wait q => exact absurd h_pc (h_wait q)
    have h_onward := onward_returned lz4 still h_code h_load h_full h_step
    obtain ⟨s', h_rest, h_end⟩ := ih _ h_less (h.onward h_onward) h_code
      (congrArg ahead (Function.update_self i pc s.shared.feed.writer))
    exact ⟨s', h_onward.trans h_rest, h_end⟩

/-- A wait ends for a number that has been processed. -/
theorem leave (lz4 : Feed.Lz4) (h_i : ¬still i) {next : Unit → Code Unit}
    (h_code : s.code i = .ask Cmd.await next) {q : BitVec 64}
    (h_wait : s.shared.feed.writer i = .wait q) (h_done : ¬s.shared.feed.inlet.processed < q) :
    ∃ s' r, Onward lz4 still s s' ∧ s'.code i = next r := by
  have h_onward := onward_await lz4 still s.shared.feed.inlet .idle [.left i q] h_code
    (by rw [h_wait]; rfl) (by rw [h_wait]; simp only [Feed.WriterPc.step, if_neg h_done])
  have h_idle : Function.update s.shared.feed.writer i .idle i = .idle := Function.update_self ..
  obtain ⟨s', h_rest, h_next, -⟩ := onward_answer (c := .await) lz4 {} _ () [] (s := { s with
    shared := { s.shared with feed := { s.shared.feed with
      writer := Function.update s.shared.feed.writer i .idle } } }) h_code h_i
    (fun h_inc => absurd ((congrArg Feed.WriterPc.increments h_idle).symm.trans h_inc)
      Bool.noConfusion) (by simp only [Process.exec, h_idle]; rfl)
  exact ⟨s', (), h_onward.trans h_rest, h_next⟩

/-- What there is of the reader when somebody waits. -/
theorem Good.call_await (h : Good s) {next : Unit → Code Unit}
    (h_code : s.code i = .ask Cmd.await next) :
    Call.waiting.Of (s.shared.feed.writer i) ∧ Feed.Counted s.shared.feed ∧
      (s.shared.feed.running = true ∧ s.shared.feed.reader.pc ≠ .exited ∧
          s.shared.feed.reader.pc ≠ .starting ∨
        i = .hub ∧ s.shared.feed.running = false ∧ s.shared.feed.reader.pc ≠ .starting) := by
  cases i with
  | main =>
    obtain ⟨m, k, post, h_inv, h_call, -⟩ := h.main h_code
    have h_of := h_inv.main
    have h_reader := h_inv.reader
    rw [h_call] at h_of
    rw [h_inv.publishing (by rw [h_call]; exact Call.noConfusion)] at h_reader
    exact ⟨h_of, h_inv.counted, Or.inl h_reader⟩
  | hub =>
    obtain ⟨m, k, post, h_inv, h_call, -⟩ := h.hub h_code
    have h_of := h_inv.hub
    rw [h_call] at h_of
    have h_early := h_inv.early (h_inv.up_of_call (by rw [h_call]; exact Call.noConfusion)).2
    have h_reader := h_inv.reader
    refine ⟨h_of, h_inv.counted, ?_⟩
    cases h_m : m.phase with
    | before => exact absurd h_m h_early.1
    | loading => exact absurd h_m h_early.2
    | reading =>
      rw [h_m] at h_reader
      exact Or.inl h_reader
    -- `main` has forgotten the hub, and goes on without it
    | stopping =>
      rw [h_m] at h_reader
      exact Or.inr ⟨rfl, h_reader⟩
    | stopped | unmapped =>
      rw [h_m] at h_reader
      exact Or.inr ⟨rfl, h_reader.1, by rw [h_reader.2]; exact Feed.ReaderPc.noConfusion⟩

/-- A wait ends, or nobody will ever end it. -/
theorem Good.wait (h : Good s) (lz4 : Feed.Lz4) (h_i : ¬still i) {next : Unit → Code Unit}
    (h_code : s.code i = .ask Cmd.await next) {q : BitVec 64}
    (h_wait : s.shared.feed.writer i = .wait q) :
    ∃ s', Onward lz4 still s s' ∧ (Stops lz4 s' ∨ ∃ r, s'.code i = next r) := by
  obtain ⟨-, h_counted, h_reader⟩ := h.call_await h_code
  rcases h_reader with ⟨h_running, h_alive⟩ | ⟨rfl, h_stopped, h_starting⟩
  · -- the reader processes everything published
    obtain ⟨feed, h_reads, h_processed⟩ := h_counted.catch_up lz4 h_running h_alive
    obtain ⟨s₁, h_onward, h_stops | ⟨h_code₁, mem, h_shared⟩⟩ := onward_reads still h_reads
    · exact ⟨s₁, h_onward, Or.inl h_stops⟩
    · obtain ⟨s', r, h_rest, h_next⟩ := leave lz4 h_i (q := q)
        ((congrFun h_code₁ i).trans h_code) (by rw [h_shared, ← h_wait, ← h_reads.frame.1])
        (by rw [h_shared, h_processed]; exact BitVec.not_lt.mpr (h_counted.waiting i q h_wait))
      exact ⟨s', h_onward.trans h_rest, Or.inr ⟨r, h_next⟩⟩
  · -- the reader exits
    obtain ⟨feed, h_reads, h_exited⟩ := Feed.Reads.leave lz4 h_stopped h_starting
    obtain ⟨s₁, h_onward, h_stops | ⟨h_code₁, mem, h_shared⟩⟩ := onward_reads still h_reads
    · exact ⟨s₁, h_onward, Or.inl h_stops⟩
    have h_still : s₁.shared.feed.writer .hub = .wait q := by
      rw [h_shared, ← h_wait, ← h_reads.frame.1]
    by_cases h_lt : s₁.shared.feed.inlet.processed < q
    · have h_pc : s₁.shared.feed.reader.pc = .exited := by rw [h_shared, h_exited]
      exact ⟨s₁, h_onward, Or.inl (Or.inl ⟨h_pc, q, h_still, h_lt⟩)⟩
    · obtain ⟨s', r, h_rest, h_next⟩ :=
        leave lz4 h_i ((congrFun h_code₁ .hub).trans h_code) h_still h_lt
      exact ⟨s', h_onward.trans h_rest, Or.inr ⟨r, h_next⟩⟩

theorem Good.await (h : Good s) (lz4 : Feed.Lz4) (h_i : ¬still i) {next : Unit → Code Unit}
    (h_code : s.code i = .ask Cmd.await next) :
    ∃ s', Onward lz4 still s s' ∧ (Stops lz4 s' ∨ ∃ r, s'.code i = next r) := by
  -- the wait is over, at its load, or looks at `processed`
  rcases (h.call_await h_code).1 with h_idle | h_load | ⟨q, h_wait⟩
  · obtain ⟨s', h_onward, h_next, -⟩ := onward_answer (c := .await) lz4 {} s.shared () []
      h_code h_i (fun h_inc => absurd h_inc (by rw [h_idle]; exact Bool.noConfusion))
      (by simp only [Process.exec, h_idle])
    exact ⟨s', h_onward, Or.inr ⟨(), h_next⟩⟩
  · -- the load first
    have h_onward := onward_await lz4 still s.shared.feed.inlet
      (.wait s.shared.feed.inlet.sequence) [] h_code (by rw [h_load]; rfl) (by rw [h_load]; rfl)
    obtain ⟨s', h_rest, h_end⟩ := (h.onward h_onward).wait lz4 h_i h_code
      (Function.update_self ..)
    exact ⟨s', h_onward.trans h_rest, h_end⟩
  · exact h.wait lz4 h_i h_code h_wait

/-! ### Every command is answered -/

/-- A command that is answered at once. -/
theorem now (lz4 : Feed.Lz4) (stop : State → Prop) {c : Cmd} {next : c.Answer → Code Unit}
    (h_code : s.code i = .ask c next) (h_i : ¬still i) (h_orderly : Orderly i {} s.shared c)
    (h_exec : ∃ sh r es, Process.exec lz4 i {} s.shared c = some (sh, some r, es)) :
    ∃ s', Onward lz4 still s s' ∧ (stop s' ∨ ∃ r, s'.code i = next r) := by
  obtain ⟨sh, r, es, h_exec⟩ := h_exec
  obtain ⟨s', h_onward, h_next, -⟩ := onward_answer lz4 {} sh r es h_code h_i h_orderly h_exec
  exact ⟨s', h_onward, Or.inr ⟨r, h_next⟩⟩

theorem exec_publish (lz4 : Feed.Lz4) {s : Process} {args : Feed.Args}
    (h_idle : s.feed.writer i = .idle) :
    ∃ sh r es, Process.exec lz4 i {} s (.publish args) = some (sh, some r, es) := by
  simp only [Process.exec, Process.feedStep, Feed.machine, h_idle, Feed.WriterPc.publish]
  cases args.accept <;> exact ⟨_, _, _, rfl⟩

theorem Good.hub_answer (h : Good s) (lz4 : Feed.Lz4) (h_hub : ¬still .hub) {c : Cmd}
    {next : c.Answer → Code Unit} (h_code : s.code .hub = .ask c next) :
    ∃ s', Onward lz4 still s s' ∧ (Stops lz4 s' ∨ ∃ r, s'.code .hub = next r) := by
  obtain ⟨m, k, post, h_inv, h_spec⟩ := h.hub h_code
  -- each command answers, with `publish` and the wait left to their lemmas
  cases c with
  | net c =>
    obtain ⟨s', r, h_onward, h_next⟩ := onward_net lz4 h_code h_hub
    exact ⟨s', h_onward, Or.inr ⟨r, h_next⟩⟩
  | poll _ | loadRunning | loop _ | exit | count _ =>
    exact now lz4 (Stops lz4) h_code h_hub trivial ⟨_, _, _, rfl⟩
  | publish args =>
    -- the hub is idle, so its call can begin
    have h_of := h_inv.hub
    rw [h_spec.2.1] at h_of
    exact now lz4 (Stops lz4) h_code h_hub trivial (exec_publish lz4 h_of)
  | returned => exact h.returned lz4 h_hub h_code
  | await => exact h.await lz4 h_hub h_code
  | spawn | join | storeRunning _ | setInlet _ | datagrams _ | stopReader | joinReader
  | startReader | unmap => exact absurd h_spec id

/-! ### The hub's thread leaves -/

/-- `main` stands still. -/
def MainWaits (i : Party) : Prop := i = .main

theorem hub_goes : ¬MainWaits .hub := Party.noConfusion

/-- While `main` waits for it, the hub's thread leaves its loop when it looks at `running_`. -/
theorem Good.loop_ends (h : Good s) (lz4 : Feed.Lz4) {next : Unit → Code Unit}
    (h_main : s.code .main = .ask Cmd.join next) (h_hub : s.code .hub = .done ())
    {descriptors : MulticastChannel → Int} (h_thread : s.shared.thread = .looping descriptors) :
    ∃ s', Onward lz4 MainWaits s s' ∧ s'.shared.thread = .exited := by
  -- `main` has set `running_` before it waits
  obtain ⟨m, k, post, h_inv, h_down, -⟩ := h.main h_main
  have h_running : s.shared.running = false := h_inv.running.trans h_down
  -- the loop is entered once more, and the first thing is the look at `running_`
  have h_enter : Onward lz4 MainWaits s { s with
      code := Function.update s.code .hub (MulticastHub.round descriptors) } :=
    Parallel.Leads.enter {} h_hub (by simp only [system, Process.enter, h_thread]) hub_goes
  obtain ⟨s₁, h_first, h_code, h_shared⟩ := onward_answer (c := .loadRunning) lz4 {} s.shared false
    [] (s := { s with code := Function.update s.code .hub (MulticastHub.round descriptors) })
    (Function.update_self ..) hub_goes trivial (by simp only [Process.exec, h_running])
  obtain ⟨s₂, h_second, -, h_exited⟩ := onward_answer (c := .exit) lz4 {}
    { s₁.shared with thread := .exited } () [] h_code hub_goes trivial rfl
  exact ⟨s₂, h_enter.trans (h_first.trans h_second), by rw [h_exited]⟩

/-- Before its loop it fills its array. -/
theorem polls_opened (lz4 : Feed.Lz4) (h_hub : s.code .hub = .done ())
    (h_thread : s.shared.thread = .started) :
    ∃ s' descriptors, Onward lz4 MainWaits s s' ∧ s'.code .hub = .done () ∧
      s'.shared.thread = .looping descriptors := by
  -- the three descriptors are read and put into the array
  have h_enter : Onward lz4 MainWaits s { s with
      code := Function.update s.code .hub MulticastHub.openPolls } :=
    Parallel.Leads.enter {} h_hub (by simp only [system, Process.enter, h_thread]) hub_goes
  obtain ⟨s₁, h₁, h_code₁, -⟩ := onward_answer (c := .net (.fd (.hub .itch))) lz4 {} _ _ []
    (s := { s with code := Function.update s.code .hub MulticastHub.openPolls })
    (Function.update_self ..) hub_goes trivial rfl
  obtain ⟨s₂, h₂, h_code₂, -⟩ := onward_answer (c := .net (.fd (.hub .mtbt))) lz4 {} _ _ []
    h_code₁ hub_goes trivial rfl
  obtain ⟨s₃, h₃, h_code₃, -⟩ := onward_answer (c := .net (.fd (.hub .mcx))) lz4 {} _ _ []
    h_code₂ hub_goes trivial rfl
  obtain ⟨s₄, h₄, h_code₄, h_shared⟩ := onward_answer (c := .loop _) lz4 {} _ _ []
    h_code₃ hub_goes trivial rfl
  exact ⟨s₄, _, h_enter.trans (h₁.trans (h₂.trans (h₃.trans h₄))), h_code₄, by rw [h_shared]⟩

/-- While `main` waits for it, the hub's thread exits. -/
theorem Good.hub_leaves (h : Good s) (lz4 : Feed.Lz4) {next : Unit → Code Unit}
    (h_main : s.code .main = .ask Cmd.join next) :
    ∃ s', Onward lz4 MainWaits s s' ∧
      (Stops lz4 s' ∨ s'.shared.thread = .absent ∨ s'.shared.thread = .exited) := by
  -- it gets through what it is at, whatever it knows of `running_`
  have h_through : ∃ s', Onward lz4 MainWaits s s' ∧ (Stops lz4 s' ∨ s'.code .hub = .done ()) :=
    Parallel.exists_done (fun _ _ h_good h_leads => h_good.onward h_leads)
      (fun _ _ _ h_good h_code => h_good.hub_answer lz4 hub_goes h_code) h
  obtain ⟨s₁, h_first, h_stop | h_hub⟩ := h_through
  · exact ⟨s₁, h_first, Or.inl h_stop⟩
  · have h_main₁ := (h_first.2 .main rfl).trans h_main
    have h₁ := h.onward h_first
    cases h_thread : s₁.shared.thread with
    | absent => exact ⟨s₁, h_first, Or.inr (Or.inl h_thread)⟩
    | exited => exact ⟨s₁, h_first, Or.inr (Or.inr h_thread)⟩
    | looping descriptors =>
      obtain ⟨s₂, h_second, h_exited⟩ := h₁.loop_ends lz4 h_main₁ h_hub h_thread
      exact ⟨s₂, h_first.trans h_second, Or.inr (Or.inr h_exited)⟩
    | started =>
      obtain ⟨s₂, descriptors, h_second, h_hub₂, h_thread₂⟩ := polls_opened lz4 h_hub h_thread
      have h_main₂ := (h_second.2 .main rfl).trans h_main₁
      obtain ⟨s₃, h_third, h_exited⟩ :=
        (h₁.onward h_second).loop_ends lz4 h_main₂ h_hub₂ h_thread₂
      exact ⟨s₃, h_first.trans (h_second.trans h_third), Or.inr (Or.inr h_exited)⟩

/-! ### `main` goes on -/

/-- Nobody stands still. -/
def Nobody (_ : Party) : Prop := False

theorem main_goes : ¬Nobody .main := id

theorem Good.main_answer (h : Good s) (lz4 : Feed.Lz4) {c : Cmd} {next : c.Answer → Code Unit}
    (h_code : s.code .main = .ask c next) :
    ∃ s', Onward lz4 Nobody s s' ∧ (Stops lz4 s' ∨ ∃ r, s'.code .main = next r) := by
  obtain ⟨m, k, post, h_inv, h_spec⟩ := h.main h_code
  have h_reader := h_inv.reader
  cases c with
  | net c =>
    obtain ⟨s', r, h_onward, h_next⟩ := onward_net lz4 h_code main_goes
    exact ⟨s', h_onward, Or.inr ⟨r, h_next⟩⟩
  | spawn | storeRunning _ | setInlet _ | datagrams _ | unmap | stopReader =>
    exact now lz4 (Stops lz4) h_code main_goes trivial ⟨_, _, _, rfl⟩
  | publish args =>
    have h_of := h_inv.main
    rw [h_spec.1] at h_of
    exact now lz4 (Stops lz4) h_code main_goes trivial (exec_publish lz4 h_of)
  | returned => exact h.returned lz4 main_goes h_code
  | await => exact h.await lz4 main_goes h_code
  | startReader =>
    refine now lz4 (Stops lz4) h_code main_goes trivial ?_
    rcases h_spec with ⟨h_m, -⟩ | ⟨h_m, -⟩ <;> rw [h_m] at h_reader
    · have h_feed : s.shared.feed = Process.start.feed := h_reader
      simp only [Process.exec, Process.feedStep, h_feed]
      exact ⟨_, _, _, rfl⟩
    · have h_feed : s.shared.feed = { Process.start.feed with reader := ⟨.starting, 0⟩ } := h_reader
      simp only [Process.exec, Process.feedStep, h_feed]
      exact ⟨_, _, _, rfl⟩
  | joinReader =>
    have h_exec : ∀ s : Process, s.feed.reader.pc = .exited →
        ∃ sh r es, Process.exec lz4 .main {} s .joinReader = some (sh, some r, es) := by
      intro s h_exited
      simp only [Process.exec, h_exited]
      exact ⟨_, _, _, rfl⟩
    -- `Reader::start` calls `stop` first, when there is no thread
    rcases h_spec with ⟨h_m, -⟩ | ⟨h_m, -⟩ <;> rw [h_m] at h_reader
    · refine now lz4 (Stops lz4) h_code main_goes trivial (h_exec s.shared ?_)
      rw [show s.shared.feed = _ from h_reader]
      rfl
    · -- the reader exits
      obtain ⟨feed, h_reads, h_exited⟩ := Feed.Reads.leave lz4 h_reader.1 h_reader.2
      obtain ⟨s₁, h_onward, h_stops | ⟨h_code₁, mem, h_shared⟩⟩ := onward_reads Nobody h_reads
      · exact ⟨s₁, h_onward, Or.inl h_stops⟩
      · obtain ⟨s', h_rest, h_next⟩ := now lz4 (Stops lz4)
          ((congrFun h_code₁ .main).trans h_code) main_goes trivial
          (h_exec s₁.shared (by rw [h_shared, h_exited]))
        exact ⟨s', h_onward.trans h_rest, h_next⟩
  | join =>
    have h_exec : ∀ s : Process, s.thread = .absent ∨ s.thread = .exited →
        ∃ sh r es, Process.exec lz4 .main {} s .join = some (sh, some r, es) := by
      intro s h_thread
      rcases h_thread with h_thread | h_thread <;> simp only [Process.exec, h_thread] <;>
        exact ⟨_, _, _, rfl⟩
    obtain ⟨s₁, h_first, h_stop | h_thread⟩ := h.hub_leaves lz4 h_code
    · exact ⟨s₁, h_first.mono fun _ => False.elim, Or.inl h_stop⟩
    · obtain ⟨s', h_rest, h_next⟩ := now lz4 (Stops lz4)
        ((h_first.2 .main rfl).trans h_code) main_goes trivial (h_exec s₁.shared h_thread)
      exact ⟨s', (h_first.mono fun _ => False.elim).trans h_rest, h_next⟩
  | poll _ | loop _ | exit | loadRunning | count _ => exact absurd h_spec id

/-- **`main` gets to its end**, unless it hangs, `sequence` would wrap or an ingest call does not
return: command by command, with the hub and the reader brought on as far as `main` waits for them.
-/
theorem Good.ends (h : Good s) (lz4 : Feed.Lz4) :
    ∃ s', Onward lz4 Nobody s s' ∧ (Stops lz4 s' ∨ s'.code .main = .done ()) :=
  Parallel.exists_done (fun _ _ h_good h_leads => h_good.onward h_leads)
    (fun _ _ _ h_good h_code => h_good.main_answer lz4 h_code) h

/-! ### Hanging -/

/-- While the hub's thread waits, it is there, and `main` has stopped the reader. -/
theorem Inv.hangs {sh : Process} {m k : Watch} (h : Inv sh m k)
    (h_exited : sh.feed.reader.pc = .exited) {q : BitVec 64}
    (h_wait : sh.feed.writer .hub = .wait q) :
    k.call = .waiting ∧ m.up = true ∧ m.call = .rest ∧
      (m.phase = .stopping ∨ m.phase = .stopped ∨ m.phase = .unmapped) := by
  -- only a call in its wait is at a wait
  have h_call : k.call = .waiting := by
    have h_of := h.hub
    cases h_k : k.call with
    | rest =>
      rw [h_k] at h_of
      exact absurd (h_wait.symm.trans h_of) Feed.WriterPc.noConfusion
    | publishing =>
      rw [h_k] at h_of
      exact absurd h_wait (h_of.2 q)
    | waiting => rfl
  -- the hub is in a call, so it is there
  have h_up := (h.up_of_call (by rw [h_call]; exact Call.noConfusion)).2
  have h_reader := h.reader
  -- a reader that has left was told to
  have h_phase : m.phase = .stopping ∨ m.phase = .stopped ∨ m.phase = .unmapped := by
    cases h_m : m.phase with
    | before => exact absurd h_m (h.early h_up).1
    | loading => exact absurd h_m (h.early h_up).2
    | reading =>
      rw [h_m] at h_reader
      exact absurd h_exited h_reader.2.1
    | stopping => exact Or.inl rfl
    | stopped => exact Or.inr (Or.inl rfl)
    | unmapped => exact Or.inr (Or.inr rfl)
  refine ⟨h_call, h_up, ?_, h_phase⟩
  -- `main` would publish only while the reader reads
  by_contra h_ne
  have h_reading := h.publishing h_ne
  rcases h_phase with h_m | h_m | h_m <;> exact absurd (h_m.symm.trans h_reading) Phase.noConfusion

section

variable {lz4 : Feed.Lz4} {s s' : Process} {m k : Watch} {env : Env} {c : Cmd} {r : Option c.Answer}
  {es : List Event}

/-- `main` cannot help it. -/
theorem Inv.main_hangs {post : c.Answer → Watch → Prop} (h : Inv s m k) (h_hangs : s.Hangs)
    (h_spec : mainSpec m c post) (h_exec : Process.exec lz4 .main env s c = some (s', r, es)) :
    Unwrapped .main env s c ∧ s'.Hangs := by
  obtain ⟨h_exited, q, h_wait, h_lt⟩ := h_hangs
  obtain ⟨-, -, h_call, h_phase⟩ := h.hangs h_exited h_wait
  -- the reader has been stopped, so none of the phases before
  have h_not : ∀ phase : Phase, phase = .before ∨ phase = .loading ∨ phase = .reading →
      m.phase ≠ phase := by
    rintro phase (rfl | rfl | rfl) h_m <;> rcases h_phase with h_p | h_p | h_p <;>
      exact absurd (h_m.symm.trans h_p) Phase.noConfusion
  -- what `main` still does leaves the reader away and the hub's wait as it is
  cases c with
  | net c =>
    obtain ⟨a, -, h_net⟩ := Process.exec_net h_exec
    rw [h_net.frame]
    exact ⟨trivial, h_exited, q, h_wait, h_lt⟩
  | spawn | storeRunning _ | setInlet _ | datagrams _ | unmap | stopReader =>
    cases h_exec
    exact ⟨trivial, h_exited, q, h_wait, h_lt⟩
  | join =>
    simp only [Process.exec] at h_exec
    split at h_exec <;> cases h_exec <;> exact ⟨trivial, h_exited, q, h_wait, h_lt⟩
  | joinReader =>
    simp only [Process.exec] at h_exec
    split at h_exec <;> cases h_exec
    exact ⟨trivial, h_exited, q, h_wait, h_lt⟩
  -- it would publish or wait only while the reader reads
  | publish args => exact absurd h_spec.2.1 (h_not _ (Or.inr (Or.inr rfl)))
  | returned => exact absurd (h_call.symm.trans h_spec.1) Call.noConfusion
  | await => exact absurd (h_call.symm.trans h_spec.1) Call.noConfusion
  | startReader =>
    -- and it starts the reader only once
    rcases h_spec with ⟨h_m, -⟩ | ⟨h_m, -⟩
    · exact absurd h_m (h_not _ (Or.inl rfl))
    · exact absurd h_m (h_not _ (Or.inr (Or.inl rfl)))
  | poll _ | loop _ | exit | loadRunning | count _ => exact absurd h_spec id

/-- The hub's thread goes on waiting. -/
theorem Inv.hub_hangs {post : c.Answer → Watch → Prop} (h : Inv s m k) (h_hangs : s.Hangs)
    (h_spec : hubSpec k c post) (h_exec : Process.exec lz4 .hub env s c = some (s', r, es)) :
    Unwrapped .hub env s c ∧ s'.Hangs := by
  obtain ⟨h_exited, q, h_wait, h_lt⟩ := h_hangs
  obtain ⟨h_call, -, -, -⟩ := h.hangs h_exited h_wait
  -- of the hub's commands the wait is the one it is at
  cases c with
  | net c =>
    obtain ⟨a, -, h_net⟩ := Process.exec_net h_exec
    rw [h_net.frame]
    exact ⟨trivial, h_exited, q, h_wait, h_lt⟩
  | poll _ | loadRunning | loop _ | count _ =>
    cases h_exec
    exact ⟨trivial, h_exited, q, h_wait, h_lt⟩
  -- it is in the wait, so it is not about to leave or to publish
  | exit => exact absurd (h_call.symm.trans h_spec.2.1) Call.noConfusion
  | publish args => exact absurd (h_call.symm.trans h_spec.2.1) Call.noConfusion
  | returned => exact absurd (h_call.symm.trans h_spec.1) Call.noConfusion
  | await =>
    refine ⟨fun h_inc => ?_, ?_⟩
    · rw [h_wait] at h_inc
      exact absurd h_inc Bool.false_ne_true
    · -- `processed` is behind, so the look at it changes nothing
      simp only [Process.exec, h_wait] at h_exec
      obtain ⟨-, feed, es', h_step, rfl, -⟩ := Process.map_feedStep_eq_some h_exec
      obtain ⟨inlet, pc, h_pc, rfl⟩ := Feed.machine_cases h_step
      rw [h_wait] at h_pc
      simp only [Feed.WriterPc.step, if_pos h_lt] at h_pc
      cases h_pc
      refine ⟨h_exited, q, ?_, h_lt⟩
      show Function.update s.feed.writer .hub (.wait q) .hub = _
      rw [Function.update_self]
  | spawn | join | storeRunning _ | setInlet _ | datagrams _ | stopReader | joinReader
  | startReader | unmap => exact absurd h_spec id

end

theorem meets_unwrapped {env : Env} {c : Cmd} {next : c.Answer → Code Unit}
    (h_code : s.code i = .ask c next) (h : Unwrapped i env s.shared c) :
    Parallel.Meets Unwrapped (fun _ _ => True) s (.run i env) := by
  intro c' next' h_code'
  cases h_code.symm.trans h_code'
  exact h

/-- Whatever happens next, it still hangs. -/
theorem Good.hangs_step (h : Good s) (h_hangs : s.shared.Hangs) {a : Parallel.Action Party Env}
    {es : List Event} (h_step : (system lz4).machine.step s a = some (s', es)) :
    Good s' ∧ s'.shared.Hangs := by
  obtain ⟨tr, h_holds⟩ := h
  -- nobody publishes any more, so `sequence` does not wrap and the outline goes on
  suffices h_next : Parallel.Meets Unwrapped (fun _ _ => True) s a ∧ s'.shared.Hangs from
    ⟨⟨_, (sound lz4).step h_holds h_next.1 h_step⟩, h_next.2⟩
  obtain ⟨K, h_inv, h_wp⟩ := h_holds
  rcases Parallel.step_cases h_step with ⟨i, env, rfl, h_code, h_shared⟩ |
    ⟨i, env, c, next, r, rfl, h_code, h_exec⟩ | ⟨env, rfl, h_other⟩
  · refine ⟨fun c next h_ask => ?_, by rw [h_shared]; exact h_hangs⟩
    cases h_code.symm.trans h_ask
  · have h_i := h_wp i
    rw [h_code] at h_i
    cases i with
    | main =>
      obtain ⟨h_unwrapped, h_still⟩ := h_inv.main_hangs h_hangs h_i h_exec
      exact ⟨meets_unwrapped h_code h_unwrapped, h_still⟩
    | hub =>
      obtain ⟨h_unwrapped, h_still⟩ := h_inv.hub_hangs h_hangs h_i h_exec
      exact ⟨meets_unwrapped h_code h_unwrapped, h_still⟩
  · refine ⟨trivial, ?_⟩
    rcases Process.other_cases h_other with ⟨feed, es', mem, h_feed, -⟩ | ⟨-, c, datagrams, h_eq, -⟩
    · -- the reader has exited
      obtain ⟨inlet, reader, os, h_read, -⟩ := Feed.machine_cases h_feed
      simp only [Feed.Reader.step, h_hangs.1] at h_read
      cases h_read
    · rw [h_eq]
      exact h_hangs

/-- While it hangs `main` does not get to its end. -/
theorem Good.hangs_main (h : Good s) (h_hangs : s.shared.Hangs) : s.code .main ≠ .done () := by
  intro h_done
  obtain ⟨tr, h_holds⟩ := h
  obtain ⟨K, h_inv, h_down, -⟩ := h_holds.finished h_done
  obtain ⟨h_exited, q, h_wait, -⟩ := h_hangs
  obtain ⟨-, h_up, -, -⟩ := h_inv.hangs h_exited h_wait
  exact absurd (h_up.symm.trans h_down) Bool.noConfusion

/-! ### Blocking -/

/-- As long as no `acquire` fails spuriously, the reader stays in a call that does not return. -/
theorem blocked_step (h_blocked : s.shared.Blocked lz4) {a : Parallel.Action Party Env}
    {es : List Event} (h_meets : Parallel.Meets Unwrapped (fun env _ => env.Calm) s a)
    (h_step : (system lz4).machine.step s a = some (s', es)) : s'.shared.Blocked lz4 := by
  rcases Parallel.step_cases h_step with ⟨i, env, -, -, h_shared⟩ |
    ⟨i, env, c, next, r, -, -, h_exec⟩ | ⟨env, rfl, h_other⟩
  · rwa [h_shared]
  · exact h_blocked.exec h_exec
  · exact h_blocked.other h_meets h_other

/-- Meanwhile `main` does not get to its end, which is after the reader has exited. -/
theorem Good.blocked_main (h : Good s) (h_blocked : s.shared.Blocked lz4) :
    s.code .main ≠ .done () := by
  intro h_done
  obtain ⟨tr, h_holds⟩ := h
  obtain ⟨K, h_inv, -, h_stopped⟩ := h_holds.finished h_done
  obtain ⟨sequence, slot, source, len, bytes, h_pc, -⟩ := h_blocked
  have h_reader := h_inv.reader
  rw [h_stopped] at h_reader
  exact Feed.ReaderPc.noConfusion (h_pc.symm.trans h_reader.2)

end Watch

open Watch

variable {lz4 : Feed.Lz4} {lib : Library} {frames : Frames} {tr : List Event} {s : State}

/-- **The end of `main`, or none.** From every state of a run in which `sequence` does not wrap,
whatever the operating system answers, orderly steps lead to the end of `main`, unless it comes to
hang, `sequence` would wrap, or an ingest call does not return. Once it hangs it does so whatever
happens, and in a call that does not return the reader stays as long as no `acquire` fails
spuriously; in both cases `main` never gets to its end. -/
theorem main_ends_or_hangs (h : (system lz4).machine.ReachBy
    (Parallel.Meets Unwrapped fun _ _ => True) (State.start lib frames) tr s) :
    (∃ tr' s', (system lz4).machine.ReachBy (Parallel.Meets Orderly Undisturbed) s tr' s' ∧
      (s'.code .main = .done () ∨ s'.shared.Hangs ∨ Full s' ∨ s'.shared.Blocked lz4)) ∧
    (s.shared.Hangs → ∀ tr' s', (system lz4).machine.Reach s tr' s' →
      s'.shared.Hangs ∧ s'.code .main ≠ .done ()) ∧
    (s.shared.Blocked lz4 → ∀ tr' s', (system lz4).machine.ReachBy
      (Parallel.Meets Unwrapped fun env _ => env.Calm) s tr' s' →
        s'.shared.Blocked lz4 ∧ s'.code .main ≠ .done ()) := by
  have h_good : Good s := ⟨tr, (sound lz4).reach (outline_start lib frames) h⟩
  refine ⟨?_, fun h_hangs tr' s' h_reach => ?_, fun h_blocked tr' s' h_reach => ?_⟩
  · -- some orderly steps lead to an end of one of the four kinds
    obtain ⟨s', ⟨⟨tr', h_reach⟩, -⟩, h_end⟩ := h_good.ends lz4
    exact ⟨tr', s', h_reach, h_end.symm⟩
  · -- neither thread nor the rest of the system can undo the hang
    have h_all : Good s' ∧ s'.shared.Hangs :=
      h_reach.inv (I := fun _ s => Good s ∧ s.shared.Hangs) ⟨h_good, h_hangs⟩
        fun _ _ _ _ _ h_i _ h_step => h_i.1.hangs_step h_i.2 h_step
    exact ⟨h_all.2, h_all.1.hangs_main h_all.2⟩
  · -- nobody but the reader itself could get it out of the call
    have h_all : s'.shared.Blocked lz4 :=
      h_reach.inv (I := fun _ s => s.shared.Blocked lz4) h_blocked
        fun _ _ _ _ _ h_i h_meets h_step => blocked_step h_i h_meets h_step
    -- and `main` at its end would have waited for the reader
    have h_after : Good s' := h_good.reach
      (h_reach.mono fun _ _ => Parallel.Meets.mono fun _ _ _ => trivial)
    exact ⟨h_all, h_after.blocked_main h_all⟩

instance (i : Party) (env : Env) (s : Process) : (c : Cmd) → Decidable (Unwrapped i env s c)
  | .returned | .await => inferInstanceAs (Decidable (_ → _))
  | .net _ | .poll _ | .loop _ | .exit | .storeRunning _ | .loadRunning | .spawn | .join
  | .setInlet _ | .datagrams _ | .count _ | .publish _ | .stopReader | .joinReader | .startReader
  | .unmap => inferInstanceAs (Decidable True)

/-- It hangs. -/
def hanging (s : Process) : Bool :=
  decide (s.feed.reader.pc = .exited) &&
    match s.feed.writer .hub with
    | .wait q => decide (s.feed.inlet.processed < q)
    | .idle | .loadPublished _ | .write _ _ _ | .fetchAdd _ | .loadSequence => false

/-- The simulator gets no socket, so `main` publishes the frames; the hub receives a datagram of
somebody else and publishes it after that, and `main` stops the reader, which was idle. -/
def forgottenRun : List (Parallel.Action Party Env) :=
  mainSteps 3 18 ++ mainSteps 4 8 ++ mainSteps 5 10 ++ mainSteps (-1) 20 ++ reads 10 ++
    mainSteps (-1) 15 ++ reads 10 ++ mainSteps (-1) 15 ++ reads 10 ++ mainSteps (-1) 15 ++
    reads 10 ++ mainSteps (-1) 15 ++ reads 11 ++ mainSteps (-1) 2 ++
    [.other { rest := .arrive .itch [9] }] ++ hubSteps [.itch] [9] 21 ++ mainSteps (-1) 1 ++
    reads 1 ++ hubSteps [.itch] [9] 3

/-- The hub publishes a datagram of somebody else that `split_mtbt_frame` finds no end of, and the
reader reads it. -/
def blockedRun : List (Parallel.Action Party Env) :=
  mainSteps 3 18 ++ mainSteps 4 8 ++ mainSteps 5 14 ++
    [.other { rest := .arrive .mtbt Trading.wrappingFrame }] ++
    hubSteps [.mtbt] Trading.wrappingFrame 62 ++ reads 49

/-- The reader has read that datagram. -/
def wrapping (s : Process) : Bool :=
  match s.feed.reader.pc with
  | .readByte _ _ (.plain .mtbt) len bytes =>
    decide (bytes = Trading.wrappingFrame) && decide (¬bytes.length < len)
  | _ => false

theorem blocked_of_wrapping {s : Process} (h : wrapping s = true) : s.Blocked lz4 := by
  unfold wrapping at h
  split at h
  · next sequence slot len bytes h_pc =>
    obtain ⟨h_bytes, h_last⟩ := Bool.and_eq_true_iff.mp h
    refine ⟨sequence, slot, .plain .mtbt, len, bytes, h_pc, of_decide_eq_true h_last, ?_⟩
    rw [of_decide_eq_true h_bytes]
    exact Process.neverReturns_wrapping s.mem
  · cases h

/-- `main` hangs in the one run, and in the other the reader does not get out of a call. -/
theorem main_ends_or_hangs_forgotten :
    (∃ (tr : List Event) (s : State),
      (system copyLz4).machine.Reach (State.start copyLibrary byteFrames) tr s ∧
      ∀ tr' s', (system copyLz4).machine.Reach s tr' s' →
        s'.shared.Hangs ∧ s'.code .main ≠ .done ()) ∧
    ∃ (tr : List Event) (s : State),
      (system copyLz4).machine.Reach (State.start copyLibrary byteFrames) tr s ∧
      ∀ tr' s', (system copyLz4).machine.ReachBy
        (Parallel.Meets Unwrapped fun env _ => env.Calm) s tr' s' →
          s'.shared.Blocked copyLz4 ∧ s'.code .main ≠ .done () := by
  constructor
  · -- the hub is left waiting for a reader that has been stopped
    obtain ⟨tr, s, h_reach, h_s⟩ := Machine.exists_reachBy_of_runBy (system copyLz4).machine
      (Parallel.Meets Unwrapped fun _ _ => True) (State.start copyLibrary byteFrames) forgottenRun
      (fun s _ => hanging s.shared) (by decide +kernel)
    have h_hangs : s.shared.Hangs := by
      obtain ⟨h_exited, h_wait⟩ := Bool.and_eq_true_iff.mp h_s
      refine ⟨of_decide_eq_true h_exited, ?_⟩
      split at h_wait
      · next q h_q => exact ⟨q, h_q, of_decide_eq_true h_wait⟩
      · cases h_wait
      · cases h_wait
      · cases h_wait
      · cases h_wait
      · cases h_wait
    exact ⟨tr, s, h_reach.mono fun _ _ _ => trivial, (main_ends_or_hangs h_reach).2.1 h_hangs⟩
  · -- the reader is given the MTBT frame whose offset wraps
    obtain ⟨tr, s, h_reach, h_s⟩ := Machine.exists_reachBy_of_runBy (system copyLz4).machine
      (Parallel.Meets Unwrapped fun _ _ => True) (State.start copyLibrary byteFrames) blockedRun
      (fun s _ => wrapping s.shared) (by decide +kernel)
    exact ⟨tr, s, h_reach.mono fun _ _ _ => trivial,
      (main_ends_or_hangs h_reach).2.2 (blocked_of_wrapping h_s)⟩

/-- Nobody publishes when the reader has exited. -/
theorem Phase.Holds.idle {pubs : List (Party × Feed.Frame)} {outs : List Feed.Outcome}
    {s : Feed.System Party} {phase : Phase} (h : phase.Holds lz4 pubs outs s)
    (h_exited : s.reader.pc = .exited) (i : Party) : s.writer i = .idle := by
  cases phase with
  | before | loading => rw [h.2.2]; rfl
  | reading => exact absurd h_exited (Feed.InletInv.alive h).1
  | stopping => exact Feed.Quiet.idle h i
  | stopped | unmapped => exact h.1.idle i

/-- **`main` can end.** From every state of an orderly run, whoever else sends datagrams, orderly
steps lead to the end of `main`, unless `sequence` would wrap or an ingest call does not return. -/
theorem main_can_end (h : (system lz4).machine.ReachBy (Parallel.Meets Orderly fun _ _ => True)
    (State.start lib frames) tr s) :
    ∃ tr' s', (system lz4).machine.ReachBy (Parallel.Meets Orderly Undisturbed) s tr' s' ∧
      (s'.code .main = .done () ∨ Full s' ∨ s'.shared.Blocked lz4) := by
  have h_unwrapped := h.mono fun _ _ => orderly_meets (D := fun _ _ => True)
  have h_good : Good s := ⟨tr, (sound lz4).reach (outline_start lib frames) h_unwrapped⟩
  obtain ⟨s', ⟨⟨tr', h_reach⟩, -⟩, (⟨h_exited, q, h_wait, -⟩ | h_stop) | h_done⟩ :=
    h_good.ends lz4
  · -- in an orderly run nobody waits for a reader that has exited
    have h_all := h.trans (h_reach.mono fun _ _ => Parallel.Meets.mono fun _ _ _ => trivial)
    obtain ⟨K, ⟨h_turns, -⟩, -⟩ := Turn.reach_anyway h_all
    exact absurd ((h_turns.phase.idle h_exited .hub).symm.trans h_wait) Feed.WriterPc.noConfusion
  · exact ⟨tr', s', h_reach, Or.inr h_stop⟩
  · exact ⟨tr', s', h_reach, Or.inl h_done⟩

/-- So it can when the hub has received a datagram of somebody else and publishes it. -/
theorem main_can_end_foreign : ∃ (tr : List Event) (s : State),
    (system copyLz4).machine.Reach (State.start copyLibrary byteFrames) tr s ∧
    received tr = [(.itch, [9])] ∧
    ∃ tr' s', (system copyLz4).machine.ReachBy (Parallel.Meets Orderly Undisturbed) s tr' s' ∧
      (s'.code .main = .done () ∨ Full s' ∨ s'.shared.Blocked copyLz4) := by
  obtain ⟨tr, s, h_reach, h_s⟩ := Machine.exists_reachBy_of_runBy (system copyLz4).machine
    (Parallel.Meets Orderly fun _ _ => True) (State.start copyLibrary byteFrames)
    (mainSteps 3 18 ++ mainSteps 4 8 ++ mainSteps 5 14 ++ [.other { rest := .arrive .itch [9] }] ++
      hubSteps [.itch] [9] 16)
    (fun _ tr => decide (received tr = [(.itch, [9])])) (by decide +kernel)
  exact ⟨tr, s, h_reach.mono fun _ _ _ => trivial, of_decide_eq_true h_s, main_can_end h_reach⟩

end Host

end Hft
