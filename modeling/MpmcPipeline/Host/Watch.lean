import MpmcPipeline.Feed.Counters
import MpmcPipeline.Host.Datagrams

/-!
# Who waits for whom

Two threads of the process wait for others: whoever publishes waits for the reader, and `main` waits
for the hub's thread and for the reader when it stops them. This outline says what is so of them
whatever the operating system answers, also in runs in which `main` and the hub publish at once: how
far each is with a publish (`Call`), where `main` is with the reader, that it has stored `false` in
`running_` before it waits for the hub's thread, and that the counters of the inlet are in order.
All it needs is that `sequence` does not wrap (`Unwrapped`). What follows is in `Host/Ends.lean`.
-/

namespace Hft

namespace Host

open Net (SysCode)
open Parallel.Outline (After)

/-- How far a thread is with a publish. -/
inductive Call
  | rest
  | publishing
  /-- `publish` has returned. -/
  | waiting

/-- The writer of a thread. -/
def Call.Of : Call → Feed.WriterPc → Prop
  | rest, pc => pc = .idle
  | publishing, pc => pc ≠ .idle ∧ ∀ q, pc ≠ .wait q
  | waiting, pc => pc = .idle ∨ pc = .loadSequence ∨ ∃ q, pc = .wait q

/-- What a thread knows. -/
structure Watch where
  call : Call
  /-- The hub's thread: it is inside. -/
  inside : Bool
  /-- `main`: where it is with the reader. -/
  phase : Phase
  /-- `main`: the hub's thread is there. -/
  up : Bool
  /-- `main`: what it has stored in `running_` of the hub. -/
  running : Bool

/-- The inlet and the reader in each phase. -/
def Phase.Reader (s : Feed.System Party) : Phase → Prop
  | before => s = Process.start.feed
  | loading => s = { Process.start.feed with reader := ⟨.starting, 0⟩ }
  | reading => s.running = true ∧ s.reader.pc ≠ .exited ∧ s.reader.pc ≠ .starting
  | stopping => s.running = false ∧ s.reader.pc ≠ .starting
  | stopped | unmapped => s.running = false ∧ s.reader.pc = .exited

/-- `sequence` does not wrap. -/
def Unwrapped (i : Party) (_ : Env) (s : Process) : Cmd → Prop
  | .returned | .await => (s.feed.writer i).increments = true →
    s.feed.inlet.sequence ≠ BitVec.allOnes 64
  | _ => True

theorem Orderly.unwrapped {i : Party} {env : Env} {s : Process} {c : Cmd}
    (h : Orderly i env s c) : Unwrapped i env s c := by
  cases c with
  | returned | await => exact h
  | _ => trivial

namespace Watch

/-- What `main` needs for a command and knows after it. -/
def mainSpec : Program.Spec Cmd Cmd.Answer Watch
  | K, .net _, post => ∀ a, post a K
  | K, .spawn, post => K.up = false ∧ K.phase = .reading ∧ post () { K with up := true }
  | K, .join, post => K.running = false ∧ post () { K with up := false }
  | K, .storeRunning running, post => post () { K with running }
  | K, .publish _, post =>
    K.call = .rest ∧ K.phase = .reading ∧ post () { K with call := .publishing }
  | K, .returned, post => K.call = .publishing ∧ post () { K with call := .waiting }
  | K, .await, post => K.call = .waiting ∧ post () { K with call := .rest }
  | K, .startReader, post =>
    K.phase = .before ∧ post () { K with phase := .loading } ∨
      K.phase = .loading ∧ post () { K with phase := .reading }
  | K, .stopReader, post =>
    K.phase = .before ∧ post () K ∨
      (K.phase = .reading ∨ K.phase = .stopped) ∧ K.call = .rest ∧
        post () { K with phase := .stopping }
  | K, .joinReader, post =>
    K.phase = .before ∧ post () K ∨ K.phase = .stopping ∧ post () { K with phase := .stopped }
  | K, .datagrams _, post => ∀ n, post n K
  | K, .setInlet _, post | K, .unmap, post => post () K
  | _, .poll _, _ | _, .loop _, _ | _, .exit, _ | _, .loadRunning, _ | _, .count _, _ => False

/-- What the hub's thread needs for a command and knows after it. -/
def hubSpec : Program.Spec Cmd Cmd.Answer Watch
  | K, .net _, post => ∀ a, post a K
  | K, .poll _, post => ∀ ready, post ready K
  | K, .loadRunning, post => ∀ running, post running K
  | K, .loop _, post => K.inside = true ∧ post () K
  | K, .exit, post => K.inside = true ∧ K.call = .rest ∧ post () { K with inside := false }
  | K, .publish _, post =>
    K.inside = true ∧ K.call = .rest ∧ post () { K with call := .publishing }
  | K, .returned, post => K.call = .publishing ∧ post () { K with call := .waiting }
  | K, .await, post => K.call = .waiting ∧ post () { K with call := .rest }
  | K, .count _, post => post () K
  | _, .spawn, _ | _, .join, _ | _, .storeRunning _, _ | _, .setInlet _, _ | _, .datagrams _, _
  | _, .stopReader, _ | _, .joinReader, _ | _, .startReader, _ | _, .unmap, _ => False

/-- What the threads know is so: `m` is what `main` knows, `k` what the hub's thread knows. -/
structure Inv (s : Process) (m k : Watch) : Prop where
  running : s.running = m.running
  present : s.thread ≠ .absent ↔ m.up = true
  inside : k.inside = true → s.thread ≠ .absent ∧ s.thread ≠ .exited
  outside : k.inside = false → k.call = .rest
  main : m.call.Of (s.feed.writer .main)
  hub : k.call.Of (s.feed.writer .hub)
  publishing : m.call ≠ .rest → m.phase = .reading
  early : m.up = true → m.phase ≠ .before ∧ m.phase ≠ .loading
  reader : m.phase.Reader s.feed
  counted : Feed.Counted s.feed

/-- The outline. -/
def outline : Parallel.Outline Party Process Event Cmd Watch Cmd.Answer where
  spec
    | .main => mainSpec
    | .hub => hubSpec
  inv _ s K := Inv s (K .main) (K .hub)
  rest
    | .main, K => K.up = false ∧ K.phase = .stopped
    | .hub, K => K.call = .rest

end Watch

/-! ### The inlet -/

section

variable {lz4 : Feed.Lz4} {s : Feed.System Party} {inlet : Feed.SharedInlet} {pc : Feed.WriterPc}
  {i : Party} {es : List (Feed.Event Party)}

/-- A call goes on. -/
theorem Call.Of.write {call : Call} {pc pc' : Feed.WriterPc} {inlet' : Feed.SharedInlet}
    (h : call.Of pc) (h_call : call = .publishing ∧ pc ≠ .loadSequence ∨ call = .waiting)
    (h_step : pc.step i inlet = some (inlet', pc', es)) : call.Of pc' := by
  rcases h_call with ⟨rfl, h_load⟩ | rfl
  · -- inside `publish` the writer is on its way to the load
    obtain ⟨h_idle, h_wait⟩ := h
    cases pc with
    | idle => exact absurd rfl h_idle
    | loadPublished frame | fetchAdd frame =>
      cases h_step
      exact ⟨Feed.WriterPc.noConfusion, fun _ => Feed.WriterPc.noConfusion⟩
    | write w frame n =>
      simp only [Feed.WriterPc.step] at h_step
      split at h_step <;> cases h_step <;>
        exact ⟨Feed.WriterPc.noConfusion, fun _ => Feed.WriterPc.noConfusion⟩
    -- the load itself is the end of `publish` and no step of it
    | loadSequence => exact absurd rfl h_load
    | wait q => exact absurd rfl (h_wait q)
  · -- in the wait it is idle, at the load or waiting
    rcases h with rfl | rfl | ⟨q, rfl⟩
    · cases h_step
    · cases h_step
      exact Or.inr (Or.inr ⟨_, rfl⟩)
    · simp only [Feed.WriterPc.step] at h_step
      split at h_step <;> cases h_step
      · exact Or.inr (Or.inr ⟨q, rfl⟩)
      · exact Or.inl rfl

/-- A writer has no part in the phase. -/
theorem Phase.Reader.write {phase : Phase} (h : phase.Reader s)
    (h_step : (s.writer i).step i s.inlet = some (inlet, pc, es)) :
    phase.Reader { s with inlet, writer := Function.update s.writer i pc } := by
  cases phase with
  | before | loading =>
    have h_s : s.writer i = .idle := by rw [show s = _ from h]; rfl
    rw [h_s] at h_step
    cases h_step
  | reading | stopping | stopped | unmapped => exact h

/-- The reader goes on within the phase. -/
theorem Phase.Reader.read {phase : Phase} {reader : Feed.Reader} {os : List Feed.Outcome}
    (h : phase.Reader s)
    (h_step : s.reader.step lz4 s.running s.inlet = some (inlet, reader, os)) :
    phase.Reader { s with inlet, reader } := by
  have h_none : s.reader.pc ≠ .exited ∧ s.reader.pc ≠ .starting := by
    constructor <;> intro h_pc <;> simp only [Feed.Reader.step, h_pc] at h_step <;> cases h_step
  -- only a check of `running_` leads out of the loop, and nothing back to the start
  have h_starting : reader.pc ≠ .starting ∧ (s.running = true → reader.pc ≠ .exited) := by
    cases Feed.Reader.step_move h_step with
    | check pc h_pc h_pc' =>
      rcases h_pc' with ⟨-, rfl⟩ | ⟨h_stopped, rfl⟩
      · exact ⟨Feed.ReaderPc.noConfusion, fun _ => Feed.ReaderPc.noConfusion⟩
      · refine ⟨Feed.ReaderPc.noConfusion, fun h_run => ?_⟩
        exact absurd (h_stopped.symm.trans h_run) Bool.noConfusion
    | scan q r pc h_pc h_pc' h_fuel h_frame =>
      constructor
      · rintro rfl
        cases h_pc'
      · rintro - rfl
        cases h_pc'
    | again _ _ | notice _ _ | fetch _ _ | finish _ _ _ _ _ | acknowledge _ _ =>
      exact ⟨Feed.ReaderPc.noConfusion, fun _ => Feed.ReaderPc.noConfusion⟩
  cases phase with
  | before => exact absurd (by rw [show s = _ from h]; rfl) h_none.1
  | loading => exact absurd (by rw [show s = _ from h]) h_none.2
  | reading => exact ⟨h.1, h_starting.2 h.1, h_starting.1⟩
  | stopping => exact ⟨h.1, h_starting.1⟩
  | stopped | unmapped => exact absurd h.2 h_none.1

end

/-! ### The steps -/

namespace Watch

variable {lz4 : Feed.Lz4} {env : Env} {s s' : Process} {m k : Watch} {es : List Event}

/-- A step that concerns neither the threads nor the inlet. -/
theorem Inv.congr (h : Inv s m k) (h_frame : s' = { s with
    table := s'.table, network := s'.network, mem := s'.mem, inlet := s'.inlet,
    datagrams := s'.datagrams, mapped := s'.mapped }) : Inv s' m k := by
  rw [h_frame]
  exact ⟨h.running, h.present, h.inside, h.outside, h.main, h.hub, h.publishing, h.early, h.reader,
    h.counted⟩

/-- `main` goes on with a publish. -/
theorem Inv.mainCall (h : Inv s m k) (feed : Feed.System Party) (call : Call)
    (h_main : call.Of (feed.writer .main)) (h_hub : feed.writer .hub = s.feed.writer .hub)
    (h_reading : call ≠ .rest → m.phase = .reading) (h_reader : m.phase.Reader feed)
    (h_counted : Feed.Counted feed) : Inv { s with feed } { m with call } k :=
  ⟨h.running, h.present, h.inside, h.outside, h_main, by
    show k.call.Of (feed.writer .hub)
    rw [h_hub]
    exact h.hub, h_reading, h.early, h_reader, h_counted⟩

/-- The hub's thread goes on with a publish. -/
theorem Inv.hubCall (h : Inv s m k) (feed : Feed.System Party) (call : Call)
    (h_hub : call.Of (feed.writer .hub)) (h_main : feed.writer .main = s.feed.writer .main)
    (h_inside : k.inside = false → call = .rest) (h_reader : m.phase.Reader feed)
    (h_counted : Feed.Counted feed) : Inv { s with feed } m { k with call } :=
  ⟨h.running, h.present, h.inside, h_inside, by
    show m.call.Of (feed.writer .main)
    rw [h_main]
    exact h.main, h_hub, h.publishing, h.early, h_reader, h_counted⟩

/-- What a writer's step is on the inlet. -/
theorem Inv.write (h : Inv s m k) {i : Party} {feed : Feed.System Party}
    {es : List (Feed.Event Party)} {call : Call} (h_call : call.Of (s.feed.writer i))
    (h_in : call = .publishing ∧ s.feed.writer i ≠ .loadSequence ∨ call = .waiting)
    (h_wrap : (s.feed.writer i).increments = true → s.feed.inlet.sequence ≠ BitVec.allOnes 64)
    (h_step : (Feed.machine lz4 Party).step s.feed (.write i) = some (feed, es)) :
    call.Of (feed.writer i) ∧ (∀ j, j ≠ i → feed.writer j = s.feed.writer j) ∧
      m.phase.Reader feed ∧ Feed.Counted feed := by
  obtain ⟨inlet, pc, h_pc, rfl⟩ := Feed.machine_cases h_step
  refine ⟨?_, fun j h_j => Function.update_of_ne h_j _ _, h.reader.write h_pc,
    h.counted.write h_wrap h_pc⟩
  show call.Of (Function.update s.feed.writer i pc i)
  rw [Function.update_self]
  exact h_call.write h_in h_pc

theorem Inv.mainWrite (h : Inv s m k) {feed : Feed.System Party} {es : List (Feed.Event Party)}
    (h_in : m.call = .publishing ∧ s.feed.writer .main ≠ .loadSequence ∨ m.call = .waiting)
    (h_wrap : (s.feed.writer .main).increments = true →
      s.feed.inlet.sequence ≠ BitVec.allOnes 64)
    (h_step : (Feed.machine lz4 Party).step s.feed (.write .main) = some (feed, es)) :
    Inv { s with feed } m k := by
  obtain ⟨h_main, h_others, h_reader, h_counted⟩ := h.write h.main h_in h_wrap h_step
  exact h.mainCall feed m.call h_main (h_others .hub Party.noConfusion) h.publishing h_reader
    h_counted

theorem Inv.hubWrite (h : Inv s m k) {feed : Feed.System Party} {es : List (Feed.Event Party)}
    (h_in : k.call = .publishing ∧ s.feed.writer .hub ≠ .loadSequence ∨ k.call = .waiting)
    (h_wrap : (s.feed.writer .hub).increments = true → s.feed.inlet.sequence ≠ BitVec.allOnes 64)
    (h_step : (Feed.machine lz4 Party).step s.feed (.write .hub) = some (feed, es)) :
    Inv { s with feed } m k := by
  obtain ⟨h_hub, h_others, h_reader, h_counted⟩ := h.write h.hub h_in h_wrap h_step
  exact h.hubCall feed k.call h_hub (h_others .main Party.noConfusion) h.outside h_reader h_counted

/-- The hub's thread calls `publish` from inside, so it is there. -/
theorem Inv.up_of_call (h : Inv s m k) (h_call : k.call ≠ .rest) :
    k.inside = true ∧ m.up = true := by
  have h_inside : k.inside = true := by
    cases h_k : k.inside with
    | true => rfl
    | false => exact absurd (h.outside h_k) h_call
  exact ⟨h_inside, h.present.mp (h.inside h_inside).1⟩

/-- A call of `publish` begins. -/
theorem Inv.publish (h : Inv s m k) {i : Party} {args : Feed.Args} {feed : Feed.System Party}
    {es : List (Feed.Event Party)} (h_phase : m.phase ≠ .before ∧ m.phase ≠ .loading)
    (h_step : (Feed.machine lz4 Party).step s.feed (.publish i args) = some (feed, es)) :
    Call.publishing.Of (feed.writer i) ∧ (∀ j, j ≠ i → feed.writer j = s.feed.writer j) ∧
      m.phase.Reader feed ∧ Feed.Counted feed := by
  obtain ⟨pc, h_pc, rfl⟩ := Feed.machine_cases h_step
  -- the call begins at the copy, or at the load if it is rejected
  have h_of : Call.publishing.Of pc := by
    cases h_writer : s.feed.writer i with
    | idle =>
      rw [h_writer] at h_pc
      simp only [Feed.WriterPc.publish] at h_pc
      split at h_pc <;> cases h_pc <;>
        exact ⟨Feed.WriterPc.noConfusion, fun _ => Feed.WriterPc.noConfusion⟩
    | _ =>
      rw [h_writer] at h_pc
      cases h_pc
  refine ⟨?_, fun j h_j => Function.update_of_ne h_j _ _, ?_, h.counted.publish h_of.2⟩
  · show Call.publishing.Of (Function.update s.feed.writer i pc i)
    rw [Function.update_self]
    exact h_of
  · -- a reader that has been started stays where it is
    have h_reader := h.reader
    cases h_m : m.phase with
    | before => exact absurd h_m h_phase.1
    | loading => exact absurd h_m h_phase.2
    | reading | stopping | stopped | unmapped =>
      rw [h_m] at h_reader
      exact h_reader

/-- The hub's thread is started. -/
theorem mainSpawn {post : Cmd.spawn.Answer → Watch → Prop} {r : Option Cmd.spawn.Answer}
    (h : Inv s m k) (h_spec : mainSpec m .spawn post)
    (h_exec : Process.exec lz4 .main env s .spawn = some (s', r, es)) :
    ∃ m', Inv s' m' k ∧ After mainSpec m' .spawn post r := by
  cases h_exec
  obtain ⟨h_up, h_phase, h_post⟩ := h_spec
  refine ⟨{ m with up := true }, ⟨h.running, iff_of_true HubThread.noConfusion rfl,
    fun _ => ⟨HubThread.noConfusion, HubThread.noConfusion⟩, h.outside, h.main, h.hub,
    h.publishing, fun _ => ?_, h.reader, h.counted⟩, h_post⟩
  show m.phase ≠ .before ∧ m.phase ≠ .loading
  rw [h_phase]
  exact ⟨Phase.noConfusion, Phase.noConfusion⟩

/-- `main` has waited for the hub's thread. -/
theorem mainJoin {post : Cmd.join.Answer → Watch → Prop} {r : Option Cmd.join.Answer}
    (h : Inv s m k) (h_spec : mainSpec m .join post)
    (h_exec : Process.exec lz4 .main env s .join = some (s', r, es)) :
    ∃ m', Inv s' m' k ∧ After mainSpec m' .join post r := by
  -- a thread that can be joined is not inside
  have h_down : ∀ s' : Process, s'.running = s.running → s'.thread = .absent →
      s'.feed = s.feed → ¬k.inside = true → Inv s' { m with up := false } k := by
    intro s' h_running h_thread h_feed h_out
    obtain ⟨running, present, inside, outside, main, hub, publishing, early, reader, counted⟩ := h
    rw [← h_feed] at main hub reader counted
    exact ⟨h_running.trans running, iff_of_false (fun h_ne => h_ne h_thread) Bool.noConfusion,
      fun h_in => absurd h_in h_out, outside, main, hub, publishing,
      fun h_up => absurd h_up Bool.noConfusion, reader, counted⟩
  simp only [Process.exec] at h_exec
  split at h_exec
  · next h_thread =>
    cases h_exec
    exact ⟨_, h_down s rfl h_thread rfl fun h_in => (h.inside h_in).1 h_thread, h_spec.2⟩
  · next h_thread =>
    cases h_exec
    exact ⟨_, h_down { s with thread := .absent } rfl rfl rfl
      fun h_in => (h.inside h_in).2 h_thread, h_spec.2⟩
  · cases h_exec
  · cases h_exec

/-- `main` calls `publish`. -/
theorem mainPublish {args : Feed.Args} {post : (Cmd.publish args).Answer → Watch → Prop}
    {r : Option (Cmd.publish args).Answer} (h : Inv s m k)
    (h_spec : mainSpec m (.publish args) post)
    (h_exec : Process.exec lz4 .main env s (.publish args) = some (s', r, es)) :
    ∃ m', Inv s' m' k ∧ After mainSpec m' (.publish args) post r := by
  simp only [Process.exec] at h_exec
  obtain ⟨rfl, feed, es', h_step, rfl, rfl⟩ := Process.map_feedStep_eq_some h_exec
  obtain ⟨-, h_phase, h_post⟩ := h_spec
  obtain ⟨h_main, h_others, h_reader, h_counted⟩ := h.publish
    (by rw [h_phase]; exact ⟨Phase.noConfusion, Phase.noConfusion⟩) h_step
  exact ⟨_, h.mainCall _ _ h_main (h_others .hub Party.noConfusion) (fun _ => h_phase) h_reader
    h_counted, h_post⟩

/-- `publish` goes on, or returns. -/
theorem mainReturned {post : Cmd.returned.Answer → Watch → Prop} {r : Option Cmd.returned.Answer}
    (h : Inv s m k) (h_spec : mainSpec m .returned post)
    (h_wrap : Unwrapped .main env s .returned)
    (h_exec : Process.exec lz4 .main env s .returned = some (s', r, es)) :
    ∃ m', Inv s' m' k ∧ After mainSpec m' .returned post r := by
  have h_keep := h_spec
  obtain ⟨h_call, h_post⟩ := h_spec
  -- `main` publishes while the reader reads
  have h_phase := h.publishing (by rw [h_call]; exact Call.noConfusion)
  simp only [Process.exec] at h_exec
  split at h_exec
  · -- the call is at its load, so `publish` has returned
    next h_load =>
    cases h_exec
    exact ⟨_, h.mainCall s.feed .waiting (Or.inr (Or.inl h_load)) rfl
      (fun _ => h_phase) h.reader h.counted, h_post⟩
  · -- it goes on, and returns another time
    next h_load =>
    obtain ⟨rfl, feed, es', h_step, rfl, rfl⟩ := Process.map_feedStep_eq_some h_exec
    exact ⟨m, h.mainWrite (Or.inl ⟨h_call, h_load⟩) h_wrap h_step, h_keep⟩

/-- `main` waits, or is through with it. -/
theorem mainAwait {post : Cmd.await.Answer → Watch → Prop} {r : Option Cmd.await.Answer}
    (h : Inv s m k) (h_spec : mainSpec m .await post) (h_wrap : Unwrapped .main env s .await)
    (h_exec : Process.exec lz4 .main env s .await = some (s', r, es)) :
    ∃ m', Inv s' m' k ∧ After mainSpec m' .await post r := by
  have h_keep := h_spec
  obtain ⟨h_call, h_post⟩ := h_spec
  simp only [Process.exec] at h_exec
  split at h_exec
  · -- the wait is over
    next h_idle =>
    cases h_exec
    exact ⟨_, h.mainCall s.feed .rest h_idle rfl
      (fun h_ne => absurd rfl h_ne) h.reader h.counted, h_post⟩
  · -- or goes on
    obtain ⟨rfl, feed, es', h_step, rfl, rfl⟩ := Process.map_feedStep_eq_some h_exec
    exact ⟨m, h.mainWrite (Or.inr h_call) h_wrap h_step, h_keep⟩

/-- The two operations of `Reader::start`. -/
theorem mainStartReader {post : Cmd.startReader.Answer → Watch → Prop}
    {r : Option Cmd.startReader.Answer} (h : Inv s m k) (h_spec : mainSpec m .startReader post)
    (h_exec : Process.exec lz4 .main env s .startReader = some (s', r, es)) :
    ∃ m', Inv s' m' k ∧ After mainSpec m' .startReader post r := by
  simp only [Process.exec] at h_exec
  obtain ⟨rfl, feed, es', h_step, rfl, rfl⟩ := Process.map_feedStep_eq_some h_exec
  obtain ⟨running, present, inside, outside, main, hub, publishing, early, reader, counted⟩ := h
  -- the hub's thread is started after the reader
  have h_up : m.up ≠ true := by
    intro h_up
    rcases h_spec with ⟨h_m, -⟩ | ⟨h_m, -⟩
    · exact (early h_up).1 h_m
    · exact (early h_up).2 h_m
  have h_rest : ¬m.call ≠ .rest := by
    intro h_call
    have h_phase := publishing h_call
    rcases h_spec with ⟨h_m, -⟩ | ⟨h_m, -⟩ <;> rw [h_m] at h_phase <;> cases h_phase
  rcases h_spec with ⟨h_m, h_post⟩ | ⟨h_m, h_post⟩
  · rw [h_m] at reader
    have h_feed : s.feed = Process.start.feed := reader
    rw [h_feed] at h_step main hub
    cases h_step
    refine ⟨{ m with phase := .loading }, ⟨running, present, inside, outside, main, hub,
      fun h_call => absurd h_call h_rest, fun h => absurd h h_up, ?_, ?_⟩, h_post⟩
    · rfl
    · exact Feed.Counted.start rfl
  · rw [h_m] at reader
    have h_feed : s.feed = { Process.start.feed with reader := ⟨.starting, 0⟩ } := reader
    rw [h_feed] at h_step main hub
    cases h_step
    refine ⟨{ m with phase := .reading }, ⟨running, present, inside, outside, main, hub,
      fun _ => rfl, fun h => absurd h h_up, ?_, ?_⟩, h_post⟩
    · exact ⟨rfl, Feed.ReaderPc.noConfusion, Feed.ReaderPc.noConfusion⟩
    · exact Feed.Counted.start rfl

/-- The reader is told to stop. -/
theorem mainStopReader {post : Cmd.stopReader.Answer → Watch → Prop}
    {r : Option Cmd.stopReader.Answer} (h : Inv s m k) (h_spec : mainSpec m .stopReader post)
    (h_exec : Process.exec lz4 .main env s .stopReader = some (s', r, es)) :
    ∃ m', Inv s' m' k ∧ After mainSpec m' .stopReader post r := by
  simp only [Process.exec] at h_exec
  obtain ⟨rfl, feed, es', h_step, rfl, rfl⟩ := Process.map_feedStep_eq_some h_exec
  cases h_step
  obtain ⟨running, present, inside, outside, main, hub, publishing, early, reader, counted⟩ := h
  -- `running_` is none of the counters
  have h_counted : Feed.Counted { s.feed with running := false } :=
    ⟨counted.processed, counted.last, counted.carried, counted.waiting⟩
  -- the reader has not been started, or it has
  rcases h_spec with ⟨h_m, h_post⟩ | ⟨h_m, h_call, h_post⟩
  · refine ⟨m, ⟨running, present, inside, outside, main, hub, publishing, early, ?_, h_counted⟩,
      h_post⟩
    rw [h_m] at reader ⊢
    rw [show s.feed = Process.start.feed from reader]
    rfl
  · refine ⟨{ m with phase := .stopping }, ⟨running, present, inside, outside, main, hub,
      fun h_ne => absurd h_call h_ne, fun _ => ⟨Phase.noConfusion, Phase.noConfusion⟩, ⟨rfl, ?_⟩,
      h_counted⟩, h_post⟩
    -- a reader told to stop is not about to start
    show s.feed.reader.pc ≠ .starting
    rcases h_m with h_m | h_m <;> rw [h_m] at reader
    · exact reader.2.2
    · rw [reader.2]
      exact Feed.ReaderPc.noConfusion

/-- `main` has waited for the reader. -/
theorem mainJoinReader {post : Cmd.joinReader.Answer → Watch → Prop}
    {r : Option Cmd.joinReader.Answer} (h : Inv s m k) (h_spec : mainSpec m .joinReader post)
    (h_exec : Process.exec lz4 .main env s .joinReader = some (s', r, es)) :
    ∃ m', Inv s' m' k ∧ After mainSpec m' .joinReader post r := by
  simp only [Process.exec] at h_exec
  -- the join waits until the thread has left
  split at h_exec
  · next h_exited =>
    cases h_exec
    -- there was no reader, or it has been told to stop
    rcases h_spec with ⟨h_m, h_post⟩ | ⟨h_m, h_post⟩
    · exact ⟨m, h, h_post⟩
    · have h_reader := h.reader
      rw [h_m] at h_reader
      refine ⟨{ m with phase := .stopped }, ⟨h.running, h.present, h.inside, h.outside, h.main,
        h.hub, fun h_ne => ?_, fun _ => ⟨Phase.noConfusion, Phase.noConfusion⟩,
        ⟨h_reader.1, h_exited⟩, h.counted⟩, h_post⟩
      -- `main` publishes nothing while it stops the reader
      exact absurd ((h.publishing h_ne).symm.trans h_m) Phase.noConfusion
  · cases h_exec

/-- A step of `main` keeps the outline. -/
theorem exec_main {c : Cmd} {post : c.Answer → Watch → Prop} {r : Option c.Answer}
    (h : Inv s m k) (h_spec : mainSpec m c post)
    (h_wrap : Unwrapped .main env s c)
    (h_exec : Process.exec lz4 .main env s c = some (s', r, es)) :
    ∃ m', Inv s' m' k ∧ After mainSpec m' c post r := by
  -- the commands that change something for the watch have their lemmas above
  cases c with
  | net c =>
    obtain ⟨a, rfl, h_net⟩ := Process.exec_net h_exec
    exact ⟨m, h.congr (by rw [h_net.frame]), h_spec a⟩
  | setInlet _ | unmap =>
    cases h_exec
    exact ⟨m, h.congr rfl, h_spec⟩
  | datagrams c =>
    cases h_exec
    exact ⟨m, h, h_spec _⟩
  | storeRunning running =>
    cases h_exec
    exact ⟨{ m with running }, ⟨rfl, h.present, h.inside, h.outside, h.main, h.hub, h.publishing,
      h.early, h.reader, h.counted⟩, h_spec⟩
  | spawn => exact mainSpawn h h_spec h_exec
  | join => exact mainJoin h h_spec h_exec
  | publish args => exact mainPublish h h_spec h_exec
  | returned => exact mainReturned h h_spec h_wrap h_exec
  | await => exact mainAwait h h_spec h_wrap h_exec
  | startReader => exact mainStartReader h h_spec h_exec
  | stopReader => exact mainStopReader h h_spec h_exec
  | joinReader => exact mainJoinReader h h_spec h_exec
  | poll _ | loop _ | exit | loadRunning | count _ => exact absurd h_spec id

/-- The hub's thread has filled its array. -/
theorem hubLoop {descriptors : MulticastChannel → Int}
    {post : (Cmd.loop descriptors).Answer → Watch → Prop}
    {r : Option (Cmd.loop descriptors).Answer} (h : Inv s m k)
    (h_spec : hubSpec k (.loop descriptors) post)
    (h_exec : Process.exec lz4 .hub env s (.loop descriptors) = some (s', r, es)) :
    ∃ k', Inv s' m k' ∧ After hubSpec k' (.loop descriptors) post r := by
  cases h_exec
  obtain ⟨h_inside, h_post⟩ := h_spec
  have h_present := h.present.mp (h.inside h_inside).1
  exact ⟨k, ⟨h.running, iff_of_true HubThread.noConfusion h_present,
    fun _ => ⟨HubThread.noConfusion, HubThread.noConfusion⟩, h.outside, h.main, h.hub,
    h.publishing, h.early, h.reader, h.counted⟩, h_post⟩

/-- `MulticastHub::run` returns. -/
theorem hubExit {post : Cmd.exit.Answer → Watch → Prop} {r : Option Cmd.exit.Answer}
    (h : Inv s m k) (h_spec : hubSpec k .exit post)
    (h_exec : Process.exec lz4 .hub env s .exit = some (s', r, es)) :
    ∃ k', Inv s' m k' ∧ After hubSpec k' .exit post r := by
  cases h_exec
  obtain ⟨h_inside, h_call, h_post⟩ := h_spec
  have h_present := h.present.mp (h.inside h_inside).1
  exact ⟨{ k with inside := false }, ⟨h.running, iff_of_true HubThread.noConfusion h_present,
    fun h_in => absurd h_in Bool.noConfusion, fun _ => h_call, h.main, h.hub, h.publishing,
    h.early, h.reader, h.counted⟩, h_post⟩

/-- The hub's thread calls `publish`. -/
theorem hubPublish {args : Feed.Args} {post : (Cmd.publish args).Answer → Watch → Prop}
    {r : Option (Cmd.publish args).Answer} (h : Inv s m k)
    (h_spec : hubSpec k (.publish args) post)
    (h_exec : Process.exec lz4 .hub env s (.publish args) = some (s', r, es)) :
    ∃ k', Inv s' m k' ∧ After hubSpec k' (.publish args) post r := by
  simp only [Process.exec] at h_exec
  obtain ⟨rfl, feed, es', h_step, rfl, rfl⟩ := Process.map_feedStep_eq_some h_exec
  obtain ⟨h_inside, -, h_post⟩ := h_spec
  obtain ⟨h_hub, h_others, h_reader, h_counted⟩ := h.publish
    (h.early (h.present.mp (h.inside h_inside).1)) h_step
  refine ⟨_, h.hubCall _ _ h_hub (h_others .main Party.noConfusion) (fun h_out => ?_) h_reader
    h_counted, h_post⟩
  exact absurd (h_inside.symm.trans h_out) Bool.noConfusion

/-- `publish` goes on, or returns. -/
theorem hubReturned {post : Cmd.returned.Answer → Watch → Prop} {r : Option Cmd.returned.Answer}
    (h : Inv s m k) (h_spec : hubSpec k .returned post) (h_wrap : Unwrapped .hub env s .returned)
    (h_exec : Process.exec lz4 .hub env s .returned = some (s', r, es)) :
    ∃ k', Inv s' m k' ∧ After hubSpec k' .returned post r := by
  have h_keep := h_spec
  obtain ⟨h_call, h_post⟩ := h_spec
  simp only [Process.exec] at h_exec
  split at h_exec
  · -- the call is at its load, so `publish` has returned
    next h_load =>
    cases h_exec
    have h_inside := (h.up_of_call (by rw [h_call]; exact Call.noConfusion)).1
    exact ⟨_, h.hubCall s.feed .waiting (Or.inr (Or.inl h_load)) rfl
      (fun h_out => absurd (h_inside.symm.trans h_out) Bool.noConfusion) h.reader h.counted,
      h_post⟩
  · -- it goes on, and returns another time
    next h_load =>
    obtain ⟨rfl, feed, es', h_step, rfl, rfl⟩ := Process.map_feedStep_eq_some h_exec
    exact ⟨k, h.hubWrite (Or.inl ⟨h_call, h_load⟩) h_wrap h_step, h_keep⟩

/-- The hub's thread waits, or is through with it. -/
theorem hubAwait {post : Cmd.await.Answer → Watch → Prop} {r : Option Cmd.await.Answer}
    (h : Inv s m k) (h_spec : hubSpec k .await post) (h_wrap : Unwrapped .hub env s .await)
    (h_exec : Process.exec lz4 .hub env s .await = some (s', r, es)) :
    ∃ k', Inv s' m k' ∧ After hubSpec k' .await post r := by
  have h_keep := h_spec
  obtain ⟨h_call, h_post⟩ := h_spec
  simp only [Process.exec] at h_exec
  split at h_exec
  · next h_idle =>
    cases h_exec
    exact ⟨_, h.hubCall s.feed .rest h_idle rfl (fun _ => rfl) h.reader h.counted, h_post⟩
  · obtain ⟨rfl, feed, es', h_step, rfl, rfl⟩ := Process.map_feedStep_eq_some h_exec
    exact ⟨k, h.hubWrite (Or.inr h_call) h_wrap h_step, h_keep⟩

/-- A step of the hub's thread keeps the outline. -/
theorem exec_hub {c : Cmd} {post : c.Answer → Watch → Prop} {r : Option c.Answer}
    (h : Inv s m k) (h_spec : hubSpec k c post)
    (h_wrap : Unwrapped .hub env s c)
    (h_exec : Process.exec lz4 .hub env s c = some (s', r, es)) :
    ∃ k', Inv s' m k' ∧ After hubSpec k' c post r := by
  -- as for `main`: a lemma for each command that changes something
  cases c with
  | net c =>
    obtain ⟨a, rfl, h_net⟩ := Process.exec_net h_exec
    exact ⟨k, h.congr (by rw [h_net.frame]), h_spec a⟩
  | poll _ | loadRunning =>
    cases h_exec
    exact ⟨k, h, h_spec _⟩
  | count _ =>
    cases h_exec
    exact ⟨k, h.congr rfl, h_spec⟩
  | loop descriptors => exact hubLoop h h_spec h_exec
  | exit => exact hubExit h h_spec h_exec
  | publish args => exact hubPublish h h_spec h_exec
  | returned => exact hubReturned h h_spec h_wrap h_exec
  | await => exact hubAwait h h_spec h_wrap h_exec
  | spawn | join | storeRunning _ | setInlet _ | datagrams _ | stopReader | joinReader
  | startReader | unmap => exact absurd h_spec id

/-! ### The programs -/

section

variable {K : Watch}

/-- Where every answer is possible and teaches nothing, a program teaches nothing. -/
theorem answers_any {Cmd : Type} {Answer : Cmd → Type} {α : Type} (p : Program Cmd Answer α) :
    p.Answers (fun K _ post => ∀ a, post a K) K fun _ => True := by
  intro post h_post
  induction p with
  | done a => exact h_post a trivial
  | ask c next ih => exact fun a => ih a

theorem answers_net {α : Type} (p : SysCode Socket α) :
    (net p).Answers mainSpec K fun _ => True := by
  intro post h_post
  rw [net, Program.wp_lift]
  exact answers_any p post h_post

theorem answers_hubNet {α : Type} (p : SysCode Socket α) :
    (net p).Answers hubSpec K fun _ => True := by
  intro post h_post
  rw [net, Program.wp_lift]
  exact answers_any p post h_post

theorem answers_simulatorStop : MulticastSimulator.stop.Answers mainSpec K fun _ => True :=
  (answers_net _).bind fun _ _ => (answers_net _).bind fun _ _ => answers_net _

theorem answers_simulatorStart : MulticastSimulator.start.Answers mainSpec K fun _ => True := by
  refine answers_simulatorStop.bind fun _ _ => Program.Answers.allOf trivial fun p h_p => ?_
  simp only [List.mem_cons, List.not_mem_nil, or_false] at h_p
  obtain rfl | rfl | rfl := h_p <;> exact answers_net _

theorem answers_attempts (lib : Library) (c : MulticastChannel) (data : List Byte) (left : ℕ) :
    (MulticastSimulator.attempts lib c data left).Answers mainSpec K fun _ => True := by
  induction left with
  | zero => exact fun _ h_post => h_post () trivial
  | succ left ih =>
    refine (answers_net _).bind fun r _ => ?_
    match r with
    | some (_ + 1) => exact fun _ h_post => h_post () trivial
    | some 0 => exact ih
    | none => exact ih

theorem answers_send (lib : Library) (c : MulticastChannel) (data : List Byte) :
    (MulticastSimulator.send lib c data).Answers mainSpec K fun _ => True := by
  unfold MulticastSimulator.send
  split
  · exact fun _ h_post => h_post () trivial
  · exact answers_attempts lib c data 3

theorem answers_allCounted : allCounted.Answers mainSpec K fun _ => True := by
  refine Program.Answers.allOf trivial fun p h_p => ?_
  simp only [List.mem_cons, List.not_mem_nil, or_false] at h_p
  obtain rfl | rfl | rfl := h_p <;> exact fun _ h_post _ => h_post _ trivial

theorem answers_giveTime (left : ℕ) : (giveTime left).Answers mainSpec K fun _ => True := by
  induction left with
  | zero => exact fun _ h_post => h_post () trivial
  | succ left ih =>
    refine answers_allCounted.bind fun r _ => ?_
    cases r with
    | true => exact fun _ h_post => h_post () trivial
    | false => exact ih

theorem answers_bringIn (lib : Library) (frames : Frames) (ok : Bool) :
    (bringIn lib frames ok).Answers mainSpec K fun _ => True := by
  cases ok with
  | true =>
    refine Program.Answers.bind (R := fun _ => True) ?_ fun _ _ => answers_giveTime 100
    exact (answers_send lib _ _).bind fun _ _ => (answers_send lib _ _).bind fun _ _ =>
      (answers_send lib _ _).bind fun _ _ => answers_send lib _ _
  | false => exact fun _ h_post => h_post () trivial

theorem answers_multicastReceived (ok : Bool) :
    (multicastReceived ok).Answers mainSpec K fun _ => True := by
  cases ok with
  | true => exact answers_allCounted
  | false => exact fun _ h_post => h_post false trivial

theorem wp_storeRunning {running : Bool} {post : Unit → Watch → Prop}
    (h_post : post () { K with running }) : (storeRunning running).wp mainSpec K post := h_post

theorem wp_join {post : Unit → Watch → Prop} (h_running : K.running = false)
    (h_post : post () { K with up := false }) : join.wp mainSpec K post := ⟨h_running, h_post⟩

/-- `MulticastHub::stop` waits for the thread after it has told it to stop. -/
theorem wp_hubStop {post : Unit → Watch → Prop}
    (h_post : post () { K with up := false, running := false }) :
    MulticastHub.stop.wp mainSpec K post := by
  rw [MulticastHub.stop, Program.wp_bind]
  refine wp_storeRunning ?_
  rw [Program.wp_bind]
  refine wp_join rfl ?_
  rw [Program.wp_bind]
  refine answers_net _ _ fun _ _ => ?_
  rw [Program.wp_bind]
  refine answers_net _ _ fun _ _ => ?_
  rw [Program.wp_bind]
  exact answers_net _ _ fun _ _ => h_post

/-- `main`, between two calls. -/
def between (phase : Phase) (up running : Bool) : Watch := ⟨.rest, false, phase, up, running⟩

variable {up running : Bool}

theorem wp_hubStart (lib : Library) {post : Bool → Watch → Prop}
    (h_post : ∀ r, post r (between .reading r r)) :
    (MulticastHub.start lib true).wp mainSpec (between .reading up running) post := by
  rw [MulticastHub.start, Program.wp_bind]
  -- a hub that is started is stopped first
  refine wp_hubStop ?_
  rw [if_pos rfl, Program.wp_bind]
  refine Program.Answers.allOf (R := fun _ => True) trivial (fun p h_p => ?_) _ fun r _ => ?_
  · -- what the three channels answer does not matter here
    simp only [List.mem_cons, List.not_mem_nil, or_false] at h_p
    obtain rfl | rfl | rfl := h_p <;> exact answers_net _
  · cases r with
    | true => exact ⟨rfl, rfl, h_post true⟩
    | false =>
      -- one of them has failed, and there is no thread
      rw [if_neg Bool.false_ne_true, Program.wp_bind]
      exact wp_hubStop (h_post false)

theorem wp_publishAndWait {kind : Feed.Kind} {flags : Feed.InletFlags} {data : List Byte}
    {len : BitVec 32} {post : Unit → Watch → Prop}
    (h_post : post () (between .reading up running)) :
    (publishAndWait kind flags data len).wp mainSpec (between .reading up running) post :=
  ⟨rfl, rfl, rfl, rfl, h_post⟩

theorem wp_publishFeedFrames (frames : Frames) {post : Unit → Watch → Prop}
    (h_post : post () (between .reading up running)) :
    (publishFeedFrames frames).wp mainSpec (between .reading up running) post := by
  rw [publishFeedFrames, Program.wp_bind]
  refine wp_publishAndWait ?_
  rw [Program.wp_bind]
  refine wp_publishAndWait ?_
  rw [Program.wp_bind]
  exact wp_publishAndWait (wp_publishAndWait h_post)

theorem wp_stopReader {phase : Phase} (h_phase : phase = .reading ∨ phase = .stopped)
    {post : Unit → Watch → Prop} (h_post : post () (between .stopped up running)) :
    stopReader.wp mainSpec (between phase up running) post :=
  Or.inr ⟨h_phase, rfl, Or.inr ⟨rfl, h_post⟩⟩

/-- The compressed frame, and the end of the reader. -/
theorem wp_publishCompressed (frames : Frames) (ok : Bool) (compressed : Option (List Byte))
    {post : Unit → Watch → Prop}
    (h_post : ∀ up running, post () (between .stopped up running)) :
    (publishCompressed frames ok compressed).wp mainSpec (between .reading up running) post := by
  -- without a compressed frame the reader is stopped at once
  cases compressed with
  | none =>
    rw [publishCompressed, Program.wp_bind]
    exact wp_stopReader (Or.inl rfl) (wp_hubStop (h_post false false))
  | some compressed =>
    -- with one it is published first
    rw [publishCompressed, Program.wp_bind]
    refine wp_publishAndWait ?_
    rw [Program.wp_bind]
    cases ok with
    | true =>
      exact answers_simulatorStop _ fun _ _ => wp_stopReader (Or.inl rfl) (h_post up running)
    | false => exact wp_stopReader (Or.inl rfl) (h_post up running)

theorem wp_destroy {post : Unit → Watch → Prop}
    (h_post : post () (between .stopped false false)) :
    destroy.wp mainSpec (between .stopped up running) post := by
  -- the sockets and the region are none of the watch's business
  rw [destroy, Program.wp_bind]
  refine answers_simulatorStop _ fun _ _ => ?_
  rw [Program.wp_bind]
  refine wp_hubStop ?_
  rw [Program.wp_bind]
  refine answers_net _ _ fun _ _ => ?_
  rw [Program.wp_bind]
  refine answers_net _ _ fun _ _ => ?_
  rw [Program.wp_bind]
  refine answers_net _ _ fun _ _ => ?_
  rw [Program.wp_bind]
  exact wp_stopReader (Or.inr rfl) h_post

/-- `main`, whether or not both have been started. -/
theorem wp_main (lib : Library) (frames : Frames) :
    (main lib frames).wp mainSpec (between .before false false)
      fun _ K => K.up = false ∧ K.phase = .stopped := by
  rw [main, Program.wp_bind]
  refine Or.inl ⟨rfl, Or.inl ⟨rfl, Or.inl ⟨rfl, Or.inr ⟨rfl, ?_⟩⟩⟩⟩
  suffices h : ∀ ok up running, Program.wp mainSpec (do
      bringIn lib frames ok
      let received ← multicastReceived ok
      whenOk ok MulticastHub.stop
      whenOk (!received) (publishFeedFrames frames)
      publishCompressed frames ok (lib.compress frames.mtbtPlain Feed.kCapacity)
      destroy) (between .reading up running) fun _ K => K.up = false ∧ K.phase = .stopped by
    show Program.wp mainSpec (_ >>= _) _ _
    rw [Program.wp_bind, Program.allOf, Program.wp_bind]
    -- the hub's thread may be there although `multicast_ok` is false
    refine wp_hubStart lib fun r => ?_
    cases r with
    | true =>
      rw [if_pos rfl, Program.allOf, Program.wp_bind]
      refine answers_simulatorStart _ fun r _ => ?_
      cases r with
      | true => exact h true true true
      | false => exact h false true true
    | false => exact h false false false
  intro ok up running
  rw [Program.wp_bind]
  refine answers_bringIn lib frames ok _ fun _ _ => ?_
  rw [Program.wp_bind]
  refine answers_multicastReceived ok _ fun received _ => ?_
  suffices h : ∀ up running, Program.wp mainSpec (do
      whenOk (!received) (publishFeedFrames frames)
      publishCompressed frames ok (lib.compress frames.mtbtPlain Feed.kCapacity)
      destroy) (between .reading up running) fun _ K => K.up = false ∧ K.phase = .stopped by
    rw [Program.wp_bind]
    cases ok with
    | true => exact wp_hubStop (h false false)
    | false => exact h up running
  intro up running
  have h_rest : Program.wp mainSpec (do
      publishCompressed frames ok (lib.compress frames.mtbtPlain Feed.kCapacity)
      destroy) (between .reading up running) fun _ K => K.up = false ∧ K.phase = .stopped := by
    rw [Program.wp_bind]
    exact wp_publishCompressed frames ok _ fun _ _ => wp_destroy ⟨rfl, rfl⟩
  rw [Program.wp_bind]
  cases received with
  | true => exact h_rest
  | false => exact wp_publishFeedFrames frames h_rest

/-! ### The hub's thread -/

theorem answers_receive (h_inside : K.inside = true) (h_call : K.call = .rest)
    (ready : MulticastChannel → Bool) (c : MulticastChannel) :
    (MulticastHub.receive ready c).Answers hubSpec K fun _ => True := by
  obtain ⟨call, inside, phase, up, running⟩ := K
  obtain rfl : call = .rest := h_call
  intro post h_post
  rw [MulticastHub.receive]
  split
  · rw [Program.wp_bind]
    -- nothing received, an empty datagram, or one to publish
    refine answers_hubNet _ _ fun r _ => ?_
    match r with
    | none => exact h_post () trivial
    | some [] => exact h_post () trivial
    | some (b :: data) => exact ⟨h_inside, rfl, rfl, rfl, h_post () trivial⟩
  · exact h_post () trivial

theorem wp_openPolls (h_inside : K.inside = true) (h_call : K.call = .rest) :
    MulticastHub.openPolls.wp hubSpec K fun _ K => K.call = .rest :=
  fun _ _ _ => ⟨h_inside, h_call⟩

theorem wp_round {descriptors : MulticastChannel → Int} (h_inside : K.inside = true)
    (h_call : K.call = .rest) :
    (MulticastHub.round descriptors).wp hubSpec K fun _ K => K.call = .rest := by
  rw [MulticastHub.round, Program.wp_bind]
  intro running
  cases running with
  | true =>
    show Program.wp _ (poll descriptors >>= _) _ _
    rw [Program.wp_bind]
    intro ready
    -- `poll` has timed out or failed
    cases ready with
    | none => exact h_call
    | some ready =>
      -- each channel that is ready is received from
      show Program.wp _ (MulticastHub.receive ready .itch >>= _) _ _
      rw [Program.wp_bind]
      refine answers_receive h_inside h_call ready .itch _ fun _ _ => ?_
      rw [Program.wp_bind]
      refine answers_receive h_inside h_call ready .mtbt _ fun _ _ => ?_
      exact answers_receive h_inside h_call ready .mcx _ fun _ _ => h_call
  -- `running_` is false
  | false => exact ⟨h_inside, h_call, h_call⟩

end

/-! ### All of it -/

theorem sound (lz4 : Feed.Lz4) : outline.Sound (system lz4) Unwrapped fun _ _ => True where
  exec tr sh K i env c post sh' r es h_inv h_spec h_wrap h_exec := by
    cases i with
    | main =>
      -- a step of one thread moves its own part of the outline
      obtain ⟨k, h_inv', h_after⟩ := exec_main h_inv h_spec h_wrap h_exec
      refine ⟨k, ?_, h_after⟩
      show Inv _ (Function.update K .main k .main) (Function.update K .main k .hub)
      rw [Function.update_self, Function.update_of_ne Party.noConfusion]
      exact h_inv'
    | hub =>
      obtain ⟨k, h_inv', h_after⟩ := exec_hub h_inv h_spec h_wrap h_exec
      refine ⟨k, ?_, h_after⟩
      show Inv _ (Function.update K .hub k .main) (Function.update K .hub k .hub)
      rw [Function.update_self, Function.update_of_ne Party.noConfusion]
      exact h_inv'
  enter tr sh K i p h_inv h_rest h_enter := by
    cases i with
    | main => cases h_enter
    | hub =>
      -- the hub's thread enters only while it is there
      suffices h : (sh.thread ≠ .absent ∧ sh.thread ≠ .exited) ∧
          p.wp hubSpec { K .hub with inside := true } fun _ K => K.call = .rest by
        refine ⟨{ K .hub with inside := true }, ?_, h.2⟩
        show Inv _ (Function.update K .hub _ .main) (Function.update K .hub _ .hub)
        rw [Function.update_self, Function.update_of_ne Party.noConfusion]
        exact ⟨h_inv.running, h_inv.present, fun _ => h.1, fun h_out => absurd h_out
          Bool.noConfusion, h_inv.main, h_inv.hub, h_inv.publishing, h_inv.early, h_inv.reader,
          h_inv.counted⟩
      simp only [system, Process.enter] at h_enter
      split at h_enter
      · -- for the first time, to fill its array
        next h_thread =>
        cases h_enter
        rw [h_thread]
        exact ⟨⟨HubThread.noConfusion, HubThread.noConfusion⟩, wp_openPolls rfl h_rest⟩
      · -- or once more
        next descriptors h_thread =>
        cases h_enter
        rw [h_thread]
        exact ⟨⟨HubThread.noConfusion, HubThread.noConfusion⟩, wp_round rfl h_rest⟩
      · cases h_enter
      · cases h_enter
  other tr sh K env sh' es h_inv _ h_other := by
    -- the reader's step, or the network's
    rcases Process.other_cases h_other with ⟨feed, es', mem, h_step, rfl, rfl⟩ |
      ⟨rfl, c, datagrams, rfl, -⟩
    · obtain ⟨inlet, reader, os, h_read, rfl, rfl⟩ := Feed.machine_cases h_step
      exact ⟨h_inv.running, h_inv.present, h_inv.inside, h_inv.outside, h_inv.main, h_inv.hub,
        h_inv.publishing, h_inv.early, h_inv.reader.read h_read, h_inv.counted.read h_read⟩
    · exact h_inv.congr rfl

theorem outline_start (lib : Library) (frames : Frames) :
    outline.Holds [] (State.start lib frames) := by
  refine ⟨fun _ => between .before false false, ⟨rfl, ?_, fun h => absurd h Bool.noConfusion,
    fun _ => rfl, rfl, rfl, fun h => absurd rfl h, fun h => absurd h Bool.noConfusion, rfl,
    Feed.Counted.start rfl⟩, fun i => ?_⟩
  · exact iff_of_false (fun h => h rfl) Bool.noConfusion
  · cases i with
    | main => exact wp_main lib frames
    | hub => exact rfl

end Watch

end Host

end Hft
