import MpmcPipeline.Feed.Quiet
import MpmcPipeline.Host.Process

/-!
# `main` and the hub take turns

Both `main` and the hub's thread publish on the inlet. `main` stops the hub, which waits for its
thread, before it publishes itself, and it stops the reader after its last wait. So at most one of
them is in a call of `publish`, it finds everything published before observed, and the reader
leaves nothing behind.

There is one way to break this. When `MulticastSimulator::start` fails after `MulticastHub::start`
has succeeded, `multicast_ok` is false and `main` goes on as if there were no hub, whose thread
runs. `Orderly` (in `Host/Datagrams.lean`) excludes it, and that `sequence` wraps.

`Turn` is what the threads know, `mainSpec` and `hubSpec` what each command needs and leads to, and
`Turns` what is so of the threads, the inlet and what has been published on it. The datagrams are
in `Host/Datagrams.lean`, what `main` does with all this in `Host/Delivery.lean`.
-/

namespace Hft

namespace Host

open Feed (kCapacity)
open Net (Sys)

/-! ### What has happened -/

/-- The events of the inlet. -/
def feedEvents (tr : List Event) : List (Feed.Event Party) :=
  tr.filterMap fun
    | .feed e => some e
    | _ => none

/-- The datagrams that the hub has received; it ignores empty ones. -/
def received (tr : List Event) : List (MulticastChannel × List Byte) :=
  tr.filterMap fun
    | .received c (b :: data) => some (c, b :: data)
    | _ => none

/-- The number of datagrams received on a channel. -/
def receivedOn (tr : List Event) (c : MulticastChannel) : ℕ := ((received tr).map Prod.fst).count c

/-- What a datagram is published with. -/
def publishArgs (d : MulticastChannel × List Byte) : Feed.Args := ⟨d.1.kind, 0, some d.2, 0⟩

/-- The frames that `main` sends, or publishes. -/
def Frames.datagrams (frames : Frames) : List (MulticastChannel × List Byte) :=
  [(.itch, frames.itch), (.mtbt, frames.mtbt), (.mcx, frames.mcxRef), (.mcx, frames.mcxBuy)]

@[simp] theorem feedEvents_append (tr tr' : List Event) :
    feedEvents (tr ++ tr') = feedEvents tr ++ feedEvents tr' := List.filterMap_append

@[simp] theorem received_append (tr tr' : List Event) :
    received (tr ++ tr') = received tr ++ received tr' := List.filterMap_append

@[simp] theorem feedEvents_map (es : List (Feed.Event Party)) : feedEvents (es.map .feed) = es := by
  induction es with
  | nil => rfl
  | cons e es ih => exact congrArg (e :: ·) ih

@[simp] theorem received_map (es : List (Feed.Event Party)) : received (es.map .feed) = [] := by
  induction es with
  | nil => rfl
  | cons e es ih => exact ih

theorem receivedOn_append (tr tr' : List Event) (c : MulticastChannel) :
    receivedOn (tr ++ tr') c = receivedOn tr c + receivedOn tr' c := by
  unfold receivedOn
  rw [received_append, List.map_append, List.count_append]

/-! ### What the threads know -/

/-- How far a thread is with what it publishes. -/
inductive Stage
  | rest
  /-- The hub has received a datagram. -/
  | holding (d : MulticastChannel × List Byte)
  /-- The hub has called `publish` and not yet counted. -/
  | publishing (c : MulticastChannel)
  /-- Not yet back from the wait. -/
  | waiting

/-- Inside a call of `publish` or the wait. -/
def Stage.out : Stage → Bool
  | publishing _ | waiting => true
  | rest | holding _ => false

/-- What has been received and is not yet published. -/
def Stage.held : Stage → List (MulticastChannel × List Byte)
  | holding d => [d]
  | rest | publishing _ | waiting => []

/-- The channel of a datagram received and not yet counted. -/
def Stage.uncounted : Stage → List MulticastChannel
  | holding d => [d.1]
  | publishing c => [c]
  | rest | waiting => []

/-- Where `main` is with the reader. -/
inductive Phase
  | before
  | loading
  | reading
  | stopping
  | stopped
  | unmapped

/-- What a thread knows. -/
structure Turn where
  stage : Stage
  /-- The hub's thread: it is inside. -/
  inside : Bool
  /-- `main`: where it is with the reader. -/
  phase : Phase
  /-- `main`: the hub's thread may be there. -/
  up : Bool
  /-- `main`: what it has called `publish` with. -/
  calls : List Feed.Args
  /-- `main`: what the simulator has sent. -/
  sent : List (MulticastChannel × List Byte)
  /-- `main`: the counters as they were loaded last. -/
  seen : MulticastChannel → ℕ

/-- The state of the inlet and the reader in each phase. -/
def Phase.Holds (lz4 : Feed.Lz4) (pubs : List (Party × Feed.Frame)) (outs : List Feed.Outcome)
    (s : Feed.System Party) : Phase → Prop
  | before => pubs = [] ∧ outs = [] ∧ s = Process.start.feed
  | loading => pubs = [] ∧ outs = [] ∧ s = { Process.start.feed with reader := ⟨.starting, 0⟩ }
  | reading => Feed.InletInv lz4 pubs outs s
  | stopping => Feed.Quiet lz4 pubs outs s
  | stopped | unmapped => Feed.Quiet lz4 pubs outs s ∧ s.reader.pc = .exited

namespace Turn

/-- What `main` needs for a command of a socket and knows after it. -/
def netSpec : Program.Spec (Sys Socket) Sys.Answer Turn
  | K, .socket, post => ∀ fd : Int, (K.up = true → 0 ≤ fd) → post fd K
  | K, .setsockopt _ _, post => ∀ ok : Bool, (K.up = true → ok = true) → post ok K
  | K, .sendto (.simulator c) _ buffer _ _, post =>
    buffer ≠ [] ∧ buffer.length ≤ kCapacity ∧
      (∀ n, post (some (n + 1)) { K with sent := K.sent ++ [(c, buffer)] }) ∧
      post (some 0) K ∧ post none K
  | _, .sendto (.hub _) _ _ _ _, _ | _, .recvfrom _ _ _, _ => False
  | K, .fd _, post => ∀ fd, post fd K
  | K, .endpoint _, post => ∀ endpoint, post endpoint K
  | K, .bind _ _ _, post => ∀ ok, post ok K
  | K, .setFd _ _, post | K, .setEndpoint _ _, post | K, .close _, post => post () K

/-- What `main` needs for a command and knows after it. -/
def mainSpec : Program.Spec Cmd Cmd.Answer Turn
  | K, .net c, post => netSpec K c post
  | K, .spawn, post =>
    K.up = false ∧ K.stage = .rest ∧ K.phase = .reading ∧ K.calls = [] ∧
      post () { K with up := true }
  | K, .join, post => post () { K with up := false }
  | K, .publish args, post =>
    K.up = false ∧ K.stage = .rest ∧ K.phase = .reading ∧ args.Fits ∧
      post () { K with stage := .waiting, calls := K.calls ++ [args] }
  | K, .returned, post => K.up = false ∧ K.phase = .reading ∧ K.stage = .waiting ∧ post () K
  | K, .await, post =>
    K.up = false ∧ K.phase = .reading ∧ K.stage = .waiting ∧ post () { K with stage := .rest }
  | K, .startReader, post =>
    K.phase = .before ∧ post () { K with phase := .loading } ∨
      K.phase = .loading ∧ post () { K with phase := .reading }
  | K, .stopReader, post =>
    K.phase = .before ∧ post () K ∨
      (K.phase = .reading ∨ K.phase = .stopped) ∧ K.up = false ∧ K.stage = .rest ∧
        post () { K with phase := .stopping }
  | K, .joinReader, post =>
    K.phase = .before ∧ post () K ∨ K.phase = .stopping ∧ post () { K with phase := .stopped }
  | K, .unmap, post => K.phase = .stopped ∧ post () { K with phase := .unmapped }
  | K, .datagrams c, post =>
    ∀ n : BitVec 64, post n { K with seen := Function.update K.seen c n.toNat }
  | K, .storeRunning _, post | K, .setInlet _, post => post () K
  | _, .poll _, _ | _, .loop _, _ | _, .exit, _ | _, .loadRunning, _ | _, .count _, _ => False

/-- What the hub's thread needs for a command and knows after it. -/
def hubSpec : Program.Spec Cmd Cmd.Answer Turn
  | K, .net (.fd _), post => ∀ fd, post fd K
  | K, .net (.recvfrom (.hub c) _ capacity), post =>
    K.inside = true ∧ K.stage = .rest ∧ capacity = kCapacity ∧ post none K ∧ post (some []) K ∧
      ∀ b data, (b :: data).length ≤ kCapacity →
        post (some (b :: data)) { K with stage := .holding (c, b :: data) }
  | K, .poll _, post => ∀ ready, post ready K
  | K, .loop _, post => K.inside = true ∧ post () K
  | K, .exit, post => K.inside = true ∧ K.stage = .rest ∧ post () { K with inside := false }
  | K, .loadRunning, post => ∀ running, post running K
  | K, .publish args, post =>
    K.inside = true ∧ ∃ d, K.stage = .holding d ∧ args = publishArgs d ∧
      d.2.length ≤ kCapacity ∧ post () { K with stage := .publishing d.1 }
  | K, .returned, post => K.inside = true ∧ (∃ c, K.stage = .publishing c) ∧ post () K
  | K, .count c, post => K.stage = .publishing c ∧ post () { K with stage := .waiting }
  | K, .await, post => K.inside = true ∧ K.stage = .waiting ∧ post () { K with stage := .rest }
  | _, .net _, _ | _, .spawn, _ | _, .join, _ | _, .storeRunning _, _ | _, .setInlet _, _
  | _, .datagrams _, _ | _, .stopReader, _ | _, .joinReader, _ | _, .startReader, _
  | _, .unmap, _ => False

end Turn

/-- The frame that is being published. -/
def underway (s : Feed.System Party) : List (Party × Feed.Frame) :=
  (s.writer .main).frame.toList.map (Prod.mk .main) ++
    (s.writer .hub).frame.toList.map (Prod.mk .hub)

/-- The call of `publish` that a frame comes from. -/
def callOf (p : Party × Feed.Frame) : Party × Feed.Args := (p.1, p.2.args)

theorem map_callOf (i : Party) (frames : List Feed.Frame) :
    (frames.map (Prod.mk i)).map callOf = (frames.map Feed.Frame.args).map (Prod.mk i) := by
  rw [List.map_map, List.map_map]
  rfl

/-- The call of `publish` for a datagram. -/
def hubCall (d : MulticastChannel × List Byte) : Party × Feed.Args := (.hub, publishArgs d)

/-- The threads and the inlet: `m` is what `main` knows, `k` what the hub's thread knows. -/
structure Turns (lz4 : Feed.Lz4) (tr : List Event) (s : Process) (m k : Turn) : Prop where
  present : s.thread ≠ .absent ↔ m.up = true
  inside : k.inside = true → s.thread ≠ .absent ∧ s.thread ≠ .exited
  outside : k.inside = false → k.stage = .rest
  apart : m.up = true → m.stage = .rest ∧ m.phase = .reading ∧ m.calls = []
  idle_main : m.stage.out = false → s.feed.writer .main = .idle
  idle_hub : k.stage.out = false → s.feed.writer .hub = .idle
  phase : m.phase.Holds lz4 (Feed.published (feedEvents tr)) (Feed.outcomes (feedEvents tr)) s.feed
  mapped : s.mapped = false → m.phase = .unmapped
  log : (Feed.published (feedEvents tr) ++ underway s.feed).map callOf ++
    k.stage.held.map hubCall = (received tr).map hubCall ++ m.calls.map (Prod.mk .main)

/-- The frame under way is that of the writer that is not idle. -/
theorem underway_main {s : Feed.System Party} (h : s.writer .hub = .idle) :
    underway s = (s.writer .main).frame.toList.map (Prod.mk .main) := by
  unfold underway
  rw [h]
  exact List.append_nil _

theorem underway_hub {s : Feed.System Party} (h : s.writer .main = .idle) :
    underway s = (s.writer .hub).frame.toList.map (Prod.mk .hub) := by
  unfold underway
  rw [h]
  exact List.nil_append _

/-! ### The inlet -/

namespace Turns

variable {lz4 : Feed.Lz4} {tr tr' : List Event} {s s' : Process} {m k m' k' : Turn}

/-- A step that concerns neither the threads nor the inlet. -/
theorem congr (h : Turns lz4 tr s m k) (h_thread : s'.thread = s.thread)
    (h_feed : s'.feed = s.feed) (h_mapped : s'.mapped = s.mapped)
    (h_events : feedEvents tr' = feedEvents tr) (h_received : received tr' = received tr)
    (h_up : m'.up = m.up) (h_phase : m'.phase = m.phase) (h_calls : m'.calls = m.calls)
    (h_stage : m'.stage = m.stage) (h_inside : k'.inside = k.inside)
    (h_out : k'.stage.out = k.stage.out) (h_held : k'.stage.held = k.stage.held)
    (h_rest : k.stage = .rest → k'.stage = .rest) : Turns lz4 tr' s' m' k' := by
  obtain ⟨present, inside, outside, apart, idle_main, idle_hub, phase, mapped, log⟩ := h
  -- field by field: each reads only what is equal
  constructor
  · rw [h_thread, h_up]
    exact present
  · rw [h_thread, h_inside]
    exact inside
  · rw [h_inside]
    exact fun h_k => h_rest (outside h_k)
  · rw [h_up, h_stage, h_phase, h_calls]
    exact apart
  · rw [h_stage, h_feed]
    exact idle_main
  · rw [h_out, h_feed]
    exact idle_hub
  · rw [h_phase, h_events, h_feed]
    exact phase
  · rw [h_mapped, h_phase]
    exact mapped
  · rw [h_events, h_feed, h_held, h_received, h_calls]
    exact log

/-- While the hub's thread is inside, `main` neither publishes nor has published. -/
theorem hub_turn (h : Turns lz4 tr s m k) (h_inside : k.inside = true) :
    m.up = true ∧ m.phase = .reading ∧ m.calls = [] ∧ s.feed.writer .main = .idle := by
  -- a thread that is inside is there, and `main` knows that it is
  have h_up := h.present.mp (h.inside h_inside).1
  obtain ⟨h_stage, h_phase, h_calls⟩ := h.apart h_up
  exact ⟨h_up, h_phase, h_calls, h.idle_main (by rw [h_stage]; rfl)⟩

/-- While the hub's thread is not there, it has nothing left to do. -/
theorem main_turn (h : Turns lz4 tr s m k) (h_up : m.up = false) :
    s.thread = .absent ∧ k.inside = false ∧ k.stage = .rest ∧ s.feed.writer .hub = .idle := by
  have h_absent : s.thread = .absent := by
    by_contra h_ne
    exact Bool.false_ne_true (h_up.symm.trans (h.present.mp h_ne))
  have h_inside : k.inside = false := by
    cases h_k : k.inside with
    | false => rfl
    | true => exact absurd h_absent (h.inside h_k).1
  have h_stage := h.outside h_inside
  exact ⟨h_absent, h_inside, h_stage, h.idle_hub (by rw [h_stage]; rfl)⟩

/-- A step on the inlet while the reader runs: what it publishes was under way. -/
theorem inlet (h : Turns lz4 tr s m k) (h_phase : m.phase = .reading) {feed : Feed.System Party}
    {es : List (Feed.Event Party)}
    (h_inlet : Feed.InletInv lz4 (Feed.published (feedEvents tr ++ es))
      (Feed.outcomes (feedEvents tr ++ es)) feed)
    (h_underway : Feed.published es ++ underway feed = underway s.feed)
    (h_main : m.stage.out = false → feed.writer .main = .idle)
    (h_hub : k.stage.out = false → feed.writer .hub = .idle) :
    Turns lz4 (tr ++ es.map .feed) { s with feed } m k := by
  refine ⟨h.present, h.inside, h.outside, h.apart, h_main, h_hub, ?_, h.mapped, ?_⟩
  · rw [feedEvents_append, feedEvents_map, h_phase]
    exact h_inlet
  · -- a frame moves from those under way to those published
    have h_log := h.log
    rw [← h_underway, ← List.append_assoc, ← Feed.published_append] at h_log
    rw [feedEvents_append, feedEvents_map, received_append, received_map, List.append_nil]
    exact h_log

/-- `main` goes on with a publish. -/
theorem main_write (h : Turns lz4 tr s m k) (h_up : m.up = false) (h_phase : m.phase = .reading)
    (h_out : m.stage.out = true) {feed : Feed.System Party} {es : List (Feed.Event Party)}
    (h_wrap : (s.feed.writer .main).increments = true →
      s.feed.inlet.sequence ≠ BitVec.allOnes 64)
    (h_step : (Feed.machine lz4 Party).step s.feed (.write .main) = some (feed, es)) :
    Turns lz4 (tr ++ es.map .feed) { s with feed } m k := by
  -- it is the turn of `main` as the hub is idle, and stays so
  have h_hub := (h.main_turn h_up).2.2.2
  have h_reading := h.phase
  rw [h_phase] at h_reading
  obtain ⟨h_inlet, h_others, h_frame⟩ := h_reading.write_turn (fun j h_ne => by
    cases j with
    | main => exact absurd rfl h_ne
    | hub => exact h_hub) h_wrap h_step
  have h_hub' := h_others .hub Party.noConfusion
  -- what `main` publishes leaves its call and joins what is published
  refine h.inlet h_phase h_inlet ?_ (fun h_in => ?_) fun _ => h_hub'
  · rw [underway_main h_hub', underway_main h_hub]
    exact h_frame
  · exact absurd (h_out.symm.trans h_in) Bool.noConfusion

/-- The hub goes on with a publish. -/
theorem hub_write (h : Turns lz4 tr s m k) (h_inside : k.inside = true)
    (h_out : k.stage.out = true) {feed : Feed.System Party} {es : List (Feed.Event Party)}
    (h_wrap : (s.feed.writer .hub).increments = true → s.feed.inlet.sequence ≠ BitVec.allOnes 64)
    (h_step : (Feed.machine lz4 Party).step s.feed (.write .hub) = some (feed, es)) :
    Turns lz4 (tr ++ es.map .feed) { s with feed } m k := by
  -- the same with the parts exchanged
  obtain ⟨-, h_phase, -, h_main⟩ := h.hub_turn h_inside
  have h_reading := h.phase
  rw [h_phase] at h_reading
  obtain ⟨h_inlet, h_others, h_frame⟩ := h_reading.write_turn (fun j h_ne => by
    cases j with
    | main => exact h_main
    | hub => exact absurd rfl h_ne) h_wrap h_step
  -- `main` has stayed idle
  have h_main' := h_others .main Party.noConfusion
  refine h.inlet h_phase h_inlet ?_ (fun _ => h_main') fun h_in => ?_
  · rw [underway_hub h_main', underway_hub h_main]
    exact h_frame
  · exact absurd (h_out.symm.trans h_in) Bool.noConfusion

/-- `main` calls `publish`. -/
theorem main_publish (h : Turns lz4 tr s m k) (h_up : m.up = false) (h_phase : m.phase = .reading)
    {args : Feed.Args} (h_fits : args.Fits) {feed : Feed.System Party}
    {es : List (Feed.Event Party)}
    (h_step : (Feed.machine lz4 Party).step s.feed (.publish .main args) = some (feed, es)) :
    Turns lz4 (tr ++ es.map .feed) { s with feed }
      { m with stage := .waiting, calls := m.calls ++ [args] } k := by
  obtain ⟨-, -, h_stage, h_hub⟩ := h.main_turn h_up
  have h_reading := h.phase
  rw [h_phase] at h_reading
  obtain ⟨h_inlet, h_others, rfl, h_idle, h_frame⟩ := h_reading.publish_turn h_fits
    (fun j h_ne => by
      cases j with
      | main => exact absurd rfl h_ne
      | hub => exact h_hub) h_step
  have h_hub' := h_others .hub Party.noConfusion
  have h_log := h.log
  rw [underway_main h_hub, h_idle, h_stage] at h_log
  refine ⟨h.present, h.inside, h.outside, fun h_now => ?_, fun h_in => ?_, fun _ => h_hub', ?_,
    h.mapped, ?_⟩
  · exact absurd (h_up.symm.trans h_now) Bool.noConfusion
  · exact absurd h_in Bool.noConfusion
  · rw [feedEvents_append, feedEvents_map]
    show m.phase.Holds _ _ _ _
    rw [h_phase]
    exact h_inlet
  · -- everything called for before has been published
    have h_before : (Feed.published (feedEvents tr)).map callOf =
        (received tr).map hubCall ++ m.calls.map (Prod.mk .main) := by
      simpa [Feed.WriterPc.frame, Stage.held] using h_log
    rw [feedEvents_append, feedEvents_map, List.append_nil, received_append, received_map,
      List.append_nil, underway_main h_hub', List.map_append, h_before, map_callOf, h_frame,
      h_stage]
    simp [Stage.held]

/-- The hub calls `publish` with the datagram it has received. -/
theorem hub_publish (h : Turns lz4 tr s m k) (h_inside : k.inside = true)
    {d : MulticastChannel × List Byte} (h_stage : k.stage = .holding d)
    (h_length : d.2.length ≤ kCapacity) {feed : Feed.System Party}
    {es : List (Feed.Event Party)}
    (h_step : (Feed.machine lz4 Party).step s.feed (.publish .hub (publishArgs d)) =
      some (feed, es)) :
    Turns lz4 (tr ++ es.map .feed) { s with feed } m { k with stage := .publishing d.1 } := by
  obtain ⟨-, h_phase, h_calls, h_main⟩ := h.hub_turn h_inside
  have h_reading := h.phase
  rw [h_phase] at h_reading
  obtain ⟨h_inlet, h_others, rfl, h_idle, h_frame⟩ := h_reading.publish_turn
    ⟨d.2, rfl, h_length⟩ (fun j h_ne => by
      cases j with
      | main => exact h_main
      | hub => exact absurd rfl h_ne) h_step
  have h_main' := h_others .main Party.noConfusion
  have h_log := h.log
  rw [underway_hub h_main, h_idle, h_stage, h_calls] at h_log
  refine ⟨h.present, h.inside, fun h_out => ?_, h.apart, fun _ => h_main', fun h_in => ?_, ?_,
    h.mapped, ?_⟩
  · exact absurd (h_inside.symm.trans h_out) Bool.noConfusion
  · exact absurd h_in Bool.noConfusion
  · rw [feedEvents_append, feedEvents_map, h_phase]
    exact h_inlet
  · -- the datagram is the one that was held
    have h_before : (Feed.published (feedEvents tr)).map callOf ++ [hubCall d] =
        (received tr).map hubCall := by
      simpa [Feed.WriterPc.frame, Stage.held] using h_log
    rw [feedEvents_append, feedEvents_map, List.append_nil, received_append, received_map,
      List.append_nil, underway_hub h_main', List.map_append, map_callOf, h_frame, h_calls,
      ← h_before]
    simp [Stage.held, hubCall]

/-- The hub receives a datagram. -/
theorem receive (h : Turns lz4 tr s m k) (h_inside : k.inside = true) (h_stage : k.stage = .rest)
    {network : MulticastChannel → List (List Byte)} {c : MulticastChannel} {b : Byte}
    {data : List Byte} :
    Turns lz4 (tr ++ [.received c (b :: data)]) { s with network } m
      { k with stage := .holding (c, b :: data) } := by
  have h_events : feedEvents (tr ++ [.received c (b :: data)]) = feedEvents tr := by
    rw [feedEvents_append]
    exact List.append_nil _
  have h_log := h.log
  rw [h_stage, (h.hub_turn h_inside).2.2.1] at h_log
  refine ⟨h.present, h.inside, fun h_out => ?_, h.apart, h.idle_main, fun _ => ?_, ?_, h.mapped, ?_⟩
  · exact absurd (h_inside.symm.trans h_out) Bool.noConfusion
  · exact h.idle_hub (by rw [h_stage]; rfl)
  · rw [h_events]
    exact h.phase
  · have h_received : received (tr ++ [.received c (b :: data)]) =
        received tr ++ [(c, b :: data)] := by
      rw [received_append]
      rfl
    -- everything received before has been published
    have h_before : (Feed.published (feedEvents tr) ++ underway s.feed).map callOf =
        (received tr).map hubCall := by
      simpa [Stage.held] using h_log
    rw [h_events, h_received, (h.hub_turn h_inside).2.2.1]
    show (Feed.published (feedEvents tr) ++ underway s.feed).map callOf ++
      [hubCall (c, b :: data)] = _ ++ []
    rw [h_before, List.map_append, List.append_nil]
    rfl

/-- A wait returns. -/
theorem main_left (h : Turns lz4 tr s m k) (h_idle : s.feed.writer .main = .idle) :
    Turns lz4 tr s { m with stage := .rest } k :=
  ⟨h.present, h.inside, h.outside, fun h_up => ⟨rfl, (h.apart h_up).2⟩, fun _ => h_idle,
    h.idle_hub, h.phase, h.mapped, h.log⟩

theorem hub_left (h : Turns lz4 tr s m k) (h_stage : k.stage = .waiting)
    (h_idle : s.feed.writer .hub = .idle) : Turns lz4 tr s m { k with stage := .rest } := by
  have h_log := h.log
  rw [h_stage] at h_log
  exact ⟨h.present, h.inside, fun _ => rfl, h.apart, h.idle_main, fun _ => h_idle, h.phase,
    h.mapped, h_log⟩

/-- `main` starts or stops the reader, and nobody is in a call. -/
theorem move (h : Turns lz4 tr s m k) (h_up : m.up = false) {feed : Feed.System Party}
    {phase : Phase} (h_writer : feed.writer = s.feed.writer)
    (h_phase : phase.Holds lz4 (Feed.published (feedEvents tr)) (Feed.outcomes (feedEvents tr))
      feed) (h_mapped : m.phase ≠ .unmapped) :
    Turns lz4 tr { s with feed } { m with phase } k := by
  refine ⟨h.present, h.inside, h.outside, fun h_now => ?_, ?_, ?_, h_phase, fun h_un => ?_, ?_⟩
  · -- the hub's thread is not there, so nothing depends on the phase for it
    exact absurd (h_up.symm.trans h_now) Bool.noConfusion
  · -- nobody has entered or left a call
    show _ → feed.writer .main = .idle
    rw [h_writer]
    exact h.idle_main
  · show _ → feed.writer .hub = .idle
    rw [h_writer]
    exact h.idle_hub
  · -- the inlet is still mapped
    exact absurd (h.mapped h_un) h_mapped
  · have h_log := h.log
    unfold underway at h_log ⊢
    rw [← h_writer] at h_log
    exact h_log

/-- A phase other than `reading` is one without the hub. -/
theorem down (h : Turns lz4 tr s m k) (h_phase : m.phase ≠ .reading) : m.up = false := by
  cases h_up : m.up with
  | false => rfl
  | true => exact absurd (h.apart h_up).2.1 h_phase

/-- The reader goes on. -/
theorem read (h : Turns lz4 tr s m k) {feed : Feed.System Party} {es : List (Feed.Event Party)}
    (h_step : (Feed.machine lz4 Party).step s.feed .read = some (feed, es)) :
    Turns lz4 (tr ++ es.map .feed) { s with feed } m k := by
  obtain ⟨inlet, reader, os, h_read, rfl, rfl⟩ := Feed.machine_cases h_step
  have h_phase := h.phase
  -- a reader that is away makes no step
  have h_none : ∀ s : Feed.System Party, s.reader.pc = .exited ∨ s.reader.pc = .starting →
      s.reader.step lz4 s.running s.inlet = none := by
    intro s h_pc
    unfold Feed.Reader.step
    rcases h_pc with h_pc | h_pc <;> rw [h_pc]
  have h_exited : s.feed.reader.pc ≠ .exited ∧ s.feed.reader.pc ≠ .starting := by
    refine ⟨fun h_pc => ?_, fun h_pc => ?_⟩
    · exact absurd ((h_none s.feed (Or.inl h_pc)).symm.trans h_read) nofun
    · exact absurd ((h_none s.feed (Or.inr h_pc)).symm.trans h_read) nofun
  -- the reader publishes nothing
  have h_pubs : Feed.published (feedEvents (tr ++ (os.map Feed.Event.outcome).map .feed)) =
      Feed.published (feedEvents tr) := by
    rw [feedEvents_append, feedEvents_map, Feed.published_append, Feed.published_outcomes,
      List.append_nil]
  -- what it has done is added to the outcomes
  have h_outs : Feed.outcomes (feedEvents (tr ++ (os.map Feed.Event.outcome).map .feed)) =
      Feed.outcomes (feedEvents tr) ++ os := by
    rw [feedEvents_append, feedEvents_map, Feed.outcomes_append, Feed.outcomes_outcomes]
  refine ⟨h.present, h.inside, h.outside, h.apart, h.idle_main, h.idle_hub, ?_, h.mapped, ?_⟩
  · rw [h_pubs, h_outs]
    -- it runs in the two phases that have a reader
    cases h_m : m.phase with
    | before =>
      rw [h_m] at h_phase
      exact absurd (by rw [h_phase.2.2]; rfl) h_exited.1
    | loading =>
      rw [h_m] at h_phase
      exact absurd (by rw [h_phase.2.2]) h_exited.2
    | reading =>
      rw [h_m] at h_phase
      exact h_phase.read h_read
    | stopping =>
      rw [h_m] at h_phase
      obtain ⟨rfl, h_quiet⟩ := h_phase.read h_read
      rw [List.append_nil]
      exact h_quiet
    | stopped | unmapped =>
      rw [h_m] at h_phase
      exact absurd h_phase.2 h_exited.1
  · -- nothing was received, so the log of calls is as before
    rw [h_pubs, received_append, received_map, List.append_nil]
    exact h.log

end Turns

end Host

end Hft
