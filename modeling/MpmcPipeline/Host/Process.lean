import MpmcPipeline.Feed.Inlet
import MpmcPipeline.Machine.Parallel
import MpmcPipeline.Net.Socket
import MpmcPipeline.Trading.Backlog
import MpmcPipeline.Trading.Compressed

/-!
# The hub, the simulator and `main`

`main` maps an inlet, starts a `Reader`, and brings frames in through a `MulticastHub`
(`multicast_receiver.hpp`), whose thread polls three sockets and publishes every datagram, fed by
a `MulticastSimulator` (`multicast_simulator.hpp`) that sends to them. When not all of the frames
have been counted, or there is no multicast, it publishes them itself; then it publishes a
compressed frame, stops the reader and, once it is through, destroys what it has made.

This is a `Parallel` system. Its threads are `main`, which runs `main`, and the hub's, which runs
`MulticastHub::run`: first `openPolls`, and then `round` again and again. What they share is a
`Process`: the sockets and their descriptors, the inlet with the reader (`Feed.System`, so that a
publish is interleaved with the reader at every atomic operation and every byte), the pool and the
queues that the reader ingests frames into, and the members of the hub. Datagrams are under way in
`network`, which keeps no order, may lose them, and gives others that somebody else has sent.

An ingest call is one step of the reader. It does to the pool and the market queue of `main` what
the call does (`Trading.effect`), and there is no such step where the call does not return: nobody
takes messages out of the market queue while the reader runs, so a `push` into a full queue goes on
for ever.

Left out are the stages, which `main` constructs when the reader has been stopped and which are in
`Trading/Pipeline.lean`, and the `Runtime` at its end, whose `stop` need not return
(`Mpmc/Shutdown.lean`). Both come after the last frame and before the destructors, and have nothing
to do with the sockets, the inlet or the threads that are here.
-/

namespace Hft

namespace Host

open Feed (kCapacity)
open Net (Sys SysCode Table Reply MulticastEndpoint)

/-- `MulticastChannel` -/
inductive MulticastChannel
  | itch
  | mtbt
  | mcx
  deriving DecidableEq

/-- The kind that `publish_datagram` publishes a channel's datagrams with. -/
def MulticastChannel.kind : MulticastChannel → Feed.Kind
  | itch => .itch
  | mtbt => .mtbt
  | mcx => .mcx

/-! ### `config::feed` -/

/-- `MulticastFeed` -/
structure MulticastFeed where
  group : String
  port : BitVec 16
  ttl : BitVec 8

/-- `kItch`, `kMtbt` and `kMcx` -/
def feedOf : MulticastChannel → MulticastFeed
  | .itch => ⟨"239.255.1.1", 30001, 1⟩
  | .mtbt => ⟨"239.255.1.2", 30002, 1⟩
  | .mcx => ⟨"239.255.1.3", 30003, 1⟩

/-- `kMulticastLoopback` -/
def kMulticastLoopback : Bool := true

/-! ### What the threads ask for -/

/-- The sockets: `sockets_` of the hub, and of the simulator. -/
inductive Socket
  | hub (c : MulticastChannel)
  | simulator (c : MulticastChannel)
  deriving DecidableEq

/-- The threads that run programs. -/
inductive Party
  | main
  | hub
  deriving DecidableEq

/-- What the programs ask for. -/
inductive Cmd
  | net (c : Sys Socket)
  /-- `::poll` on the three descriptors -/
  | poll (descriptors : MulticastChannel → Int)
  /-- The hub's thread has filled its array `descriptors`. -/
  | loop (descriptors : MulticastChannel → Int)
  /-- `MulticastHub::run` returns. -/
  | exit
  /-- `running_.store(running)` of the hub -/
  | storeRunning (running : Bool)
  | loadRunning
  /-- `thread_ = std::thread(…)` of the hub -/
  | spawn
  /-- `if (thread_.joinable()) thread_.join();` of the hub -/
  | join
  /-- `inlet_` of the hub is set, or made null. -/
  | setInlet (inlet : Bool)
  /-- `datagrams(channel)` -/
  | datagrams (c : MulticastChannel)
  /-- `…_datagrams_.fetch_add(1)` -/
  | count (c : MulticastChannel)
  /-- `publish` is called. -/
  | publish (args : Feed.Args)
  /-- It returns. -/
  | returned
  /-- `inlet.sequence.load()` and `wait_until_processed` -/
  | await
  /-- `running_.store(false)` of the reader -/
  | stopReader
  /-- `if (thread_.joinable()) thread_.join();` of the reader -/
  | joinReader
  /-- One of the two atomic operations of `Reader::start`. -/
  | startReader
  /-- The inlet's `Region` is released. -/
  | unmap

/-- The answers. For `poll` it is `none` when the result is not positive, else `revents & POLLIN`
of each descriptor. -/
def Cmd.Answer : Cmd → Type
  | net c => c.Answer
  | poll _ => Option (MulticastChannel → Bool)
  | loadRunning => Bool
  | datagrams _ => BitVec 64
  | loop _ | exit | storeRunning _ | spawn | join | setInlet _ | count _ | publish _ | returned
  | await | stopReader | joinReader | startReader | unmap => Unit

abbrev Code (α : Type) := Program Cmd Cmd.Answer α

/-- The answer to a command of a socket. -/
def Cmd.ofNet (c : Sys Socket) (r : (Cmd.net c).Answer) : c.Answer := r

/-- A method of a socket. -/
def net {α : Type} (p : SysCode Socket α) : Code α := p.lift Cmd.net Cmd.ofNet

def poll (descriptors : MulticastChannel → Int) : Code (Option (MulticastChannel → Bool)) :=
  .perform (Cmd.poll descriptors)

def loop (descriptors : MulticastChannel → Int) : Code Unit := .perform (Cmd.loop descriptors)

def exit : Code Unit := .perform Cmd.exit

def storeRunning (running : Bool) : Code Unit := .perform (Cmd.storeRunning running)

def loadRunning : Code Bool := .perform Cmd.loadRunning

def spawn : Code Unit := .perform Cmd.spawn

def join : Code Unit := .perform Cmd.join

def setInlet (inlet : Bool) : Code Unit := .perform (Cmd.setInlet inlet)

def datagrams (c : MulticastChannel) : Code (BitVec 64) := .perform (Cmd.datagrams c)

def count (c : MulticastChannel) : Code Unit := .perform (Cmd.count c)

/-- A call of `publish` that returns. -/
def publish (args : Feed.Args) : Code Unit := do
  .perform (Cmd.publish args)
  .perform Cmd.returned

def await : Code Unit := .perform Cmd.await

def unmap : Code Unit := .perform Cmd.unmap

/-- The C library and LZ4. -/
structure Library where
  /-- `inet_pton(AF_INET, …)` -/
  inetPton : String → Option (BitVec 32)
  /-- `LZ4_compress_default`, with the output; `none` for a result that is not positive. -/
  compressDefault : List Byte → ℕ → Option (List Byte)
  le_capacity : ∀ input capacity output,
    compressDefault input capacity = some output → output.length ≤ capacity

/-- `lz4::compress`, with the output for `true`. -/
def Library.compress (lib : Library) (input : List Byte) (output_capacity : ℕ) :
    Option (List Byte) :=
  if input.length = 0 ∨ output_capacity = 0 then none
  else lib.compressDefault input output_capacity

/-- The frames that `main` builds. -/
structure Frames where
  itch : List Byte
  mtbt : List Byte
  mcxRef : List Byte
  mcxBuy : List Byte
  mtbtPlain : List Byte
  fit : itch.length ≤ kCapacity ∧ mtbt.length ≤ kCapacity ∧ mcxRef.length ≤ kCapacity ∧
    mcxBuy.length ≤ kCapacity

/-! ### `MulticastHub` -/

namespace MulticastHub

/-- `open_channel` -/
def openChannel (lib : Library) (c : MulticastChannel) (feed : MulticastFeed) : Code Bool :=
  net (Net.Code.openReceiver lib.inetPton (.hub c) ⟨some feed.group, feed.port, feed.ttl⟩
    kMulticastLoopback)

/-- `MulticastHub::stop` -/
def stop : Code Unit := do
  storeRunning false
  join
  -- the thread has left its loop before the sockets it polls are closed
  net (Net.Code.close (.hub .itch))
  net (Net.Code.close (.hub .mtbt))
  net (Net.Code.close (.hub .mcx))
  setInlet false

/-- `MulticastHub::start`; `inlet` says that the pointer is not null. -/
def start (lib : Library) (inlet : Bool) : Code Bool := do
  stop
  if inlet then do
    if ← .allOf [openChannel lib .itch (feedOf .itch), openChannel lib .mtbt (feedOf .mtbt),
        openChannel lib .mcx (feedOf .mcx)] then do
      -- the pointer and the flag before the thread that reads them
      setInlet true
      storeRunning true
      spawn
      pure true
    else do
      stop
      pure false
  else pure false

/-- `publish_datagram` -/
def publishDatagram (c : MulticastChannel) (data : List Byte) : Code Unit := do
  publish ⟨c.kind, 0, some data, 0⟩
  -- it counts before the reader has processed it
  count c
  await

/-- `MulticastHub::run` before its loop. -/
def openPolls : Code Unit := do
  let itch ← net (Net.Code.fd (.hub .itch))
  let mtbt ← net (Net.Code.fd (.hub .mtbt))
  let mcx ← net (Net.Code.fd (.hub .mcx))
  loop fun
    | .itch => itch
    | .mtbt => mtbt
    | .mcx => mcx

/-- One iteration of the loop over the descriptors. -/
def receive (ready : MulticastChannel → Bool) (c : MulticastChannel) : Code Unit := do
  if ready c then do
    match ← net (Net.Code.recv (.hub c) kCapacity) with
    -- `received <= 0`: the next descriptor
    | none | some [] => pure ()
    | some (b :: data) => publishDatagram c (b :: data)
  else pure ()

/-- One iteration of the loop of `MulticastHub::run`, and after the last one its end. -/
def round (descriptors : MulticastChannel → Int) : Code Unit := do
  if ← loadRunning then do
    match ← poll descriptors with
    -- a timeout or an error: `running_` is looked at again
    | none => pure ()
    | some ready => do
      receive ready .itch
      receive ready .mtbt
      receive ready .mcx
  else exit

end MulticastHub

/-! ### `MulticastSimulator` -/

namespace MulticastSimulator

/-- `MulticastSimulator::stop`; the destructor does the same in another order. -/
def stop : Code Unit := do
  net (Net.Code.close (.simulator .itch))
  net (Net.Code.close (.simulator .mtbt))
  net (Net.Code.close (.simulator .mcx))

/-- `open_sender` -/
def openSender (c : MulticastChannel) (feed : MulticastFeed) : Code Bool :=
  net (Net.Code.openSender (.simulator c) ⟨some feed.group, feed.port, feed.ttl⟩
    kMulticastLoopback)

/-- `MulticastSimulator::start`. After a failure the sockets before it stay open. -/
def start : Code Bool := do
  stop
  .allOf [openSender .itch (feedOf .itch), openSender .mtbt (feedOf .mtbt),
    openSender .mcx (feedOf .mcx)]

/-- The loop of `send`, by the number of attempts that are left. -/
def attempts (lib : Library) (c : MulticastChannel) (data : List Byte) : ℕ → Code Unit
  | 0 => pure ()
  | left + 1 => do
    match ← net (Net.Code.send lib.inetPton (.simulator c) data) with
    | some (_ + 1) => pure ()
    -- −1 and 0 alike
    | _ => attempts lib c data left

/-- `send` -/
def send (lib : Library) (c : MulticastChannel) (data : List Byte) : Code Unit :=
  if data = [] then pure () else attempts lib c data 3

end MulticastSimulator

/-! ### `main` -/

/-- `Reader::stop` -/
def stopReader : Code Unit := do
  .perform Cmd.stopReader
  .perform Cmd.joinReader

/-- `Reader::start` -/
def startReader : Code Unit := do
  stopReader
  -- `last_sequence_` is loaded, then `running_` is stored and the thread started
  .perform Cmd.startReader
  .perform Cmd.startReader

/-- `publish_and_wait` -/
def publishAndWait (kind : Feed.Kind) (flags : Feed.InletFlags) (data : List Byte)
    (uncompressedLen : BitVec 32) : Code Unit := do
  publish ⟨kind, flags, some data, uncompressedLen⟩
  await

/-- `publish_feed_frames` with a simulator -/
def sendFeedFrames (lib : Library) (frames : Frames) : Code Unit := do
  MulticastSimulator.send lib .itch frames.itch
  MulticastSimulator.send lib .mtbt frames.mtbt
  MulticastSimulator.send lib .mcx frames.mcxRef
  MulticastSimulator.send lib .mcx frames.mcxBuy

/-- `publish_feed_frames` without one -/
def publishFeedFrames (frames : Frames) : Code Unit := do
  publishAndWait .itch 0 frames.itch 0
  publishAndWait .mtbt 0 frames.mtbt 0
  publishAndWait .mcx 0 frames.mcxRef 0
  publishAndWait .mcx 0 frames.mcxBuy 0

/-- `datagrams(c) >= n` -/
def counted (c : MulticastChannel) (n : BitVec 64) : Code Bool := do
  let datagrams ← datagrams c
  pure (decide (n ≤ datagrams))

/-- The condition on the counters. -/
def allCounted : Code Bool := .allOf [counted .itch 1, counted .mtbt 1, counted .mcx 2]

/-- The loop that gives the datagrams time; it looks at the counters `left` times at most. -/
def giveTime : ℕ → Code Unit
  | 0 => pure ()
  | left + 1 => do
    if ← allCounted then pure () else giveTime left

/-- `if (ok) { … }` -/
def whenOk (ok : Bool) (p : Code Unit) : Code Unit := if ok then p else pure ()

/-- The destructors of `multicast_sim`, `multicast_hub`, `reader` and `inlet_region`. -/
def destroy : Code Unit := do
  MulticastSimulator.stop
  MulticastHub.stop
  net (Net.Code.close (.hub .mcx))
  net (Net.Code.close (.hub .mtbt))
  net (Net.Code.close (.hub .itch))
  stopReader
  unmap

/-- What `main` does with multicast. -/
def bringIn (lib : Library) (frames : Frames) (multicastOk : Bool) : Code Unit :=
  whenOk multicastOk do
    sendFeedFrames lib frames
    giveTime 100

/-- `multicast_received`, after the loop. -/
def multicastReceived (multicastOk : Bool) : Code Bool :=
  if multicastOk then allCounted else pure false

/-- The frame that `main` compresses, and the end of the reader; `none` is the early return. -/
def publishCompressed (frames : Frames) (multicastOk : Bool) : Option (List Byte) → Code Unit
  | none => do
    stopReader
    MulticastHub.stop
  | some compressed => do
    publishAndWait .mtbt Feed.lz4Compressed compressed (BitVec.ofNat 32 frames.mtbtPlain.length)
    -- a hub whose simulator has not started is left to its destructor
    whenOk multicastOk MulticastSimulator.stop
    stopReader

/-- `main` from the start of the reader on, without the stages and without `runtime.start` and
`runtime.stop` at its end, which need not return. -/
def main (lib : Library) (frames : Frames) : Code Unit := do
  startReader
  let multicastOk ← .allOf [MulticastHub.start lib true, MulticastSimulator.start]
  bringIn lib frames multicastOk
  let received ← multicastReceived multicastOk
  whenOk multicastOk MulticastHub.stop
  whenOk (!received) (publishFeedFrames frames)
  publishCompressed frames multicastOk (lib.compress frames.mtbtPlain kCapacity)
  destroy

/-! ### The system -/

/-- The hub's thread; `looping` has the array `descriptors` of `MulticastHub::run`. -/
inductive HubThread
  | absent
  | started
  | looping (descriptors : MulticastChannel → Int)
  | exited

/-- The pool and the queues of `main`. -/
abbrev Queues := Trading.Memory Trading.kPoolCap fun _ => Trading.kQueueCap

/-- What the threads share. -/
structure Process where
  table : Table Socket
  /-- The datagrams under way to each group. -/
  network : MulticastChannel → List (List Byte)
  feed : Feed.System Party
  mem : Queues
  running : Bool
  thread : HubThread
  inlet : Bool
  datagrams : MulticastChannel → BitVec 64
  /-- The inlet is mapped. -/
  mapped : Bool

/-- Nothing has been started; the inlet has been constructed. -/
def Process.start : Process where
  table := Table.fresh Socket
  network _ := []
  feed := ⟨Feed.SharedInlet.fresh, false, ⟨.exited, 0⟩, fun _ => .idle⟩
  mem := Trading.started _ _
  running := false
  thread := .absent
  inlet := false
  datagrams _ := 0
  mapped := true

/-- What the rest of the system does: the reader's thread runs, a datagram of somebody else arrives,
or one is lost. -/
inductive Rest
  | read
  | arrive (c : MulticastChannel) (datagram : List Byte)
  | lose (c : MulticastChannel) (datagram : List Byte)

/-- What decides a step. -/
structure Env where
  reply : Reply := {}
  ready : Option (MulticastChannel → Bool) := none
  /-- The datagram that `recvfrom` gives, if its result is not −1. -/
  datagram : List Byte := []
  rest : Rest := .read
  /-- The exchanges of the handler calls of an ingest. -/
  exchanges : ℕ → Handoff.Env := Trading.calmEnvs Trading.kQueueCap 0
  /-- The iterations of `split_mtbt_frame`, if it ends. -/
  iterations : ℕ := kCapacity + 1

/-- What a step shows. -/
inductive Event
  | feed (e : Feed.Event Party)
  | received (c : MulticastChannel) (data : List Byte)
  | sent (c : MulticastChannel) (data : List Byte)

namespace Process

/-- A step of the inlet's system. -/
def feedStep (lz4 : Feed.Lz4) (s : Process) (a : Feed.Action Party) :
    Option (Process × List Event) :=
  match (Feed.machine lz4 Party).step s.feed a with
  | none => none
  | some (feed, es) => some ({ s with feed }, es.map .feed)

/-- `recvfrom` takes a datagram of the socket's group, as much of it as fits the buffer. -/
def recvfrom (env : Env) (s : Process) (k : Socket) (capacity : ℕ) :
    Option (Process × Option (List Byte) × List Event) :=
  match k, env.reply.received with
  | .hub c, some _ =>
    if env.datagram ∈ s.network c then
      -- the rest of a datagram that is too long is lost
      some ({ s with network := Function.update s.network c ((s.network c).erase env.datagram) },
        some (env.datagram.take capacity), [.received c (env.datagram.take capacity)])
    else none
  | _, _ => some (s, none, [])

/-- `sendto` puts a datagram on its way unless it fails. -/
def sendto (env : Env) (s : Process) (k : Socket) (buffer : List Byte) :
    Process × Option ℕ × List Event :=
  match k, env.reply.sent with
  | .simulator c, some (n + 1) =>
    ({ s with network := Function.update s.network c (buffer :: s.network c) }, some (n + 1),
      [.sent c buffer])
  | _, sent => (s, sent, [])

/-- A step inside a command. -/
def exec (lz4 : Feed.Lz4) (self : Party) (env : Env) (s : Process) :
    (c : Cmd) → Option (Process × Option c.Answer × List Event)
  | .net (.recvfrom k _ capacity) =>
    match recvfrom env s k capacity with
    | none => none
    | some (s', r, es) => some (s', some r, es)
  | .net (.sendto k _ buffer _ _) =>
    match sendto env s k buffer with
    | (s', r, es) => some (s', some r, es)
  | .net c =>
    match s.table.exec env.reply c with
    | none => none
    | some (table, r) => some ({ s with table }, some r, [])
  | .poll _ => some (s, some env.ready, [])
  | .loop descriptors => some ({ s with thread := .looping descriptors }, some (), [])
  | .exit => some ({ s with thread := .exited }, some (), [])
  | .storeRunning running => some ({ s with running }, some (), [])
  | .loadRunning => some (s, some s.running, [])
  | .spawn => some ({ s with thread := .started }, some (), [])
  | .join =>
    match s.thread with
    | .absent => some (s, some (), [])
    | .exited => some ({ s with thread := .absent }, some (), [])
    -- the caller waits
    | .started | .looping _ => none
  | .setInlet inlet => some ({ s with inlet }, some (), [])
  | .datagrams c => some (s, some (s.datagrams c), [])
  | .count c =>
    some ({ s with datagrams := Function.update s.datagrams c (s.datagrams c + 1) }, some (), [])
  | .publish args => (s.feedStep lz4 (.publish self args)).map fun r => (r.1, some (), r.2)
  | .returned =>
    match s.feed.writer self with
    -- `publish` has incremented `sequence`
    | .loadSequence => some (s, some (), [])
    | _ => (s.feedStep lz4 (.write self)).map fun r => (r.1, none, r.2)
  | .await =>
    match s.feed.writer self with
    | .idle => some (s, some (), [])
    | _ => (s.feedStep lz4 (.write self)).map fun r => (r.1, none, r.2)
  | .stopReader => (s.feedStep lz4 .stop).map fun r => (r.1, some (), r.2)
  | .joinReader =>
    match s.feed.reader.pc with
    | .exited => some (s, some (), [])
    -- the caller waits
    | _ => none
  | .startReader => (s.feedStep lz4 .start).map fun r => (r.1, some (), r.2)
  | .unmap => some ({ s with mapped := false }, some (), [])

/-- The hub's thread goes on as long as it runs. -/
def enter : Party → Process → Option (Code Unit)
  | .main, _ => none
  | .hub, s =>
    match s.thread with
    | .started => some MulticastHub.openPolls
    | .looping descriptors => some (MulticastHub.round descriptors)
    | .absent | .exited => none

/-- A step of the reader's thread. -/
def read (lz4 : Feed.Lz4) (env : Env) (s : Process) : Option (Process × List Event) :=
  match s.feed.reader.step lz4 s.feed.running s.feed.inlet with
  | none => none
  | some (inlet, reader, os) =>
    match os.foldlM (Trading.effect env.exchanges env.iterations) s.mem with
    -- the call does not return
    | none => none
    | some mem =>
      some ({ s with feed := { s.feed with inlet, reader }, mem }, (os.map .outcome).map .feed)

/-- A step of the rest. -/
def other (lz4 : Feed.Lz4) (env : Env) (s : Process) : Option (Process × List Event) :=
  match env.rest with
  | .read => s.read lz4 env
  | .arrive c datagram =>
    some ({ s with network := Function.update s.network c (datagram :: s.network c) }, [])
  | .lose c datagram =>
    some ({ s with network := Function.update s.network c ((s.network c).erase datagram) }, [])

/-! ### Inversion -/

/-- What a method of a socket can change: the table as the command says, and the network. -/
structure NetStep (s : Process) (c : Sys Socket) (s' : Process) (a : c.Answer) : Prop where
  table : ∃ reply, s.table.exec reply c = some (s'.table, a)
  frame : s' = { s with table := s'.table, network := s'.network }

theorem exec_net {lz4 : Feed.Lz4} {self : Party} {env : Env} {s s' : Process} {c : Sys Socket}
    {r : Option c.Answer} {es : List Event} (h : exec lz4 self env s (.net c) = some (s', r, es)) :
    ∃ a, r = some a ∧ NetStep s c s' a := by
  cases c with
  | recvfrom k fd capacity =>
    -- a receive is the only call that brings something in
    simp only [exec] at h
    split at h
    · cases h
    · next s₁ a es₁ h_recv =>
      cases h
      refine ⟨a, rfl, ?_⟩
      -- a receive may find nothing, and answers −1 then
      simp only [recvfrom] at h_recv
      split at h_recv
      · split at h_recv
        · cases h_recv
          have h_length : (env.datagram.take capacity).length ≤ capacity := List.length_take_le ..
          exact ⟨⟨{ received := some (env.datagram.take capacity) }, if_pos h_length⟩, rfl⟩
        · cases h_recv
      · cases h_recv
        exact ⟨⟨{}, by simp [Table.exec]⟩, rfl⟩
  | sendto k fd buffer address port =>
    -- a datagram sent is one more under way
    simp only [exec, sendto] at h
    split at h <;> cases h
    · exact ⟨_, rfl, ⟨{ sent := _ }, rfl⟩, rfl⟩
    · exact ⟨_, rfl, ⟨{ sent := _ }, rfl⟩, rfl⟩
  | _ =>
    -- the others answer as the system does
    simp only [exec] at h
    split at h
    · cases h
    · next h_table =>
      cases h
      exact ⟨_, rfl, ⟨env.reply, h_table⟩, rfl⟩

/-- A step of the inlet's system changes nothing else. -/
theorem feedStep_eq_some {lz4 : Feed.Lz4} {s s' : Process} {a : Feed.Action Party}
    {es : List Event} (h : s.feedStep lz4 a = some (s', es)) :
    ∃ feed es', (Feed.machine lz4 Party).step s.feed a = some (feed, es') ∧
      s' = { s with feed } ∧ es = es'.map .feed := by
  unfold feedStep at h
  split at h
  · cases h
  · next feed es' h_feed =>
    cases h
    exact ⟨feed, es', h_feed, rfl, rfl⟩

theorem map_feedStep_eq_some {α : Type} {lz4 : Feed.Lz4} {s s' : Process}
    {a : Feed.Action Party} {x r : α} {es : List Event}
    (h : (s.feedStep lz4 a).map (fun r => (r.1, x, r.2)) = some (s', r, es)) :
    r = x ∧ ∃ feed es', (Feed.machine lz4 Party).step s.feed a = some (feed, es') ∧
      s' = { s with feed } ∧ es = es'.map .feed := by
  obtain ⟨⟨s₁, es₁⟩, h_feed, h_eq⟩ := Option.map_eq_some_iff.mp h
  cases h_eq
  exact ⟨rfl, feedStep_eq_some h_feed⟩

/-- The reader does what it does on the inlet alone, and stores messages. -/
theorem read_eq_some {lz4 : Feed.Lz4} {env : Env} {s s' : Process} {es : List Event}
    (h : s.read lz4 env = some (s', es)) :
    ∃ feed es' mem, (Feed.machine lz4 Party).step s.feed .read = some (feed, es') ∧
      s' = { s with feed, mem } ∧ es = es'.map .feed := by
  unfold read at h
  split at h
  · cases h
  · -- the reader's step in the inlet's system
    next inlet reader os h_step =>
    split at h
    · cases h
    · -- and what it has stored
      next mem _ =>
      cases h
      refine ⟨{ s.feed with inlet, reader }, os.map .outcome, mem, ?_, rfl, rfl⟩
      simp only [Feed.machine, h_step]

/-- What a step of the rest is: one of the reader, or a datagram arrives or is lost. -/
theorem other_cases {lz4 : Feed.Lz4} {env : Env} {s s' : Process} {es : List Event}
    (h : other lz4 env s = some (s', es)) :
    (∃ feed es' mem, (Feed.machine lz4 Party).step s.feed .read = some (feed, es') ∧
        s' = { s with feed, mem } ∧ es = es'.map .feed) ∨
      es = [] ∧ ∃ c datagrams,
        s' = { s with network := Function.update s.network c datagrams } ∧
        ((∃ datagram, env.rest = .arrive c datagram ∧ datagrams = datagram :: s.network c) ∨
          ∃ datagram, datagrams = (s.network c).erase datagram) := by
  unfold other at h
  -- of the rest the reader is one, the network the other
  split at h
  · exact Or.inl (read_eq_some h)
  · next c datagram h_rest =>
    cases h
    exact Or.inr ⟨rfl, c, _, rfl, Or.inl ⟨datagram, h_rest, rfl⟩⟩
  · next c datagram _ =>
    cases h
    exact Or.inr ⟨rfl, c, _, rfl, Or.inr ⟨datagram, rfl⟩⟩

end Process

/-- The threads, the reader and the network. -/
def system (lz4 : Feed.Lz4) : Parallel Party Process Env Event Cmd Cmd.Answer where
  exec := Process.exec lz4
  enter := Process.enter
  other := Process.other lz4

abbrev State := Parallel.State Party Process Cmd Cmd.Answer

/-- `main` is about to run. -/
def State.start (lib : Library) (frames : Frames) : State where
  shared := Process.start
  code
    | .main => main lib frames
    | .hub => .done ()

end Host

end Hft
