import MpmcPipeline.Host.Descriptors

/-!
# The programs and the descriptors

The programs of the hub's thread and of `main`, with what they need and lead to in the outline of
`Host/Descriptors.lean`. Between two calls of methods, sockets have what `fd_` says and those of
the hub have a descriptor while its thread may be there (`Settled`), which everything `main` does
keeps; the destructors at its end close what is left.
-/

namespace Hft

namespace Host

open Net (Holding Sys SysCode)

namespace Custody

/-! ### The hub's thread -/

section

variable {K : Custody}

theorem wp_hubFd {post : Int → Custody → Prop} (h_inside : K.inside = true) (c : MulticastChannel)
    (h_post : post (K.fds c) K) : (net (Net.Code.fd (.hub c))).wp hubSpec K post :=
  ⟨h_inside, c, rfl, h_post⟩

theorem wp_hubRecv {post : Option (List Byte) → Custody → Prop} {capacity : ℕ}
    (h_inside : K.inside = true) (c : MulticastChannel) (h_post : ∀ received, post received K) :
    (net (Net.Code.recv (.hub c) capacity)).wp hubSpec K post := by
  rw [net, Program.wp_lift, Net.Code.recv, Program.wp_bind]
  refine ⟨h_inside, c, rfl, ?_⟩
  show Program.wp _ (if K.fds c < 0 ∨ capacity = 0 then _ else _) _ _
  split
  · exact h_post none
  · exact ⟨h_inside, ⟨c, rfl, rfl⟩, h_post⟩

theorem wp_openPolls (h_inside : K.inside = true) :
    MulticastHub.openPolls.wp hubSpec K fun _ _ => True := by
  rw [MulticastHub.openPolls, Program.wp_bind]
  refine wp_hubFd h_inside .itch ?_
  rw [Program.wp_bind]
  refine wp_hubFd h_inside .mtbt ?_
  rw [Program.wp_bind]
  refine wp_hubFd h_inside .mcx ?_
  refine ⟨h_inside, funext fun c => ?_, trivial⟩
  cases c <;> rfl

theorem answers_receive (h_inside : K.inside = true) (ready : MulticastChannel → Bool)
    (c : MulticastChannel) : (MulticastHub.receive ready c).Answers hubSpec K fun _ => True := by
  intro post h_post
  rw [MulticastHub.receive]
  split
  · rw [Program.wp_bind]
    refine wp_hubRecv h_inside c fun received => ?_
    split
    · exact h_post () trivial
    · exact h_post () trivial
    · -- publishing a datagram concerns no descriptor
      exact h_post () trivial
  · exact h_post () trivial

theorem wp_round {descriptors : MulticastChannel → Int} (h_inside : K.inside = true)
    (h_fds : descriptors = K.fds) :
    (MulticastHub.round descriptors).wp hubSpec K fun _ _ => True := by
  rw [MulticastHub.round, Program.wp_bind]
  intro running
  cases running with
  | true =>
    show Program.wp _ (poll descriptors >>= _) _ _
    rw [Program.wp_bind]
    refine ⟨h_inside, h_fds, fun ready => ?_⟩
    cases ready with
    -- nothing is ready
    | none => exact trivial
    | some ready =>
      -- the three channels in turn, each on a descriptor of the hub's own
      show Program.wp _ (MulticastHub.receive ready .itch >>= _) _ _
      rw [Program.wp_bind]
      refine answers_receive h_inside ready .itch _ fun _ _ => ?_
      rw [Program.wp_bind]
      refine answers_receive h_inside ready .mtbt _ fun _ _ => ?_
      exact answers_receive h_inside ready .mcx _ fun _ _ => trivial
  -- the thread leaves
  | false => exact ⟨h_inside, trivial⟩

end

/-! ### `main` -/

section

variable {K : Custody}

/-- A method of a socket, in `main`. -/
theorem wp_net {α : Type} {p : SysCode Socket α} {post : α → Custody → Prop}
    (h : p.wp (Holding.spec K.frozen) K.holding fun a holding => post a { K with holding }) :
    (net p).wp mainSpec K post := by
  rw [net, Program.wp_lift]
  have h_zoom : ∀ holding (c : Sys Socket) (post : c.Answer → Custody → Prop),
      mainSpec { K with holding } (.net c) (fun r => post (Cmd.ofNet c r)) ↔
        Holding.spec K.frozen holding c fun r holding => post r { K with holding } :=
    fun _ _ _ => Iff.rfl
  exact (Program.wp_zoom h_zoom p post).mpr h

theorem answers_storeRunning (running : Bool) :
    (storeRunning running).Answers mainSpec K fun _ => True :=
  fun _ h_post => h_post () trivial

theorem answers_setInlet (inlet : Bool) : (setInlet inlet).Answers mainSpec K fun _ => True :=
  fun _ h_post => h_post () trivial

theorem wp_join {post : Unit → Custody → Prop} (h_post : post () { K with up := false }) :
    join.wp mainSpec K post := h_post

/-- Between two calls of methods: sockets have what `fd_` says, and those of the hub have a
descriptor while its thread may be there. -/
structure Settled (K : Custody) : Prop where
  tidy : K.holding.Tidy
  hub : K.up = true → ∀ c, 0 ≤ K.holding.fd (.hub c)

theorem Settled.down {holding : Holding Socket} (h_tidy : holding.Tidy) (h_down : K.up = false) :
    Settled { K with holding } :=
  ⟨h_tidy, fun h_up => absurd (h_down.symm.trans h_up) Bool.false_ne_true⟩

theorem not_frozen_of_down (h_down : K.up = false) (k : Socket) : ¬K.frozen k :=
  fun h => Bool.false_ne_true (h_down.symm.trans h.1)

theorem not_frozen_simulator (c : MulticastChannel) : ¬K.frozen (.simulator c) := by
  rintro ⟨-, c', h_eq⟩
  cases h_eq

/-- The thread is not there, and these sockets have no descriptor. -/
structure Closed (ks : List Socket) (K : Custody) : Prop where
  tidy : K.holding.Tidy
  down : K.up = false
  fds : ∀ k ∈ ks, K.holding.fd k < 0

/-- A socket more is closed. -/
theorem wp_close {ks : List Socket} {k : Socket} {post : Unit → Custody → Prop}
    (h : Closed ks K) (h_post : ∀ K', Closed (k :: ks) K' → post () K') :
    (net (Net.Code.close k)).wp mainSpec K post := by
  refine wp_net (Holding.wp_close h.tidy (not_frozen_of_down h.down k)
    fun holding h_tidy h_fd h_else => h_post _ ⟨h_tidy, h.down, fun j h_j => ?_⟩)
  by_cases h_eq : j = k
  · rw [h_eq]
    exact h_fd
  · show holding.fd j < 0
    rw [h_else j h_eq]
    exact h.fds j ((List.mem_cons.mp h_j).resolve_left h_eq)

/-- `MulticastHub::stop` waits for the thread and then closes the sockets. -/
theorem wp_hubStop (ks : List Socket) {post : Unit → Custody → Prop} (h_tidy : K.holding.Tidy)
    (h_fds : ∀ k ∈ ks, K.holding.fd k < 0)
    (h_post : ∀ K', Closed (.hub .mcx :: .hub .mtbt :: .hub .itch :: ks) K' → post () K') :
    MulticastHub.stop.wp mainSpec K post := by
  -- once the thread is joined the hub's sockets may be closed
  have h_closed : Closed ks { K with up := false } := ⟨h_tidy, rfl, h_fds⟩
  rw [MulticastHub.stop, Program.wp_bind]
  refine answers_storeRunning false _ fun _ _ => ?_
  rw [Program.wp_bind]
  refine wp_join ?_
  rw [Program.wp_bind]
  refine wp_close h_closed fun K₁ h₁ => ?_
  rw [Program.wp_bind]
  refine wp_close h₁ fun K₂ h₂ => ?_
  rw [Program.wp_bind]
  exact wp_close h₂ fun K₃ h₃ => answers_setInlet false _ fun _ _ => h_post K₃ h₃

/-- A socket of the simulator is closed, whether or not the hub's thread is there. -/
theorem wp_simulatorClose (ks : List Socket) (c : MulticastChannel)
    {post : Unit → Custody → Prop} (h : Settled K) (h_fds : ∀ k ∈ ks, K.holding.fd k < 0)
    (h_post : ∀ K', Settled K' → (∀ k ∈ Socket.simulator c :: ks, K'.holding.fd k < 0) →
      post () K') : (net (Net.Code.close (.simulator c))).wp mainSpec K post := by
  refine wp_net (Holding.wp_close h.tidy (not_frozen_simulator c)
    fun holding h_tidy h_fd h_else => h_post _ ⟨h_tidy, fun h_up c' => ?_⟩ fun k h_k => ?_)
  · -- the hub's sockets stay open
    show 0 ≤ holding.fd (.hub c')
    rw [h_else (.hub c') Socket.noConfusion]
    exact h.hub h_up c'
  · -- the socket closed is closed, and so are those that were
    show holding.fd k < 0
    by_cases h_eq : k = .simulator c
    · rw [h_eq]
      exact h_fd
    · rw [h_else k h_eq]
      exact h_fds k ((List.mem_cons.mp h_k).resolve_left h_eq)

theorem wp_simulatorStop {post : Unit → Custody → Prop} (h : Settled K)
    (h_post : ∀ K', Settled K' →
      (∀ k ∈ [Socket.simulator .mcx, .simulator .mtbt, .simulator .itch], K'.holding.fd k < 0) →
      post () K') : MulticastSimulator.stop.wp mainSpec K post := by
  rw [MulticastSimulator.stop, Program.wp_bind]
  refine wp_simulatorClose [] .itch h (fun _ h_k => absurd h_k List.not_mem_nil)
    fun K₁ h₁ h_fds₁ => ?_
  rw [Program.wp_bind]
  refine wp_simulatorClose _ .mtbt h₁ h_fds₁ fun K₂ h₂ h_fds₂ => ?_
  exact wp_simulatorClose _ .mcx h₂ h_fds₂ h_post

theorem keeps_simulatorStop : MulticastSimulator.stop.Keeps mainSpec Settled :=
  fun _ h_K _ h_post => wp_simulatorStop h_K fun K' h' _ => h_post () K' h'

/-- `open_sender` -/
theorem keeps_openSender (c : MulticastChannel) (feed : MulticastFeed) :
    (MulticastSimulator.openSender c feed).Keeps mainSpec Settled := by
  intro K h_K post h_post
  refine wp_net (Holding.wp_openWith h_K.tidy (not_frozen_simulator c)
    (fun fd h h_fd p h_p => ?_) fun r holding h_tidy _ h_else =>
      h_post r _ ⟨h_tidy, fun h_up c' => ?_⟩)
  · -- the options are set on the descriptor just given
    simp only [List.mem_cons, List.not_mem_nil, or_false] at h_p
    obtain rfl | rfl | rfl := h_p
    · exact Holding.answers_setsockopt h_fd _
    · exact Holding.answers_setsockopt h_fd _
    · exact Holding.answers_setsockopt h_fd _
  · -- the hub's sockets stay as they were
    show 0 ≤ holding.fd (.hub c')
    rw [h_else (.hub c') Socket.noConfusion]
    exact h_K.hub h_up c'

theorem keeps_simulatorStart : MulticastSimulator.start.Keeps mainSpec Settled := by
  refine keeps_simulatorStop.bind fun _ => Program.Keeps.allOf fun p h_p => ?_
  simp only [List.mem_cons, List.not_mem_nil, or_false] at h_p
  obtain rfl | rfl | rfl := h_p
  · exact keeps_openSender _ _
  · exact keeps_openSender _ _
  · exact keeps_openSender _ _

/-- These sockets of the hub have a descriptor, and the thread is not there yet. -/
structure Opened (cs : List MulticastChannel) (K : Custody) : Prop where
  tidy : K.holding.Tidy
  down : K.up = false
  fds : ∀ c ∈ cs, 0 ≤ K.holding.fd (.hub c)

/-- `open_channel` of one channel after the other. -/
theorem wp_openChannels (lib : Library) {post : Bool → Custody → Prop} :
    ∀ (cs cs' : List MulticastChannel) {K : Custody}, Opened cs' K →
      (∀ r K', Opened (if r then cs' ++ cs else []) K' → post r K') →
      (Program.allOf (cs.map fun c => MulticastHub.openChannel lib c (feedOf c))).wp mainSpec K post
  | [], cs', K, h, h_post => h_post true K (by simpa using h)
  | c :: cs, cs', K, h, h_post => by
    rw [List.map_cons, Program.allOf, Program.wp_bind]
    refine wp_net (Holding.wp_openWith h.tidy (not_frozen_of_down h.down _)
      (fun fd holding h_fd p h_p => ?_) fun r holding h_tidy h_r h_else => ?_)
    · -- all four calls are made on the descriptor just given
      simp only [List.mem_cons, List.not_mem_nil, or_false] at h_p
      obtain rfl | rfl | rfl | rfl := h_p
      · exact Holding.answers_setsockopt h_fd _
      · exact Holding.answers_bind h_fd _ _
      · exact Holding.answers_joinGroup h_fd _ _
      · exact Holding.answers_setsockopt h_fd _
    · cases r with
      | true =>
        refine wp_openChannels lib cs (cs' ++ [c]) ⟨h_tidy, h.down, fun c' h_c => ?_⟩ ?_
        · -- the channels opened so far are still open
          show 0 ≤ holding.fd (.hub c')
          by_cases h_eq : c' = c
          · rw [h_eq]
            exact h_r.mp rfl
          · rw [h_else (.hub c') fun h_hub => h_eq (Socket.hub.inj h_hub)]
            refine h.fds c' ((List.mem_append.mp h_c).resolve_right fun h_one => ?_)
            exact h_eq (List.mem_singleton.mp h_one)
        · simpa using h_post
      | false =>
        -- a channel has failed, and of the others nothing is claimed
        exact h_post false _ ⟨h_tidy, h.down, fun _ h_c => absurd h_c List.not_mem_nil⟩

/-- `MulticastHub::start` leaves the thread there only with all sockets open. -/
theorem keeps_hubStart (lib : Library) (inlet : Bool) :
    (MulticastHub.start lib inlet).Keeps mainSpec Settled := by
  intro K h_K post h_post
  rw [MulticastHub.start, Program.wp_bind]
  refine wp_hubStop [] h_K.tidy (fun _ h_k => absurd h_k List.not_mem_nil) fun K₁ h₁ => ?_
  -- no inlet to publish to
  cases inlet with
  | false => exact h_post false K₁ (.down h₁.tidy h₁.down)
  | true =>
    rw [if_pos rfl, Program.wp_bind]
    refine wp_openChannels lib [.itch, .mtbt, .mcx] []
      ⟨h₁.tidy, h₁.down, fun _ h_c => absurd h_c List.not_mem_nil⟩ fun r K₂ h₂ => ?_
    cases r with
    | true =>
      -- the thread is started on three sockets that are open
      have h_all : ∀ c, 0 ≤ K₂.holding.fd (.hub c) := fun c => h₂.fds c (by cases c <;> simp)
      rw [if_pos rfl, Program.wp_bind]
      refine answers_setInlet true _ fun _ _ => ?_
      rw [Program.wp_bind]
      refine answers_storeRunning true _ fun _ _ => ?_
      rw [Program.wp_bind]
      refine ⟨h₂.down, fun c => ⟨h_all c, ?_⟩, h_post true _ ⟨h₂.tidy, fun _ => h_all⟩⟩
      rw [h₂.tidy.sockets, Net.Holding.named_of_nonneg (h_all c)]
    | false =>
      -- a channel has failed, and the sockets are closed again
      rw [if_neg Bool.false_ne_true, Program.wp_bind]
      refine wp_hubStop [] h₂.tidy (fun _ h_k => absurd h_k List.not_mem_nil)
        fun K₃ h₃ => h_post false K₃ (.down h₃.tidy h₃.down)

theorem keeps_hubStop : MulticastHub.stop.Keeps mainSpec Settled := by
  intro K h_K post h_post
  exact wp_hubStop [] h_K.tidy (fun _ h_k => absurd h_k List.not_mem_nil)
    fun K' h' => h_post () K' (.down h'.tidy h'.down)

theorem keeps_attempts (lib : Library) (c : MulticastChannel) (data : List Byte) (left : ℕ) :
    (MulticastSimulator.attempts lib c data left).Keeps mainSpec Settled := by
  induction left with
  | zero => exact Program.Keeps.pure ()
  | succ left ih =>
    refine Program.Keeps.bind (fun K h_K post h_post => ?_) fun sent => ?_
    · exact wp_net (Holding.wp_send h_K.tidy fun sent => h_post sent K h_K)
    · split
      · exact Program.Keeps.pure ()
      · exact ih

theorem keeps_send (lib : Library) (c : MulticastChannel) (data : List Byte) :
    (MulticastSimulator.send lib c data).Keeps mainSpec Settled := by
  rw [MulticastSimulator.send]
  split
  · exact Program.Keeps.pure ()
  · exact keeps_attempts lib c data 3

/-- Publishing, the counters and the reader concern no descriptor. -/
theorem keeps_publishAndWait (kind : Feed.Kind) (flags : Feed.InletFlags) (data : List Byte)
    (len : BitVec 32) : (publishAndWait kind flags data len).Keeps mainSpec Settled :=
  fun K h_K _ h_post => h_post () K h_K

theorem keeps_stopReader : stopReader.Keeps mainSpec Settled :=
  fun K h_K _ h_post => h_post () K h_K

theorem keeps_allCounted : allCounted.Keeps mainSpec Settled := by
  refine Program.Keeps.allOf fun p h_p => ?_
  simp only [List.mem_cons, List.not_mem_nil, or_false] at h_p
  obtain rfl | rfl | rfl := h_p
  · exact fun K h_K _ h_post n => h_post _ K h_K
  · exact fun K h_K _ h_post n => h_post _ K h_K
  · exact fun K h_K _ h_post n => h_post _ K h_K

theorem keeps_giveTime (left : ℕ) : (giveTime left).Keeps mainSpec Settled := by
  induction left with
  | zero => exact Program.Keeps.pure ()
  | succ left ih =>
    refine keeps_allCounted.bind fun enough => ?_
    cases enough with
    | true => exact Program.Keeps.pure ()
    | false => exact ih

/-- The destructors leave no descriptor behind. -/
theorem wp_destroy (h : Settled K) :
    destroy.wp mainSpec K fun _ K => K.holding.Tidy ∧ ∀ k, K.holding.fd k < 0 := by
  rw [destroy, Program.wp_bind]
  refine wp_simulatorStop h fun K₁ h₁ h_fds₁ => ?_
  rw [Program.wp_bind]
  refine wp_hubStop _ h₁.tidy h_fds₁ fun K₂ h₂ => ?_
  -- the destructors of the hub's sockets find them closed
  rw [Program.wp_bind]
  refine wp_close h₂ fun K₃ h₃ => ?_
  rw [Program.wp_bind]
  refine wp_close h₃ fun K₄ h₄ => ?_
  rw [Program.wp_bind]
  refine wp_close h₄ fun K₅ h₅ => ?_
  refine ⟨h₅.tidy, fun k => h₅.fds k ?_⟩
  obtain c | c := k <;> cases c <;> simp

theorem keeps_whenOk {p : Code Unit} (h : p.Keeps mainSpec Settled) (ok : Bool) :
    (whenOk ok p).Keeps mainSpec Settled := by
  cases ok with
  | true => exact h
  | false => exact Program.Keeps.pure ()

/-- `main`, up to its destructors and with them. -/
theorem wp_main (lib : Library) (frames : Frames) (h : Settled K) :
    (main lib frames).wp mainSpec K fun _ K => K.holding.Tidy ∧ ∀ k, K.holding.fd k < 0 := by
  -- each part of `main` leaves what it holds settled
  have h_start : startReader.Keeps mainSpec Settled := fun K h_K _ h_post => h_post () K h_K
  have h_open : (Program.allOf [MulticastHub.start lib true, MulticastSimulator.start]).Keeps
      mainSpec Settled := by
    refine Program.Keeps.allOf fun p h_p => ?_
    simp only [List.mem_cons, List.not_mem_nil, or_false] at h_p
    obtain rfl | rfl := h_p
    · exact keeps_hubStart lib true
    · exact keeps_simulatorStart
  have h_bring : ∀ ok, (bringIn lib frames ok).Keeps mainSpec Settled := by
    intro ok
    -- sending does not touch what is held
    refine keeps_whenOk (Program.Keeps.bind ?_ fun _ => keeps_giveTime 100) ok
    exact (keeps_send lib .itch _).bind fun _ => (keeps_send lib .mtbt _).bind fun _ =>
      (keeps_send lib .mcx _).bind fun _ => keeps_send lib .mcx _
  have h_received : ∀ ok, (multicastReceived ok).Keeps mainSpec Settled
    | true => keeps_allCounted
    | false => Program.Keeps.pure false
  have h_publish : (publishFeedFrames frames).Keeps mainSpec Settled :=
    (keeps_publishAndWait _ _ _ _).bind fun _ => (keeps_publishAndWait _ _ _ _).bind fun _ =>
      (keeps_publishAndWait _ _ _ _).bind fun _ => keeps_publishAndWait _ _ _ _
  have h_compressed : ∀ ok compressed,
      (publishCompressed frames ok compressed).Keeps mainSpec Settled
    | _, none => keeps_stopReader.bind fun _ => keeps_hubStop
    | ok, some _ => (keeps_publishAndWait _ _ _ _).bind fun _ =>
        (keeps_whenOk keeps_simulatorStop ok).bind fun _ => keeps_stopReader
  -- the parts in the order of `main`
  rw [main, Program.wp_bind]
  refine h_start K h _ fun _ K₁ h₁ => ?_
  rw [Program.wp_bind]
  refine h_open K₁ h₁ _ fun ok K₂ h₂ => ?_
  rw [Program.wp_bind]
  refine h_bring ok K₂ h₂ _ fun _ K₃ h₃ => ?_
  rw [Program.wp_bind]
  refine h_received ok K₃ h₃ _ fun received K₄ h₄ => ?_
  rw [Program.wp_bind]
  refine keeps_whenOk keeps_hubStop ok K₄ h₄ _ fun _ K₅ h₅ => ?_
  rw [Program.wp_bind]
  refine keeps_whenOk h_publish (!received) K₅ h₅ _ fun _ K₆ h₆ => ?_
  rw [Program.wp_bind]
  exact h_compressed ok _ K₆ h₆ _ fun _ K₇ h₇ => wp_destroy h₇

end

/-! ### All of it -/

theorem sound (lz4 : Feed.Lz4) :
    outline.Sound (system lz4) (fun _ _ _ _ => True) fun _ _ => True where
  exec tr sh K i env c post sh' r es h_inv h_spec _ h_exec := by
    -- `main` and the hub make their commands by the two rules above
    cases i with
    | main => exact exec_main h_inv h_spec h_exec
    | hub => exact exec_hub h_inv h_spec h_exec
  enter tr sh K i p h_inv _ h_enter := by
    cases i with
    | main => cases h_enter
    | hub =>
      -- the hub enters the body of its loop, or the loop for the first time
      simp only [system, Process.enter] at h_enter
      split at h_enter
      · next h_thread =>
        cases h_enter
        exact ⟨⟨(K .hub).holding, (K .hub).up, true, _⟩, h_inv.hub rfl id
          (fun _ => ⟨Or.inl h_thread, rfl⟩) h_inv.looping, wp_openPolls rfl⟩
      · next descriptors h_thread =>
        cases h_enter
        exact ⟨⟨(K .hub).holding, (K .hub).up, true, descriptors⟩, h_inv.hub rfl id
          (fun _ => ⟨Or.inr ⟨_, h_thread⟩, h_inv.looping _ h_thread⟩) h_inv.looping,
          wp_round rfl rfl⟩
      · cases h_enter
      · cases h_enter
  other tr sh K env sh' es h_inv _ h_other := by
    -- the rest of the system closes and opens nothing
    rcases Process.other_cases h_other with ⟨feed, es', mem, -, rfl, -⟩ | ⟨-, c, datagrams, rfl, -⟩
    · exact h_inv.congr rfl rfl
    · exact h_inv.congr rfl rfl

/-- Nobody has anything yet. -/
def initial : Custody := ⟨Holding.initial Socket, false, false, fun _ => -1⟩

theorem outline_start (lib : Library) (frames : Frames) :
    outline.Holds [] (State.start lib frames) := by
  have h_down : initial.up ≠ true := Bool.false_ne_true
  refine ⟨fun _ => initial, ⟨Holding.initial_of, fun h => absurd rfl h, fun h => absurd h h_down,
    fun h => absurd h Bool.false_ne_true, fun _ => HubThread.noConfusion⟩, fun i => ?_⟩
  cases i with
  | main => exact wp_main lib frames ⟨Holding.initial_tidy, fun h => absurd h h_down⟩
  | hub => exact trivial

end Custody

/-- **Descriptors.** Whatever the operating system answers, every system call on a descriptor is
made on an open one, and so is every `poll`; the hub polls and receives on the descriptors of its
own sockets; and when `main` is through, all that have been opened have been closed. -/
theorem descriptors_sound {lib : Library} {frames : Frames} {lz4 : Feed.Lz4} {tr : List Event}
    {s : State} (h : (system lz4).machine.Reach (State.start lib frames) tr s) :
    (∀ i c next fd, s.code i = .ask (.net c) next → c.target = some fd →
      fd ∈ s.shared.table.opened) ∧
    (∀ i k fd capacity next, s.code i = .ask (.net (.recvfrom k fd capacity)) next →
      (s.shared.table.socket k).fd = fd) ∧
    (∀ i k fd buffer address port next,
      s.code i = .ask (.net (.sendto k fd buffer address port)) next →
      (s.shared.table.socket k).fd = fd) ∧
    (∀ i descriptors next, s.code i = .ask (.poll descriptors) next →
      ∀ c, descriptors c ∈ s.shared.table.opened ∧
        (s.shared.table.socket (.hub c)).fd = descriptors c) ∧
    s.shared.table.opened.Nodup ∧
    (s.code .main = .done () →
      s.shared.table.opened = [] ∧ ∀ k, (s.shared.table.socket k).fd < 0) := by
  have h_holds : Custody.outline.Holds tr s :=
    (Custody.sound lz4).reach (Custody.outline_start lib frames)
      (h.mono fun s a _ => Parallel.meets_true s a)
  refine ⟨fun i c next fd h_code h_fd => ?_, fun i k fd capacity next h_code => ?_,
    fun i k fd buffer address port next h_code => ?_,
    fun i descriptors next h_code c => ?_, ?_, fun h_done => ?_⟩
  · -- a socket command names a descriptor of its own account
    obtain ⟨K, post, h_inv, h_spec⟩ := h_holds.asks h_code
    cases i with
    | main => exact h_inv.table.target_opened h_spec h_fd
    | hub =>
      cases c with
      | fd k => cases h_fd
      | recvfrom k fd' capacity =>
        cases h_fd
        obtain ⟨h_inside, ⟨c, rfl, rfl⟩, -⟩ := h_spec
        exact (h_inv.fds_opened h_inside c).1
      | _ => exact absurd h_spec id
  · -- the descriptor received on is that of the socket
    obtain ⟨K, post, h_inv, h_spec⟩ := h_holds.asks h_code
    cases i with
    | main => exact (h_inv.table.fd k).trans h_spec.1.1
    | hub =>
      obtain ⟨h_inside, ⟨c, rfl, rfl⟩, -⟩ := h_spec
      exact (h_inv.fds_opened h_inside c).2
  · -- only `main` sends
    obtain ⟨K, post, h_inv, h_spec⟩ := h_holds.asks h_code
    cases i with
    | main => exact (h_inv.table.fd k).trans h_spec.1.1
    | hub => exact absurd h_spec id
  · -- only the hub polls, on its own three sockets
    obtain ⟨K, post, h_inv, h_spec⟩ := h_holds.asks h_code
    cases i with
    | main => exact absurd h_spec id
    | hub =>
      obtain ⟨h_inside, rfl, -⟩ := h_spec
      exact h_inv.fds_opened h_inside c
  · obtain ⟨K, h_inv, -⟩ := h_holds
    exact h_inv.table.nodup
  · -- a finished `main` holds no descriptor, and what is open is held
    obtain ⟨K, h_inv, h_tidy, h_fds⟩ := h_holds.finished h_done
    refine ⟨?_, fun k => ?_⟩
    · refine List.eq_nil_iff_forall_not_mem.mpr fun fd h_fd => ?_
      obtain ⟨place, h_place⟩ := (h_inv.table.exclusive.live_iff fd).mp h_fd
      -- not in hand
      cases place with
      | none =>
        rw [h_tidy.hand] at h_place
        exact List.not_mem_nil h_place
      | some k =>
        -- nor in a socket
        rw [h_tidy.sockets, Holding.named_of_neg (h_fds k)] at h_place
        exact List.not_mem_nil h_place
    · rw [h_inv.table.fd]
      exact h_fds k

/-! ### A run -/

/-- LZ4 that leaves everything as it is. -/
def copy (input : List Byte) (capacity : ℕ) : Option (List Byte) :=
  if input.length ≤ capacity then some input else none

theorem copy_le {input output : List Byte} {capacity : ℕ} (h : copy input capacity = some output) :
    output.length ≤ capacity := by
  unfold copy at h
  split at h
  · next h_length =>
    cases h
    exact h_length
  · cases h

/-- A library with it. -/
def copyLibrary : Library := ⟨fun _ => some 0, copy, fun _ _ _ => copy_le⟩

/-- The other half. -/
def copyLz4 : Feed.Lz4 := ⟨copy, fun _ _ _ => copy_le⟩

/-- Frames of one byte each. -/
def byteFrames : Frames := ⟨[1], [2], [3], [4], [5], by decide⟩

/-- `main` is through. -/
def through (s : State) : Bool :=
  match s.code .main with
  | .done _ => true
  | .ask _ _ => false

theorem done_of_through {s : State} (h : through s = true) : s.code .main = .done () := by
  unfold through at h
  split at h
  · next h_code => exact h_code
  · cases h

/-- `main` alone, `n` steps: what it opens is `fd`, and what it sends is sent. -/
def mainSteps (fd : Int) (n : ℕ) : List (Parallel.Action Party Env) :=
  List.replicate n (.run .main { reply := { fd, sent := some 1 } })

/-- The hub's thread alone: the sockets in `ready` are, and `datagram` is what it receives. -/
def hubSteps (ready : List MulticastChannel) (datagram : List Byte) (n : ℕ) :
    List (Parallel.Action Party Env) :=
  List.replicate n (.run .hub
    { reply := { received := some [] }, ready := some (· ∈ ready), datagram })

/-- The reader alone. -/
def reads (n : ℕ) : List (Parallel.Action Party Env) := List.replicate n (.other {})

/-- The hub receives a datagram and publishes it. -/
def bringInSteps (datagram : List Byte) : List (Parallel.Action Party Env) :=
  hubSteps [] datagram 16 ++ reads 10 ++ hubSteps [] datagram 2

/-- `main` opens the sockets and sends the frames, the hub brings them in and is stopped, and `main`
publishes the compressed frame. -/
def multicastRun : List (Parallel.Action Party Env) :=
  mainSteps 3 18 ++ mainSteps 4 8 ++ mainSteps 5 14 ++ mainSteps 6 7 ++ mainSteps 7 7 ++
    mainSteps 8 19 ++ hubSteps [.itch, .mtbt, .mcx] [] 8 ++
    bringInSteps [1] ++ bringInSteps [2] ++ bringInSteps [3] ++
    hubSteps [.mcx] [] 3 ++ bringInSteps [4] ++
    mainSteps 0 7 ++ hubSteps [] [] 3 ++ mainSteps 0 23 ++ reads 11 ++ mainSteps 0 13 ++ reads 1 ++
    mainSteps 0 16

/-- The descriptors that the hub's thread is about to poll. -/
def polling (s : State) : Option (MulticastChannel → Int) :=
  match s.code .hub with
  | .ask (.poll descriptors) _ => some descriptors
  | _ => none

/-- The hub's thread polls the descriptors 3, 4 and 5, which are open; and at the end of the run
none of the six that `main` has opened is. -/
theorem descriptors_sound_multicast :
    (∃ (tr : List Event) (s : State) (descriptors : MulticastChannel → Int),
      (system copyLz4).machine.Reach (State.start copyLibrary byteFrames) tr s ∧
      polling s = some descriptors ∧
      [descriptors .itch, descriptors .mtbt, descriptors .mcx] = [3, 4, 5] ∧
      (∀ c, descriptors c ∈ s.shared.table.opened ∧
        (s.shared.table.socket (.hub c)).fd = descriptors c) ∧ s.shared.table.opened.Nodup) ∧
    ∃ (tr : List Event) (s : State),
      (system copyLz4).machine.Reach (State.start copyLibrary byteFrames) tr s ∧
      s.code .main = .done () ∧
      s.shared.table.opened = [] ∧ ∀ k, (s.shared.table.socket k).fd < 0 := by
  constructor
  · -- the hub's thread has made its array and polls
    obtain ⟨tr, s, h_reach, h_s⟩ := Machine.exists_reach_of_run (system copyLz4).machine
      (State.start copyLibrary byteFrames)
      (mainSteps 3 18 ++ mainSteps 4 8 ++ mainSteps 5 14 ++ hubSteps [] [] 7)
      (fun s _ => decide ((polling s).map (fun d => [d .itch, d .mtbt, d .mcx]) = some [3, 4, 5]))
      (by decide +kernel)
    obtain ⟨descriptors, h_polling, h_fds⟩ :=
      Option.map_eq_some_iff.mp (of_decide_eq_true h_s)
    obtain ⟨next, h_code⟩ : ∃ next, s.code .hub = .ask (.poll descriptors) next := by
      unfold polling at h_polling
      split at h_polling
      · next h_code =>
        cases h_polling
        exact ⟨_, h_code⟩
      · cases h_polling
    -- the poll is the next command, so the theorem says its descriptors are open
    obtain ⟨-, -, -, h_polled, h_nodup, -⟩ := descriptors_sound h_reach
    exact ⟨tr, s, descriptors, h_reach, h_polling, h_fds,
      h_polled .hub descriptors next h_code, h_nodup⟩
  · -- the whole run of `main`
    obtain ⟨tr, s, h_reach, h_s⟩ := Machine.exists_reach_of_run (system copyLz4).machine
      (State.start copyLibrary byteFrames) multicastRun (fun s _ => through s) (by decide +kernel)
    have h_done := done_of_through h_s
    exact ⟨tr, s, h_reach, h_done, (descriptors_sound h_reach).2.2.2.2.2 h_done⟩

end Host

end Hft
