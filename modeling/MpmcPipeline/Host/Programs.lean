import MpmcPipeline.Host.Datagrams

/-!
# The programs and the inlet

The programs of the hub's thread and of `main` meet the outline of `Host/Datagrams.lean`: between
two calls nothing of theirs is under way (`Turn.between`), the hub publishes and counts one datagram
after the other, and `main` publishes itself only when the hub's thread is not there
(`Turn.wp_main`). What follows is in `Host/Delivery.lean`.
-/

namespace Hft

namespace Host

open Feed (kCapacity)
open Net (Sys SysCode)

/-- What `main` publishes its compressed frame with, if LZ4 has compressed it. -/
def compressedArgs (lib : Library) (frames : Frames) : List Feed.Args :=
  match lib.compress frames.mtbtPlain kCapacity with
  | none => []
  | some compressed =>
    [⟨.mtbt, Feed.lz4Compressed, some compressed, BitVec.ofNat 32 frames.mtbtPlain.length⟩]

/-- What `main` publishes itself when too few datagrams have been counted. -/
def fallbackArgs (frames : Frames) (fallback : Bool) : List Feed.Args :=
  if fallback then frames.datagrams.map publishArgs else []

/-- What the reader does with a datagram, or with a frame of `main`. -/
def ingested (d : MulticastChannel × List Byte) : Feed.Outcome :=
  if d.2 = [] then .dropped else .ingested d.1.kind d.2

namespace Turn

/-- `main` is through. -/
structure Done (lib : Library) (frames : Frames) (K : Turn) : Prop where
  down : K.up = false
  phase : K.phase = .unmapped
  stage : K.stage = .rest
  sent : K.sent.Sublist frames.datagrams
  calls : ∃ fallback, K.calls = fallbackArgs frames fallback ++ compressedArgs lib frames ∧
    (fallback = false → 1 ≤ K.seen .itch ∧ 1 ≤ K.seen .mtbt ∧ 2 ≤ K.seen .mcx)

/-- The outline of `main` and the hub's thread. -/
def outline (lz4 : Feed.Lz4) (honest : Prop) (lib : Library) (frames : Frames) :
    Parallel.Outline Party Process Event Cmd Turn Cmd.Answer where
  spec
    | .main => mainSpec
    | .hub => hubSpec
  inv tr s K := Inv lz4 honest tr s (K .main) (K .hub)
  rest
    | .main, K => Done lib frames K
    | .hub, K => K.stage = .rest

/-! ### The hub's thread -/

section

variable {K : Turn}

theorem answers_receive (h_inside : K.inside = true) (h_stage : K.stage = .rest)
    (ready : MulticastChannel → Bool) (c : MulticastChannel) :
    (MulticastHub.receive ready c).Answers hubSpec K fun _ => True := by
  obtain ⟨stage, inside, phase, up, calls, sent, seen⟩ := K
  obtain rfl : stage = .rest := h_stage
  intro post h_post
  rw [MulticastHub.receive]
  split
  · rw [Program.wp_bind, net, Program.wp_lift, Net.Code.recv, Program.wp_bind]
    intro (fd : Int)
    show Program.wp _ (if fd < 0 ∨ kCapacity = 0 then _ else _) _ _
    split
    · exact h_post () trivial
    · refine ⟨h_inside, rfl, rfl, h_post () trivial, h_post () trivial, fun b data h_length => ?_⟩
      -- the datagram is published, then counted, and the hub waits
      exact ⟨h_inside, (c, b :: data), rfl, rfl, h_length, h_inside, ⟨c, rfl⟩, rfl, h_inside, rfl,
        h_post () trivial⟩
  · exact h_post () trivial

theorem wp_openPolls (h_inside : K.inside = true) (h_stage : K.stage = .rest) :
    MulticastHub.openPolls.wp hubSpec K fun _ K => K.stage = .rest :=
  fun _ _ _ => ⟨h_inside, h_stage⟩

theorem wp_round {descriptors : MulticastChannel → Int} (h_inside : K.inside = true)
    (h_stage : K.stage = .rest) :
    (MulticastHub.round descriptors).wp hubSpec K fun _ K => K.stage = .rest := by
  rw [MulticastHub.round, Program.wp_bind]
  intro running
  cases running with
  | true =>
    -- an iteration: poll, and receive from each channel that is ready
    show Program.wp _ (poll descriptors >>= _) _ _
    rw [Program.wp_bind]
    intro ready
    cases ready with
    | none => exact h_stage
    | some ready =>
      -- channel by channel, in the order of the array
      show Program.wp _ (MulticastHub.receive ready .itch >>= _) _ _
      rw [Program.wp_bind]
      refine answers_receive h_inside h_stage ready .itch _ fun _ _ => ?_
      rw [Program.wp_bind]
      refine answers_receive h_inside h_stage ready .mtbt _ fun _ _ => ?_
      exact answers_receive h_inside h_stage ready .mcx _ fun _ _ => h_stage
  -- `running_` is false, and the thread leaves
  | false => exact ⟨h_inside, h_stage, h_stage⟩

end

/-! ### The sockets in `main` -/

section

variable {K : Turn} {α : Type}

theorem wp_net {p : SysCode Socket α} {post : α → Turn → Prop} (h : p.wp netSpec K post) :
    (net p).wp mainSpec K post := by
  rw [net, Program.wp_lift]
  exact h

theorem answers_net {p : SysCode Socket α} {R : α → Prop} (h : p.Answers netSpec K R) :
    (net p).Answers mainSpec K R :=
  fun _ h_post => wp_net (h _ h_post)

theorem answers_close (k : Socket) : (Net.Code.close k).Answers netSpec K fun _ => True := by
  intro post h_post
  rw [Net.Code.close, Program.wp_bind]
  intro (fd : Int)
  show Program.wp _ (if 0 ≤ fd then _ else _) _ _
  split
  · exact h_post () trivial
  · exact h_post () trivial

theorem answers_setEndpoint (k : Socket) (endpoint : Net.MulticastEndpoint) :
    (Net.Code.setEndpoint k endpoint).Answers netSpec K fun _ => True :=
  fun _ h_post => h_post () trivial

/-- Opening a socket: `R` is known of `true`, and of `false` unless the hub's thread is there. -/
theorem answers_openWith {R : Bool → Prop} {k : Socket} {endpoint : Net.MulticastEndpoint}
    {setUp : Int → List (SysCode Socket Bool)} (h_true : R true) (h_false : K.up = false → R false)
    (h : ∀ fd, ∀ p ∈ setUp fd, p.Answers netSpec K R) :
    (Net.Code.openWith k endpoint setUp).Answers netSpec K R := by
  intro post h_post
  rw [Net.Code.openWith, Program.wp_bind]
  -- the old descriptor goes first, whatever comes of the new one
  refine answers_close k _ fun _ _ => ?_
  rw [Program.wp_bind]
  refine answers_setEndpoint k endpoint _ fun _ _ => ?_
  rw [Program.wp_bind]
  intro (fd : Int) h_fd
  show Program.wp _ (if fd < 0 then _ else _) _ _
  -- `socket` may fail, but not once the hub's thread is there
  split
  · next h_neg =>
    refine h_post false (h_false ?_)
    cases h_up : K.up with
    | false => rfl
    | true => exact absurd (h_fd h_up) (not_le.mpr h_neg)
  · -- the descriptor is set up and assigned, or closed again
    rw [Program.wp_bind]
    refine Program.Answers.allOf h_true (h fd) _ fun r h_r => ?_
    cases r with
    | true => exact h_post true h_r
    | false => exact h_post false h_r

/-- While the hub's thread is there, `setsockopt` succeeds. -/
theorem answers_setsockopt (fd : Int) (option : Net.SocketOption) :
    (Net.Code.setsockopt fd option : SysCode Socket Bool).Answers netSpec K
      fun r => K.up = true → r = true :=
  fun _ h_post ok h_ok => h_post ok h_ok

theorem answers_hubClose (c : MulticastChannel) :
    (net (Net.Code.close (.hub c))).Answers mainSpec K fun _ => True :=
  answers_net (answers_close _)

/-- `open_channel`, of whose result nothing is known. -/
theorem answers_openChannel (lib : Library) (c : MulticastChannel) (feed : MulticastFeed) :
    (MulticastHub.openChannel lib c feed).Answers mainSpec K fun _ => True := by
  refine answers_net (answers_openWith trivial (fun _ => trivial) fun fd p h_p => ?_)
  simp only [List.mem_cons, List.not_mem_nil, or_false] at h_p
  obtain rfl | rfl | rfl | rfl := h_p
  · exact fun post h_post ok _ => h_post ok trivial
  · exact fun post h_post ok => h_post ok trivial
  · intro post h_post
    rw [Net.Code.joinGroup]
    split
    · exact h_post false trivial
    · exact fun ok _ => h_post ok trivial
  · exact fun post h_post ok _ => h_post ok trivial

/-- `open_sender`, which succeeds while the hub's thread is there. -/
theorem answers_openSender (c : MulticastChannel) (feed : MulticastFeed) :
    (MulticastSimulator.openSender c feed).Answers mainSpec K fun r => K.up = true → r = true := by
  refine answers_net (answers_openWith (fun _ => rfl) (fun h_down h_up => ?_) fun fd p h_p => ?_)
  · exact absurd (h_down.symm.trans h_up) Bool.noConfusion
  · simp only [List.mem_cons, List.not_mem_nil, or_false] at h_p
    obtain rfl | rfl | rfl := h_p
    · exact answers_setsockopt _ _
    · exact answers_setsockopt _ _
    · exact answers_setsockopt _ _

theorem answers_simulatorStop : MulticastSimulator.stop.Answers mainSpec K fun _ => True :=
  (answers_net (answers_close _)).bind fun _ _ => (answers_net (answers_close _)).bind fun _ _ =>
    answers_net (answers_close _)

/-- `MulticastSimulator::start` succeeds while the hub's thread is there. -/
theorem answers_simulatorStart :
    MulticastSimulator.start.Answers mainSpec K fun r => K.up = true → r = true := by
  refine answers_simulatorStop.bind fun _ _ => Program.Answers.allOf (fun _ => rfl) fun p h_p => ?_
  simp only [List.mem_cons, List.not_mem_nil, or_false] at h_p
  obtain rfl | rfl | rfl := h_p
  · exact answers_openSender _ _
  · exact answers_openSender _ _
  · exact answers_openSender _ _

theorem answers_storeRunning (running : Bool) :
    (storeRunning running).Answers mainSpec K fun _ => True :=
  fun _ h_post => h_post () trivial

theorem wp_join {post : Unit → Turn → Prop} (h_post : post () { K with up := false }) :
    join.wp mainSpec K post := h_post

/-- `MulticastHub::stop` waits for the thread. -/
theorem wp_hubStop {post : Unit → Turn → Prop} (h_post : post () { K with up := false }) :
    MulticastHub.stop.wp mainSpec K post := by
  rw [MulticastHub.stop, Program.wp_bind]
  refine answers_storeRunning false _ fun _ _ => ?_
  rw [Program.wp_bind]
  refine wp_join ?_
  rw [Program.wp_bind]
  refine answers_hubClose .itch _ fun _ _ => ?_
  rw [Program.wp_bind]
  refine answers_hubClose .mtbt _ fun _ _ => ?_
  rw [Program.wp_bind]
  exact answers_hubClose .mcx _ fun _ _ => h_post

/-- One frame is sent once at most, however often `send` tries. -/
theorem wp_send (lib : Library) (c : MulticastChannel) {data : List Byte}
    (h_length : data.length ≤ kCapacity) {post : Unit → Turn → Prop}
    (h_post : ∀ ds : List (MulticastChannel × List Byte), ds.Sublist [(c, data)] →
      post () { K with sent := K.sent ++ ds }) :
    (MulticastSimulator.send lib c data).wp mainSpec K post := by
  have h_none : post () K := by
    have h := h_post [] (List.nil_sublist _)
    rwa [List.append_nil] at h
  rw [MulticastSimulator.send]
  split
  · exact h_none
  · next h_ne =>
    -- induction on the attempts that are left
    generalize 3 = left
    induction left with
    | zero => exact h_none
    | succ left ih =>
      rw [MulticastSimulator.attempts, Program.wp_bind, net, Program.wp_lift, Net.Code.send,
        Program.wp_bind]
      intro (fd : Int)
      show Program.wp _ (Net.Code.endpoint _ >>= _) _ _
      rw [Program.wp_bind]
      intro (endpoint : Net.MulticastEndpoint)
      show Program.wp _ (if fd < 0 ∨ data = [] ∨ endpoint.group = none ∨ endpoint.port = 0
        then _ else _) _ _
      split
      · exact ih
      · split
        · exact ih
        · exact ⟨h_ne, h_length, fun n => h_post _ (List.Sublist.refl _), ih, ih⟩

end

/-! ### `main` -/

/-- `main`, between two calls. -/
def between (phase : Phase) (up : Bool) (calls : List Feed.Args)
    (sent : List (MulticastChannel × List Byte)) (seen : MulticastChannel → ℕ) : Turn :=
  ⟨.rest, false, phase, up, calls, sent, seen⟩

section

variable {up : Bool} {calls : List Feed.Args} {sent : List (MulticastChannel × List Byte)}
  {seen : MulticastChannel → ℕ}

theorem wp_startReader {post : Unit → Turn → Prop}
    (h_post : post () (between .reading up calls sent seen)) :
    startReader.wp mainSpec (between .before up calls sent seen) post :=
  Or.inl ⟨rfl, Or.inl ⟨rfl, Or.inl ⟨rfl, Or.inr ⟨rfl, h_post⟩⟩⟩⟩

theorem wp_stopReader {phase : Phase} (h_phase : phase = .reading ∨ phase = .stopped)
    {post : Unit → Turn → Prop} (h_post : post () (between .stopped false calls sent seen)) :
    stopReader.wp mainSpec (between phase false calls sent seen) post :=
  Or.inr ⟨h_phase, rfl, rfl, Or.inr ⟨rfl, h_post⟩⟩

theorem wp_publishAndWait {kind : Feed.Kind} {flags : Feed.InletFlags} {data : List Byte}
    {len : BitVec 32} (h_length : data.length ≤ kCapacity) {post : Unit → Turn → Prop}
    (h_post : post () (between .reading false (calls ++ [⟨kind, flags, some data, len⟩]) sent
      seen)) :
    (publishAndWait kind flags data len).wp mainSpec (between .reading false calls sent seen)
      post :=
  ⟨rfl, rfl, rfl, ⟨data, rfl, h_length⟩, rfl, rfl, rfl, rfl, rfl, rfl, h_post⟩

/-- `MulticastHub::start` says whether its thread is there. -/
theorem wp_hubStart (lib : Library) {post : Bool → Turn → Prop}
    (h_post : ∀ r, post r (between .reading r [] sent seen)) :
    (MulticastHub.start lib true).wp mainSpec (between .reading false [] sent seen) post := by
  rw [MulticastHub.start, Program.wp_bind]
  -- it starts with a `stop`
  refine wp_hubStop ?_
  rw [if_pos rfl, Program.wp_bind]
  refine Program.Answers.allOf (R := fun _ => True) trivial (fun p h_p => ?_) _ fun r _ => ?_
  · -- the three channels in turn; any of them may fail
    simp only [List.mem_cons, List.not_mem_nil, or_false] at h_p
    obtain rfl | rfl | rfl := h_p
    · exact answers_openChannel _ _ _
    · exact answers_openChannel _ _ _
    · exact answers_openChannel _ _ _
  · cases r with
    | true => exact ⟨rfl, rfl, rfl, rfl, h_post true⟩
    | false =>
      -- a channel has failed, and what is open is closed
      rw [if_neg Bool.false_ne_true, Program.wp_bind]
      exact wp_hubStop (h_post false)

/-- The four frames are sent once at most. -/
theorem wp_sendFeedFrames (lib : Library) (frames : Frames) {post : Unit → Turn → Prop}
    (h_post : ∀ ds : List (MulticastChannel × List Byte), ds.Sublist frames.datagrams →
      post () (between .reading up calls (sent ++ ds) seen)) :
    (sendFeedFrames lib frames).wp mainSpec (between .reading up calls sent seen) post := by
  obtain ⟨h_itch, h_mtbt, h_ref, h_buy⟩ := frames.fit
  rw [sendFeedFrames, Program.wp_bind]
  refine wp_send lib .itch h_itch fun ds₁ h₁ => ?_
  rw [Program.wp_bind]
  refine wp_send lib .mtbt h_mtbt fun ds₂ h₂ => ?_
  rw [Program.wp_bind]
  refine wp_send lib .mcx h_ref fun ds₃ h₃ => ?_
  refine wp_send lib .mcx h_buy fun ds₄ h₄ => ?_
  -- each send may be given up, so a part of the four has been sent
  have h_all := h_post _ (h₁.append (h₂.append (h₃.append h₄)))
  show post () (between .reading up calls (((sent ++ ds₁) ++ ds₂) ++ ds₃ ++ ds₄) seen)
  rwa [List.append_assoc, List.append_assoc, List.append_assoc]

/-- Looking at the counters: when they suffice, what they say has been received. -/
theorem wp_allCounted {phase : Phase} {post : Bool → Turn → Prop}
    (h_post : ∀ (r : Bool) (seen : MulticastChannel → ℕ),
      (r = true → 1 ≤ seen .itch ∧ 1 ≤ seen .mtbt ∧ 2 ≤ seen .mcx) →
      post r (between phase up calls sent seen)) :
    allCounted.wp mainSpec (between phase up calls sent seen) post := by
  -- a look at one counter tells that as many have been received
  have h_counted : ∀ (c : MulticastChannel) (n : BitVec 64) (seen : MulticastChannel → ℕ)
      (post : Bool → Turn → Prop), (∀ m : BitVec 64, post (decide (n ≤ m))
        (between phase up calls sent (Function.update seen c m.toNat))) →
      (counted c n).wp mainSpec (between phase up calls sent seen) post :=
    fun _ _ _ _ h => h
  rw [allCounted, Program.allOf, Program.wp_bind]
  refine h_counted .itch 1 _ _ fun itch => ?_
  -- the next counter is looked at only if this one suffices
  by_cases h_itch : 1 ≤ itch
  · rw [decide_eq_true h_itch, if_pos rfl, Program.allOf, Program.wp_bind]
    refine h_counted .mtbt 1 _ _ fun mtbt => ?_
    by_cases h_mtbt : 1 ≤ mtbt
    · rw [decide_eq_true h_mtbt, if_pos rfl, Program.allOf, Program.wp_bind]
      refine h_counted .mcx 2 _ _ fun mcx => ?_
      by_cases h_mcx : 2 ≤ mcx
      · rw [decide_eq_true h_mcx, if_pos rfl]
        exact h_post true _ fun _ => ⟨h_itch, h_mtbt, h_mcx⟩
      · rw [decide_eq_false h_mcx, if_neg Bool.false_ne_true]
        exact h_post false _ fun h_true => absurd h_true Bool.false_ne_true
    · rw [decide_eq_false h_mtbt, if_neg Bool.false_ne_true]
      exact h_post false _ fun h_true => absurd h_true Bool.false_ne_true
  · -- one counter that does not suffice settles it
    rw [decide_eq_false h_itch, if_neg Bool.false_ne_true]
    exact h_post false _ fun h_true => absurd h_true Bool.false_ne_true

theorem wp_giveTime {phase : Phase} {post : Unit → Turn → Prop}
    (h_post : ∀ seen, post () (between phase up calls sent seen)) (left : ℕ) :
    (giveTime left).wp mainSpec (between phase up calls sent seen) post := by
  induction left generalizing seen with
  | zero => exact h_post seen
  | succ left ih =>
    rw [giveTime, Program.wp_bind]
    refine wp_allCounted fun r seen' _ => ?_
    cases r with
    | true => exact h_post seen'
    | false => exact ih

/-- Bringing the frames in through the hub. -/
theorem wp_bringIn (lib : Library) (frames : Frames) {post : Unit → Turn → Prop}
    (h_post : ∀ (ds : List (MulticastChannel × List Byte)) (seen : MulticastChannel → ℕ),
      ds.Sublist frames.datagrams → post () (between .reading up calls ds seen)) :
    (bringIn lib frames up).wp mainSpec (between .reading up calls [] seen) post := by
  cases up with
  | true =>
    show Program.wp _ (sendFeedFrames lib frames >>= _) _ _
    rw [Program.wp_bind]
    exact wp_sendFeedFrames lib frames fun ds h_ds =>
      wp_giveTime (fun seen' => h_post ds seen' h_ds) 100
  | false => exact h_post [] seen (List.nil_sublist _)

theorem wp_multicastReceived {phase : Phase} {post : Bool → Turn → Prop}
    (h_post : ∀ (r : Bool) (seen : MulticastChannel → ℕ),
      (r = true → 1 ≤ seen .itch ∧ 1 ≤ seen .mtbt ∧ 2 ≤ seen .mcx) →
      post r (between phase up calls sent seen)) :
    (multicastReceived up).wp mainSpec (between phase up calls sent seen) post := by
  cases up with
  | true => exact wp_allCounted h_post
  | false => exact h_post false seen fun h_true => absurd h_true Bool.false_ne_true

/-- `main` publishes the four frames. -/
theorem wp_publishFeedFrames (frames : Frames) {post : Unit → Turn → Prop}
    (h_post : post () (between .reading false (calls ++ frames.datagrams.map publishArgs) sent
      seen)) :
    (publishFeedFrames frames).wp mainSpec (between .reading false calls sent seen) post := by
  obtain ⟨h_itch, h_mtbt, h_ref, h_buy⟩ := frames.fit
  rw [publishFeedFrames, Program.wp_bind]
  refine wp_publishAndWait h_itch ?_
  rw [Program.wp_bind]
  refine wp_publishAndWait h_mtbt ?_
  rw [Program.wp_bind]
  refine wp_publishAndWait h_ref (wp_publishAndWait h_buy ?_)
  rw [List.append_assoc, List.append_assoc, List.append_assoc]
  exact h_post

/-- The compressed frame, and the end of the reader. -/
theorem wp_publishCompressed (lib : Library) (frames : Frames) (ok : Bool)
    {post : Unit → Turn → Prop}
    (h_post : post () (between .stopped false (calls ++ compressedArgs lib frames) sent seen)) :
    (publishCompressed frames ok (lib.compress frames.mtbtPlain kCapacity)).wp mainSpec
      (between .reading false calls sent seen) post := by
  unfold compressedArgs at h_post
  cases h_compress : lib.compress frames.mtbtPlain kCapacity with
  | none =>
    -- nothing compressed: the reader and the hub are stopped, and nothing is published
    rw [h_compress, List.append_nil] at h_post
    rw [publishCompressed, Program.wp_bind]
    exact wp_stopReader (Or.inl rfl) (wp_hubStop h_post)
  | some compressed =>
    rw [h_compress] at h_post
    -- what is compressed fits a slot
    have h_length : compressed.length ≤ kCapacity := by
      unfold Library.compress at h_compress
      split at h_compress
      · cases h_compress
      · exact lib.le_capacity _ _ _ h_compress
    rw [publishCompressed, Program.wp_bind]
    refine wp_publishAndWait h_length ?_
    rw [Program.wp_bind]
    -- only a simulator that was started is stopped here
    cases ok with
    | true =>
      refine answers_simulatorStop _ fun _ _ => ?_
      exact wp_stopReader (Or.inl rfl) h_post
    | false => exact wp_stopReader (Or.inl rfl) h_post

theorem wp_destroy {post : Unit → Turn → Prop}
    (h_post : post () (between .unmapped false calls sent seen)) :
    destroy.wp mainSpec (between .stopped false calls sent seen) post := by
  -- in the order of destruction, the simulator first
  rw [destroy, Program.wp_bind]
  refine answers_simulatorStop _ fun _ _ => ?_
  rw [Program.wp_bind]
  refine wp_hubStop ?_
  rw [Program.wp_bind]
  refine answers_hubClose .mcx _ fun _ _ => ?_
  rw [Program.wp_bind]
  refine answers_hubClose .mtbt _ fun _ _ => ?_
  rw [Program.wp_bind]
  refine answers_hubClose .itch _ fun _ _ => ?_
  rw [Program.wp_bind]
  exact wp_stopReader (Or.inr rfl) ⟨rfl, h_post⟩

/-- `main`. -/
theorem wp_main (lib : Library) (frames : Frames) :
    (main lib frames).wp mainSpec (between .before false [] [] seen) fun _ =>
      Done lib frames := by
  rw [main, Program.wp_bind]
  refine wp_startReader ?_
  rw [Program.wp_bind]
  -- the hub's thread is there if and only if both have been started
  suffices h : ∀ up, Program.wp mainSpec (do
      bringIn lib frames up
      let received ← multicastReceived up
      whenOk up MulticastHub.stop
      whenOk (!received) (publishFeedFrames frames)
      publishCompressed frames up (lib.compress frames.mtbtPlain kCapacity)
      destroy) (between .reading up [] [] seen) fun _ => Done lib frames by
    rw [Program.allOf, Program.wp_bind]
    refine wp_hubStart lib fun r => ?_
    cases r with
    | true =>
      rw [if_pos rfl, Program.allOf, Program.wp_bind]
      refine answers_simulatorStart _ fun r h_r => ?_
      obtain rfl := h_r rfl
      exact h true
    | false => exact h false
  intro up
  rw [Program.wp_bind]
  refine wp_bringIn lib frames fun ds seen' h_ds => ?_
  rw [Program.wp_bind]
  refine wp_multicastReceived fun received seen'' h_seen => ?_
  rw [Program.wp_bind]
  suffices h : Program.wp mainSpec (do
      whenOk (!received) (publishFeedFrames frames)
      publishCompressed frames up (lib.compress frames.mtbtPlain kCapacity)
      destroy) (between .reading false [] ds seen'') fun _ => Done lib frames by
    cases up with
    | true => exact wp_hubStop h
    | false => exact h
  rw [Program.wp_bind]
  suffices h : Program.wp mainSpec (do
      publishCompressed frames up (lib.compress frames.mtbtPlain kCapacity)
      destroy) (between .reading false (fallbackArgs frames (!received)) ds seen'')
        fun _ => Done lib frames by
    cases received with
    | true => exact h
    | false => exact wp_publishFeedFrames frames h
  rw [Program.wp_bind]
  refine wp_publishCompressed lib frames up (wp_destroy ?_)
  refine ⟨rfl, rfl, rfl, h_ds, !received, rfl, fun h_false => h_seen ?_⟩
  rwa [Bool.not_eq_false'] at h_false

end

/-! ### All of it -/

/-- The hub's thread comes in. -/
theorem Inv.enter {lz4 : Feed.Lz4} {honest : Prop} {tr : List Event} {s : Process} {m k : Turn}
    (h : Inv lz4 honest tr s m k) (h_stage : k.stage = .rest)
    (h_thread : s.thread ≠ .absent ∧ s.thread ≠ .exited) :
    Inv lz4 honest tr s m { k with inside := true } :=
  ⟨⟨h.1.present, fun _ => h_thread, fun _ => h_stage, h.1.apart, h.1.idle_main, h.1.idle_hub,
    h.1.phase, h.1.mapped, h.1.log⟩, h.2.congr rfl rfl rfl rfl rfl rfl⟩

variable {K : Party → Turn} {k : Turn}

theorem sound (lz4 : Feed.Lz4) (honest : Prop) (lib : Library) (frames : Frames) :
    (outline lz4 honest lib frames).Sound (system lz4) Orderly fun env _ =>
      honest → Honest env where
  exec tr sh K i env c post sh' r es h_inv h_spec h_orderly h_exec := by
    cases i with
    | main =>
      obtain ⟨k, h_inv', h_after⟩ := exec_main h_inv h_spec h_orderly h_exec
      refine ⟨k, ?_, h_after⟩
      show Inv _ _ _ _ (Function.update K .main k .main) (Function.update K .main k .hub)
      rw [Function.update_self, Function.update_of_ne Party.noConfusion]
      exact h_inv'
    | hub =>
      obtain ⟨k, h_inv', h_after⟩ := exec_hub h_inv h_spec h_orderly h_exec
      refine ⟨k, ?_, h_after⟩
      show Inv _ _ _ _ (Function.update K .hub k .main) (Function.update K .hub k .hub)
      rw [Function.update_self, Function.update_of_ne Party.noConfusion]
      exact h_inv'
  enter tr sh K i p h_inv h_rest h_enter := by
    cases i with
    | main => cases h_enter
    | hub =>
      suffices h : (sh.thread ≠ .absent ∧ sh.thread ≠ .exited) ∧
          p.wp hubSpec { K .hub with inside := true } fun _ K => K.stage = .rest by
        refine ⟨{ K .hub with inside := true }, ?_, h.2⟩
        show Inv _ _ _ _ (Function.update K .hub _ .main) (Function.update K .hub _ .hub)
        rw [Function.update_self, Function.update_of_ne Party.noConfusion]
        exact Inv.enter h_inv h_rest h.1
      simp only [system, Process.enter] at h_enter
      split at h_enter
      · next h_thread =>
        cases h_enter
        rw [h_thread]
        exact ⟨⟨HubThread.noConfusion, HubThread.noConfusion⟩, wp_openPolls rfl h_rest⟩
      · next descriptors h_thread =>
        cases h_enter
        rw [h_thread]
        exact ⟨⟨HubThread.noConfusion, HubThread.noConfusion⟩, wp_round rfl h_rest⟩
      · cases h_enter
      · cases h_enter
  other tr sh K env sh' es h_inv h_honest h_other := by
    obtain ⟨h_turns, h_counts⟩ := h_inv
    rcases Process.other_cases h_other with ⟨feed, es', mem, h_step, rfl, rfl⟩ |
      ⟨rfl, c, datagrams, rfl, h_network⟩
    · refine ⟨(h_turns.read h_step).congr rfl rfl rfl rfl rfl rfl rfl rfl rfl rfl rfl rfl id,
        h_counts.congr rfl rfl ?_ rfl rfl rfl⟩
      rw [received_append, received_map, List.append_nil]
    · rw [List.append_nil]
      refine ⟨h_turns.congr rfl rfl rfl rfl rfl rfl rfl rfl rfl rfl rfl rfl id, ?_⟩
      rcases h_network with ⟨datagram, h_rest, rfl⟩ | ⟨datagram, rfl⟩
      · -- where nobody else sends, nothing arrives
        exact h_counts.network fun h_h => absurd h_rest (h_honest h_h c datagram)
      · exact h_counts.network fun _ data => List.Sublist.count_le data List.erase_sublist

theorem outline_start (lz4 : Feed.Lz4) (honest : Prop) (lib : Library) (frames : Frames) :
    (outline lz4 honest lib frames).Holds [] (State.start lib frames) := by
  refine ⟨fun _ => between .before false [] [] fun _ => 0, ⟨?_, ?_⟩, fun i => ?_⟩
  · exact ⟨iff_of_false (fun h => h rfl) Bool.noConfusion, fun h => absurd h Bool.noConfusion,
      fun _ => rfl, fun h => absurd h Bool.noConfusion, fun _ => rfl, fun _ => rfl,
      ⟨rfl, rfl, rfl⟩, fun h => absurd h Bool.noConfusion, rfl⟩
  · exact ⟨fun _ => ⟨0, rfl, rfl⟩, fun _ => le_rfl, fun _ h => absurd h List.not_mem_nil,
      fun _ _ => le_rfl⟩
  · cases i with
    | main => exact wp_main lib frames
    | hub => exact rfl

end Turn

end Host

end Hft
