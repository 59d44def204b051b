import MpmcPipeline.Host.Turns

/-!
# The datagrams, and the outline

What has been received is published by the hub, one datagram at a time, and counted once it is.
`main` knows how many have been counted at least, and what the simulator has sent: when nobody
else sends (`honest`), nothing is received that is not one of these, and none of them twice.

With `Turns` this makes the outline of `main` and the hub's thread, for `Orderly` steps
(`Turn.sound`).
-/

namespace Hft

namespace Host

open Feed (kCapacity)
open Net (Sys SysCode)
open Parallel.Outline (After)

/-- The datagrams; `honest` says that nobody else sends any. -/
structure Counts (honest : Prop) (tr : List Event) (s : Process) (m k : Turn) : Prop where
  counted : ∀ c, ∃ n, s.datagrams c = BitVec.ofNat 64 n ∧
    n + k.stage.uncounted.count c = receivedOn tr c
  seen : ∀ c, m.seen c ≤ receivedOn tr c
  fits : ∀ d ∈ m.sent, d.2 ≠ [] ∧ d.2.length ≤ kCapacity
  flow : honest → ∀ d, (received tr).count d + (s.network d.1).count d.2 ≤ m.sent.count d

namespace Counts

variable {honest : Prop} {tr tr' : List Event} {s s' : Process} {m k m' k' : Turn}

theorem flow_le (h : Counts honest tr s m k) (h_honest : honest) (c : MulticastChannel)
    (data : List Byte) : (received tr).count (c, data) + (s.network c).count data ≤
      m.sent.count (c, data) := h.flow h_honest (c, data)

/-- A step that concerns no datagram. -/
theorem congr (h : Counts honest tr s m k) (h_datagrams : s'.datagrams = s.datagrams)
    (h_network : s'.network = s.network) (h_received : received tr' = received tr)
    (h_seen : m'.seen = m.seen) (h_sent : m'.sent = m.sent)
    (h_uncounted : k'.stage.uncounted = k.stage.uncounted) : Counts honest tr' s' m' k' := by
  obtain ⟨counted, seen, fits, flow⟩ := h
  -- the counts are about the history, so both are compared with it
  unfold receivedOn at counted seen
  constructor
  · unfold receivedOn
    rw [h_datagrams, h_uncounted, h_received]
    exact counted
  · unfold receivedOn
    rw [h_seen, h_received]
    exact seen
  · rw [h_sent]
    exact fits
  · rw [h_received, h_network, h_sent]
    exact flow

/-- The hub counts the datagram it has published. -/
theorem count (h : Counts honest tr s m k) {c : MulticastChannel}
    (h_stage : k.stage = .publishing c) :
    Counts honest tr
      { s with datagrams := Function.update s.datagrams c (s.datagrams c + 1) } m
      { k with stage := .waiting } := by
  refine ⟨fun c' => ?_, h.seen, h.fits, h.flow⟩
  obtain ⟨n, h_n, h_eq⟩ := h.counted c'
  rw [h_stage] at h_eq
  -- one more counted, and none uncounted
  by_cases h_c : c' = c
  · subst h_c
    refine ⟨n + 1, ?_, ?_⟩
    · show Function.update s.datagrams c' (s.datagrams c' + 1) c' = _
      rw [Function.update_self, h_n]
      exact (BitVec.ofNat_add n 1).symm
    · rw [← h_eq]
      simp [Stage.uncounted]
  · refine ⟨n, ?_, ?_⟩
    · show Function.update s.datagrams c (s.datagrams c + 1) c' = _
      rw [Function.update_of_ne h_c, h_n]
    · rw [← h_eq]
      simp [Stage.uncounted, Ne.symm h_c]

/-- `main` looks at a counter: it has not counted more than has been received. -/
theorem see (h : Counts honest tr s m k) (c : MulticastChannel) :
    Counts honest tr s { m with seen := Function.update m.seen c (s.datagrams c).toNat } k := by
  refine ⟨h.counted, fun c' => ?_, h.fits, h.flow⟩
  by_cases h_c : c' = c
  · subst h_c
    obtain ⟨n, h_n, h_eq⟩ := h.counted c'
    show Function.update m.seen c' (s.datagrams c').toNat c' ≤ _
    rw [Function.update_self, h_n, BitVec.toNat_ofNat]
    -- a counter that has wrapped says less
    calc n % 2 ^ 64 ≤ n := Nat.mod_le n (2 ^ 64)
      _ ≤ receivedOn tr c' := by omega
  · show Function.update m.seen c (s.datagrams c).toNat c' ≤ _
    rw [Function.update_of_ne h_c]
    exact h.seen c'

/-- The simulator sends a frame. -/
theorem send (h : Counts honest tr s m k) {c : MulticastChannel} {buffer : List Byte}
    (h_ne : buffer ≠ []) (h_length : buffer.length ≤ kCapacity) :
    Counts honest (tr ++ [.sent c buffer])
      { s with network := Function.update s.network c (buffer :: s.network c) }
      { m with sent := m.sent ++ [(c, buffer)] } k := by
  have h_received : received (tr ++ [.sent c buffer]) = received tr := by
    rw [received_append]
    exact List.append_nil _
  refine ⟨?_, ?_, fun d h_d => ?_, fun h_honest d => ?_⟩
  · unfold receivedOn
    rw [h_received]
    exact h.counted
  · unfold receivedOn
    rw [h_received]
    exact h.seen
  · rcases List.mem_append.mp h_d with h_d | h_d
    · exact h.fits d h_d
    · obtain rfl := List.mem_singleton.mp h_d
      exact ⟨h_ne, h_length⟩
  · obtain ⟨c', data⟩ := d
    have h_flow := h.flow_le h_honest c' data
    rw [h_received]
    show _ + (Function.update s.network c (buffer :: s.network c) c').count data ≤
      (m.sent ++ [(c, buffer)]).count (c', data)
    rw [List.count_append]
    by_cases h_c : c' = c
    · -- one more under way, one more sent
      subst h_c
      rw [Function.update_self, List.count_cons, List.count_singleton]
      by_cases h_data : buffer = data
      · subst h_data
        simp only [beq_self_eq_true, if_true]
        omega
      · have h_ne : ((c', buffer) == (c', data)) = false := by simp [h_data]
        simp only [h_ne, beq_iff_eq, h_data, if_false, Bool.false_eq_true]
        omega
    · rw [Function.update_of_ne h_c]
      exact le_trans h_flow (Nat.le_add_right _ _)

/-- The network loses a datagram, or somebody else sends one. -/
theorem network (h : Counts honest tr s m k) {c : MulticastChannel} {datagrams : List (List Byte)}
    (h_fewer : honest → ∀ data, datagrams.count data ≤ (s.network c).count data) :
    Counts honest tr { s with network := Function.update s.network c datagrams } m k := by
  refine ⟨h.counted, h.seen, h.fits, fun h_honest d => ?_⟩
  have h_flow := h.flow h_honest d
  show _ + (Function.update s.network c datagrams d.1).count d.2 ≤ _
  by_cases h_c : d.1 = c
  · rw [h_c, Function.update_self]
    rw [h_c] at h_flow
    have h_less := h_fewer h_honest d.2
    omega
  · rw [Function.update_of_ne h_c]
    exact h_flow

/-- The hub receives a datagram. -/
theorem receive (h : Counts honest tr s m k) {c : MulticastChannel} {datagram : List Byte}
    (h_mem : datagram ∈ s.network c) (h_stage : k.stage = .rest) {b : Byte} {data : List Byte}
    (h_data : datagram.take kCapacity = b :: data) :
    Counts honest (tr ++ [.received c (b :: data)])
      { s with network := Function.update s.network c ((s.network c).erase datagram) } m
      { k with stage := .holding (c, b :: data) } := by
  have h_received : received (tr ++ [.received c (b :: data)]) =
      received tr ++ [(c, b :: data)] := by
    rw [received_append]
    rfl
  have h_on : ∀ c', receivedOn (tr ++ [.received c (b :: data)]) c' =
      receivedOn tr c' + [c].count c' := by
    intro c'
    rw [receivedOn_append]
    rfl
  refine ⟨fun c' => ?_, fun c' => ?_, h.fits, fun h_honest d => ?_⟩
  · obtain ⟨n, h_n, h_eq⟩ := h.counted c'
    rw [h_stage] at h_eq
    refine ⟨n, h_n, ?_⟩
    rw [h_on, ← h_eq]
    rfl
  · rw [h_on]
    exact le_trans (h.seen c') (Nat.le_add_right _ _)
  · -- a datagram that has been sent fits the buffer
    have h_whole : datagram = b :: data := by
      have h_sent : (c, datagram) ∈ m.sent := by
        have h_flow := h.flow_le h_honest c datagram
        have h_pos : 0 < (s.network c).count datagram := List.count_pos_iff.mpr h_mem
        exact List.count_pos_iff.mp (by omega)
      rw [← h_data, List.take_of_length_le (h.fits _ h_sent).2]
    obtain ⟨c', data'⟩ := d
    have h_flow := h.flow_le h_honest c' data'
    rw [h_received, List.count_append]
    show _ + (Function.update s.network c ((s.network c).erase datagram) c').count data' ≤ _
    by_cases h_c : c' = c
    · subst h_c
      rw [Function.update_self, List.count_erase, List.count_singleton, ← h_whole]
      by_cases h_eq : datagram = data'
      · subst h_eq
        have h_pos : 0 < (s.network c').count datagram := List.count_pos_iff.mpr h_mem
        simp only [beq_self_eq_true, if_true]
        omega
      · have h_ne : ((c', datagram) == (c', data')) = false := by simp [h_eq]
        simp only [h_ne, beq_iff_eq, h_eq, if_false, Bool.false_eq_true]
        omega
    · have h_ne : ((c, b :: data) == (c', data')) = false := by simp [Ne.symm h_c]
      rw [Function.update_of_ne h_c, List.count_singleton, h_ne, if_neg Bool.false_ne_true,
        Nat.add_zero]
      exact h_flow

end Counts

/-! ### The steps -/

/-- What a step has to meet: while the hub's thread is there, the operating system gives `main`
descriptors and lets it set them up; and `sequence` does not wrap. -/
def Orderly (i : Party) (env : Env) (s : Process) : Cmd → Prop
  | .net .socket => s.thread ≠ .absent → 0 ≤ env.reply.fd
  | .net (.setsockopt _ _) => s.thread ≠ .absent → env.reply.ok = true
  | .returned | .await => (s.feed.writer i).increments = true →
    s.feed.inlet.sequence ≠ BitVec.allOnes 64
  | _ => True

/-- Nobody else sends datagrams. -/
def Honest (env : Env) : Prop := ∀ c datagram, env.rest ≠ .arrive c datagram

namespace Turn

/-- What the threads know is so. -/
def Inv (lz4 : Feed.Lz4) (honest : Prop) (tr : List Event) (s : Process) (m k : Turn) : Prop :=
  Turns lz4 tr s m k ∧ Counts honest tr s m k

variable {lz4 : Feed.Lz4} {honest : Prop} {tr es : List Event} {env : Env} {s s' : Process}
  {m k : Turn}

/-- A step that concerns neither the inlet nor a datagram. -/
theorem Inv.congr (h : Inv lz4 honest tr s m k) (h_frame : s' = { s with
    table := s'.table, running := s'.running, inlet := s'.inlet }) :
    Inv lz4 honest (tr ++ []) s' m k := by
  rw [List.append_nil, h_frame]
  exact ⟨h.1.congr rfl rfl rfl rfl rfl rfl rfl rfl rfl rfl rfl rfl id,
    h.2.congr rfl rfl rfl rfl rfl rfl⟩

/-- A command of a socket that sends and receives nothing. -/
def Still : Sys Socket → Prop
  | .recvfrom _ _ _ | .sendto _ _ _ _ _ => False
  | _ => True

/-- Such a command concerns the table only. -/
theorem exec_table {self : Party} {env : Env} {c : Sys Socket} {r : Option c.Answer}
    {es : List Event} (h : Process.exec lz4 self env s (.net c) = some (s', r, es))
    (h_still : Still c) :
    ∃ table a, s.table.exec env.reply c = some (table, a) ∧ s' = { s with table } ∧
      r = some a ∧ es = [] := by
  -- the two calls that move datagrams are excluded
  cases c with
  | recvfrom _ _ _ | sendto _ _ _ _ _ => exact absurd h_still id
  | _ =>
    simp only [Process.exec] at h
    split at h
    · cases h
    · next h_table =>
      cases h
      exact ⟨_, _, h_table, rfl, rfl, rfl⟩

/-- A step of `main` on a socket. -/
theorem exec_net {env : Env} {c : Sys Socket} {post : c.Answer → Turn → Prop}
    {r : Option c.Answer} {es : List Event} (h : Inv lz4 honest tr s m k)
    (h_spec : netSpec m c post) (h_orderly : Orderly .main env s (.net c))
    (h_exec : Process.exec lz4 .main env s (.net c) = some (s', r, es)) :
    ∃ m', Inv lz4 honest (tr ++ es) s' m' k ∧ ∃ a, r = some a ∧ post a m' := by
  cases c with
  | recvfrom _ _ _ => exact absurd h_spec id
  | sendto k' _ buffer _ _ =>
    cases k' with
    | hub c => exact absurd h_spec id
    | simulator c =>
      obtain ⟨h_ne, h_length, h_sent, h_zero, h_none⟩ := h_spec
      cases h_reply : env.reply.sent with
      | none =>
        simp only [Process.exec, Process.sendto, h_reply] at h_exec
        cases h_exec
        exact ⟨m, h.congr rfl, _, rfl, h_none⟩
      | some n =>
        cases n with
        | zero =>
          simp only [Process.exec, Process.sendto, h_reply] at h_exec
          cases h_exec
          exact ⟨m, h.congr rfl, _, rfl, h_zero⟩
        | succ n =>
          simp only [Process.exec, Process.sendto, h_reply] at h_exec
          cases h_exec
          refine ⟨{ m with sent := m.sent ++ [(c, buffer)] },
            ⟨h.1.congr rfl rfl rfl ?_ ?_ rfl rfl rfl rfl rfl rfl rfl id, h.2.send h_ne h_length⟩,
            _, rfl, h_sent n⟩
          · rw [feedEvents_append]
            exact List.append_nil _
          · rw [received_append]
            exact List.append_nil _
  | socket =>
    obtain ⟨table, a, h_table, rfl, rfl, rfl⟩ := exec_table h_exec trivial
    -- whatever it is, it is what the operating system has given
    have h_a : a = env.reply.fd := by
      simp only [Net.Table.exec] at h_table
      split at h_table
      · cases h_table
        rfl
      · split at h_table
        · cases h_table
        · cases h_table
          rfl
    refine ⟨m, h.congr rfl, a, rfl, h_spec a fun h_up => ?_⟩
    rw [h_a]
    exact h_orderly (h.1.present.mpr h_up)
  | setsockopt _ _ =>
    obtain ⟨table, a, h_table, rfl, rfl, rfl⟩ := exec_table h_exec trivial
    cases h_table
    exact ⟨m, h.congr rfl, _, rfl, h_spec _ fun h_up => h_orderly (h.1.present.mpr h_up)⟩
  | fd _ | endpoint _ | bind _ _ _ =>
    obtain ⟨table, a, -, rfl, rfl, rfl⟩ := exec_table h_exec trivial
    exact ⟨m, h.congr rfl, a, rfl, h_spec a⟩
  | setFd _ _ | setEndpoint _ _ | close _ =>
    obtain ⟨table, a, -, rfl, rfl, rfl⟩ := exec_table h_exec trivial
    exact ⟨m, h.congr rfl, a, rfl, h_spec⟩

/-- The hub's thread is started. -/
theorem mainSpawn {post : Cmd.spawn.Answer → Turn → Prop} {r : Option Cmd.spawn.Answer}
    (h : Inv lz4 honest tr s m k) (h_spec : mainSpec m .spawn post)
    (h_exec : Process.exec lz4 .main env s .spawn = some (s', r, es)) :
    ∃ m', Inv lz4 honest (tr ++ es) s' m' k ∧ After mainSpec m' .spawn post r := by
  cases h_exec
  -- `main` hands the turn over, while it is at rest and the reader runs
  obtain ⟨h_up, h_stage, h_phase, h_calls, h_post⟩ := h_spec
  obtain ⟨h_absent, h_inside, -, -⟩ := h.1.main_turn h_up
  rw [List.append_nil]
  refine ⟨{ m with up := true }, ⟨⟨?_, fun h_in => ?_, h.1.outside,
    fun _ => ⟨h_stage, h_phase, h_calls⟩, h.1.idle_main, h.1.idle_hub, h.1.phase, h.1.mapped,
    h.1.log⟩, h.2.congr rfl rfl rfl rfl rfl rfl⟩, h_post⟩
  · exact iff_of_true HubThread.noConfusion rfl
  · exact absurd (h_inside.symm.trans h_in) Bool.noConfusion

/-- `main` has waited for the hub's thread. -/
theorem mainJoin {post : Cmd.join.Answer → Turn → Prop} {r : Option Cmd.join.Answer}
    (h : Inv lz4 honest tr s m k) (h_spec : mainSpec m .join post)
    (h_exec : Process.exec lz4 .main env s .join = some (s', r, es)) :
    ∃ m', Inv lz4 honest (tr ++ es) s' m' k ∧ After mainSpec m' .join post r := by
  -- once the thread is gone it is `main`'s turn for good
  have h_down : ∀ s' : Process, s'.thread = .absent → s'.feed = s.feed → s'.mapped = s.mapped →
      ¬k.inside = true → Turns lz4 tr s' { m with up := false } k := by
    intro s' h_thread h_feed h_mapped h_out
    refine ⟨?_, fun h_in => absurd h_in h_out, h.1.outside,
      fun h_up => absurd h_up Bool.noConfusion, ?_, ?_, ?_, ?_, ?_⟩
    · exact iff_of_false (fun h_ne => h_ne h_thread) Bool.noConfusion
    · rw [h_feed]
      exact h.1.idle_main
    · rw [h_feed]
      exact h.1.idle_hub
    · rw [h_feed]
      exact h.1.phase
    · rw [h_mapped]
      exact h.1.mapped
    · rw [h_feed]
      exact h.1.log
  simp only [Process.exec] at h_exec
  split at h_exec
  · next h_thread =>
    cases h_exec
    rw [List.append_nil]
    exact ⟨_, ⟨h_down s h_thread rfl rfl fun h_in => (h.1.inside h_in).1 h_thread,
      h.2.congr rfl rfl rfl rfl rfl rfl⟩, h_spec⟩
  · next h_thread =>
    -- the thread has left, so it is not inside
    cases h_exec
    rw [List.append_nil]
    exact ⟨_, ⟨h_down { s with thread := .absent } rfl rfl rfl
      fun h_in => (h.1.inside h_in).2 h_thread, h.2.congr rfl rfl rfl rfl rfl rfl⟩, h_spec⟩
  · cases h_exec
  · cases h_exec

/-- `main` calls `publish`. -/
theorem mainPublish {args : Feed.Args} {post : (Cmd.publish args).Answer → Turn → Prop}
    {r : Option (Cmd.publish args).Answer} (h : Inv lz4 honest tr s m k)
    (h_spec : mainSpec m (.publish args) post)
    (h_exec : Process.exec lz4 .main env s (.publish args) = some (s', r, es)) :
    ∃ m', Inv lz4 honest (tr ++ es) s' m' k ∧ After mainSpec m' (.publish args) post r := by
  simp only [Process.exec] at h_exec
  obtain ⟨rfl, feed, es', h_step, rfl, rfl⟩ := Process.map_feedStep_eq_some h_exec
  obtain ⟨h_up, -, h_phase, h_fits, h_post⟩ := h_spec
  -- a publish is neither received nor sent
  refine ⟨_, ⟨h.1.main_publish h_up h_phase h_fits h_step, h.2.congr rfl rfl ?_ rfl rfl rfl⟩,
    h_post⟩
  rw [received_append, received_map, List.append_nil]

/-- `publish` goes on, or returns. -/
theorem mainReturned {post : Cmd.returned.Answer → Turn → Prop} {r : Option Cmd.returned.Answer}
    (h : Inv lz4 honest tr s m k) (h_spec : mainSpec m .returned post)
    (h_orderly : Orderly .main env s .returned)
    (h_exec : Process.exec lz4 .main env s .returned = some (s', r, es)) :
    ∃ m', Inv lz4 honest (tr ++ es) s' m' k ∧ After mainSpec m' .returned post r := by
  have h_keep := h_spec
  obtain ⟨h_up, h_phase, h_stage, h_post⟩ := h_spec
  simp only [Process.exec] at h_exec
  -- `publish` has returned
  split at h_exec
  · cases h_exec
    exact ⟨m, h.congr rfl, h_post⟩
  · -- it goes on, with a step of the inlet's system and no datagram
    obtain ⟨rfl, feed, es', h_step, rfl, rfl⟩ := Process.map_feedStep_eq_some h_exec
    refine ⟨m, ⟨h.1.main_write h_up h_phase (by rw [h_stage]; rfl) h_orderly h_step,
      h.2.congr rfl rfl ?_ rfl rfl rfl⟩, h_keep⟩
    rw [received_append, received_map, List.append_nil]

/-- `main` waits, or is through with it. -/
theorem mainAwait {post : Cmd.await.Answer → Turn → Prop} {r : Option Cmd.await.Answer}
    (h : Inv lz4 honest tr s m k) (h_spec : mainSpec m .await post)
    (h_orderly : Orderly .main env s .await)
    (h_exec : Process.exec lz4 .main env s .await = some (s', r, es)) :
    ∃ m', Inv lz4 honest (tr ++ es) s' m' k ∧ After mainSpec m' .await post r := by
  have h_keep := h_spec
  obtain ⟨h_up, h_phase, h_stage, h_post⟩ := h_spec
  simp only [Process.exec] at h_exec
  -- `main` is through, and no longer in a call
  split at h_exec
  · next h_idle =>
    cases h_exec
    rw [List.append_nil]
    exact ⟨_, ⟨h.1.main_left h_idle, h.2.congr rfl rfl rfl rfl rfl rfl⟩, h_post⟩
  · -- the wait goes on
    obtain ⟨rfl, feed, es', h_step, rfl, rfl⟩ := Process.map_feedStep_eq_some h_exec
    refine ⟨m, ⟨h.1.main_write h_up h_phase (by rw [h_stage]; rfl) h_orderly h_step,
      h.2.congr rfl rfl ?_ rfl rfl rfl⟩, h_keep⟩
    rw [received_append, received_map, List.append_nil]

/-- The two operations of `Reader::start`. -/
theorem mainStartReader {post : Cmd.startReader.Answer → Turn → Prop}
    {r : Option Cmd.startReader.Answer} (h : Inv lz4 honest tr s m k)
    (h_spec : mainSpec m .startReader post)
    (h_exec : Process.exec lz4 .main env s .startReader = some (s', r, es)) :
    ∃ m', Inv lz4 honest (tr ++ es) s' m' k ∧ After mainSpec m' .startReader post r := by
  simp only [Process.exec] at h_exec
  obtain ⟨rfl, feed, es', h_step, rfl, rfl⟩ := Process.map_feedStep_eq_some h_exec
  have h_phase := h.1.phase
  rcases h_spec with ⟨h_m, h_post⟩ | ⟨h_m, h_post⟩
  · -- the sequence is loaded: nothing has been published
    rw [h_m] at h_phase
    obtain ⟨h_pubs, h_outs, h_feed⟩ := h_phase
    rw [h_feed] at h_step
    cases h_step
    rw [List.map_nil, List.append_nil]
    have h_up := h.1.down (by rw [h_m]; exact Phase.noConfusion)
    refine ⟨{ m with phase := .loading },
      ⟨h.1.move h_up ?_ ⟨h_pubs, h_outs, rfl⟩ (by rw [h_m]; exact Phase.noConfusion),
        h.2.congr rfl rfl rfl rfl rfl rfl⟩, h_post⟩
    rw [h_feed]
  · -- the thread is there, on an inlet that is as it was constructed
    rw [h_m] at h_phase
    obtain ⟨h_pubs, h_outs, h_feed⟩ := h_phase
    rw [h_feed] at h_step
    cases h_step
    rw [List.map_nil, List.append_nil]
    have h_up := h.1.down (by rw [h_m]; exact Phase.noConfusion)
    refine ⟨{ m with phase := .reading },
      ⟨h.1.move h_up ?_ ?_ (by rw [h_m]; exact Phase.noConfusion),
        h.2.congr rfl rfl rfl rfl rfl rfl⟩, h_post⟩
    · rw [h_feed]
    · rw [h_pubs, h_outs]
      exact Feed.InletInv.initial lz4

/-- The reader is told to stop. -/
theorem mainStopReader {post : Cmd.stopReader.Answer → Turn → Prop}
    {r : Option Cmd.stopReader.Answer} (h : Inv lz4 honest tr s m k)
    (h_spec : mainSpec m .stopReader post)
    (h_exec : Process.exec lz4 .main env s .stopReader = some (s', r, es)) :
    ∃ m', Inv lz4 honest (tr ++ es) s' m' k ∧ After mainSpec m' .stopReader post r := by
  simp only [Process.exec] at h_exec
  obtain ⟨rfl, feed, es', h_step, rfl, rfl⟩ := Process.map_feedStep_eq_some h_exec
  cases h_step
  rw [List.map_nil, List.append_nil]
  have h_phase := h.1.phase
  rcases h_spec with ⟨h_m, h_post⟩ | ⟨h_m, h_up, h_stage, h_post⟩
  · -- it has not been started
    rw [h_m] at h_phase
    obtain ⟨-, -, h_feed⟩ := h_phase
    have h_same : { s.feed with running := false } = s.feed := by rw [h_feed]; rfl
    rw [h_same]
    exact ⟨m, h, h_post⟩
  · -- nobody publishes: `main` calls `stop`, and the hub's thread is not there
    have h_idle : ∀ i, s.feed.writer i = .idle := by
      intro i
      cases i with
      | main => exact h.1.idle_main (by rw [h_stage]; rfl)
      | hub => exact (h.1.main_turn h_up).2.2.2
    refine ⟨{ m with phase := .stopping },
      ⟨h.1.move h_up rfl ?_ ?_, h.2.congr rfl rfl rfl rfl rfl rfl⟩, h_post⟩
    · rcases h_m with h_m | h_m
      · rw [h_m] at h_phase
        exact h_phase.quiet h_idle
      · rw [h_m] at h_phase
        exact h_phase.1.stop
    · rcases h_m with h_m | h_m <;> rw [h_m] <;> exact Phase.noConfusion

/-- `main` has waited for the reader. -/
theorem mainJoinReader {post : Cmd.joinReader.Answer → Turn → Prop}
    {r : Option Cmd.joinReader.Answer} (h : Inv lz4 honest tr s m k)
    (h_spec : mainSpec m .joinReader post)
    (h_exec : Process.exec lz4 .main env s .joinReader = some (s', r, es)) :
    ∃ m', Inv lz4 honest (tr ++ es) s' m' k ∧ After mainSpec m' .joinReader post r := by
  simp only [Process.exec] at h_exec
  split at h_exec
  · -- the reader's thread has left
    next h_pc =>
    cases h_exec
    rw [List.append_nil]
    rcases h_spec with ⟨h_m, h_post⟩ | ⟨h_m, h_post⟩
    · -- there was no reader
      exact ⟨m, h, h_post⟩
    · -- or it has been told to stop, and now it has
      have h_phase := h.1.phase
      rw [h_m] at h_phase
      have h_up := h.1.down (by rw [h_m]; exact Phase.noConfusion)
      exact ⟨{ m with phase := .stopped },
        ⟨h.1.move h_up rfl ⟨h_phase, h_pc⟩ (by rw [h_m]; exact Phase.noConfusion),
          h.2.congr rfl rfl rfl rfl rfl rfl⟩, h_post⟩
  · cases h_exec

/-- The inlet is unmapped. -/
theorem mainUnmap {post : Cmd.unmap.Answer → Turn → Prop} {r : Option Cmd.unmap.Answer}
    (h : Inv lz4 honest tr s m k) (h_spec : mainSpec m .unmap post)
    (h_exec : Process.exec lz4 .main env s .unmap = some (s', r, es)) :
    ∃ m', Inv lz4 honest (tr ++ es) s' m' k ∧ After mainSpec m' .unmap post r := by
  cases h_exec
  obtain ⟨h_m, h_post⟩ := h_spec
  have h_phase := h.1.phase
  have h_up := h.1.down (by rw [h_m]; exact Phase.noConfusion)
  rw [h_m] at h_phase
  rw [List.append_nil]
  exact ⟨{ m with phase := .unmapped }, ⟨⟨h.1.present, h.1.inside, h.1.outside,
    fun h_now => absurd (h_up.symm.trans h_now) Bool.noConfusion, h.1.idle_main, h.1.idle_hub,
    h_phase, fun _ => rfl, h.1.log⟩, h.2.congr rfl rfl rfl rfl rfl rfl⟩, h_post⟩

/-- A step of `main` keeps the outline. -/
theorem exec_main {c : Cmd} {post : c.Answer → Turn → Prop} {r : Option c.Answer}
    (h : Inv lz4 honest tr s m k) (h_spec : mainSpec m c post)
    (h_orderly : Orderly .main env s c)
    (h_exec : Process.exec lz4 .main env s c = some (s', r, es)) :
    ∃ m', Inv lz4 honest (tr ++ es) s' m' k ∧ After mainSpec m' c post r := by
  -- the commands that take part in a turn have their lemmas above
  cases c with
  | net c =>
    obtain ⟨m', h_inv, a, rfl, h_post⟩ := exec_net h h_spec h_orderly h_exec
    exact ⟨m', h_inv, h_post⟩
  | storeRunning _ | setInlet _ =>
    cases h_exec
    exact ⟨m, h.congr rfl, h_spec⟩
  | datagrams c =>
    -- a look at a counter is noted for what is known of it
    cases h_exec
    rw [List.append_nil]
    exact ⟨{ m with seen := Function.update m.seen c (s.datagrams c).toNat },
      ⟨h.1.congr rfl rfl rfl rfl rfl rfl rfl rfl rfl rfl rfl rfl id, h.2.see c⟩, h_spec _⟩
  | spawn => exact mainSpawn h h_spec h_exec
  | join => exact mainJoin h h_spec h_exec
  | publish args => exact mainPublish h h_spec h_exec
  | returned => exact mainReturned h h_spec h_orderly h_exec
  | await => exact mainAwait h h_spec h_orderly h_exec
  | startReader => exact mainStartReader h h_spec h_exec
  | stopReader => exact mainStopReader h h_spec h_exec
  | joinReader => exact mainJoinReader h h_spec h_exec
  | unmap => exact mainUnmap h h_spec h_exec
  | poll _ | loop _ | exit | loadRunning | count _ => exact absurd h_spec id

/-- The hub's thread receives a datagram, or none. -/
theorem hubRecvfrom {c : MulticastChannel} {fd : Int} {capacity : ℕ}
    {post : (Cmd.net (.recvfrom (.hub c) fd capacity)).Answer → Turn → Prop}
    {r : Option (Cmd.net (.recvfrom (.hub c) fd capacity)).Answer}
    (h : Inv lz4 honest tr s m k) (h_spec : hubSpec k (.net (.recvfrom (.hub c) fd capacity)) post)
    (h_exec : Process.exec lz4 .hub env s (.net (.recvfrom (.hub c) fd capacity)) =
      some (s', r, es)) :
    ∃ k', Inv lz4 honest (tr ++ es) s' m k' ∧
      After hubSpec k' (.net (.recvfrom (.hub c) fd capacity)) post r := by
  obtain ⟨h_inside, h_stage, rfl, h_none, h_empty, h_post⟩ := h_spec
  cases h_reply : env.reply.received with
  | none =>
    simp only [Process.exec, Process.recvfrom, h_reply] at h_exec
    cases h_exec
    exact ⟨k, h.congr rfl, h_none⟩
  | some bytes =>
    by_cases h_mem : env.datagram ∈ s.network c
    · simp only [Process.exec, Process.recvfrom, h_reply, if_pos h_mem] at h_exec
      cases h_data : env.datagram.take kCapacity with
      | nil =>
        -- an empty datagram is taken and ignored
        rw [h_data] at h_exec
        cases h_exec
        have h_received : received (tr ++ [.received c []]) = received tr := by
          rw [received_append]
          exact List.append_nil _
        refine ⟨k, ⟨h.1.congr rfl rfl rfl ?_ h_received rfl rfl rfl rfl rfl rfl rfl id,
          (h.2.network fun _ data => ?_).congr rfl rfl h_received rfl rfl rfl⟩, h_empty⟩
        · rw [feedEvents_append]
          exact List.append_nil _
        · exact List.Sublist.count_le data List.erase_sublist
      | cons b data =>
        rw [h_data] at h_exec
        cases h_exec
        have h_length : (b :: data).length ≤ kCapacity := by
          rw [← h_data]
          exact List.length_take_le _ _
        exact ⟨{ k with stage := .holding (c, b :: data) },
          ⟨h.1.receive h_inside h_stage, h.2.receive h_mem h_stage h_data⟩,
          h_post b data h_length⟩
    · simp only [Process.exec, Process.recvfrom, h_reply, if_neg h_mem] at h_exec
      cases h_exec

/-- The hub's thread has filled its array. -/
theorem hubLoop {descriptors : MulticastChannel → Int}
    {post : (Cmd.loop descriptors).Answer → Turn → Prop}
    {r : Option (Cmd.loop descriptors).Answer} (h : Inv lz4 honest tr s m k)
    (h_spec : hubSpec k (.loop descriptors) post)
    (h_exec : Process.exec lz4 .hub env s (.loop descriptors) = some (s', r, es)) :
    ∃ k', Inv lz4 honest (tr ++ es) s' m k' ∧ After hubSpec k' (.loop descriptors) post r := by
  cases h_exec
  obtain ⟨h_inside, h_post⟩ := h_spec
  rw [List.append_nil]
  refine ⟨k, ⟨⟨?_, fun _ => ⟨HubThread.noConfusion, HubThread.noConfusion⟩, h.1.outside,
    h.1.apart, h.1.idle_main, h.1.idle_hub, h.1.phase, h.1.mapped, h.1.log⟩,
    h.2.congr rfl rfl rfl rfl rfl rfl⟩, h_post⟩
  exact iff_of_true HubThread.noConfusion (h.1.hub_turn h_inside).1

/-- `MulticastHub::run` returns. -/
theorem hubExit {post : Cmd.exit.Answer → Turn → Prop} {r : Option Cmd.exit.Answer}
    (h : Inv lz4 honest tr s m k) (h_spec : hubSpec k .exit post)
    (h_exec : Process.exec lz4 .hub env s .exit = some (s', r, es)) :
    ∃ k', Inv lz4 honest (tr ++ es) s' m k' ∧ After hubSpec k' .exit post r := by
  cases h_exec
  obtain ⟨h_inside, h_stage, h_post⟩ := h_spec
  rw [List.append_nil]
  refine ⟨{ k with inside := false }, ⟨⟨?_, fun h_in => absurd h_in Bool.noConfusion,
    fun _ => h_stage, h.1.apart, h.1.idle_main, h.1.idle_hub, h.1.phase, h.1.mapped, h.1.log⟩,
    h.2.congr rfl rfl rfl rfl rfl rfl⟩, h_post⟩
  exact iff_of_true HubThread.noConfusion (h.1.hub_turn h_inside).1

/-- The hub's thread calls `publish`. -/
theorem hubPublish {args : Feed.Args} {post : (Cmd.publish args).Answer → Turn → Prop}
    {r : Option (Cmd.publish args).Answer} (h : Inv lz4 honest tr s m k)
    (h_spec : hubSpec k (.publish args) post)
    (h_exec : Process.exec lz4 .hub env s (.publish args) = some (s', r, es)) :
    ∃ k', Inv lz4 honest (tr ++ es) s' m k' ∧ After hubSpec k' (.publish args) post r := by
  simp only [Process.exec] at h_exec
  obtain ⟨rfl, feed, es', h_step, rfl, rfl⟩ := Process.map_feedStep_eq_some h_exec
  obtain ⟨h_inside, d, h_stage, rfl, h_length, h_post⟩ := h_spec
  refine ⟨_, ⟨h.1.hub_publish h_inside h_stage h_length h_step,
    h.2.congr rfl rfl ?_ rfl rfl ?_⟩, h_post⟩
  · rw [received_append, received_map, List.append_nil]
  · rw [h_stage]
    rfl

/-- `publish` goes on, or returns. -/
theorem hubReturned {post : Cmd.returned.Answer → Turn → Prop} {r : Option Cmd.returned.Answer}
    (h : Inv lz4 honest tr s m k) (h_spec : hubSpec k .returned post)
    (h_orderly : Orderly .hub env s .returned)
    (h_exec : Process.exec lz4 .hub env s .returned = some (s', r, es)) :
    ∃ k', Inv lz4 honest (tr ++ es) s' m k' ∧ After hubSpec k' .returned post r := by
  have h_keep := h_spec
  obtain ⟨h_inside, ⟨c, h_stage⟩, h_post⟩ := h_spec
  simp only [Process.exec] at h_exec
  -- `publish` has returned
  split at h_exec
  · cases h_exec
    exact ⟨k, h.congr rfl, h_post⟩
  · -- it goes on
    obtain ⟨rfl, feed, es', h_step, rfl, rfl⟩ := Process.map_feedStep_eq_some h_exec
    refine ⟨k, ⟨h.1.hub_write h_inside (by rw [h_stage]; rfl) h_orderly h_step,
      h.2.congr rfl rfl ?_ rfl rfl rfl⟩, h_keep⟩
    rw [received_append, received_map, List.append_nil]

/-- A datagram is counted. -/
theorem hubCount {c : MulticastChannel} {post : (Cmd.count c).Answer → Turn → Prop}
    {r : Option (Cmd.count c).Answer} (h : Inv lz4 honest tr s m k)
    (h_spec : hubSpec k (.count c) post)
    (h_exec : Process.exec lz4 .hub env s (.count c) = some (s', r, es)) :
    ∃ k', Inv lz4 honest (tr ++ es) s' m k' ∧ After hubSpec k' (.count c) post r := by
  cases h_exec
  obtain ⟨h_stage, h_post⟩ := h_spec
  rw [List.append_nil]
  -- the datagram counted is no longer uncounted, and the hub waits for it
  refine ⟨{ k with stage := .waiting }, ⟨h.1.congr rfl rfl rfl rfl rfl rfl rfl rfl rfl rfl ?_ ?_
    fun h_rest => ?_, h.2.count h_stage⟩, h_post⟩
  · rw [h_stage]
    rfl
  · rw [h_stage]
    rfl
  · exact absurd (h_stage.symm.trans h_rest) Stage.noConfusion

/-- The hub's thread waits, or is through with it. -/
theorem hubAwait {post : Cmd.await.Answer → Turn → Prop} {r : Option Cmd.await.Answer}
    (h : Inv lz4 honest tr s m k) (h_spec : hubSpec k .await post)
    (h_orderly : Orderly .hub env s .await)
    (h_exec : Process.exec lz4 .hub env s .await = some (s', r, es)) :
    ∃ k', Inv lz4 honest (tr ++ es) s' m k' ∧ After hubSpec k' .await post r := by
  have h_keep := h_spec
  obtain ⟨h_inside, h_stage, h_post⟩ := h_spec
  simp only [Process.exec] at h_exec
  split at h_exec
  · -- the hub is through with its datagram
    next h_idle =>
    cases h_exec
    rw [List.append_nil]
    refine ⟨_, ⟨h.1.hub_left h_stage h_idle, h.2.congr rfl rfl rfl rfl rfl ?_⟩, h_post⟩
    rw [h_stage]
    rfl
  · -- the wait goes on
    obtain ⟨rfl, feed, es', h_step, rfl, rfl⟩ := Process.map_feedStep_eq_some h_exec
    refine ⟨k, ⟨h.1.hub_write h_inside (by rw [h_stage]; rfl) h_orderly h_step,
      h.2.congr rfl rfl ?_ rfl rfl rfl⟩, h_keep⟩
    rw [received_append, received_map, List.append_nil]

/-- So does a step of the hub's thread. -/
theorem exec_hub {c : Cmd} {post : c.Answer → Turn → Prop} {r : Option c.Answer}
    (h : Inv lz4 honest tr s m k) (h_spec : hubSpec k c post)
    (h_orderly : Orderly .hub env s c)
    (h_exec : Process.exec lz4 .hub env s c = some (s', r, es)) :
    ∃ k', Inv lz4 honest (tr ++ es) s' m k' ∧ After hubSpec k' c post r := by
  -- as for `main`: a lemma for each command that takes part in a turn
  cases c with
  | net c =>
    cases c with
    | fd k' =>
      obtain ⟨table, a, -, rfl, rfl, rfl⟩ := exec_table h_exec trivial
      exact ⟨k, h.congr rfl, h_spec a⟩
    | recvfrom k' fd capacity =>
      cases k' with
      | simulator c => exact absurd h_spec id
      | hub c => exact hubRecvfrom h h_spec h_exec
    | _ => exact absurd h_spec id
  | poll _ | loadRunning =>
    cases h_exec
    exact ⟨k, h.congr rfl, h_spec _⟩
  | loop descriptors => exact hubLoop h h_spec h_exec
  | exit => exact hubExit h h_spec h_exec
  | publish args => exact hubPublish h h_spec h_exec
  | returned => exact hubReturned h h_spec h_orderly h_exec
  | count c => exact hubCount h h_spec h_exec
  | await => exact hubAwait h h_spec h_orderly h_exec
  | spawn | join | storeRunning _ | setInlet _ | datagrams _ | stopReader | joinReader | startReader
  | unmap => exact absurd h_spec id

end Turn

end Host

end Hft
