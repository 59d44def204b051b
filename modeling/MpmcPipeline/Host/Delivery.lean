import MpmcPipeline.Host.Lifecycle
import MpmcPipeline.Host.Programs

/-!
# What `main` and the hub deliver

In every orderly run the two take turns on the inlet (`inlet_turns`), and when `main` is through the
reader has done what the frames ask for, in order: the datagrams that the hub has received, then,
unless enough of them have been counted, the frames that `main` publishes itself, and then the
compressed frame (`main_delivers`). When nobody else sends datagrams, each of the frames has been
delivered, and none more than twice (`frames_delivered`).
-/

namespace Hft

namespace Host

open Feed (kCapacity)

/-- LZ4 decompresses what it has compressed. -/
def Library.Inverts (lib : Library) (lz4 : Feed.Lz4) : Prop :=
  ∀ input capacity output, input ≠ [] → lib.compressDefault input capacity = some output →
    output ≠ [] ∧ ∀ n, input.length ≤ n → lz4.decompressSafe output n = some input

/-- The compressed frame is delivered as the frame that `main` has built. -/
theorem Library.Inverts.deliver {lib : Library} {lz4 : Feed.Lz4} {frames : Frames}
    (h : lib.Inverts lz4) (h_plain : frames.mtbtPlain.length ≤ kCapacity) :
    ∀ args ∈ compressedArgs lib frames,
      args.deliver lz4 = .ingested .mtbt frames.mtbtPlain := by
  intro args h_args
  unfold compressedArgs at h_args
  -- a frame that is not compressed is not published
  cases h_compress : lib.compress frames.mtbtPlain kCapacity with
  | none =>
    rw [h_compress] at h_args
    exact absurd h_args List.not_mem_nil
  | some compressed =>
    rw [h_compress] at h_args
    obtain rfl := List.mem_singleton.mp h_args
    unfold Library.compress at h_compress
    split at h_compress
    · cases h_compress
    · next h_some =>
      -- only a frame with payload is compressed
      have h_pos : frames.mtbtPlain.length ≠ 0 := fun h_zero => h_some (Or.inl h_zero)
      obtain ⟨h_ne, h_decompress⟩ := h _ _ _ (fun h_nil => h_pos (by rw [h_nil]; rfl)) h_compress
      -- its length survives the cast to 32 bits
      have h_small : kCapacity < 2 ^ 32 := by decide
      have h_len : (BitVec.ofNat 32 frames.mtbtPlain.length).toNat = frames.mtbtPlain.length := by
        rw [BitVec.toNat_ofNat, Nat.mod_eq_of_lt (by omega)]
      have h_flag : Feed.hasFlag Feed.lz4Compressed Feed.lz4Compressed = true := by decide
      -- so the announced length is neither zero nor too great
      have h_good : ¬(BitVec.ofNat 32 frames.mtbtPlain.length = 0 ∨
          kCapacity < frames.mtbtPlain.length) := by
        rintro (h_zero | h_big)
        · exact h_pos (h_len.symm.trans (congrArg BitVec.toNat h_zero))
        · exact absurd h_plain (Nat.not_le.mpr h_big)
      -- and the decompressor is given what the compressor has written
      have h_lz4 : lz4.decompress compressed kCapacity = some frames.mtbtPlain := by
        unfold Feed.Lz4.decompress
        rw [if_neg ?_]
        · exact h_decompress kCapacity h_plain
        · rintro (h_zero | h_zero)
          · exact h_ne (List.eq_nil_of_length_eq_zero h_zero)
          · exact absurd h_zero (by decide)
      unfold Feed.Args.deliver Feed.dispatch Feed.Source.outcome
      simp only [Option.getD_some, if_neg h_ne, if_pos h_flag, h_len, if_neg h_good, h_lz4, if_true]

theorem publishArgs_deliver (lz4 : Feed.Lz4) (d : MulticastChannel × List Byte) :
    (publishArgs d).deliver lz4 = ingested d := by
  obtain ⟨c, data⟩ := d
  -- none of them is flagged as compressed
  have h_flag : Feed.hasFlag 0#16 Feed.lz4Compressed = false := by decide
  unfold Feed.Args.deliver ingested
  cases c with
  | itch | mcx => rfl
  | mtbt => simp [publishArgs, Feed.dispatch, MulticastChannel.kind, h_flag]

/-! ### What follows -/

section

variable {lib : Library} {frames : Frames} {lz4 : Feed.Lz4} {honest : Prop} {tr : List Event}
  {s : State}

/-- Whatever phase it is, what the reader has done is a part of what it will do. -/
theorem Phase.Holds.delivered {pubs : List (Party × Feed.Frame)} {outs : List Feed.Outcome}
    {s : Feed.System Party} {phase : Phase} (h : phase.Holds lz4 pubs outs s) :
    outs <+: pubs.map fun p => Feed.deliver lz4 p.2 := by
  cases phase with
  | before | loading =>
    obtain ⟨rfl, rfl, -⟩ := h
    exact List.prefix_rfl
  | reading => exact Feed.InletInv.delivered h
  | stopping => rw [Feed.Quiet.delivered h]
  | stopped | unmapped => rw [h.1.delivered]

/-- The reader does not read the slot that is being written. -/
theorem Phase.Holds.apart {pubs : List (Party × Feed.Frame)} {outs : List Feed.Outcome}
    {s : Feed.System Party} {phase : Phase} (h : phase.Holds lz4 pubs outs s) {i : Party}
    {w r : Fin 2} {frame : Feed.Frame} {n : ℕ} {q : BitVec 64}
    (h_write : s.writer i = .write w frame n) (h_read : s.reader.pc.reading = some (q, r)) :
    r ≠ w := by
  cases phase with
  | before | loading =>
    rw [h.2.2] at h_write
    cases h_write
  | reading => exact Feed.InletInv.apart h h_write h_read
  | stopping => exact Feed.WriterPc.noConfusion ((Feed.Quiet.idle h i).symm.trans h_write)
  | stopped | unmapped => exact Feed.WriterPc.noConfusion ((h.1.idle i).symm.trans h_write)

theorem Turn.reach (h : (system lz4).machine.ReachBy (Parallel.Meets Orderly fun env _ =>
    honest → Honest env) (State.start lib frames) tr s) :
    (Turn.outline lz4 honest lib frames).Holds tr s :=
  (Turn.sound lz4 honest lib frames).reach (Turn.outline_start lz4 honest lib frames) h

/-- Whoever else sends datagrams. -/
theorem Turn.reach_anyway (h : (system lz4).machine.ReachBy (Parallel.Meets Orderly fun _ _ =>
    True) (State.start lib frames) tr s) : (Turn.outline lz4 False lib frames).Holds tr s :=
  Turn.reach (h.mono fun _ _ => Parallel.Meets.mono fun _ _ _ => False.elim)

/-- **`main` and the hub take turns.** In every orderly run, whoever else sends datagrams: not both
are in a call of `publish`, and the reader never reads the slot that is being written; what it has
done is, in order, what the published frames ask for; the hub has published datagrams that it has
received, each once and in order, and `main` nothing before that; a counter never says more than
has been received; and once the inlet is unmapped nobody has to do with it. -/
theorem inlet_turns (h : (system lz4).machine.ReachBy (Parallel.Meets Orderly fun _ _ => True)
    (State.start lib frames) tr s) :
    (s.shared.feed.writer .main = .idle ∨ s.shared.feed.writer .hub = .idle) ∧
    (∀ i w frame n q r, s.shared.feed.writer i = .write w frame n →
      s.shared.feed.reader.pc.reading = some (q, r) → r ≠ w) ∧
    Feed.outcomes (feedEvents tr) <+:
      (Feed.published (feedEvents tr)).map (fun p => Feed.deliver lz4 p.2) ∧
    (∃ own : List Feed.Args, (Feed.published (feedEvents tr)).map callOf <+:
      (received tr).map hubCall ++ own.map (Prod.mk .main)) ∧
    (∀ c, (s.shared.datagrams c).toNat ≤ receivedOn tr c) ∧
    (s.shared.mapped = false → s.shared.thread = .absent ∧ s.shared.feed.reader.pc = .exited ∧
      ∀ i, s.shared.feed.writer i = .idle) := by
  -- the invariant of the turns holds in every state reached
  obtain ⟨K, ⟨h_turns, h_counts⟩, -⟩ := Turn.reach_anyway h
  refine ⟨?_, fun i w frame n q r h_write h_read => h_turns.phase.apart h_write h_read,
    h_turns.phase.delivered, ⟨(K .main).calls, ?_⟩, fun c => ?_, fun h_unmapped => ?_⟩
  · -- while the hub's thread is there `main` is idle, and else the hub is
    cases h_up : (K .main).up with
    | true => exact Or.inl (h_turns.idle_main (by rw [(h_turns.apart h_up).1]; rfl))
    | false => exact Or.inr (h_turns.main_turn h_up).2.2.2
  · rw [← h_turns.log, List.map_append, List.append_assoc]
    exact List.prefix_append _ _
  · -- the counter is that of the datagrams counted, modulo 2^64
    obtain ⟨n, h_n, h_eq⟩ := h_counts.counted c
    rw [h_n, BitVec.toNat_ofNat]
    calc n % 2 ^ 64 ≤ n := Nat.mod_le n (2 ^ 64)
      _ ≤ receivedOn tr c := by omega
  · -- the inlet is unmapped when the hub and the reader are gone
    have h_unmapped := h_turns.mapped h_unmapped
    have h_phase := h_turns.phase
    rw [h_unmapped] at h_phase
    have h_up := h_turns.down (by rw [h_unmapped]; exact Phase.noConfusion)
    exact ⟨(h_turns.main_turn h_up).1, h_phase.2, h_phase.1.idle⟩

/-- What is known when `main` is through. -/
theorem Turn.reach_done (h : (Turn.outline lz4 honest lib frames).Holds tr s)
    (h_done : s.code .main = .done ()) :
    ∃ (fallback : Bool) (sent : List (MulticastChannel × List Byte)),
    Feed.outcomes (feedEvents tr) = (received tr ++ if fallback then frames.datagrams else []).map
      ingested ++ (compressedArgs lib frames).map (Feed.Args.deliver lz4) ∧
    (fallback = false →
      1 ≤ receivedOn tr .itch ∧ 1 ≤ receivedOn tr .mtbt ∧ 2 ≤ receivedOn tr .mcx) ∧
    sent.Sublist frames.datagrams ∧
    (honest → ∀ d, (received tr).count d ≤ sent.count d) := by
  obtain ⟨K, ⟨h_turns, h_counts⟩, h_rest⟩ := h.finished h_done
  obtain ⟨h_up, h_unmapped, h_stage, h_sent, fallback, h_calls, h_seen⟩ := h_rest
  obtain ⟨-, -, h_hub, h_idle⟩ := h_turns.main_turn h_up
  have h_phase := h_turns.phase
  rw [h_unmapped] at h_phase
  refine ⟨fallback, (K .main).sent, ?_, fun h_false => ?_, h_sent, fun h_honest d => ?_⟩
  · -- nothing is under way, so everything called for has been published and delivered
    have h_log := h_turns.log
    have h_main := h_turns.idle_main (by rw [h_stage]; rfl)
    rw [underway_main h_idle, h_main, h_hub, h_calls] at h_log
    have h_args : (Feed.published (feedEvents tr)).map callOf = (received tr).map hubCall ++
        (fallbackArgs frames fallback ++ compressedArgs lib frames).map (Prod.mk .main) := by
      simpa [Feed.WriterPc.frame, Stage.held] using h_log
    have h_datagrams : ∀ ds : List (MulticastChannel × List Byte),
        (ds.map publishArgs).map (Feed.Args.deliver lz4) = ds.map ingested := by
      intro ds
      rw [List.map_map]
      exact List.map_congr_left fun d _ => publishArgs_deliver lz4 d
    have h_fallback : (fallbackArgs frames fallback).map (Feed.Args.deliver lz4) =
        (if fallback then frames.datagrams else []).map ingested := by
      cases fallback with
      | true => exact h_datagrams frames.datagrams
      | false => rfl
    calc Feed.outcomes (feedEvents tr)
        = (Feed.published (feedEvents tr)).map fun p => Feed.deliver lz4 p.2 := h_phase.1.delivered
      _ = ((Feed.published (feedEvents tr)).map callOf).map fun c => c.2.deliver lz4 := by
        rw [List.map_map]
        rfl
      _ = ((received tr).map publishArgs ++ (fallbackArgs frames fallback ++
            compressedArgs lib frames)).map (Feed.Args.deliver lz4) := by
        rw [h_args]
        simp only [List.map_append, List.map_map]
        rfl
      _ = _ := by
        rw [List.map_append, List.map_append, h_datagrams, h_fallback, List.map_append,
          List.append_assoc]
  · obtain ⟨h_itch, h_mtbt, h_mcx⟩ := h_seen h_false
    exact ⟨le_trans h_itch (h_counts.seen _), le_trans h_mtbt (h_counts.seen _),
      le_trans h_mcx (h_counts.seen _)⟩
  · exact le_trans (Nat.le_add_right _ _) (h_counts.flow h_honest d)

/-- **Everything is delivered.** In every orderly run, whoever else sends datagrams: when `main` is
through, the reader has done, in order, what the datagrams that the hub has received ask for, then
what the four frames do, unless as many datagrams as them have been received, and then what the
compressed frame does, if there is one: that is the frame that `main` has built, when LZ4
decompresses what it has compressed. -/
theorem main_delivers (h : (system lz4).machine.ReachBy (Parallel.Meets Orderly fun _ _ => True)
    (State.start lib frames) tr s) (h_done : s.code .main = .done ()) :
    ∃ fallback : Bool,
      Feed.outcomes (feedEvents tr) =
        (received tr ++ if fallback then frames.datagrams else []).map ingested ++
          (compressedArgs lib frames).map (Feed.Args.deliver lz4) ∧
      (fallback = false →
        1 ≤ receivedOn tr .itch ∧ 1 ≤ receivedOn tr .mtbt ∧ 2 ≤ receivedOn tr .mcx) ∧
      (lib.Inverts lz4 → frames.mtbtPlain.length ≤ kCapacity →
        ∀ args ∈ compressedArgs lib frames,
          args.deliver lz4 = .ingested .mtbt frames.mtbtPlain) := by
  -- the end of `main` fixes whether it fell back, and all that was published
  have h_holds := Turn.reach_anyway h
  obtain ⟨fallback, sent, h_outcomes, h_received, -⟩ := Turn.reach_done h_holds h_done
  exact ⟨fallback, h_outcomes, h_received, fun h_inverts h_plain => h_inverts.deliver h_plain⟩

/-- On the three channels together. -/
theorem length_received (tr : List Event) :
    (received tr).length = receivedOn tr .itch + receivedOn tr .mtbt + receivedOn tr .mcx := by
  unfold receivedOn
  induction received tr with
  | nil => rfl
  | cons d ds ih =>
    obtain ⟨c, data⟩ := d
    cases c <;> simp only [List.map_cons, List.count_cons, List.length_cons, ih] <;> simp <;> omega

/-- **Each frame is delivered.** In every orderly run in which nobody else sends datagrams: when
`main` is through, the reader has delivered each of the four frames, some of them (`twice`) once
more, and the compressed frame, if there is one, whatever the network has lost. -/
theorem frames_delivered (h : (system lz4).machine.ReachBy (Parallel.Meets Orderly fun env _ =>
    Honest env) (State.start lib frames) tr s) (h_done : s.code .main = .done ()) :
    ∃ twice : List (MulticastChannel × List Byte), twice.Subperm frames.datagrams ∧
      (Feed.outcomes (feedEvents tr)).Perm ((frames.datagrams ++ twice).map ingested ++
        (compressedArgs lib frames).map (Feed.Args.deliver lz4)) := by
  have h_holds : (Turn.outline lz4 True lib frames).Holds tr s :=
    Turn.reach (h.mono fun _ _ => Parallel.Meets.mono fun _ _ h_env _ => h_env)
  obtain ⟨fallback, sent, h_outcomes, h_received, h_sent, h_count⟩ :=
    Turn.reach_done h_holds h_done
  -- what has been received has been sent, and nothing twice
  have h_sub : (received tr).Subperm frames.datagrams :=
    (List.subperm_ext_iff.mpr fun d _ => h_count trivial d).trans h_sent.subperm
  rw [h_outcomes]
  cases fallback with
  | true => exact ⟨received tr, h_sub, (List.perm_append_comm.map ingested).append_right _⟩
  | false =>
    obtain ⟨h_itch, h_mtbt, h_mcx⟩ := h_received rfl
    have h_four : frames.datagrams.length = 4 := rfl
    have h_perm : (received tr).Perm frames.datagrams :=
      h_sub.perm_of_length_le (by rw [length_received, h_four]; omega)
    refine ⟨[], List.nil_subperm, ?_⟩
    rw [List.append_nil, if_neg Bool.false_ne_true, List.append_nil]
    exact (h_perm.map ingested).append_right _

end

/-! ### A run -/

instance (thread : HubThread) : Decidable (thread = .absent) :=
  match thread with
  | .absent => isTrue rfl
  | .started | .looping _ | .exited => isFalse HubThread.noConfusion

instance (i : Party) (env : Env) (s : Process) : (c : Cmd) → Decidable (Orderly i env s c)
  | .net .socket | .net (.setsockopt _ _) | .returned | .await =>
    inferInstanceAs (Decidable (_ → _))
  | .net (.fd _) | .net (.setFd _ _) | .net (.endpoint _) | .net (.setEndpoint _ _)
  | .net (.bind _ _ _) | .net (.recvfrom _ _ _) | .net (.sendto _ _ _ _ _) | .net (.close _)
  | .poll _ | .loop _ | .exit | .storeRunning _ | .loadRunning | .spawn | .join | .setInlet _
  | .datagrams _ | .count _ | .publish _ | .stopReader | .joinReader | .startReader | .unmap =>
    inferInstanceAs (Decidable True)

instance (env : Env) : Decidable (Honest env) :=
  match h : env.rest with
  | .read => isTrue fun _ _ h' => Rest.noConfusion (h.symm.trans h')
  | .lose _ _ => isTrue fun _ _ h' => Rest.noConfusion (h.symm.trans h')
  | .arrive c datagram => isFalse fun h_all => h_all c datagram h

instance (s : State) : (a : Parallel.Action Party Env) →
    Decidable (Parallel.Meets Orderly (fun env _ => Honest env) s a)
  | .run i env =>
    match h : s.code i with
    | .done _ => isTrue fun _ _ h' => by cases h.symm.trans h'
    | .ask c next => decidable_of_iff (Orderly i env s.shared c)
      ⟨fun h_c _ _ h' => by cases h.symm.trans h'; exact h_c, fun h_all => h_all c next h⟩
  | .other env => inferInstanceAs (Decidable (Honest env))

theorem exists_multicast : ∃ (tr : List Event) (s : State),
    (system copyLz4).machine.ReachBy (Parallel.Meets Orderly fun env _ => Honest env)
      (State.start copyLibrary byteFrames) tr s ∧ s.code .main = .done () ∧
    Feed.outcomes (feedEvents tr) = [.ingested .itch [1], .ingested .mtbt [2], .ingested .mcx [3],
      .ingested .mcx [4], .ingested .mtbt [5]] := by
  obtain ⟨tr, s, h_reach, h_s⟩ := Machine.exists_reachBy_of_runBy (system copyLz4).machine
    (Parallel.Meets Orderly fun env _ => Honest env) (State.start copyLibrary byteFrames)
    multicastRun (fun s tr => through s && decide (Feed.outcomes (feedEvents tr) =
      [.ingested .itch [1], .ingested .mtbt [2], .ingested .mcx [3], .ingested .mcx [4],
        .ingested .mtbt [5]])) (by decide +kernel)
  obtain ⟨h_through, h_outcomes⟩ := Bool.and_eq_true_iff.mp h_s
  exact ⟨tr, s, h_reach, done_of_through h_through, of_decide_eq_true h_outcomes⟩

/-- The frames come in through the hub, once each. -/
theorem frames_delivered_multicast : ∃ (tr : List Event) (s : State), s.code .main = .done () ∧
    Feed.outcomes (feedEvents tr) = [.ingested .itch [1], .ingested .mtbt [2], .ingested .mcx [3],
      .ingested .mcx [4], .ingested .mtbt [5]] ∧
    ∃ twice : List (MulticastChannel × List Byte), twice.Subperm byteFrames.datagrams ∧
      (Feed.outcomes (feedEvents tr)).Perm ((byteFrames.datagrams ++ twice).map ingested ++
        (compressedArgs copyLibrary byteFrames).map (Feed.Args.deliver copyLz4)) := by
  obtain ⟨tr, s, h_reach, h_done, h_outcomes⟩ := exists_multicast
  exact ⟨tr, s, h_done, h_outcomes, frames_delivered h_reach h_done⟩

theorem main_delivers_multicast : ∃ (tr : List Event) (s : State), s.code .main = .done () ∧
    Feed.outcomes (feedEvents tr) = [.ingested .itch [1], .ingested .mtbt [2], .ingested .mcx [3],
      .ingested .mcx [4], .ingested .mtbt [5]] ∧
    ∃ fallback : Bool, Feed.outcomes (feedEvents tr) =
      (received tr ++ if fallback then byteFrames.datagrams else []).map ingested ++
        (compressedArgs copyLibrary byteFrames).map (Feed.Args.deliver copyLz4) := by
  obtain ⟨tr, s, h_reach, h_done, h_outcomes⟩ := exists_multicast
  have h_any : (system copyLz4).machine.ReachBy (Parallel.Meets Orderly fun _ _ => True)
      (State.start copyLibrary byteFrames) tr s :=
    h_reach.mono fun _ _ => Parallel.Meets.mono fun _ _ _ => trivial
  obtain ⟨fallback, h_all, -⟩ := main_delivers h_any h_done
  exact ⟨tr, s, h_done, h_outcomes, fallback, h_all⟩

theorem inlet_turns_multicast : ∃ (tr : List Event) (s : State), s.code .main = .done () ∧
    Feed.outcomes (feedEvents tr) = [.ingested .itch [1], .ingested .mtbt [2], .ingested .mcx [3],
      .ingested .mcx [4], .ingested .mtbt [5]] ∧
    ∃ own : List Feed.Args, (Feed.published (feedEvents tr)).map callOf <+:
      (received tr).map hubCall ++ own.map (Prod.mk .main) := by
  obtain ⟨tr, s, h_reach, h_done, h_outcomes⟩ := exists_multicast
  have h_any : (system copyLz4).machine.ReachBy (Parallel.Meets Orderly fun _ _ => True)
      (State.start copyLibrary byteFrames) tr s :=
    h_reach.mono fun _ _ => Parallel.Meets.mono fun _ _ _ => trivial
  exact ⟨tr, s, h_done, h_outcomes, (inlet_turns h_any).2.2.2.1⟩

end Host

end Hft
