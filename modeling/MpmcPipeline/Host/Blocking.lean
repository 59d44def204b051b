import MpmcPipeline.Host.Process

/-!
# A reader in a call that does not return

`push` has no answer for a full queue: it probes on until a cell is empty. While the reader runs
nobody takes messages out of the market queue, so a frame with more ticks than the queue has room
for keeps the reader in its ingest call for ever; and so does a frame that `split_mtbt_frame` finds
no end of. `Process.Blocked` says that the reader is in such a call.

From every other program point the reader goes on (`Process.blocked_or_read`). Nothing the threads
do gets it out of the call (`Process.Blocked.exec`), and nothing else either, short of an `acquire`
that fails spuriously and so skips a tick (`Process.Blocked.other`). For a frame that is parsed to
its end, the call does not return exactly when its ticks are more than the queue has room for
(`Process.neverReturns_iff`).
-/

namespace Hft

namespace Host

open Trading (FedFrame MtbtFrame calmEnvs effect filled kQueueCap ticksOf)

/-- No `acquire` in an ingest call fails spuriously. -/
def Env.Calm (env : Env) : Prop := ∀ k, (env.exchanges k).acquire = MPMC.strong

namespace Process

/-- The call for an outcome does not return, whichever other exchanges fail. -/
def NeverReturns (mem : Queues) (outcome : Feed.Outcome) : Prop :=
  ∀ (exchanges : ℕ → Handoff.Env) (iterations : ℕ),
    (∀ k, (exchanges k).acquire = MPMC.strong) →
      effect exchanges iterations mem outcome = none

/-- The reader has got a whole payload and is in the call for it. -/
def Blocked (lz4 : Feed.Lz4) (s : Process) : Prop :=
  ∃ sequence slot source len bytes,
    s.feed.reader.pc = .readByte sequence slot source len bytes ∧ ¬bytes.length < len ∧
      NeverReturns s.mem (source.outcome lz4 bytes)

end Process

/-! ### Room -/

/-- The frames that the call for an outcome can be on. For MTBT they are the frames that
`split_mtbt_frame` cuts into packets. -/
inductive FedBy : Feed.Outcome → FedFrame → Prop
  | itch (data : List Byte) : FedBy (.ingested .itch data) (.itch (some data))
  | mtbt (frame : MtbtFrame) : FedBy (.ingested .mtbt frame.bytes) (.mtbt (some frame))
  | mcx (data : List Byte) : FedBy (.ingested .mcx data) (.mcx (some data))

/-- The call for an outcome is the call on its frame. -/
theorem FedBy.effect_iff {exchanges : ℕ → Handoff.Env} {mem mem' : Queues}
    {outcome : Feed.Outcome} {frame : FedFrame} (h : FedBy outcome frame) :
    (∃ iterations, effect exchanges iterations mem outcome = some mem') ↔
      ∃ stats, frame.ingest exchanges mem = some (mem', stats) := by
  -- for a fixed number of iterations both calls leave the same memory
  have h_same : ∀ {α β : Type} (call : Option (Queues × α)) (f : α → β),
      call.map Prod.fst = some mem' ↔
        ∃ stats, call.map (fun r => (r.1, f r.2)) = some (mem', stats) := by
    intro α β call f
    cases call with
    | none => simp
    | some r => simp
  cases h with
  | itch data => exact ⟨fun ⟨_, h⟩ => (h_same _ _).mp h, fun h => ⟨0, (h_same _ _).mpr h⟩⟩
  | mcx data => exact ⟨fun ⟨_, h⟩ => (h_same _ _).mp h, fun h => ⟨0, (h_same _ _).mpr h⟩⟩
  | mtbt frame =>
    refine ⟨fun ⟨iterations, h⟩ => ?_,
      fun h => ⟨frame.packets.length + 1, (h_same _ _).mpr h⟩⟩
    obtain ⟨r, h_call, rfl⟩ := Option.map_eq_some_iff.mp h
    have h_many := Trading.ingestMtbtFrame_mono
      (le_max_left iterations (frame.packets.length + 1)) h_call
    -- there are enough iterations for the packets
    have h_enough : ∀ n, frame.packets.length < n →
        Trading.ingestMtbtFrame exchanges n mem (some frame.bytes) =
          Trading.ingestMtbtFrame exchanges (frame.packets.length + 1) mem (some frame.bytes) := by
      intro n h_n
      rw [MtbtFrame.bytes,
        Trading.ingestMtbtFrame_packets frame.packets_ok frame.tail_ok frame.fits h_n,
        Trading.ingestMtbtFrame_packets frame.packets_ok frame.tail_ok frame.fits
          (Nat.lt_succ_self _)]
    rw [h_enough _ (lt_of_lt_of_le (Nat.lt_succ_self _) (le_max_right _ _))] at h_many
    refine (h_same _ _).mp ?_
    rw [h_many]
    rfl

/-- **When a call does not return.** The ticks of its frame that find a slot are more than the
queue has room for. -/
theorem Process.neverReturns_iff {mem : Queues} {outcome : Feed.Outcome} {frame : FedFrame}
    (h_fed : FedBy outcome frame) : Process.NeverReturns mem outcome ↔
      kQueueCap.val < filled mem (ticksOf [frame]).length := by
  constructor
  · intro h
    by_contra h_room
    -- with room it returns where nothing fails spuriously
    obtain ⟨mem', stats, h_feed, -⟩ := Trading.feed_fair
      (Trading.calmEnvs_fair kQueueCap) [frame] mem (Nat.not_lt.mp h_room)
    cases h_ingest : frame.ingest (calmEnvs kQueueCap 0) mem with
    | none =>
      rw [Trading.feed, h_ingest] at h_feed
      cases h_feed
    | some r =>
      obtain ⟨iterations, h_effect⟩ := h_fed.effect_iff.mpr ⟨r.2, h_ingest⟩
      rw [h _ iterations fun _ => rfl] at h_effect
      cases h_effect
  · intro h_full exchanges iterations h_strong
    rw [Option.eq_none_iff_forall_ne_some]
    intro mem' h_effect
    obtain ⟨stats, h_ingest⟩ := h_fed.effect_iff.mp ⟨iterations, h_effect⟩
    have h_blocks : Trading.feed (fun _ => exchanges) [frame] mem = none :=
      Trading.feed_blocks (fun _ => h_strong) h_full
    rw [Trading.feed, h_ingest] at h_blocks
    cases h_blocks

/-- Nor does it for the frame that `split_mtbt_frame` finds no end of. -/
theorem Process.neverReturns_wrapping (mem : Queues) :
    Process.NeverReturns mem (.ingested .mtbt Trading.wrappingFrame) := by
  intro exchanges iterations _
  rw [effect, Trading.ingestMtbtFrame, Trading.splitMtbtFrame_wrapping]
  rfl

/-! ### The reader -/

/-- A step of the reader calls nothing, or it is the one after the last byte. -/
theorem reader_calls {lz4 : Feed.Lz4} {running : Bool} {inlet inlet' : Feed.SharedInlet}
    {reader reader' : Feed.Reader} {os : List Feed.Outcome}
    (h : reader.step lz4 running inlet = some (inlet', reader', os)) :
    os = [] ∨ os = [.dropped] ∨ os = [.ignored] ∨
      ∃ sequence slot source len bytes, reader.pc = .readByte sequence slot source len bytes ∧
        ¬bytes.length < len ∧ os = [source.outcome lz4 bytes] := by
  unfold Feed.Reader.step at h
  cases h_pc : reader.pc with
  | loop | loadSequence | loadPublished sequence | readKind sequence slot
  | readFlags sequence slot kind | acknowledge sequence =>
    rw [h_pc] at h
    cases h
    exact Or.inl rfl
  | readMagic sequence slot =>
    rw [h_pc] at h
    dsimp only at h
    split at h <;> cases h
    · exact Or.inl rfl
    · exact Or.inr (Or.inl rfl)
  | readLen sequence slot kind flags =>
    rw [h_pc] at h
    dsimp only at h
    split at h
    · split at h
      · split at h <;> cases h <;> exact Or.inl rfl
      · cases h
        exact Or.inl rfl
      · cases h
        exact Or.inl rfl
      · cases h
        exact Or.inr (Or.inr (Or.inl rfl))
    · cases h
      exact Or.inr (Or.inl rfl)
  | readExpected sequence slot len =>
    rw [h_pc] at h
    dsimp only at h
    split at h <;> cases h
    · exact Or.inr (Or.inl rfl)
    · exact Or.inl rfl
  | readByte sequence slot source len bytes =>
    rw [h_pc] at h
    dsimp only at h
    split at h
    · cases h
      exact Or.inl rfl
    · next h_last =>
      cases h
      exact Or.inr (Or.inr (Or.inr ⟨sequence, slot, source, len, bytes, rfl, h_last, rfl⟩))
  | exited | starting =>
    rw [h_pc] at h
    cases h

namespace Process

variable {lz4 : Feed.Lz4} {env : Env} {s s' : Process} {es : List Event}

/-- Where the reader can go on by itself it does, unless the call does not return. -/
theorem blocked_or_read {inlet : Feed.SharedInlet} {reader : Feed.Reader} {os : List Feed.Outcome}
    (h : s.feed.reader.step lz4 s.feed.running s.feed.inlet = some (inlet, reader, os)) :
    s.Blocked lz4 ∨ ∃ env mem, env.rest = .read ∧ env.Calm ∧
      s.read lz4 env = some ({ s with feed := { s.feed with inlet, reader }, mem },
        (os.map .outcome).map .feed) := by
  have h_read : ∀ (env : Env) (mem : Queues),
      os.foldlM (effect env.exchanges env.iterations) s.mem = some mem →
      s.read lz4 env = some ({ s with feed := { s.feed with inlet, reader }, mem },
        (os.map .outcome).map .feed) := by
    intro env mem h_mem
    rw [read, h]
    dsimp only
    rw [h_mem]
  have h_calm : Env.Calm {} := fun _ => rfl
  rcases reader_calls h with rfl | rfl | rfl |
    ⟨sequence, slot, source, len, bytes, h_pc, h_last, rfl⟩
  · exact Or.inr ⟨{}, s.mem, rfl, h_calm, h_read {} s.mem rfl⟩
  · exact Or.inr ⟨{}, s.mem, rfl, h_calm, h_read {} s.mem rfl⟩
  · exact Or.inr ⟨{}, s.mem, rfl, h_calm, h_read {} s.mem rfl⟩
  · by_cases h_never : NeverReturns s.mem (source.outcome lz4 bytes)
    · exact Or.inl ⟨sequence, slot, source, len, bytes, h_pc, h_last, h_never⟩
    · -- in some environment the call returns
      simp only [NeverReturns, not_forall] at h_never
      obtain ⟨exchanges, iterations, h_strong, h_some⟩ := h_never
      obtain ⟨mem, h_mem⟩ := Option.ne_none_iff_exists'.mp h_some
      refine Or.inr ⟨{ exchanges, iterations }, mem, rfl, h_strong, h_read _ mem ?_⟩
      rw [List.foldlM_cons, h_mem]
      rfl

/-- The reader does not get out of the call. -/
theorem Blocked.read (h : s.Blocked lz4) (h_calm : env.Calm) : s.read lz4 env = none := by
  obtain ⟨sequence, slot, source, len, bytes, h_pc, h_last, h_never⟩ := h
  have h_step : s.feed.reader.step lz4 s.feed.running s.feed.inlet = some (s.feed.inlet,
      { s.feed.reader with pc := .acknowledge sequence }, [source.outcome lz4 bytes]) := by
    rw [Feed.Reader.step, h_pc]
    exact dif_neg h_last
  rw [Process.read, h_step]
  dsimp only
  rw [List.foldlM_cons, h_never env.exchanges env.iterations h_calm]
  rfl

theorem Blocked.congr (h : s.Blocked lz4) (h_reader : s'.feed.reader = s.feed.reader)
    (h_mem : s'.mem = s.mem) : s'.Blocked lz4 := by
  rwa [Blocked, h_reader, h_mem]

/-- What the rest of the system does leaves the reader in the call. -/
theorem Blocked.other (h : s.Blocked lz4) (h_calm : env.Calm)
    (h_other : Process.other lz4 env s = some (s', es)) : s'.Blocked lz4 := by
  unfold Process.other at h_other
  split at h_other
  · -- there is no such step
    rw [h.read h_calm] at h_other
    cases h_other
  · cases h_other
    exact h.congr rfl rfl
  · cases h_other
    exact h.congr rfl rfl

/-- A step of the inlet's system that is none of the reader's. -/
theorem feedStep_reader {a : Feed.Action Party} (h_read : a ≠ .read) (h_start : a ≠ .start)
    (h : s.feedStep lz4 a = some (s', es)) :
    s'.feed.reader = s.feed.reader ∧ s'.mem = s.mem := by
  obtain ⟨feed, es', h_feed, rfl, -⟩ := feedStep_eq_some h
  refine ⟨?_, rfl⟩
  cases a with
  | read => exact absurd rfl h_read
  | publish i args =>
    obtain ⟨pc, -, rfl⟩ := Feed.machine_cases h_feed
    rfl
  | write i =>
    obtain ⟨inlet, pc, -, rfl⟩ := Feed.machine_cases h_feed
    rfl
  | stop =>
    cases h_feed
    rfl
  | start => exact absurd rfl h_start

/-- What the threads do leaves the reader and what it has stored alone, once it has started. -/
theorem exec_reader {self : Party} {c : Cmd} {r : Option c.Answer}
    (h_exited : s.feed.reader.pc ≠ .exited) (h_starting : s.feed.reader.pc ≠ .starting)
    (h : exec lz4 self env s c = some (s', r, es)) :
    s'.feed.reader = s.feed.reader ∧ s'.mem = s.mem := by
  -- a step of the inlet's system, mapped
  have h_feed : ∀ {α : Type} {a : Feed.Action Party} {x r : α}, a ≠ .read → a ≠ .start →
      (s.feedStep lz4 a).map (fun r => (r.1, x, r.2)) = some (s', r, es) →
      s'.feed.reader = s.feed.reader ∧ s'.mem = s.mem := by
    intro α a x r h_read h_start h_map
    obtain ⟨⟨s₁, es₁⟩, h_step, h_eq⟩ := Option.map_eq_some_iff.mp h_map
    cases h_eq
    exact feedStep_reader h_read h_start h_step
  cases c with
  | net c =>
    obtain ⟨a, -, h_net⟩ := exec_net h
    rw [h_net.frame]
    exact ⟨rfl, rfl⟩
  | poll _ | loop _ | exit | storeRunning _ | loadRunning | spawn | setInlet _ | datagrams _
  | count _ | unmap =>
    cases h
    exact ⟨rfl, rfl⟩
  | join =>
    simp only [exec] at h
    split at h <;> cases h <;> exact ⟨rfl, rfl⟩
  | joinReader =>
    simp only [exec] at h
    cases h
  | publish args => exact h_feed (by simp) (by simp) h
  | returned | await =>
    simp only [exec] at h
    split at h
    · cases h
      exact ⟨rfl, rfl⟩
    · exact h_feed (by simp) (by simp) h
  | stopReader =>
    simp only [exec] at h
    exact h_feed (by simp) (by simp) h
  | startReader =>
    -- there is a reader already, so it is not started
    obtain ⟨-, feed, es', h_step, -⟩ := map_feedStep_eq_some h
    simp only [Feed.machine] at h_step
    cases h_step

/-- What the threads do leaves the reader in the call. -/
theorem Blocked.exec {self : Party} {c : Cmd} {r : Option c.Answer} (h : s.Blocked lz4)
    (h_exec : Process.exec lz4 self env s c = some (s', r, es)) : s'.Blocked lz4 := by
  obtain ⟨sequence, slot, source, len, bytes, h_pc, -⟩ := id h
  obtain ⟨h_reader, h_mem⟩ := exec_reader (by rw [h_pc]; exact Feed.ReaderPc.noConfusion)
    (by rw [h_pc]; exact Feed.ReaderPc.noConfusion) h_exec
  exact h.congr h_reader h_mem

end Process

end Host

end Hft
