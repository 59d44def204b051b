import MpmcPipeline.Feed.SoleWriter

/-!
# Stopping the reader

`wait_until_processed(s)` ends when `processed` has reached `s`, and only the reader
stores `processed`. `Reader::run` looks at `running_` between two frames, whether or not
the inlet holds a frame it has not seen; and `Reader::start` loads `last_sequence_` from
the inlet without storing it into `processed`, unlike every other place that moves
`last_sequence_`. So a writer can be left behind: the reader thread has exited, or it
runs again and takes the frame for seen (`Stranded`).

Both need one of two steps that `Attended` excludes: the reader exits while a frame is
outstanding, or a frame is published after it has exited. Without them no writer is
stranded, wherever `stop` and `start` fall; and either of them strands the writer.
-/

namespace Hft

namespace Feed

variable {lz4 : Lz4}

/-- The writer is inside `wait_until_processed(q)` for a number that is not processed, and
the reader thread has exited or has started again with a `last_sequence_` that includes
`q`. -/
def Stranded (s : System Unit) : Prop :=
  ∃ q, s.writer () = .wait q ∧ s.inlet.processed < q ∧
    (s.reader.pc = .exited ∨ q ≤ s.reader.last_sequence)

/-- The reader exits only when everything published is processed, and nothing is published
while there is no reader thread. -/
def Attended (s : System Unit) : Action Unit → Prop
  | .read => s.reader.pc = .loop → s.running = false → s.inlet.sequence ≤ s.inlet.processed
  | .write _ => s.reader.pc = .exited → (s.writer ()).increments = false
  | .publish _ _ | .stop | .start => True

deriving instance DecidableEq for Source, ReaderPc

instance (s : System Unit) : Decidable (Stranded s) :=
  match h : s.writer () with
  | .wait q =>
    decidable_of_iff (s.inlet.processed < q ∧
        (s.reader.pc = .exited ∨ q ≤ s.reader.last_sequence))
      ⟨fun h_q => ⟨q, h, h_q⟩, fun ⟨_, h_wait, h_q⟩ => by
        rwa [WriterPc.wait.inj (h.symm.trans h_wait)]⟩
  | .idle | .loadPublished _ | .write _ _ _ | .fetchAdd _ | .loadSequence =>
    isFalse fun ⟨_, h_wait, _⟩ => absurd (h.symm.trans h_wait) nofun

instance (s : System Unit) : (a : Action Unit) → Decidable (Attended s a)
  | .read => inferInstanceAs (Decidable (_ → _ → _))
  | .write _ => inferInstanceAs (Decidable (_ → _))
  | .publish _ _ | .stop | .start => inferInstanceAs (Decidable True)

/-! ### The steps -/

/-- A writer's step past the increment of the sequence. -/
inductive WriterMove (inlet : SharedInlet) (pc : WriterPc) : SharedInlet → WriterPc → ℕ → Prop
  /-- A step inside `publish`, before the increment. -/
  | inside (inlet' : SharedInlet) (pc' : WriterPc) (h_seq : inlet'.sequence = inlet.sequence)
      (h_proc : inlet'.processed = inlet.processed) (h_pc : ∀ q, pc ≠ .wait q)
      (h_pc' : pc' ≠ .loadSequence ∧ ∀ q, pc' ≠ .wait q) (h_load : pc ≠ .loadSequence) :
      WriterMove inlet pc inlet' pc' 0
  /-- The increment. -/
  | increment (h_pc : pc.increments = true) :
      WriterMove inlet pc { inlet with sequence := inlet.sequence + 1 } .loadSequence 1
  /-- Loading the number to wait for. -/
  | load (h_pc : pc = .loadSequence) : WriterMove inlet pc inlet (.wait inlet.sequence) 0
  /-- Looking at `processed` in vain. -/
  | again (q : BitVec 64) (h_pc : pc = .wait q) (h_lt : inlet.processed < q) :
      WriterMove inlet pc inlet (.wait q) 0
  /-- Leaving the wait. -/
  | leave (q : BitVec 64) (h_pc : pc = .wait q) (h_done : ¬inlet.processed < q) :
      WriterMove inlet pc inlet .idle 0

theorem WriterPc.step_move {pc pc' : WriterPc} {inlet inlet' : SharedInlet}
    {es : List (Event Unit)} (h : pc.step () inlet = some (inlet', pc', es)) :
    WriterMove inlet pc inlet' pc' (published es).length := by
  -- the increment, the load and the two ends of the wait are told apart, the rest is inside
  cases pc with
  | idle => cases h
  | loadPublished frame =>
    cases h
    exact .inside _ _ rfl rfl (by simp) (by simp) (by simp)
  | write w frame n =>
    simp only [step] at h
    split at h
    · cases h
      exact .inside _ _ rfl rfl (by simp) (by simp) (by simp)
    · cases h
      exact .inside _ _ rfl rfl (by simp) (by simp) (by simp)
  | fetchAdd frame =>
    cases h
    exact .increment rfl
  | loadSequence =>
    cases h
    exact .load rfl
  | wait q =>
    -- the wait goes on while `processed` is behind
    simp only [step] at h
    split at h
    · next h_lt =>
      cases h
      exact .again q rfl h_lt
    · next h_done =>
      cases h
      exact .leave q rfl h_done

/-- A call of `publish` begins. -/
theorem WriterPc.publish_move {pc pc' : WriterPc} {args : Args} {es : List (Event Unit)}
    (h : pc.publish () args = some (pc', es)) :
    pc = .idle ∧ (∀ q, pc' ≠ .wait q) ∧ published es = [] := by
  cases pc with
  | idle =>
    simp only [publish] at h
    split at h <;> cases h <;> exact ⟨rfl, by simp, rfl⟩
  | _ => cases h

/-- The two operations of `start`. -/
theorem machine_start {s s' : System Unit} {es : List (Event Unit)}
    (h : (machine lz4 Unit).step s .start = some (s', es)) :
    es = [] ∧ (s.reader.pc = .exited ∧ s' = { s with reader := ⟨.starting, s.inlet.sequence⟩ } ∨
      s.reader.pc = .starting ∧
        s' = { s with running := true, reader := { s.reader with pc := .loop } }) := by
  simp only [machine] at h
  -- the first operation loads `last_sequence_`, the second sets `running_`
  split at h
  · next h_pc =>
    cases h
    exact ⟨rfl, Or.inl ⟨h_pc, rfl⟩⟩
  · next h_pc =>
    cases h
    exact ⟨rfl, Or.inr ⟨h_pc, rfl⟩⟩
  · cases h

/-! ### No writer is stranded -/

/-- What attended steps keep, of the inlet, the reader and the writer. -/
structure AttendedInv (inlet : SharedInlet) (reader : Reader) (pc : WriterPc) : Prop where
  waiting : ∀ q, pc = .wait q → q = inlet.sequence
  exited : reader.pc = .exited → inlet.sequence ≤ inlet.processed
  last : reader.last_sequence ≤ inlet.processed

namespace AttendedInv

variable {inlet inlet' : SharedInlet} {reader reader' : Reader} {pc pc' : WriterPc}

theorem initial : AttendedInv SharedInlet.fresh ⟨.loop, 0⟩ .idle where
  waiting := nofun
  exited := nofun
  last := BitVec.le_refl 0

/-- The writer waits for the latest number, which an exited reader has processed and
`last_sequence_` does not reach. -/
theorem not_stranded {s : System Unit} (hI : AttendedInv s.inlet s.reader (s.writer ())) :
    ¬Stranded s := by
  rintro ⟨q, h_wait, h_lt, h_exited | h_last⟩
  · rw [hI.waiting q h_wait] at h_lt
    exact absurd (hI.exited h_exited) (BitVec.not_le.mpr h_lt)
  · exact absurd (BitVec.le_trans h_last hI.last) (BitVec.not_le.mpr h_lt)

theorem read {running : Bool} {os : List Outcome} (hI : AttendedInv inlet reader pc)
    (hC : reader.pc = .loop → running = false → inlet.sequence ≤ inlet.processed)
    (h : reader.step lz4 running inlet = some (inlet', reader', os)) :
    AttendedInv inlet' reader' pc := by
  -- the reader exits only where the condition on the step allows it
  cases Reader.step_move h with
  | check pc' h_pc h_pc' =>
    refine ⟨hI.waiting, fun h_exited => ?_, hI.last⟩
    rcases h_pc' with ⟨-, rfl⟩ | ⟨h_stopped, rfl⟩
    · cases h_exited
    · exact hC h_pc h_stopped
  | again h_pc h_old => exact ⟨hI.waiting, nofun, hI.last⟩
  | notice h_pc h_new => exact ⟨hI.waiting, nofun, hI.last⟩
  | fetch q h_pc => exact ⟨hI.waiting, nofun, hI.last⟩
  | scan q r pc' h_pc h_pc' h_fuel h_frame =>
    refine ⟨hI.waiting, fun h_exited => ?_, hI.last⟩
    change pc' = .exited at h_exited
    rw [h_exited] at h_pc'
    cases h_pc'
  | finish q r o h_pc h_frame => exact ⟨hI.waiting, nofun, hI.last⟩
  | acknowledge q h_pc => exact ⟨hI.waiting, nofun, BitVec.le_refl q⟩

theorem write {n : ℕ} (hI : AttendedInv inlet reader pc)
    (hC : reader.pc = .exited → pc.increments = false) (h : WriterMove inlet pc inlet' pc' n) :
    AttendedInv inlet' reader pc' := by
  cases h with
  | inside _ _ h_seq h_proc h_pc h_pc' h_load =>
    refine ⟨fun q h_wait => absurd h_wait (h_pc'.2 q), fun h_exited => ?_, ?_⟩
    · rw [h_seq, h_proc]
      exact hI.exited h_exited
    · rw [h_proc]
      exact hI.last
  | increment h_pc =>
    refine ⟨nofun, fun h_exited => ?_, hI.last⟩
    -- nothing is published behind the back of an exited reader
    exact absurd h_pc (by rw [hC h_exited]; exact Bool.false_ne_true)
  | load h_pc => exact ⟨fun q h_wait => (WriterPc.wait.inj h_wait).symm, hI.exited, hI.last⟩
  | again q h_pc h_lt =>
    refine ⟨fun q' h_wait => ?_, hI.exited, hI.last⟩
    rw [← WriterPc.wait.inj h_wait]
    exact hI.waiting q h_pc
  | leave q h_pc h_done => exact ⟨nofun, hI.exited, hI.last⟩

theorem step {s s' : System Unit} {a : Action Unit} {es : List (Event Unit)}
    (hI : AttendedInv s.inlet s.reader (s.writer ())) (hC : Attended s a)
    (h : (machine lz4 Unit).step s a = some (s', es)) :
    AttendedInv s'.inlet s'.reader (s'.writer ()) := by
  have h_cases := machine_cases h
  cases a with
  | read =>
    obtain ⟨inlet, reader, os, h_step, rfl, -⟩ := h_cases
    exact hI.read hC h_step
  | publish i args =>
    obtain ⟨pc, h_step, rfl⟩ := h_cases
    exact ⟨fun q h_wait => absurd h_wait ((WriterPc.publish_move h_step).2.1 q), hI.exited,
      hI.last⟩
  | write i =>
    obtain ⟨inlet, pc, h_step, rfl⟩ := h_cases
    exact hI.write hC (WriterPc.step_move h_step)
  | stop =>
    cases h
    exact hI
  | start =>
    obtain ⟨-, ⟨h_pc, rfl⟩ | ⟨h_pc, rfl⟩⟩ := machine_start h
    · -- the number the new thread starts from has been processed by the old one
      exact ⟨hI.waiting, nofun, hI.exited h_pc⟩
    · exact ⟨hI.waiting, nofun, hI.last⟩

end AttendedInv

/-! ### What an unattended step does -/

/-- The sequence number the reader is working on. -/
def ReaderPc.carried : ReaderPc → Option (BitVec 64)
  | loadPublished sequence | acknowledge sequence => some sequence
  | pc => pc.reading.map Prod.fst

theorem ReaderPc.carried_of_reading {pc : ReaderPc} {q : BitVec 64} {r : Fin 2}
    (h : pc.reading = some (q, r)) : pc.carried = some q := by
  cases pc with
  | loop | loadSequence | loadPublished _ | acknowledge _ | exited | starting => cases h
  | readMagic _ _ | readKind _ _ | readFlags _ _ _ | readLen _ _ _ _ | readExpected _ _ _
  | readByte _ _ _ _ _ => exact congrArg (Option.map Prod.fst) h

/-- The writer has published and not yet left its wait. -/
def WriterPc.owed : WriterPc → Bool
  | loadSequence | wait _ => true
  | _ => false

/-- The counters after `n` frames, as long as `sequence` has not wrapped. -/
structure CountInv (n : ℕ) (inlet : SharedInlet) (reader : Reader) (pc : WriterPc) : Prop where
  sequence : inlet.sequence.toNat = n
  processed : inlet.processed ≤ inlet.sequence
  carried : ∀ q, reader.pc.carried = some q → inlet.processed ≤ q ∧ q ≤ inlet.sequence
  settled : pc.owed = false → inlet.sequence ≤ inlet.processed

namespace CountInv

variable {n : ℕ} {inlet inlet' : SharedInlet} {reader reader' : Reader} {pc pc' : WriterPc}

theorem initial : CountInv 0 SharedInlet.fresh ⟨.loop, 0⟩ .idle where
  sequence := rfl
  processed := BitVec.le_refl 0
  carried := nofun
  settled := fun _ => BitVec.le_refl 0

/-- A reader that has taken up no number has no part in the counters. -/
theorem start (hI : CountInv n inlet reader pc) (h_reader : reader'.pc.carried = none) :
    CountInv n inlet reader' pc :=
  ⟨hI.sequence, hI.processed, fun _ h_q => absurd (h_reader.symm.trans h_q) nofun, hI.settled⟩

theorem read {running : Bool} {os : List Outcome} (hI : CountInv n inlet reader pc)
    (h : reader.step lz4 running inlet = some (inlet', reader', os)) :
    CountInv n inlet' reader' pc := by
  cases Reader.step_move h with
  | check pc' h_pc h_pc' =>
    refine ⟨hI.sequence, hI.processed, fun q h_q => ?_, hI.settled⟩
    rcases h_pc' with ⟨-, rfl⟩ | ⟨-, rfl⟩ <;> cases h_q
  | again h_pc h_old => exact ⟨hI.sequence, hI.processed, nofun, hI.settled⟩
  | notice h_pc h_new =>
    refine ⟨hI.sequence, hI.processed, fun q h_q => ?_, hI.settled⟩
    cases h_q
    exact ⟨hI.processed, BitVec.le_refl _⟩
  | fetch q h_pc =>
    refine ⟨hI.sequence, hI.processed, fun q' h_q => hI.carried q' ?_, hI.settled⟩
    rw [h_pc]
    exact h_q
  | scan q r pc' h_pc h_pc' h_fuel h_frame =>
    refine ⟨hI.sequence, hI.processed, fun q' h_q => hI.carried q' ?_, hI.settled⟩
    rw [ReaderPc.carried_of_reading h_pc, ← ReaderPc.carried_of_reading h_pc']
    exact h_q
  | finish q r o h_pc h_frame =>
    refine ⟨hI.sequence, hI.processed, fun q' h_q => hI.carried q' ?_, hI.settled⟩
    rw [ReaderPc.carried_of_reading h_pc]
    exact h_q
  | acknowledge q h_pc =>
    -- the number only grows
    obtain ⟨h_from, h_to⟩ := hI.carried q (by rw [h_pc]; rfl)
    exact ⟨hI.sequence, h_to, nofun, fun h_pc => BitVec.le_trans (hI.settled h_pc) h_from⟩

theorem write {k : ℕ} (hI : CountInv n inlet reader pc) (h_bound : n + k < 2 ^ 64)
    (h_wait : ∀ q, pc = .wait q → q = inlet.sequence) (h : WriterMove inlet pc inlet' pc' k) :
    CountInv (n + k) inlet' reader pc' := by
  -- `sequence` counts the increments
  cases h with
  | inside _ _ h_seq h_proc h_pc h_pc' h_load =>
    refine ⟨by rw [h_seq]; exact hI.sequence, ?_, fun q h_q => ?_, fun _ => ?_⟩
    · rw [h_seq, h_proc]
      exact hI.processed
    · rw [h_seq, h_proc]
      exact hI.carried q h_q
    · rw [h_seq, h_proc]
      refine hI.settled ?_
      -- the increment does not wrap, so the order of the counters is that of the numbers
      cases pc with
      | loadSequence => exact absurd rfl h_load
      | wait q => exact absurd rfl (h_pc q)
      | _ => rfl
  | increment h_pc =>
    have h_next : (inlet.sequence + 1).toNat = n + 1 := by
      rw [BitVec.toNat_add, hI.sequence]
      exact Nat.mod_eq_of_lt h_bound
    have h_le : inlet.sequence ≤ inlet.sequence + 1 := by
      rw [BitVec.le_def, h_next, hI.sequence]
      exact Nat.le_succ n
    exact ⟨h_next, BitVec.le_trans hI.processed h_le,
      fun q h_q => ⟨(hI.carried q h_q).1, BitVec.le_trans (hI.carried q h_q).2 h_le⟩, nofun⟩
  | load h_pc => exact ⟨hI.sequence, hI.processed, hI.carried, nofun⟩
  | again q h_pc h_lt => exact ⟨hI.sequence, hI.processed, hI.carried, nofun⟩
  | leave q h_pc h_done =>
    -- the writer has seen its frame processed
    refine ⟨hI.sequence, hI.processed, hI.carried, fun _ => ?_⟩
    rw [← h_wait q h_pc]
    exact BitVec.not_lt.mp h_done

theorem step {s s' : System Unit} {a : Action Unit} {es : List (Event Unit)}
    (hI : CountInv n s.inlet s.reader (s.writer ()))
    (h_wait : ∀ q, s.writer () = .wait q → q = s.inlet.sequence)
    (h_bound : n + (published es).length < 2 ^ 64)
    (h : (machine lz4 Unit).step s a = some (s', es)) :
    CountInv (n + (published es).length) s'.inlet s'.reader (s'.writer ()) := by
  have h_cases := machine_cases h
  -- publishing calls and `stop` leave the counters alone
  cases a with
  | read =>
    obtain ⟨inlet, reader, os, h_step, rfl, rfl⟩ := h_cases
    rw [published_outcomes]
    exact hI.read h_step
  | publish i args =>
    obtain ⟨pc, h_step, rfl⟩ := h_cases
    obtain ⟨h_idle, -, h_es⟩ := WriterPc.publish_move h_step
    rw [h_es]
    refine ⟨hI.sequence, hI.processed, hI.carried, fun _ => hI.settled ?_⟩
    change (s.writer i).owed = false
    rw [h_idle]
    rfl
  | write i =>
    obtain ⟨inlet, pc, h_step, rfl⟩ := h_cases
    exact hI.write h_bound h_wait (WriterPc.step_move h_step)
  | stop =>
    cases h
    exact hI
  | start =>
    obtain ⟨rfl, ⟨h_pc, rfl⟩ | ⟨h_pc, rfl⟩⟩ := machine_start h
    · exact hI.start rfl
    · exact hI.start rfl

end CountInv

/-- The history of attended steps. -/
theorem reach_attended {tr : List (Event Unit)} {s : System Unit}
    (h : (machine lz4 Unit).ReachBy Attended (System.init Unit) tr s) :
    AttendedInv s.inlet s.reader (s.writer ()) ∧
      ((published tr).length < 2 ^ 64 →
        CountInv (published tr).length s.inlet s.reader (s.writer ())) := by
  refine h.inv (I := fun tr (s : System Unit) => AttendedInv s.inlet s.reader (s.writer ()) ∧
    ((published tr).length < 2 ^ 64 →
      CountInv (published tr).length s.inlet s.reader (s.writer ())))
    (by exact ⟨AttendedInv.initial, fun _ => CountInv.initial⟩) ?_
  intro tr s a s' es ⟨hI, h_count⟩ hC h_step
  -- attendance keeps the first invariant, and below the bound it carries the count
  refine ⟨hI.step hC h_step, ?_⟩
  rw [published_append, List.length_append]
  intro h_bound
  exact (h_count (by omega)).step hI.waiting h_bound h_step

/-- A writer that owes a wait for an unprocessed number is stranded by the exit of the
reader, at once or with its next step. -/
theorem stranded_of_owed {s : System Unit} (h_exited : s.reader.pc = .exited)
    (h_lt : s.inlet.processed < s.inlet.sequence)
    (h_pc : s.writer () = .loadSequence ∨ s.writer () = .wait s.inlet.sequence) :
    ∃ k s' es, (machine lz4 Unit).run s (List.replicate k (.write ())) = some (s', es) ∧
      Stranded s' := by
  rcases h_pc with h_pc | h_pc
  · refine ⟨1, { s with writer := Function.update s.writer () (.wait s.inlet.sequence) }, [],
      ?_, s.inlet.sequence, rfl, h_lt, Or.inl h_exited⟩
    simp only [List.replicate_one, Machine.run, machine, h_pc, WriterPc.step, List.append_nil]
  · exact ⟨0, s, [], rfl, s.inlet.sequence, h_pc, h_lt, Or.inl h_exited⟩

/-- **No attended writer is stranded, and every unattended one is.** In every run of one
disciplined writer and a reader that is stopped and started at any moment, whose steps are
all `Attended`, the writer never waits for a reader that has exited or takes its frame for
seen; and from every such run, while `sequence` has not wrapped, a step that is not
`Attended` leaves the writer stranded as soon as it waits. -/
theorem stop_strands_no_writer {tr : List (Event Unit)} {s : System Unit}
    (h : (machine lz4 Unit).ReachBy Attended (System.init Unit) tr s) :
    ¬Stranded s ∧
      ∀ a s' es, (machine lz4 Unit).step s a = some (s', es) → ¬Attended s a →
        (published tr).length + 1 < 2 ^ 64 →
        ∃ k s'' es', (machine lz4 Unit).run s' (List.replicate k (.write ())) = some (s'', es') ∧
          Stranded s'' := by
  obtain ⟨hI, h_count⟩ := reach_attended h
  refine ⟨hI.not_stranded, fun a s' es h_machine hC h_bound => ?_⟩
  have hN := h_count (by omega)
  have h_cases := machine_cases h_machine
  cases a with
  | read =>
    -- the reader exits with a frame outstanding, which the writer owes
    obtain ⟨inlet, reader, os, h_step, rfl, -⟩ := h_cases
    simp only [Attended, not_forall, BitVec.not_le] at hC
    obtain ⟨h_pc, h_stopped, h_lt⟩ := hC
    simp only [Reader.step, h_pc, h_stopped] at h_step
    cases h_step
    refine stranded_of_owed rfl h_lt ?_
    cases h_writer : s.writer () with
    | loadSequence => exact Or.inl rfl
    | wait q => exact Or.inr (congrArg WriterPc.wait (hI.waiting q h_writer))
    | _ => exact absurd (hN.settled (by rw [h_writer]; rfl)) (BitVec.not_le.mpr h_lt)
  | write i =>
    -- a frame is published behind the back of an exited reader
    obtain ⟨inlet, pc, h_step, rfl⟩ := h_cases
    simp only [Attended, Classical.not_imp, Bool.not_eq_false] at hC
    obtain ⟨h_exited, h_pc⟩ := hC
    cases h_writer : s.writer () with
    | fetchAdd frame =>
      change (s.writer ()).step () s.inlet = _ at h_step
      rw [h_writer] at h_step
      cases h_step
      refine stranded_of_owed h_exited ?_ (Or.inl rfl)
      have h_le := hN.processed
      rw [BitVec.le_def, hN.sequence] at h_le
      rw [BitVec.lt_def, BitVec.toNat_add, hN.sequence]
      change _ < ((published tr).length + 1) % 2 ^ 64
      rw [Nat.mod_eq_of_lt h_bound]
      exact Nat.lt_succ_of_le h_le
    | _ =>
      rw [h_writer] at h_pc
      cases h_pc
  | publish i args => exact absurd trivial hC
  | stop => exact absurd trivial hC
  | start => exact absurd trivial hC

/-- A run through both operations of `stop` and `start` that meets the conditions. -/
theorem stop_strands_no_writer_restarted :
    ∃ (tr : List (Event Unit)) (s : System Unit),
      (machine noLz4 Unit).ReachBy Attended (System.init Unit) tr s ∧
      lefts tr = [((), 1)] ∧ s.reader.last_sequence = 1 ∧ ¬Stranded s := by
  obtain ⟨tr, s, h_reach, h_run⟩ := Machine.exists_reachBy_of_runBy (machine noLz4 Unit)
    Attended (System.init Unit)
    (publishByte () .itch 1 ++ readByte ++ .stop :: leave () ++ [.read, .start, .start])
    (fun s tr => decide (lefts tr = [((), 1)] ∧ s.reader.last_sequence = 1)) (by decide +kernel)
  obtain ⟨h_left, h_last⟩ := of_decide_eq_true h_run
  exact ⟨tr, s, h_reach, h_left, h_last, (stop_strands_no_writer h_reach).1⟩

/-- **The reader strands the writer.** `stop` falls between the increment of the sequence and
the reader's next look at it: the reader thread has exited with the frame outstanding. Started
again, it loads the number of that frame into `last_sequence_` and never looks at it. -/
theorem stop_strands_writer :
    (∃ (tr : List (Event Unit)) (s : System Unit),
      (machine noLz4 Unit).Reach (System.init Unit) tr s ∧ s.reader.pc = .exited ∧
        Stranded s) ∧
    ∃ (tr : List (Event Unit)) (s : System Unit),
      (machine noLz4 Unit).Reach (System.init Unit) tr s ∧ s.reader.pc = .loop ∧
        s.running = true ∧ Stranded s := by
  -- `.stop` falls after the increment and before the reader's look
  refine ⟨?_, ?_⟩
  · obtain ⟨tr, s, h_reach, h_run⟩ := Machine.exists_reach_of_run (machine noLz4 Unit)
      (System.init Unit) (publishByte () .itch 1 ++ [.stop, .read, .write ()])
      (fun s _ => decide (s.reader.pc = .exited ∧ Stranded s)) (by decide +kernel)
    exact ⟨tr, s, h_reach, of_decide_eq_true h_run⟩
  · -- started again, the reader takes the stranded number for seen
    obtain ⟨tr, s, h_reach, h_run⟩ := Machine.exists_reach_of_run (machine noLz4 Unit)
      (System.init Unit) (publishByte () .itch 1 ++ [.stop, .read, .write (), .start, .start])
      (fun s _ => decide (s.reader.pc = .loop ∧ s.running = true ∧ Stranded s))
      (by decide +kernel)
    exact ⟨tr, s, h_reach, of_decide_eq_true h_run⟩

end Feed

end Hft
