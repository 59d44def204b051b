import MpmcPipeline.Feed.Stopping

/-!
# The counters of the inlet, and the reader alone

Whatever any number of writers do, in turns or at once, `processed` does not pass `sequence`, and
nobody waits for a number that has not been published, as long as `sequence` does not wrap
(`Counted`). So a reader that runs lets every writer go that waits now: alone, it comes to process
`sequence` (`Counted.catch_up`). One that has been stopped exits (`Counted.leave`).
-/

namespace Hft

namespace Feed

variable {ι : Type*} {lz4 : Lz4}

/-- The counters, after a start on an inlet whose frames have all been processed. -/
structure Counted (s : System ι) : Prop where
  processed : s.inlet.processed ≤ s.inlet.sequence
  last : s.reader.last_sequence = s.inlet.processed
  carried : ∀ q, s.reader.pc.carried = some q → q ≤ s.inlet.sequence
  waiting : ∀ i q, s.writer i = .wait q → q ≤ s.inlet.sequence

namespace Counted

variable {s : System ι} {inlet : SharedInlet} {reader : Reader} {os : List Outcome}

/-- Nothing has been published. -/
theorem start {running : Bool} {pc : ReaderPc} (h_pc : pc.carried = none) :
    Counted (⟨SharedInlet.fresh, running, ⟨pc, 0⟩, fun _ => .idle⟩ : System ι) where
  processed := BitVec.le_refl _
  last := rfl
  carried q h_q := by
    rw [show pc.carried = some q from h_q] at h_pc
    cases h_pc
  waiting i q h_q := by cases h_q

/-- The reader goes on. -/
theorem read (hI : Counted s) (h : s.reader.step lz4 s.running s.inlet = some (inlet, reader, os)) :
    Counted { s with inlet, reader } := by
  -- only the acknowledgement moves `processed`, to the number the reader carries
  obtain ⟨h_processed, h_last, h_carried, h_waiting⟩ := hI
  cases Reader.step_move h with
  | check pc h_pc h_pc' =>
    refine ⟨h_processed, h_last, fun q h_q => ?_, h_waiting⟩
    rcases h_pc' with ⟨-, rfl⟩ | ⟨-, rfl⟩ <;> cases h_q
  | again h_pc h_old =>
    -- back to the top of the loop, carrying nothing
    refine ⟨h_processed, h_last, fun q h_q => ?_, h_waiting⟩
    cases h_q
  | notice h_pc h_new =>
    refine ⟨h_processed, h_last, fun q h_q => ?_, h_waiting⟩
    cases h_q
    -- the number noticed is the current one
    exact BitVec.le_refl _
  | fetch q h_pc =>
    refine ⟨h_processed, h_last, fun q' h_q => h_carried q' ?_, h_waiting⟩
    rw [h_pc]
    exact h_q
  | scan q r pc h_pc h_pc' h_fuel h_frame =>
    refine ⟨h_processed, h_last, fun q' h_q => h_carried q' ?_, h_waiting⟩
    rw [ReaderPc.carried_of_reading h_pc, ← ReaderPc.carried_of_reading h_pc']
    exact h_q
  | finish q r o h_pc h_frame =>
    refine ⟨h_processed, h_last, fun q' h_q => h_carried q' ?_, h_waiting⟩
    rw [ReaderPc.carried_of_reading h_pc]
    exact h_q
  | acknowledge q h_pc =>
    -- `processed` becomes the number carried, which is at most `sequence`
    refine ⟨h_carried q (by rw [h_pc]; rfl), rfl, fun q h_q => ?_, h_waiting⟩
    cases h_q

/-- A writer goes on, and does not wrap `sequence`. -/
theorem write [DecidableEq ι] {i : ι} {pc : WriterPc} {es : List (Event ι)} (hI : Counted s)
    (h_wrap : (s.writer i).increments = true → s.inlet.sequence ≠ BitVec.allOnes 64)
    (h : (s.writer i).step i s.inlet = some (inlet, pc, es)) :
    Counted { s with inlet, writer := Function.update s.writer i pc } := by
  obtain ⟨h_processed, h_last, h_carried, h_waiting⟩ := hI
  -- the other waiting writers still wait for numbers up to `sequence`
  have h_update : ∀ n : BitVec 64, s.inlet.sequence ≤ n → (∀ q, pc = .wait q → q ≤ n) →
      ∀ j q, Function.update s.writer i pc j = .wait q → q ≤ n := by
    intro n h_n h_pc j q h_j
    by_cases h_eq : j = i
    · subst h_eq
      rw [Function.update_self] at h_j
      exact h_pc q h_j
    · rw [Function.update_of_ne h_eq] at h_j
      exact BitVec.le_trans (h_waiting j q h_j) h_n
  cases h_writer : s.writer i with
  | idle =>
    rw [h_writer] at h
    cases h
  | loadPublished frame =>
    -- no operation up to the increment moves a counter
    rw [h_writer] at h
    cases h
    exact ⟨h_processed, h_last, h_carried,
      h_update _ (BitVec.le_refl _) fun q h_q => WriterPc.noConfusion h_q⟩
  | write w frame n =>
    rw [h_writer] at h
    simp only [WriterPc.step] at h
    split at h
    · cases h
      exact ⟨h_processed, h_last, h_carried,
        h_update _ (BitVec.le_refl _) fun q h_q => WriterPc.noConfusion h_q⟩
    · cases h
      exact ⟨h_processed, h_last, h_carried,
        h_update _ (BitVec.le_refl _) fun q h_q => WriterPc.noConfusion h_q⟩
  | fetchAdd frame =>
    rw [h_writer] at h
    cases h
    -- a `sequence` below its last value grows
    have h_le : s.inlet.sequence ≤ s.inlet.sequence + 1 := by
      have h_ne := h_wrap (by rw [h_writer]; rfl)
      have h_toNat : s.inlet.sequence.toNat ≠ 2 ^ 64 - 1 := fun h_eq =>
        h_ne (BitVec.eq_of_toNat_eq (by rw [h_eq]; rfl))
      rw [BitVec.le_def, BitVec.toNat_add]
      have h_lt := s.inlet.sequence.isLt
      change _ ≤ (_ + 1) % 2 ^ 64
      omega
    exact ⟨BitVec.le_trans h_processed h_le, h_last,
      fun q h_q => BitVec.le_trans (h_carried q h_q) h_le,
      h_update _ h_le fun q h_q => WriterPc.noConfusion h_q⟩
  | loadSequence =>
    -- the number loaded is the one waited for
    rw [h_writer] at h
    cases h
    refine ⟨h_processed, h_last, h_carried, h_update _ (BitVec.le_refl _) fun q h_q => ?_⟩
    cases h_q
    exact BitVec.le_refl _
  | wait q =>
    -- a wait that goes on waits for the same number, and one that is over for none
    have h_q := h_waiting i q h_writer
    rw [h_writer] at h
    simp only [WriterPc.step] at h
    split at h
    · cases h
      refine ⟨h_processed, h_last, h_carried, h_update _ (BitVec.le_refl _) fun q' h_q' => ?_⟩
      cases h_q'
      exact h_q
    · cases h
      exact ⟨h_processed, h_last, h_carried,
        h_update _ (BitVec.le_refl _) fun q h_q => WriterPc.noConfusion h_q⟩

/-- A writer that does not wait begins something else than a wait. -/
theorem publish [DecidableEq ι] {i : ι} {pc : WriterPc} (hI : Counted s)
    (h_pc : ∀ q, pc ≠ .wait q) : Counted { s with writer := Function.update s.writer i pc } := by
  refine ⟨hI.processed, hI.last, hI.carried, fun j q h_j => ?_⟩
  by_cases h_eq : j = i
  · subst h_eq
    exact absurd ((Function.update_self j pc s.writer).symm.trans h_j) (h_pc q)
  · exact hI.waiting j q ((Function.update_of_ne h_eq pc s.writer).symm.trans h_j)

end Counted

/-! ### The reader alone -/

/-- The reader alone leads from `s` to `s'`. -/
inductive Reads (lz4 : Lz4) (s : System ι) : System ι → Prop
  | refl : Reads lz4 s s
  | step {s' : System ι} {inlet : SharedInlet} {reader : Reader} {os : List Outcome} :
      Reads lz4 s s' → s'.reader.step lz4 s'.running s'.inlet = some (inlet, reader, os) →
      Reads lz4 s { s' with inlet, reader }

namespace Reads

variable {s s' s'' : System ι} {inlet : SharedInlet} {reader : Reader} {os : List Outcome}

theorem trans (h : Reads lz4 s s') (h' : Reads lz4 s' s'') : Reads lz4 s s'' := by
  induction h' with
  | refl => exact h
  | step _ h_step ih => exact ih.step h_step

theorem head (h_step : s.reader.step lz4 s.running s.inlet = some (inlet, reader, os))
    (h : Reads lz4 { s with inlet, reader } s') : Reads lz4 s s' :=
  (Reads.refl.step h_step).trans h

/-- It has no part in the writers, in `running_` and in `sequence`. -/
theorem frame (h : Reads lz4 s s') : s'.writer = s.writer ∧ s'.running = s.running ∧
    s'.inlet.sequence = s.inlet.sequence := by
  induction h with
  | refl => exact ⟨rfl, rfl, rfl⟩
  | @step s' inlet reader os _ h_step ih =>
    refine ⟨ih.1, ih.2.1, Eq.trans ?_ ih.2.2⟩
    cases Reader.step_move h_step <;> rfl

theorem counted (h : Reads lz4 s s') (hI : Counted s) : Counted s' := by
  induction h with
  | refl => exact hI
  | step _ h_step ih => exact ih.read h_step

end Reads

/-- A reader that has taken up a number gets to the end of the iteration, and has processed it. -/
theorem Reads.settle (lz4 : Lz4) {s : System ι} {q : BitVec 64}
    (h_carried : s.reader.pc.carried = some q) :
    ∃ s', Reads lz4 s s' ∧ s'.reader.pc = .loop ∧ s'.inlet.processed = q := by
  -- `acknowledge` is the last step of the iteration, though not the one with the least fuel
  generalize h_fuel : (if s.reader.pc = .acknowledge q then 0 else s.reader.pc.fuel + 1) = n
  induction n using Nat.strong_induction_on generalizing s with
  | _ n ih =>
    have h_alive : s.reader.pc ≠ .exited ∧ s.reader.pc ≠ .starting := by
      constructor <;> intro h_pc <;> rw [h_pc] at h_carried <;> cases h_carried
    obtain ⟨inlet, reader, os, h_step⟩ := Reader.step_isSome lz4 s.running s.inlet h_alive
    have h_reading : ∀ x, s.reader.pc.reading = some x → s.reader.pc ≠ .acknowledge q := by
      intro x h_x h_pc
      rw [h_pc] at h_x
      cases h_x
    cases Reader.step_move h_step with
    | check pc h_pc h_pc' =>
      rw [h_pc] at h_carried
      cases h_carried
    | again h_pc h_old =>
      rw [h_pc] at h_carried
      cases h_carried
    | notice h_pc h_new =>
      rw [h_pc] at h_carried
      cases h_carried
    | fetch q' h_pc =>
      rw [h_pc] at h_carried
      cases h_carried
      obtain ⟨s', h_reads, h_end⟩ := ih _ (by rw [← h_fuel, h_pc]; simp [ReaderPc.fuel])
        (s := { s with
          reader := { s.reader with pc := .readMagic q (slotIndex s.inlet.published) } })
        rfl rfl
      exact ⟨s', h_reads.head h_step, h_end⟩
    | scan q' r pc h_pc h_pc' h_less h_frame =>
      have h_q := (ReaderPc.carried_of_reading h_pc).symm.trans h_carried
      cases h_q
      have h_ne : pc ≠ .acknowledge q := by
        rintro rfl
        cases h_pc'
      obtain ⟨s', h_reads, h_end⟩ := ih _
        (by rw [← h_fuel, if_neg (h_reading _ h_pc)]; simp only [if_neg h_ne]; omega)
        (s := { s with reader := { s.reader with pc } }) (ReaderPc.carried_of_reading h_pc') rfl
      exact ⟨s', h_reads.head h_step, h_end⟩
    | finish q' r o h_pc h_frame =>
      have h_q := (ReaderPc.carried_of_reading h_pc).symm.trans h_carried
      cases h_q
      obtain ⟨s', h_reads, h_end⟩ := ih _
        (by rw [← h_fuel, if_neg (h_reading _ h_pc), if_pos rfl]; omega)
        (s := { s with reader := { s.reader with pc := .acknowledge q } }) rfl rfl
      exact ⟨s', h_reads.head h_step, h_end⟩
    | acknowledge q' h_pc =>
      rw [h_pc] at h_carried
      cases h_carried
      exact ⟨_, Reads.refl.step h_step, rfl, rfl⟩

/-- A reader that is there gets to the end of its iteration. -/
theorem Reads.to_loop (lz4 : Lz4) {s : System ι}
    (h_alive : s.reader.pc ≠ .exited ∧ s.reader.pc ≠ .starting) :
    ∃ s', Reads lz4 s s' ∧ s'.reader.pc = .loop := by
  -- the reader may be at the top of the loop, at its look at `sequence`, or with a frame
  cases h_pc : s.reader.pc with
  | loop => exact ⟨s, .refl, h_pc⟩
  | loadSequence =>
    have h_step : s.reader.step lz4 s.running s.inlet = some (s.inlet, { s.reader with
        pc := if s.inlet.sequence = s.reader.last_sequence then .loop
          else .loadPublished s.inlet.sequence }, []) := by
      simp only [Reader.step, h_pc]
    -- it has seen this frame already, or settles it first
    by_cases h_old : s.inlet.sequence = s.reader.last_sequence
    · refine ⟨_, Reads.refl.step h_step, ?_⟩
      rw [if_pos h_old]
    · rw [if_neg h_old] at h_step
      obtain ⟨s', h_reads, h_loop, -⟩ := Reads.settle lz4
        (s := { s with reader := { s.reader with pc := .loadPublished s.inlet.sequence } }) rfl
      exact ⟨s', h_reads.head h_step, h_loop⟩
  | exited => exact absurd h_pc h_alive.1
  | starting => exact absurd h_pc h_alive.2
  | _ =>
    obtain ⟨s', h_reads, h_loop, -⟩ := Reads.settle lz4 (s := s) (by rw [h_pc]; rfl)
    exact ⟨s', h_reads, h_loop⟩

/-- **A running reader catches up.** Running alone, it comes to acknowledge the `sequence` of now,
wherever in its loop it is. -/
theorem Counted.catch_up (lz4 : Lz4) {s : System ι} (hI : Counted s) (h_running : s.running = true)
    (h_alive : s.reader.pc ≠ .exited ∧ s.reader.pc ≠ .starting) :
    ∃ s', Reads lz4 s s' ∧ s'.inlet.processed = s.inlet.sequence := by
  obtain ⟨s₁, h_reads, h_loop⟩ := Reads.to_loop lz4 h_alive
  obtain ⟨-, h_run, h_sequence⟩ := h_reads.frame
  have h_check : s₁.reader.step lz4 s₁.running s₁.inlet =
      some (s₁.inlet, { s₁.reader with pc := .loadSequence }, []) := by
    simp only [Reader.step, h_loop, h_run, h_running, if_true]
  have h_last := (h_reads.counted hI).last
  -- the last frame is acknowledged already
  by_cases h_old : s₁.inlet.sequence = s₁.reader.last_sequence
  · refine ⟨s₁, h_reads, ?_⟩
    rw [← h_last, ← h_old, h_sequence]
  · -- or it is new, and the reader takes it from its second look at `sequence` on
    have h_load : (⟨.loadSequence, s₁.reader.last_sequence⟩ : Reader).step lz4 s₁.running
        s₁.inlet = some (s₁.inlet, ⟨.loadPublished s₁.inlet.sequence, s₁.reader.last_sequence⟩,
          []) := by
      simp only [Reader.step, if_neg h_old]
    obtain ⟨s', h_rest, -, h_processed⟩ := Reads.settle lz4
      (s := { s₁ with reader := ⟨.loadPublished s₁.inlet.sequence, s₁.reader.last_sequence⟩ }) rfl
    refine ⟨s', ((h_reads.step h_check).step h_load).trans h_rest, ?_⟩
    rw [h_processed, h_sequence]

/-- A reader that has been stopped exits. -/
theorem Reads.leave (lz4 : Lz4) {s : System ι} (h_running : s.running = false)
    (h_starting : s.reader.pc ≠ .starting) :
    ∃ s', Reads lz4 s s' ∧ s'.reader.pc = .exited := by
  by_cases h_exited : s.reader.pc = .exited
  · exact ⟨s, .refl, h_exited⟩
  · obtain ⟨s₁, h_reads, h_loop⟩ := Reads.to_loop lz4 ⟨h_exited, h_starting⟩
    have h_check : s₁.reader.step lz4 s₁.running s₁.inlet =
        some (s₁.inlet, { s₁.reader with pc := .exited }, []) := by
      simp [Reader.step, h_loop, h_reads.frame.2.1, h_running]
    exact ⟨_, h_reads.step h_check, rfl⟩

end Feed

end Hft
