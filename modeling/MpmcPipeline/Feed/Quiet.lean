import MpmcPipeline.Feed.Writers

/-!
# An inlet on which everybody rests

A writer that starts while every other writer is idle is disciplined, whatever the others are
(`InletInv.disciplined`): it has itself left its last wait, so everything published has been
observed. When the last writer has left, the inlet is `Quiet`: what the reader has done is what
`deliver` makes of everything published, and the reader, stopped, finds nothing more and exits.

`Frame.args` gives a frame back as the arguments it comes from, and `WriterPc.step_frames` follows
it through a call of `publish`: it is under way until it is published, and it is published once.
-/

namespace Hft

namespace Feed

variable {ι : Type*} {lz4 : Lz4}

/-! ### Turns -/

namespace InletInv

variable {pubs : List (ι × Frame)} {outs : List Outcome} {s : System ι}

/-- While all writers rest, everything published has been observed. -/
theorem all_observed (hI : InletInv lz4 pubs outs s) (h_rest : ∀ i, (s.writer i).resting = true) :
    outs.length = pubs.length ∧ pubs.length = taken outs s.reader := by
  -- a frame not yet observed would keep its writer from resting
  have h_le : pubs.length ≤ outs.length := by
    by_contra h_lt
    obtain ⟨⟨i, frame⟩, h_get⟩ : ∃ pub, pubs[outs.length]? = some pub :=
      ⟨_, List.getElem?_eq_getElem (Nat.not_le.mp h_lt)⟩
    exact Nat.lt_irrefl _ (hI.returned i _ rfl (h_rest i) outs.length frame h_get)
  have h_taken : outs.length ≤ taken outs s.reader := Nat.le_add_right _ _
  -- what is observed is a part of what is published
  have h_ge : outs.length ≤ pubs.length := by
    have h_length := hI.delivered.length_le
    rwa [List.length_map] at h_length
  refine ⟨Nat.le_antisymm h_ge h_le, ?_⟩
  rcases hI.ahead with h_eq | h_eq
  · exact h_eq
  · omega

/-- **Turns.** A writer that starts while the others are idle is disciplined. -/
theorem disciplined (hI : InletInv lz4 pubs outs s) (a : Action ι)
    (h : ∀ i, a = .write i → ∀ j, j ≠ i → s.writer j = .idle) : Disciplined s a := by
  cases a with
  | write i =>
    intro h_starts
    have h_others := h i rfl
    refine ⟨fun j h_ne => by rw [h_others j h_ne]; rfl, ?_⟩
    have h_rest : ∀ j, (s.writer j).resting = true := by
      intro j
      by_cases h_eq : j = i
      · rw [h_eq]
        cases h_pc : s.writer i with
        | loadPublished frame => rfl
        | _ =>
          rw [h_pc] at h_starts
          exact absurd h_starts Bool.false_ne_true
      · rw [h_others j h_eq]
        rfl
    -- nothing waits to be fetched
    rw [hI.fetched, hI.sequence, (hI.all_observed h_rest).2]
  | read | publish _ _ | stop | start => trivial

end InletInv

/-! ### Quiet -/

/-- Everything published has been delivered, nobody writes, and the reader has been told to stop
and finds nothing more. -/
structure Quiet (lz4 : Lz4) (pubs : List (ι × Frame)) (outs : List Outcome) (s : System ι) :
    Prop where
  delivered : outs = pubs.map fun p => deliver lz4 p.2
  idle : ∀ i, s.writer i = .idle
  stopped : s.running = false
  pc : s.reader.pc = .loop ∨ s.reader.pc = .loadSequence ∨
    s.reader.pc = .acknowledge s.inlet.sequence ∨ s.reader.pc = .exited
  last : s.reader.pc = .loadSequence → s.inlet.sequence = s.reader.last_sequence

/-- The reader is stopped after every writer has left. -/
theorem InletInv.quiet {pubs : List (ι × Frame)} {outs : List Outcome} {s : System ι}
    (hI : InletInv lz4 pubs outs s) (h_idle : ∀ i, s.writer i = .idle) :
    Quiet lz4 pubs outs { s with running := false } := by
  have h_rest : ∀ i, (s.writer i).resting = true := by
    intro i
    rw [h_idle i]
    rfl
  obtain ⟨h_length, h_taken⟩ := hI.all_observed h_rest
  have h_fetched : s.reader.fetched = s.inlet.sequence := by
    rw [hI.fetched, hI.sequence, h_taken]
  -- it reads no frame, as none is outstanding
  have h_reading : ∀ x, s.reader.pc.reading ≠ some x := by
    intro x h_x
    have h_more := taken_of_reading outs h_x
    omega
  obtain ⟨h_exited, h_starting⟩ := hI.alive
  refine ⟨hI.delivered.eq_of_length (by rw [List.length_map, h_length]), h_idle, rfl, ?_, ?_⟩
  · cases h_pc : s.reader.pc with
    | loop => exact Or.inl rfl
    | loadSequence => exact Or.inr (Or.inl rfl)
    | loadPublished q =>
      have h_more := (hI.noticed q h_pc).1
      omega
    | acknowledge q =>
      have h_q : q = s.inlet.sequence := by
        rw [← h_fetched, Reader.fetched, h_pc]
      exact Or.inr (Or.inr (Or.inl (congrArg ReaderPc.acknowledge h_q)))
    | exited => exact absurd h_pc h_exited
    | starting => exact absurd h_pc h_starting
    | _ => exact absurd (by rw [h_pc]; rfl) (h_reading _)
  · intro h_pc
    unfold Reader.fetched at h_fetched
    rw [show s.reader.pc = .loadSequence from h_pc] at h_fetched
    exact h_fetched.symm

namespace Quiet

variable {pubs : List (ι × Frame)} {outs os : List Outcome} {s : System ι} {inlet : SharedInlet}
  {reader : Reader}

/-- A reader that has nothing to do does nothing, and stays away once it has exited. -/
theorem read (hQ : Quiet lz4 pubs outs s)
    (h : s.reader.step lz4 s.running s.inlet = some (inlet, reader, os)) :
    os = [] ∧ Quiet lz4 pubs outs { s with inlet, reader } := by
  obtain ⟨h_delivered, h_idle, h_stopped, h_pc, h_last⟩ := hQ
  unfold Reader.step at h
  -- the reader checks `running`, looks at `sequence`, or is away already
  rcases h_pc with h_pc | h_pc | h_pc | h_pc
  · -- it has been told to stop
    simp only [h_pc, h_stopped] at h
    cases h
    exact ⟨rfl, h_delivered, h_idle, h_stopped, Or.inr (Or.inr (Or.inr rfl)),
      ReaderPc.noConfusion⟩
  · -- there is nothing new
    simp only [h_pc, if_pos (h_last h_pc)] at h
    cases h
    exact ⟨rfl, h_delivered, h_idle, h_stopped, Or.inl rfl, ReaderPc.noConfusion⟩
  · simp only [h_pc] at h
    cases h
    exact ⟨rfl, h_delivered, h_idle, h_stopped, Or.inl rfl, ReaderPc.noConfusion⟩
  · simp only [h_pc] at h
    cases h

/-- The reader is told to stop once more. -/
theorem stop (hQ : Quiet lz4 pubs outs s) : Quiet lz4 pubs outs { s with running := false } :=
  ⟨hQ.delivered, hQ.idle, rfl, hQ.pc, hQ.last⟩

end Quiet

/-! ### Frames under way -/

/-- The arguments that a frame comes from. -/
def Frame.args (frame : Frame) : Args :=
  ⟨frame.kind, frame.flags, some frame.bytes, frame.uncompressedLen⟩

/-- What a reader that sees the whole frame does with it, by the arguments it comes from. -/
def Args.deliver (lz4 : Lz4) (args : Args) : Outcome :=
  if args.data.getD [] = [] then .dropped
  else dispatch lz4 args.kind args.flags args.uncompressedLen (args.data.getD [])

theorem Frame.args_deliver (frame : Frame) : frame.args.deliver lz4 = deliver lz4 frame := rfl

/-- Arguments that `publish` does not reject. -/
def Args.Fits (args : Args) : Prop := ∃ bytes, args.data = some bytes ∧ bytes.length ≤ kCapacity

theorem Args.Fits.accept {args : Args} (h : args.Fits) :
    ∃ frame, args.accept = some frame ∧ frame.args = args := by
  obtain ⟨kind, flags, data, len⟩ := args
  obtain ⟨bytes, rfl, h_length⟩ := h
  refine ⟨⟨kind, flags, bytes, len, h_length⟩, ?_, rfl⟩
  unfold Args.accept
  exact dif_pos h_length

/-- A step of a writer publishes what is no longer under way. -/
theorem WriterPc.step_frames {pc pc' : WriterPc} {i : ι} {inlet inlet' : SharedInlet}
    {es : List (Event ι)} (h : pc.step i inlet = some (inlet', pc', es)) :
    Feed.published es ++ pc'.frame.toList.map (Prod.mk i) =
      pc.frame.toList.map (Prod.mk i) := by
  -- the frame is shown by the operation that gives it up
  cases pc with
  | idle => cases h
  | loadPublished frame | fetchAdd frame | loadSequence =>
    cases h
    rfl
  | write w frame n =>
    simp only [step] at h
    split at h <;> cases h <;> rfl
  | wait q =>
    simp only [step] at h
    split at h <;> cases h <;> rfl

/-- A call with arguments that fit. -/
theorem WriterPc.publish_frames {pc pc' : WriterPc} {i : ι} {args : Args} {es : List (Event ι)}
    (h_fits : args.Fits) (h : pc.publish i args = some (pc', es)) :
    pc = .idle ∧ es = [] ∧ ∃ frame, frame.args = args ∧ pc' = .loadPublished frame := by
  obtain ⟨frame, h_accept, h_args⟩ := h_fits.accept
  cases pc with
  | idle =>
    simp only [publish, h_accept] at h
    cases h
    exact ⟨rfl, rfl, frame, h_args, rfl⟩
  | _ => cases h

/-- **A writer's turn.** While the others are idle a writer goes on with its frame. -/
theorem InletInv.write_turn [DecidableEq ι] {tr es : List (Event ι)} {s s' : System ι} {i : ι}
    (hI : InletInv lz4 (Feed.published tr) (outcomes tr) s)
    (h_others : ∀ j, j ≠ i → s.writer j = .idle)
    (h_wrap : (s.writer i).increments = true → s.inlet.sequence ≠ BitVec.allOnes 64)
    (h : (machine lz4 ι).step s (.write i) = some (s', es)) :
    InletInv lz4 (Feed.published (tr ++ es)) (outcomes (tr ++ es)) s' ∧
      (∀ j, j ≠ i → s'.writer j = .idle) ∧
      Feed.published es ++ (s'.writer i).frame.toList.map (Prod.mk i) =
        (s.writer i).frame.toList.map (Prod.mk i) := by
  -- with the others idle it is the turn of writer `i`
  have h_turn : Disciplined s (.write i) := by
    refine hI.disciplined _ fun j h_j => ?_
    cases h_j
    exact h_others
  refine ⟨hI.step (a := .write i) h_wrap h_turn h, ?_⟩
  obtain ⟨inlet, pc, h_step, rfl⟩ := machine_cases h
  refine ⟨fun j h_ne => ?_, ?_⟩
  · -- the others have not moved
    show Function.update s.writer i pc j = .idle
    rw [Function.update_of_ne h_ne, h_others j h_ne]
  · show _ ++ (Function.update s.writer i pc i).frame.toList.map (Prod.mk i) = _
    rw [Function.update_self]
    exact WriterPc.step_frames h_step

/-- A writer takes its turn. -/
theorem InletInv.publish_turn [DecidableEq ι] {tr es : List (Event ι)} {s s' : System ι} {i : ι}
    {args : Args} (hI : InletInv lz4 (Feed.published tr) (outcomes tr) s) (h_fits : args.Fits)
    (h_others : ∀ j, j ≠ i → s.writer j = .idle)
    (h : (machine lz4 ι).step s (.publish i args) = some (s', es)) :
    InletInv lz4 (Feed.published (tr ++ es)) (outcomes (tr ++ es)) s' ∧
      (∀ j, j ≠ i → s'.writer j = .idle) ∧ es = [] ∧ s.writer i = .idle ∧
      (s'.writer i).frame.toList.map Frame.args = [args] := by
  refine ⟨hI.step (a := .publish i args) trivial trivial h, ?_⟩
  obtain ⟨pc, h_step, rfl⟩ := machine_cases h
  obtain ⟨h_idle, rfl, frame, h_args, rfl⟩ := WriterPc.publish_frames h_fits h_step
  refine ⟨fun j h_ne => ?_, rfl, h_idle, ?_⟩
  · show Function.update s.writer i _ j = .idle
    rw [Function.update_of_ne h_ne, h_others j h_ne]
  · show (Function.update s.writer i (.loadPublished frame) i).frame.toList.map Frame.args = _
    rw [Function.update_self, ← h_args]
    rfl

end Feed

end Hft
