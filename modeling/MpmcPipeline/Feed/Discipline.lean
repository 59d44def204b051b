import Mathlib.Data.Fintype.Basic
import Mathlib.Data.List.Infix
import MpmcPipeline.Feed.Delivery

/-!
# Writers that take turns

Any number of writers share one inlet. They are *disciplined* when a writer starts to
publish only while no other writer is between its load of `published` and its increment
of `sequence`, and only when the reader has fetched the slot of the latest frame
(`Disciplined`). Then at most one slot is being written, it is never the slot that is
being read, and at most one frame waits to be fetched, in the slot `published` names.

`InletInv` says this over histories. Its numbers are the count of published frames and
the count of frames the reader has fetched (`taken`), which is the count of outcomes,
plus one inside an iteration: the first is the second or one more, and it is the second
while somebody writes.

What follows for any number of writers is in `Feed/Writers.lean`, what follows for a
single one, which is always disciplined, in `Feed/SoleWriter.lean`.
-/

namespace Hft

namespace Feed

variable {ι : Type*}

/-- A writer is between its load of `published` and its increment of `sequence`. -/
def WriterPc.inside : WriterPc → Bool
  | write _ _ _ | fetchAdd _ => true
  | _ => false

/-- A writer has left its last wait and not yet written anything since. -/
def WriterPc.resting : WriterPc → Bool
  | idle | loadPublished _ => true
  | _ => false

theorem WriterPc.ne_write {pc : WriterPc} (h : pc.inside = false) {w : Fin 2} {frame : Frame}
    {n : ℕ} : pc ≠ .write w frame n := by
  rintro rfl
  exact absurd h (by simp [inside])

theorem WriterPc.ne_fetchAdd {pc : WriterPc} (h : pc.inside = false) {frame : Frame} :
    pc ≠ .fetchAdd frame := by
  rintro rfl
  exact absurd h (by simp [inside])

/-- The sequence number of the latest frame whose slot the reader has fetched. -/
def Reader.fetched (reader : Reader) : BitVec 64 :=
  match reader.pc with
  | .acknowledge sequence => sequence
  | pc =>
    match pc.reading with
    | some (sequence, _) => sequence
    | none => reader.last_sequence

/-- A writer is about to load `published`. -/
def WriterPc.starts : WriterPc → Bool
  | loadPublished _ => true
  | _ => false

/-- A writer is about to increment `sequence`. -/
def WriterPc.increments : WriterPc → Bool
  | fetchAdd _ => true
  | _ => false

/-- The reader is neither stopped nor started, and the sequence does not wrap. -/
def Undisturbed (s : System ι) : Action ι → Prop
  | .stop | .start => False
  | .write i => (s.writer i).increments = true → s.inlet.sequence ≠ BitVec.allOnes 64
  | .read | .publish _ _ => True

/-- A writer starts to publish only while no other writer is publishing and the reader
has fetched the latest frame. -/
def Disciplined (s : System ι) : Action ι → Prop
  | .write i => (s.writer i).starts = true →
    (∀ j, j ≠ i → (s.writer j).inside = false) ∧ s.reader.fetched = s.inlet.sequence
  | _ => True

instance (s : System ι) : (a : Action ι) → Decidable (Undisturbed s a)
  | .stop | .start => inferInstanceAs (Decidable False)
  | .read | .publish _ _ => inferInstanceAs (Decidable True)
  | .write _ => inferInstanceAs (Decidable (_ → _))

instance [Fintype ι] [DecidableEq ι] (s : System ι) : (a : Action ι) → Decidable (Disciplined s a)
  | .write _ => inferInstanceAs (Decidable (_ → _))
  | .read | .publish _ _ | .stop | .start => inferInstanceAs (Decidable True)

/-- The number of frames the reader has fetched. -/
def taken (outs : List Outcome) (reader : Reader) : ℕ :=
  outs.length + if reader.pc.reading.isSome then 1 else 0

theorem taken_of_reading {reader : Reader} {x : BitVec 64 × Fin 2} (outs : List Outcome)
    (h : reader.pc.reading = some x) : taken outs reader = outs.length + 1 := by
  unfold taken
  rw [h]
  rfl

theorem taken_of_not_reading {reader : Reader} (outs : List Outcome)
    (h : reader.pc.reading = none) : taken outs reader = outs.length := by
  unfold taken
  rw [h]
  rfl

theorem taken_eq_of_not_reading {reader reader' : Reader} (outs : List Outcome)
    (h : reader.pc.reading = none) (h' : reader'.pc.reading = none) :
    taken outs reader = taken outs reader' := by
  rw [taken_of_not_reading outs h, taken_of_not_reading outs h']

theorem Reader.fetched_of_reading {reader : Reader} {q : BitVec 64} {r : Fin 2}
    (h : reader.pc.reading = some (q, r)) : reader.fetched = q := by
  obtain ⟨pc, last⟩ := reader
  unfold fetched
  cases pc with
  | loop | loadSequence | loadPublished _ | acknowledge _ | exited | starting =>
    exact absurd h (by simp [ReaderPc.reading])
  | readMagic _ _ | readKind _ _ | readFlags _ _ _ | readLen _ _ _ _ | readExpected _ _ _
  | readByte _ _ _ _ _ => exact (Prod.mk.inj (Option.some.inj h)).1

/-- The run invariant of disciplined writers. -/
structure InletInv (lz4 : Lz4) (pubs : List (ι × Frame)) (outs : List Outcome)
    (s : System ι) : Prop where
  -- the counters
  delivered : outs <+: pubs.map fun p => deliver lz4 p.2
  bound : pubs.length < 2 ^ 64
  running : s.running = true
  alive : s.reader.pc ≠ .exited ∧ s.reader.pc ≠ .starting
  sequence : s.inlet.sequence = BitVec.ofNat 64 pubs.length
  processed : s.inlet.processed = s.reader.last_sequence
  last : s.reader.last_sequence.toNat ≤ outs.length
  fetched : s.reader.fetched = BitVec.ofNat 64 (taken outs s.reader)
  ahead : pubs.length = taken outs s.reader ∨
    pubs.length = taken outs s.reader + 1
  noticed : ∀ q, s.reader.pc = .loadPublished q →
    pubs.length = taken outs s.reader + 1 ∧
      q = BitVec.ofNat 64 (taken outs s.reader + 1)
  -- the slots: `published` is ahead of the slot being read from its store on
  reading : ∀ q r, s.reader.pc.reading = some (q, r) →
    (∃ p, pubs[outs.length]? = some p ∧ (s.inlet.slots r).Holds p.2 ∧
      Progress lz4 p.2 s.reader.pc) ∧
    (slotIndex s.inlet.published = r ↔
      pubs.length = taken outs s.reader ∧ ∀ i frame, s.writer i ≠ .fetchAdd frame)
  front : ∀ p, pubs[taken outs s.reader]? = some p →
    (s.inlet.slots (slotIndex s.inlet.published)).Holds p.2
  writing : ∀ i w frame k, s.writer i = .write w frame k →
    pubs.length = taken outs s.reader ∧
      w = writeIndex (slotIndex s.inlet.published) ∧ (s.inlet.slots w).Written frame k
  stored : ∀ i frame, s.writer i = .fetchAdd frame →
    pubs.length = taken outs s.reader ∧
      (s.inlet.slots (slotIndex s.inlet.published)).Holds frame
  -- the writers
  sole : ∀ i j, (s.writer i).inside = true → (s.writer j).inside = true → i = j
  returned : ∀ i pc, s.writer i = pc → pc.resting = true →
    ∀ k frame, pubs[k]? = some (i, frame) → k < outs.length
  waiting : ∀ i q, s.writer i = .wait q → ∀ k frame, pubs[k]? = some (i, frame) →
    k < q.toNat

namespace InletInv

variable {lz4 : Lz4} {pubs : List (ι × Frame)} {outs : List Outcome} {s : System ι}

theorem initial (lz4 : Lz4) : InletInv lz4 [] [] (System.init ι) where
  -- nothing is published and nobody writes: what is not `rfl` has no case
  delivered := List.prefix_rfl
  bound := Nat.two_pow_pos 64
  running := rfl
  alive := ⟨nofun, nofun⟩
  sequence := rfl
  processed := rfl
  last := le_rfl
  fetched := rfl
  ahead := Or.inl rfl
  noticed := nofun
  reading := nofun
  front := nofun
  writing := nofun
  stored := nofun
  sole := nofun
  returned := fun _ _ _ _ _ _ h => absurd h (by simp)
  waiting := nofun

/-- While a frame waits to be fetched nobody writes. -/
theorem not_inside (hI : InletInv lz4 pubs outs s)
    (h_n : pubs.length = taken outs s.reader + 1) (i : ι) :
    (s.writer i).inside = false := by
  cases h_pc : s.writer i with
  | write w frame k =>
    have := (hI.writing i w frame k h_pc).1
    omega
  | fetchAdd frame =>
    have := (hI.stored i frame h_pc).1
    omega
  | _ => rfl

/-- Sequence numbers tell the counts apart. -/
theorem taken_eq_of_fetched (hI : InletInv lz4 pubs outs s)
    (h : s.reader.fetched = s.inlet.sequence) : pubs.length = taken outs s.reader := by
  rw [hI.fetched, hI.sequence] at h
  have h_nat := congrArg BitVec.toNat h
  rw [BitVec.toNat_ofNat, BitVec.toNat_ofNat] at h_nat
  have h_bound := hI.bound
  rcases hI.ahead with h_eq | h_eq
  · exact h_eq
  · -- one apart, and below `2 ^ 64`
    omega

/-- What has been acknowledged has been observed. -/
theorem le_outs (hI : InletInv lz4 pubs outs s) {q : BitVec 64}
    (h_done : ¬s.inlet.processed < q) : q.toNat ≤ outs.length := by
  rw [hI.processed, BitVec.lt_def] at h_done
  exact le_trans (Nat.not_lt.mp h_done) hI.last

/-- A step that shows nothing adds nothing to the history. -/
theorem silent (hI : InletInv lz4 pubs outs s) :
    InletInv lz4 (pubs ++ published ([] : List (Event ι)))
      (outs ++ outcomes ([] : List (Event ι))) s := by
  show InletInv lz4 (pubs ++ []) (outs ++ []) s
  rwa [List.append_nil, List.append_nil]

/-! ### The reader's steps -/

/-- A step of the reader that fetches nothing and is done with nothing. -/
theorem read_local (hI : InletInv lz4 pubs outs s) {pc : ReaderPc}
    (h_taken : taken outs { s.reader with pc } = taken outs s.reader)
    (h_fetched : Reader.fetched { s.reader with pc } = s.reader.fetched)
    (h_alive : pc ≠ .exited ∧ pc ≠ .starting)
    (h_noticed : ∀ q, pc = .loadPublished q →
      pubs.length = taken outs s.reader + 1 ∧
        q = BitVec.ofNat 64 (taken outs s.reader + 1))
    (h_reading : ∀ q r, pc.reading = some (q, r) → s.reader.pc.reading = some (q, r) ∧
      ∀ frame, (s.inlet.slots r).Holds frame → Progress lz4 frame s.reader.pc →
        Progress lz4 frame pc) :
    InletInv lz4 pubs outs { s with reader := { s.reader with pc } } :=
  -- the counters stand still, so every field follows the one of `s` along `h_taken`
  { hI with
    alive := h_alive
    fetched := by
      rw [h_fetched, h_taken]
      exact hI.fetched
    ahead := by
      rw [h_taken]
      exact hI.ahead
    noticed := by
      intro q h_q
      rw [h_taken]
      exact h_noticed q h_q
    reading := by
      intro q r h_r
      obtain ⟨h_old, h_next⟩ := h_reading q r h_r
      obtain ⟨⟨p, h_p, h_holds, h_read⟩, h_front⟩ := hI.reading q r h_old
      rw [h_taken]
      exact ⟨⟨p, h_p, h_holds, h_next p.2 h_holds h_read⟩, h_front⟩
    front := by
      rw [h_taken]
      exact hI.front
    writing := by
      rw [h_taken]
      exact hI.writing
    stored := by
      rw [h_taken]
      exact hI.stored }

/-- The reader chooses the slot of the frame it has noticed. -/
theorem read_fetch (hI : InletInv lz4 pubs outs s) {q : BitVec 64}
    (h_pc : s.reader.pc = .loadPublished q) :
    InletInv lz4 pubs outs { s with reader := { s.reader with
      pc := .readMagic q (slotIndex s.inlet.published) } } := by
  obtain ⟨h_n, rfl⟩ := hI.noticed q h_pc
  have h_outs : taken outs s.reader = outs.length :=
    taken_of_not_reading outs (by rw [h_pc]; rfl)
  have h_taken : taken outs { s.reader with
      pc := .readMagic (BitVec.ofNat 64 (taken outs s.reader + 1)) (slotIndex s.inlet.published) } =
      taken outs s.reader + 1 := by
    rw [h_outs]
    exact taken_of_reading outs rfl
  -- the frame is in the slot `published` names, and nobody writes
  obtain ⟨p, h_p⟩ : ∃ p, pubs[taken outs s.reader]? = some p :=
    ⟨_, List.getElem?_eq_getElem (by omega)⟩
  have h_out : ∀ i, (s.writer i).inside = false := hI.not_inside h_n
  refine { hI with
    alive := ⟨nofun, nofun⟩
    fetched := by rw [h_taken]; rfl
    ahead := Or.inl (by rw [h_taken, h_n])
    noticed := nofun
    reading := ?_
    front := ?_
    writing := ?_
    stored := ?_ }
  · rintro q r h_r
    obtain ⟨-, rfl⟩ := Prod.mk.inj (Option.some.inj h_r)
    refine ⟨⟨p, by rw [← h_outs]; exact h_p, hI.front p h_p, trivial⟩, ?_⟩
    refine iff_of_true rfl ⟨by rw [h_taken, h_n], fun i frame h_i => ?_⟩
    exact absurd h_i (WriterPc.ne_fetchAdd (h_out i))
  · intro p h_p
    rw [h_taken, List.getElem?_eq_none_iff.mpr (by omega)] at h_p
    exact absurd h_p (by simp)
  · intro i w frame k h_i
    exact absurd h_i (WriterPc.ne_write (h_out i))
  · intro i frame h_i
    exact absurd h_i (WriterPc.ne_fetchAdd (h_out i))

/-- The reader is done with a frame. -/
theorem read_finish (hI : InletInv lz4 pubs outs s) {q : BitVec 64} {r : Fin 2} {o : Outcome}
    (h_pc : s.reader.pc.reading = some (q, r))
    (h_frame : ∀ frame, (s.inlet.slots r).Holds frame → Progress lz4 frame s.reader.pc →
      o = deliver lz4 frame) :
    InletInv lz4 pubs (outs ++ [o])
      { s with reader := { s.reader with pc := .acknowledge q } } := by
  obtain ⟨⟨p, h_p, h_holds, h_read⟩, -⟩ := hI.reading q r h_pc
  obtain rfl := h_frame p.2 h_holds h_read
  have h_len : (outs ++ [deliver lz4 p.2]).length = outs.length + 1 := by
    rw [List.length_append, List.length_singleton]
  have h_taken : taken (outs ++ [deliver lz4 p.2]) { s.reader with pc := .acknowledge q } =
      taken outs s.reader := by
    rw [taken_of_not_reading _ rfl, taken_of_reading outs h_pc, h_len]
  have h_fetched : q = BitVec.ofNat 64 (taken outs s.reader) := by
    rw [← hI.fetched, Reader.fetched_of_reading h_pc]
  refine
    { hI with
      delivered := ?_
      alive := ⟨nofun, nofun⟩
      last := by
        rw [h_len]
        exact le_trans hI.last (Nat.le_succ _)
      fetched := by rw [h_taken]; exact h_fetched
      ahead := by rw [h_taken]; exact hI.ahead
      noticed := nofun
      reading := nofun
      front := by rw [h_taken]; exact hI.front
      writing := by rw [h_taken]; exact hI.writing
      stored := by rw [h_taken]; exact hI.stored
      returned := ?_ }
  · -- the outcome is the one of the next frame
    obtain ⟨rest, h_rest⟩ := hI.delivered
    have h_next := congrArg (fun l => l[outs.length]?) h_rest
    simp only [List.getElem?_append_right le_rfl, Nat.sub_self, List.getElem?_map, h_p,
      Option.map_some] at h_next
    cases rest with
    | nil => exact absurd h_next (by simp)
    | cons o rest =>
      obtain rfl : o = deliver lz4 p.2 := by simpa using h_next
      exact ⟨rest, by rw [← h_rest, List.append_assoc, List.singleton_append]⟩
  · intro i pc h_i h_rest k frame h_k
    rw [h_len]
    exact Nat.lt_succ_of_lt (hI.returned i pc h_i h_rest k frame h_k)

/-- The reader acknowledges the sequence number. -/
theorem read_acknowledge (hI : InletInv lz4 pubs outs s) {q : BitVec 64}
    (h_pc : s.reader.pc = .acknowledge q) :
    InletInv lz4 pubs outs
      { s with inlet := { s.inlet with processed := q }, reader := ⟨.loop, q⟩ } := by
  -- the frame carried has been observed, so it is not counted twice
  have h_outs : taken outs s.reader = outs.length :=
    taken_of_not_reading outs (by rw [h_pc]; rfl)
  have h_taken : taken outs ⟨.loop, q⟩ = taken outs s.reader := by
    rw [h_outs]
    exact taken_of_not_reading outs rfl
  -- the number carried is that of the frame just observed
  have h_q : q = BitVec.ofNat 64 (taken outs s.reader) := by
    rw [← hI.fetched]
    unfold Reader.fetched
    rw [h_pc]
  have h_bound := hI.bound
  refine { hI with
    alive := ⟨nofun, nofun⟩
    processed := rfl
    last := ?_
    fetched := by rw [h_taken]; exact h_q
    ahead := by rw [h_taken]; exact hI.ahead
    noticed := nofun
    reading := nofun
    front := by rw [h_taken]; exact hI.front
    writing := by rw [h_taken]; exact hI.writing
    stored := by rw [h_taken]; exact hI.stored }
  -- `last_sequence_` becomes that number
  show q.toNat ≤ _
  rw [h_q, BitVec.toNat_ofNat, h_outs]
  exact Nat.mod_le _ _

/-- **The reader's step keeps the invariant**, one lemma for each of its moves. -/
theorem read (hI : InletInv lz4 pubs outs s) {inlet : SharedInlet} {reader : Reader}
    {os : List Outcome} (h : s.reader.step lz4 s.running s.inlet = some (inlet, reader, os)) :
    InletInv lz4 pubs (outs ++ os) { s with inlet, reader } := by
  cases Reader.step_move h with
  | check pc h_pc h_pc' =>
    rw [List.append_nil]
    have h_pc' : pc = .loadSequence := by
      rcases h_pc' with ⟨-, h⟩ | ⟨h_stopped, -⟩
      · exact h
      · rw [hI.running] at h_stopped
        exact absurd h_stopped (by decide)
    subst h_pc'
    refine hI.read_local ?_ ?_ ⟨nofun, nofun⟩ nofun nofun
    · exact taken_eq_of_not_reading outs rfl (by rw [h_pc]; rfl)
    · unfold Reader.fetched
      rw [h_pc]
      rfl
  | again h_pc h_old =>
    rw [List.append_nil]
    refine hI.read_local ?_ ?_ ⟨nofun, nofun⟩ nofun nofun
    · exact taken_eq_of_not_reading outs rfl (by rw [h_pc]; rfl)
    · unfold Reader.fetched
      rw [h_pc]
      rfl
  | notice h_pc h_change =>
    rw [List.append_nil]
    have h_last : s.reader.fetched = s.reader.last_sequence := by
      unfold Reader.fetched
      rw [h_pc]
      rfl
    -- a changed sequence is one ahead
    have h_n : pubs.length = taken outs s.reader + 1 := by
      refine hI.ahead.resolve_left fun h_eq => h_change ?_
      rw [hI.sequence, h_eq, ← hI.fetched, h_last]
    refine hI.read_local ?_ ?_ ⟨nofun, nofun⟩ ?_ nofun
    · exact taken_eq_of_not_reading outs rfl (by rw [h_pc]; rfl)
    · rw [h_last]
      rfl
    · intro q h_q
      obtain rfl := ReaderPc.loadPublished.inj h_q
      exact ⟨h_n, by rw [hI.sequence, h_n]⟩
  | fetch q h_pc =>
    rw [List.append_nil]
    exact hI.read_fetch h_pc
  | scan q r pc h_pc h_pc' h_fuel h_frame =>
    rw [List.append_nil]
    refine hI.read_local ?_ ?_ ?_ ?_ ?_
    · rw [taken_of_reading outs h_pc]
      exact taken_of_reading outs h_pc'
    · rw [Reader.fetched_of_reading h_pc]
      exact Reader.fetched_of_reading h_pc'
    · constructor <;> rintro rfl <;> exact absurd h_pc' (by simp [ReaderPc.reading])
    · rintro q' rfl
      exact absurd h_pc' (by simp [ReaderPc.reading])
    · intro q' r' h_r
      obtain ⟨rfl, rfl⟩ : q = q' ∧ r = r' := by simpa using h_pc'.symm.trans h_r
      exact ⟨h_pc, h_frame⟩
  | finish q r o h_pc h_frame => exact hI.read_finish h_pc h_frame
  | acknowledge q h_pc =>
    rw [List.append_nil]
    exact hI.read_acknowledge h_pc

/-! ### The writers' steps -/

section Write

variable [DecidableEq ι] {i : ι}

/-- Who is at a program point after writer `i` has moved. -/
theorem update_cases {writer : ι → WriterPc} {pc x : WriterPc} {j : ι}
    (h : Function.update writer i pc j = x) : j = i ∧ pc = x ∨ j ≠ i ∧ writer j = x := by
  by_cases h_j : j = i
  · subst h_j
    rw [Function.update_self] at h
    exact Or.inl ⟨rfl, h⟩
  · rw [Function.update_of_ne h_j] at h
    exact Or.inr ⟨h_j, h⟩

/-- Whoever is publishing after writer `i` has moved was, unless it is `i`. -/
theorem sole_update (hI : InletInv lz4 pubs outs s) {pc : WriterPc}
    (h_in : pc.inside = true → ∀ j, j ≠ i → (s.writer j).inside = false) (j k : ι)
    (h_j : (Function.update s.writer i pc j).inside = true)
    (h_k : (Function.update s.writer i pc k).inside = true) : j = k := by
  -- of `j` and `k` either one is `i`, or both were inside before
  rcases update_cases (rfl : Function.update s.writer i pc j = _) with ⟨rfl, h_pc⟩ | ⟨h_ne, h_pc⟩
  · rw [← h_pc] at h_j
    rcases update_cases (rfl : Function.update s.writer j pc k = _) with ⟨rfl, -⟩ | ⟨h_ne, h_pc'⟩
    · rfl
    · rw [← h_pc', h_in h_j k h_ne] at h_k
      exact absurd h_k (by decide)
  · rw [← h_pc] at h_j
    rcases update_cases (rfl : Function.update s.writer i pc k = _) with ⟨rfl, h_pc'⟩ | ⟨-, h_pc'⟩
    · rw [← h_pc'] at h_k
      rw [h_in h_k j h_ne] at h_j
      exact absurd h_j (by decide)
    · rw [← h_pc'] at h_k
      exact hI.sole j k h_j h_k

/-- A writer that has moved and is not at rest adds nothing to what the resting ones know. -/
theorem returned_update (hI : InletInv lz4 pubs outs s) {pc : WriterPc}
    (h_pc : pc.resting = false) (j : ι) (pc' : WriterPc)
    (h_j : Function.update s.writer i pc j = pc') (h_rest : pc'.resting = true) (k : ℕ)
    (frame : Frame) (h_k : pubs[k]? = some (j, frame)) : k < outs.length := by
  rcases update_cases h_j with ⟨-, rfl⟩ | ⟨-, h_j⟩
  · rw [h_pc] at h_rest
    exact absurd h_rest Bool.false_ne_true
  · exact hI.returned j pc' h_j h_rest k frame h_k

/-- A writer that has moved and does not wait adds nothing to what the waiting ones know. -/
theorem waiting_update (hI : InletInv lz4 pubs outs s) {pc : WriterPc}
    (h_pc : ∀ q, pc ≠ .wait q) (j : ι) (q : BitVec 64)
    (h_j : Function.update s.writer i pc j = .wait q) (k : ℕ) (frame : Frame)
    (h_k : pubs[k]? = some (j, frame)) : k < q.toNat := by
  rcases update_cases h_j with ⟨-, h_eq⟩ | ⟨-, h_j⟩
  · exact absurd h_eq (h_pc q)
  · exact hI.waiting j q h_j k frame h_k

omit [DecidableEq ι] in
/-- A writer that is publishing is the only one. -/
theorem others_outside (hI : InletInv lz4 pubs outs s) (h_i : (s.writer i).inside = true)
    (j : ι) (h_ne : j ≠ i) : (s.writer j).inside = false := by
  cases h_j : (s.writer j).inside with
  | false => rfl
  | true => exact absurd (hI.sole j i h_j h_i) h_ne

omit [DecidableEq ι] in
/-- A writer inside `publish` writes to the slot that is not published. -/
theorem free_slot (hI : InletInv lz4 pubs outs s) {w : Fin 2} {frame : Frame} {k : ℕ}
    (h_pc : s.writer i = .write w frame k) : slotIndex s.inlet.published ≠ w := by
  obtain ⟨-, h_w, -⟩ := hI.writing i w frame k h_pc
  rw [h_w]
  exact (writeIndex_ne _).symm

omit [DecidableEq ι] in
/-- While a writer fills a slot, nobody is about to increment the sequence. -/
theorem not_fetchAdd (hI : InletInv lz4 pubs outs s) {w : Fin 2} {frame : Frame} {k : ℕ}
    (h_pc : s.writer i = .write w frame k) (j : ι) (frame' : Frame) :
    s.writer j ≠ .fetchAdd frame' := by
  intro h_j
  -- it would be the same writer, at two program points
  obtain rfl : i = j := hI.sole i j (by rw [h_pc]; rfl) (by rw [h_j]; rfl)
  rw [h_pc] at h_j
  exact absurd h_j nofun

/-- A writer moves outside of `publish` and touches nothing. -/
theorem write_local (hI : InletInv lz4 pubs outs s) {pc : WriterPc}
    (h_old : (s.writer i).inside = false) (h_new : pc.inside = false)
    (h_rest : pc.resting = true → ∀ k frame, pubs[k]? = some (i, frame) → k < outs.length)
    (h_wait : ∀ q, pc = .wait q → ∀ k frame, pubs[k]? = some (i, frame) → k < q.toNat) :
    InletInv lz4 pubs outs { s with writer := Function.update s.writer i pc } := by
  -- nobody has entered or left `publish`
  have h_fetchAdd : (∀ j frame, Function.update s.writer i pc j ≠ .fetchAdd frame) ↔
      ∀ j frame, s.writer j ≠ .fetchAdd frame := by
    constructor
    · intro h_all j frame h_j
      refine h_all j frame ?_
      rw [Function.update_of_ne, h_j]
      rintro rfl
      rw [h_j] at h_old
      exact absurd h_old (by simp [WriterPc.inside])
    · intro h_all j frame h_j
      rcases update_cases h_j with ⟨-, rfl⟩ | ⟨-, h_j⟩
      · exact absurd h_new (by simp [WriterPc.inside])
      · exact h_all j frame h_j
  refine { hI with
    reading := ?_
    writing := ?_
    stored := ?_
    sole := hI.sole_update fun h_in => absurd h_in (by rw [h_new]; decide)
    returned := ?_
    waiting := ?_ }
  · intro q r h_r
    obtain ⟨h_frame, h_front⟩ := hI.reading q r h_r
    exact ⟨h_frame, h_front.trans (and_congr_right fun _ => h_fetchAdd.symm)⟩
  · intro j w frame k h_j
    rcases update_cases h_j with ⟨-, rfl⟩ | ⟨-, h_j⟩
    · exact absurd h_new (by simp [WriterPc.inside])
    · exact hI.writing j w frame k h_j
  · intro j frame h_j
    rcases update_cases h_j with ⟨-, rfl⟩ | ⟨-, h_j⟩
    · exact absurd h_new (by simp [WriterPc.inside])
    · exact hI.stored j frame h_j
  · intro j pc' h_j h_pc'
    rcases update_cases h_j with ⟨rfl, rfl⟩ | ⟨-, h_j⟩
    · exact h_rest h_pc'
    · exact hI.returned j pc' h_j h_pc'
  · intro j q h_j
    rcases update_cases h_j with ⟨rfl, h_pc⟩ | ⟨-, h_j⟩
    · exact h_wait q h_pc
    · exact hI.waiting j q h_j

/-- A writer starts to publish while it is its turn. -/
theorem write_start (hI : InletInv lz4 pubs outs s) {frame : Frame}
    (h_pc : s.writer i = .loadPublished frame)
    (h_turn : ∀ j, j ≠ i → (s.writer j).inside = false)
    (h_fetched : s.reader.fetched = s.inlet.sequence) :
    InletInv lz4 pubs outs { s with
      writer := Function.update s.writer i
        (.write (writeIndex (slotIndex s.inlet.published)) frame 0) } := by
  -- nothing is unread, so the slot the reader may be in is not the one written to
  have h_n := hI.taken_eq_of_fetched h_fetched
  -- no writer is about to publish
  have h_fetchAdd : ∀ j frame', Function.update s.writer i
      (.write (writeIndex (slotIndex s.inlet.published)) frame 0) j ≠ .fetchAdd frame' := by
    intro j frame' h_j
    rcases update_cases h_j with ⟨-, h_eq⟩ | ⟨h_ne, h_j⟩
    · exact absurd h_eq nofun
    · exact absurd h_j (WriterPc.ne_fetchAdd (h_turn j h_ne))
  refine { hI with
    reading := ?_
    writing := ?_
    stored := fun j frame' h_j => absurd h_j (h_fetchAdd j frame')
    sole := hI.sole_update fun _ => h_turn
    returned := hI.returned_update rfl
    waiting := hI.waiting_update nofun }
  · -- the reader's slot keeps its frame, as the others are outside
    intro q r h_r
    obtain ⟨h_frame, h_front⟩ := hI.reading q r h_r
    refine ⟨h_frame, h_front.trans (and_congr_right fun _ => iff_of_true ?_ h_fetchAdd)⟩
    intro j frame' h_j
    by_cases h_ne : j = i
    · rw [h_ne, h_pc] at h_j
      exact absurd h_j nofun
    · exact absurd h_j (WriterPc.ne_fetchAdd (h_turn j h_ne))
  · -- writer `i` has copied no byte yet
    intro j w frame' k h_j
    rcases update_cases h_j with ⟨-, h_eq⟩ | ⟨h_ne, h_j⟩
    · obtain ⟨rfl, rfl, rfl⟩ := WriterPc.write.inj h_eq
      exact ⟨h_n, rfl, fun k h_k => absurd h_k (Nat.not_lt_zero k)⟩
    · exact absurd h_j (WriterPc.ne_write (h_turn j h_ne))

/-- A plain write goes to the slot nobody reads. -/
theorem write_put (hI : InletInv lz4 pubs outs s) {w : Fin 2} {frame : Frame} {k : ℕ}
    (h_pc : s.writer i = .write w frame k) :
    InletInv lz4 pubs outs { s with
      inlet := { s.inlet with
        slots := Function.update s.inlet.slots w ((s.inlet.slots w).put frame k) },
      writer := Function.update s.writer i (.write w frame (k + 1)) } := by
  obtain ⟨h_n, h_w, h_written⟩ := hI.writing i w frame k h_pc
  have h_others := hI.others_outside (i := i) (by rw [h_pc]; rfl)
  have h_free := hI.free_slot h_pc
  have h_fetchAdd := hI.not_fetchAdd h_pc
  have h_fetchAdd' : ∀ j frame', Function.update s.writer i (.write w frame (k + 1)) j ≠
      .fetchAdd frame' := by
    intro j frame' h_j
    rcases update_cases h_j with ⟨-, h_eq⟩ | ⟨-, h_j⟩
    · exact absurd h_eq nofun
    · exact h_fetchAdd j frame' h_j
  refine { hI with
    reading := ?_
    front := ?_
    writing := ?_
    stored := fun j frame' h_j => absurd h_j (h_fetchAdd' j frame')
    sole := hI.sole_update fun _ => h_others
    returned := hI.returned_update rfl
    waiting := hI.waiting_update nofun }
  · intro q r h_r
    obtain ⟨⟨p, h_p, h_holds, h_read⟩, h_front⟩ := hI.reading q r h_r
    -- the slot being read is the one `published` names
    have h_slot : slotIndex s.inlet.published = r := h_front.mpr ⟨h_n, h_fetchAdd⟩
    refine ⟨⟨p, h_p, ?_, h_read⟩, iff_of_true h_slot ⟨h_n, h_fetchAdd'⟩⟩
    show (Function.update s.inlet.slots w _ r).Holds p.2
    rw [Function.update_of_ne (by rw [← h_slot]; exact h_free)]
    exact h_holds
  · intro p h_p
    show (Function.update s.inlet.slots w _ (slotIndex s.inlet.published)).Holds p.2
    rw [Function.update_of_ne h_free]
    exact hI.front p h_p
  · intro j w' frame' k' h_j
    rcases update_cases h_j with ⟨-, h_eq⟩ | ⟨h_ne, h_j⟩
    · obtain ⟨rfl, rfl, rfl⟩ := WriterPc.write.inj h_eq
      refine ⟨h_n, h_w, ?_⟩
      show (Function.update s.inlet.slots w _ w).Written frame (k + 1)
      rw [Function.update_self]
      exact h_written.put
    · exact absurd h_j (WriterPc.ne_write (h_others j h_ne))

/-- The finished slot is named. -/
theorem write_store (hI : InletInv lz4 pubs outs s) {w : Fin 2} {frame : Frame} {k : ℕ}
    (h_pc : s.writer i = .write w frame k) (h_k : ¬k < frame.writes) :
    InletInv lz4 pubs outs { s with
      inlet := { s.inlet with published := BitVec.ofNat 32 w },
      writer := Function.update s.writer i (.fetchAdd frame) } := by
  obtain ⟨h_n, -, h_written⟩ := hI.writing i w frame k h_pc
  have h_others := hI.others_outside (i := i) (by rw [h_pc]; rfl)
  have h_free := hI.free_slot h_pc
  have h_fetchAdd := hI.not_fetchAdd h_pc
  refine { hI with
    reading := ?_
    front := ?_
    writing := ?_
    stored := ?_
    sole := hI.sole_update fun _ => h_others
    returned := hI.returned_update rfl
    waiting := hI.waiting_update nofun }
  · intro q r h_r
    obtain ⟨h_frame, h_front⟩ := hI.reading q r h_r
    have h_slot : slotIndex s.inlet.published = r := h_front.mpr ⟨h_n, h_fetchAdd⟩
    -- from here to the increment `published` names the other slot
    refine ⟨h_frame, iff_of_false ?_ fun h_all => ?_⟩
    · show slotIndex (BitVec.ofNat 32 w) ≠ r
      rw [slotIndex_ofNat, ← h_slot]
      exact h_free.symm
    · exact h_all.2 i frame (Function.update_self ..)
  · intro p h_p
    -- everything published has been fetched
    have h_none : pubs[taken outs s.reader]? = none := List.getElem?_eq_none_iff.mpr h_n.le
    exact absurd (h_none.symm.trans h_p) (by simp)
  · intro j w' frame' k' h_j
    rcases update_cases h_j with ⟨-, h_eq⟩ | ⟨h_ne, h_j⟩
    · exact absurd h_eq nofun
    · exact absurd h_j (WriterPc.ne_write (h_others j h_ne))
  · intro j frame' h_j
    rcases update_cases h_j with ⟨-, h_eq⟩ | ⟨-, h_j⟩
    · obtain rfl := WriterPc.fetchAdd.inj h_eq
      refine ⟨h_n, ?_⟩
      show (s.inlet.slots (slotIndex (BitVec.ofNat 32 w))).Holds frame
      rw [slotIndex_ofNat]
      exact h_written.holds h_k
    · exact absurd h_j (h_fetchAdd j frame')

/-- The sequence is incremented: the frame is published. -/
theorem write_fetchAdd (hI : InletInv lz4 pubs outs s) {frame : Frame}
    (h_pc : s.writer i = .fetchAdd frame) (h_wrap : s.inlet.sequence ≠ BitVec.allOnes 64) :
    InletInv lz4 (pubs ++ [(i, frame)]) outs { s with
      inlet := { s.inlet with sequence := s.inlet.sequence + 1 },
      writer := Function.update s.writer i .loadSequence } := by
  obtain ⟨h_n, h_holds⟩ := hI.stored i frame h_pc
  have h_others := hI.others_outside (i := i) (by rw [h_pc]; rfl)
  have h_len : (pubs ++ [(i, frame)]).length = pubs.length + 1 := by
    rw [List.length_append, List.length_singleton]
  have h_outside : ∀ j, (Function.update s.writer i .loadSequence j).inside = false := by
    intro j
    rcases update_cases (rfl : Function.update s.writer i .loadSequence j = _) with
      ⟨-, h_eq⟩ | ⟨h_ne, h_j⟩
    · rw [← h_eq]
      rfl
    · rw [← h_j]
      exact h_others j h_ne
  -- a frame of another writer was published before
  have h_before : ∀ j, j ≠ i → ∀ (k : ℕ) (frame' : Frame),
      (pubs ++ [(i, frame)])[k]? = some (j, frame') → pubs[k]? = some (j, frame') := by
    intro j h_ne k frame' h_k
    by_cases h_lt : k < pubs.length
    · rwa [List.getElem?_append_left h_lt] at h_k
    · rw [List.getElem?_append_right (Nat.not_lt.mp h_lt)] at h_k
      have h_mem := List.mem_of_getElem? h_k
      rw [List.mem_singleton] at h_mem
      exact absurd (Prod.mk.inj h_mem).1 h_ne
  refine
    { hI with
      delivered := ?_
      bound := ?_
      sequence := ?_
      ahead := Or.inr (by rw [h_len, h_n])
      noticed := ?_
      reading := ?_
      front := ?_
      writing := ?_
      stored := ?_
      sole := hI.sole_update fun h_in => absurd h_in (by decide)
      returned := ?_
      waiting := ?_ }
  · rw [List.map_append]
    exact hI.delivered.trans (List.prefix_append _ _)
  · rw [h_len]
    have h_bound := hI.bound
    by_contra h_full
    -- at `2 ^ 64 - 1` frames the sequence is all ones
    refine h_wrap ?_
    rw [hI.sequence]
    have h_max : pubs.length = 2 ^ 64 - 1 := by omega
    rw [h_max]
    rfl
  · show s.inlet.sequence + 1 = _
    rw [hI.sequence, h_len, BitVec.ofNat_add]
    rfl
  · intro q h_q
    have := (hI.noticed q h_q).1
    omega
  · intro q r h_r
    obtain ⟨⟨p, h_p, h_frame⟩, h_front⟩ := hI.reading q r h_r
    have h_lt : outs.length < pubs.length := (List.getElem?_eq_some_iff.mp h_p).1
    refine ⟨⟨p, by rwa [List.getElem?_append_left h_lt], h_frame⟩, iff_of_false ?_ ?_⟩
    · exact fun h_slot => (h_front.mp h_slot).2 i frame h_pc
    · intro h_all
      have h_eq : (pubs ++ [(i, frame)]).length = taken outs s.reader := h_all.1
      rw [h_len, h_n] at h_eq
      exact Nat.succ_ne_self _ h_eq
  · -- the frame that waits to be fetched is this one
    intro p h_p
    rw [← h_n, List.getElem?_concat_length] at h_p
    obtain rfl := Option.some.inj h_p
    exact h_holds
  · intro j w frame' k h_j
    exact absurd h_j (WriterPc.ne_write (h_outside j))
  · intro j frame' h_j
    exact absurd h_j (WriterPc.ne_fetchAdd (h_outside j))
  · intro j pc h_j h_rest k frame' h_k
    rcases update_cases h_j with ⟨-, rfl⟩ | ⟨h_ne, h_j⟩
    · exact absurd h_rest Bool.false_ne_true
    · exact hI.returned j pc h_j h_rest k frame' (h_before j h_ne k frame' h_k)
  · intro j q h_j k frame' h_k
    rcases update_cases h_j with ⟨-, h_eq⟩ | ⟨h_ne, h_j⟩
    · exact absurd h_eq nofun
    · exact hI.waiting j q h_j k frame' (h_before j h_ne k frame' h_k)

/-- **A writer's step keeps the invariant**, when it is the writer's turn and `sequence` does not
wrap. -/
theorem write (hI : InletInv lz4 pubs outs s) {inlet : SharedInlet} {pc : WriterPc}
    {es : List (Event ι)} (h_undisturbed : Undisturbed s (.write i))
    (h_turn : Disciplined s (.write i)) (h : (s.writer i).step i s.inlet = some (inlet, pc, es)) :
    InletInv lz4 (pubs ++ published es) (outs ++ outcomes es)
      { s with inlet, writer := Function.update s.writer i pc } := by
  cases h_pc : s.writer i with
  | idle =>
    rw [h_pc] at h
    exact absurd h nofun
  | loadPublished frame =>
    rw [h_pc] at h
    cases h
    have h_free := h_turn (by rw [h_pc]; rfl)
    apply silent
    exact hI.write_start h_pc h_free.1 h_free.2
  | write w frame k =>
    rw [h_pc] at h
    simp only [WriterPc.step] at h
    split at h
    · cases h
      apply silent
      exact hI.write_put h_pc
    · next h_k =>
      cases h
      apply silent
      exact hI.write_store h_pc h_k
  | fetchAdd frame =>
    rw [h_pc] at h
    cases h
    show InletInv lz4 (pubs ++ [(i, frame)]) (outs ++ []) _
    rw [List.append_nil]
    exact hI.write_fetchAdd h_pc (h_undisturbed (by rw [h_pc]; rfl))
  | loadSequence =>
    rw [h_pc] at h
    cases h
    apply silent
    refine hI.write_local (by rw [h_pc]; rfl) rfl nofun fun q h_q k frame h_k => ?_
    -- the number loaded counts every frame published so far
    obtain rfl := WriterPc.wait.inj h_q
    have h_lt := (List.getElem?_eq_some_iff.mp h_k).1
    rw [hI.sequence, BitVec.toNat_ofNat, Nat.mod_eq_of_lt hI.bound]
    exact h_lt
  | wait q =>
    rw [h_pc] at h
    simp only [WriterPc.step] at h
    split at h
    · cases h
      apply silent
      refine hI.write_local (by rw [h_pc]; rfl) rfl nofun fun q' h_q => ?_
      obtain rfl := WriterPc.wait.inj h_q
      exact hI.waiting i q h_pc
    · next h_done =>
      cases h
      apply silent
      refine hI.write_local (by rw [h_pc]; rfl) rfl (fun _ k frame h_k => ?_) nofun
      exact lt_of_lt_of_le (hI.waiting i q h_pc k frame h_k) (hI.le_outs h_done)

/-- A call of `publish` keeps the invariant. -/
theorem publish (hI : InletInv lz4 pubs outs s) {args : Args} {pc : WriterPc}
    {es : List (Event ι)} (h : (s.writer i).publish i args = some (pc, es)) :
    InletInv lz4 (pubs ++ published es) (outs ++ outcomes es)
      { s with writer := Function.update s.writer i pc } := by
  cases h_pc : s.writer i with
  | idle =>
    rw [h_pc] at h
    simp only [WriterPc.publish] at h
    have h_out : (s.writer i).inside = false := by
      rw [h_pc]
      rfl
    -- a rejected call goes on to the wait as well
    split at h
    · cases h
      apply silent
      exact hI.write_local h_out rfl nofun nofun
    · cases h
      apply silent
      exact hI.write_local h_out rfl (fun _ => hI.returned i .idle h_pc rfl) nofun
  | _ =>
    rw [h_pc] at h
    exact absurd h nofun

/-- **One step keeps the run invariant.** -/
theorem step {tr es : List (Event ι)} {s' : System ι} {a : Action ι}
    (hI : InletInv lz4 (published tr) (outcomes tr) s) (h_undisturbed : Undisturbed s a)
    (h_turn : Disciplined s a) (h : (machine lz4 ι).step s a = some (s', es)) :
    InletInv lz4 (published (tr ++ es)) (outcomes (tr ++ es)) s' := by
  rw [published_append, outcomes_append]
  have h_cases := machine_cases h
  -- only the reader and the writers make steps that count
  cases a with
  | read =>
    obtain ⟨inlet, reader, os, h_step, rfl, rfl⟩ := h_cases
    rw [published_outcomes, outcomes_outcomes, List.append_nil]
    exact hI.read h_step
  | publish i args =>
    obtain ⟨pc, h_step, rfl⟩ := h_cases
    exact hI.publish h_step
  | write i =>
    obtain ⟨inlet, pc, h_step, rfl⟩ := h_cases
    exact hI.write h_undisturbed h_turn h_step
  | stop => exact absurd h_undisturbed id
  | start => exact absurd h_undisturbed id

end Write

/-! ### Consequences -/

/-- The slot being written is not the one being read. -/
theorem apart (hI : InletInv lz4 pubs outs s) {i : ι} {w : Fin 2} {frame : Frame} {n : ℕ}
    {q : BitVec 64} {r : Fin 2} (h_w : s.writer i = .write w frame n)
    (h_r : s.reader.pc.reading = some (q, r)) : r ≠ w := by
  obtain ⟨h_n, rfl, -⟩ := hI.writing i w frame n h_w
  have h_slot : slotIndex s.inlet.published = r :=
    (hI.reading q r h_r).2.mpr ⟨h_n, hI.not_fetchAdd h_w⟩
  rw [← h_slot]
  exact (writeIndex_ne _).symm

end InletInv

/-- A writer's step shows at most one event, and leaves a wait only past its number. -/
theorem WriterPc.step_events {pc pc' : WriterPc} {i : ι} {inlet inlet' : SharedInlet}
    {es : List (Event ι)} (h : pc.step i inlet = some (inlet', pc', es)) :
    es.length ≤ 1 ∧
      ∀ j q, .left j q ∈ es → j = i ∧ pc = .wait q ∧ ¬inlet.processed < q := by
  -- only the last operation of a call shows its frame, and only a finished wait its end
  cases pc with
  | idle => cases h
  | loadPublished frame | fetchAdd frame | loadSequence =>
    cases h
    exact ⟨by simp, by simp⟩
  | write w frame n =>
    simp only [step] at h
    split at h <;> cases h <;> exact ⟨by simp, by simp⟩
  | wait s =>
    simp only [step] at h
    split at h
    · cases h
      exact ⟨by simp, by simp⟩
    · next h_done =>
      cases h
      refine ⟨le_rfl, fun j q h_e => ?_⟩
      obtain ⟨rfl, rfl⟩ := Event.left.inj (List.mem_singleton.mp h_e)
      exact ⟨rfl, rfl, h_done⟩

theorem WriterPc.publish_events {pc pc' : WriterPc} {i : ι} {args : Args}
    {es : List (Event ι)} (h : pc.publish i args = some (pc', es)) :
    es.length ≤ 1 ∧ ∀ j q, .left j q ∉ es := by
  cases pc with
  | idle =>
    simp only [publish] at h
    split at h <;> cases h <;> exact ⟨by simp, by simp⟩
  | _ => cases h

/-- A step shows at most one event. -/
theorem machine_one_event [DecidableEq ι] {lz4 : Lz4} (s : System ι) (a : Action ι)
    (s' : System ι) (es : List (Event ι)) (h : (machine lz4 ι).step s a = some (s', es)) :
    es.length ≤ 1 := by
  have h_cases := machine_cases h
  cases a with
  | read =>
    obtain ⟨inlet, reader, os, h_step, -, rfl⟩ := h_cases
    rw [List.length_map]
    cases Reader.step_move h_step <;> simp
  | publish i args =>
    obtain ⟨pc, h_step, -⟩ := h_cases
    exact (WriterPc.publish_events h_step).1
  | write i =>
    obtain ⟨inlet, pc, h_step, -⟩ := h_cases
    exact (WriterPc.step_events h_step).1
  | stop | start =>
    rw [h_cases.1]
    exact Nat.zero_le 1

/-- Leaving a wait. -/
theorem machine_left [DecidableEq ι] {lz4 : Lz4} {s s' : System ι} {a : Action ι} {i : ι}
    {q : BitVec 64} (h : (machine lz4 ι).step s a = some (s', [.left i q])) :
    s.writer i = .wait q ∧ ¬s.inlet.processed < q := by
  have h_cases := machine_cases h
  have h_mem : Event.left i q ∈ [Event.left i q] := List.mem_singleton_self _
  cases a with
  | read =>
    -- the reader's events are no ends of waits
    obtain ⟨inlet, reader, os, -, -, h_es⟩ := h_cases
    rw [h_es] at h_mem
    obtain ⟨o, -, h_eq⟩ := List.mem_map.mp h_mem
    exact absurd h_eq nofun
  | publish j args =>
    obtain ⟨pc, h_step, -⟩ := h_cases
    exact absurd h_mem ((WriterPc.publish_events h_step).2 i q)
  | write j =>
    obtain ⟨inlet, pc, h_step, -⟩ := h_cases
    obtain ⟨rfl, h_left⟩ := (WriterPc.step_events h_step).2 i q h_mem
    exact h_left
  | stop | start => exact absurd h_cases.1 (List.cons_ne_nil _ _)

end Feed

end Hft
