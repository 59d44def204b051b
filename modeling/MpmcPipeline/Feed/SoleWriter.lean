import MpmcPipeline.Feed.Writers

/-!
# One writer and one reader

A single writer that waits after each `publish` is disciplined by itself: before it
starts again, everything it has published has been observed. So the inlet delivers each
frame exactly once, in order and with the bytes written (`sole_writer`), and the reader
needs no help to get there: running alone it catches up.

What a single writer may not rely on is that its frame was ingested or dropped as
malformed: `publish` accepts every kind, and a frame of a kind that the reader does not
ingest is acknowledged and ignored (`sole_writer_ignored`).
-/

namespace Hft

namespace Feed

variable {lz4 : Lz4}

/-- A single writer takes its turns. -/
theorem InletInv.sole_disciplined {pubs : List (Unit × Frame)} {outs : List Outcome}
    {s : System Unit} (hI : InletInv lz4 pubs outs s) (a : Action Unit) : Disciplined s a := by
  cases a with
  | write i =>
    intro h_starts
    refine ⟨fun j h_ne => absurd (Subsingleton.elim j i) h_ne, ?_⟩
    have h_rest : (s.writer i).resting = true := by
      cases h_pc : s.writer i <;> simp_all [WriterPc.starts, WriterPc.resting]
    -- every frame is this writer's, so all of them have been observed
    have h_all : pubs.length ≤ outs.length := by
      by_contra h_lt
      obtain ⟨⟨⟨⟩, frame⟩, h_get⟩ : ∃ pub, pubs[outs.length]? = some pub :=
        ⟨_, List.getElem?_eq_getElem (Nat.not_le.mp h_lt)⟩
      exact Nat.lt_irrefl _ (hI.returned i _ rfl h_rest outs.length frame h_get)
    have h_taken : outs.length ≤ taken outs s.reader := Nat.le_add_right _ _
    have h_n : pubs.length = taken outs s.reader := by
      rcases hI.ahead with h_eq | h_eq
      · exact h_eq
      · omega
    rw [hI.fetched, hI.sequence, h_n]
  | read | publish _ _ | stop | start => trivial

theorem InletInv.reach_sole {tr : List (Event Unit)} {s : System Unit}
    (h : (machine lz4 Unit).ReachBy Undisturbed (System.init Unit) tr s) :
    InletInv lz4 (published tr) (outcomes tr) s :=
  h.inv (I := fun tr s => InletInv lz4 (published tr) (outcomes tr) s) (InletInv.initial lz4)
    fun _ _ a _ _ hI hC h_step => hI.step hC (hI.sole_disciplined a) h_step

/-! ### The reader alone -/

/-- The reader can always take a step, unless it has been stopped. -/
theorem Reader.step_isSome (lz4 : Lz4) (running : Bool) (inlet : SharedInlet) {reader : Reader}
    (h : reader.pc ≠ .exited ∧ reader.pc ≠ .starting) :
    ∃ inlet' reader' os, reader.step lz4 running inlet = some (inlet', reader', os) := by
  -- every program point of the loop has its operation; the tests only choose the next
  obtain ⟨pc, last⟩ := reader
  cases pc with
  | exited => exact absurd rfl h.1
  | starting => exact absurd rfl h.2
  | readMagic _ _ | readExpected _ _ _ | readByte _ _ _ _ _ =>
    simp only [step]
    split <;> exact ⟨_, _, _, rfl⟩
  | readLen _ _ kind _ =>
    simp only [step]
    split
    · cases kind <;> (try simp only) <;> (try split) <;> exact ⟨_, _, _, rfl⟩
    · exact ⟨_, _, _, rfl⟩
  | _ => exact ⟨_, _, _, rfl⟩

/-- A step of the reader while a frame is outstanding observes one or comes closer. -/
theorem InletInv.read_closer {ι : Type*} {pubs : List (ι × Frame)} {outs os : List Outcome}
    {s : System ι} {inlet : SharedInlet} {reader : Reader} (hI : InletInv lz4 pubs outs s)
    (h_more : outs.length < pubs.length)
    (h : s.reader.step lz4 s.running s.inlet = some (inlet, reader, os)) :
    os.length = 1 ∨ os = [] ∧ reader.pc.fuel < s.reader.pc.fuel := by
  cases Reader.step_move h with
  | check pc h_pc h_pc' =>
    refine Or.inr ⟨rfl, ?_⟩
    rcases h_pc' with ⟨-, rfl⟩ | ⟨-, rfl⟩ <;> rw [h_pc] <;> simp [ReaderPc.fuel]
  | again h_pc h_old =>
    -- the sequence has changed
    have h_taken : taken outs s.reader = outs.length :=
      taken_of_not_reading outs (by rw [h_pc]; rfl)
    have h_fetched : s.reader.fetched = s.inlet.sequence := by
      unfold Reader.fetched
      rw [h_pc, h_old]
      rfl
    have := hI.taken_eq_of_fetched h_fetched
    omega
  | notice h_pc h_new => exact Or.inr ⟨rfl, by rw [h_pc]; simp [ReaderPc.fuel]⟩
  | fetch q h_pc => exact Or.inr ⟨rfl, by rw [h_pc]; simp [ReaderPc.fuel]⟩
  | scan q r pc h_pc h_pc' h_fuel h_frame => exact Or.inr ⟨rfl, h_fuel⟩
  | finish q r o h_pc h_frame => exact Or.inl rfl
  | acknowledge q h_pc => exact Or.inr ⟨rfl, by rw [h_pc]; simp [ReaderPc.fuel]⟩

/-- **The reader catches up.** Running alone, it observes everything published: it is behind by one
frame at most. -/
theorem InletInv.catch_up {ι : Type*} [DecidableEq ι] {tr : List (Event ι)} {s : System ι}
    (hI : InletInv lz4 (published tr) (outcomes tr) s) :
    ∃ n tr' s', (machine lz4 ι).run s (List.replicate n .read) = some (s', tr') ∧
      outcomes (tr ++ tr') = (published tr).map fun p => deliver lz4 p.2 := by
  -- induction on the frames outstanding, then on the way to the next one
  generalize h_m : ((published tr).length - (outcomes tr).length) * (kCapacity + 12) +
    s.reader.pc.fuel = m
  induction m using Nat.strong_induction_on generalizing tr s with
  | _ m ih =>
    have h_le : (outcomes tr).length ≤ (published tr).length := by
      have := hI.delivered.length_le
      rwa [List.length_map] at this
    rcases Nat.lt_or_eq_of_le h_le with h_more | h_done
    · obtain ⟨inlet, reader, os, h_step⟩ :=
        Reader.step_isSome lz4 s.running s.inlet hI.alive
      have h_machine : (machine lz4 ι).step s .read =
          some ({ s with inlet, reader }, os.map .outcome) := by
        simp only [machine, h_step]
      have hI' := hI.read h_step
      have h_pub : published (tr ++ os.map .outcome) = published tr := by
        rw [published_append, published_outcomes, List.append_nil]
      have h_out : outcomes (tr ++ os.map .outcome) = outcomes tr ++ os := by
        rw [outcomes_append, outcomes_outcomes]
      rw [← h_pub, ← h_out] at hI'
      have h_less : ((published (tr ++ os.map .outcome)).length -
          (outcomes (tr ++ os.map .outcome)).length) * (kCapacity + 12) + reader.pc.fuel < m := by
        rw [h_pub, h_out, List.length_append, ← h_m]
        rcases hI.read_closer h_more h_step with h_one | ⟨rfl, h_fuel⟩
        · -- a frame less outstanding pays for the steps to the next one
          have h_bound : reader.pc.fuel < kCapacity + 12 := by
            unfold ReaderPc.fuel
            split <;> omega
          rw [h_one]
          obtain ⟨d, h_d⟩ : ∃ d, (published tr).length = (outcomes tr).length + 1 + d :=
            ⟨_, (Nat.add_sub_cancel' h_more).symm⟩
          rw [h_d, Nat.add_sub_cancel_left, Nat.add_assoc (outcomes tr).length 1 d,
            Nat.add_sub_cancel_left, Nat.add_mul, Nat.one_mul]
          omega
        · rw [List.length_nil, Nat.add_zero]
          exact Nat.add_lt_add_left h_fuel _
      obtain ⟨n, tr', s', h_run, h_all⟩ := ih _ h_less hI' rfl
      refine ⟨n + 1, os.map .outcome ++ tr', s', ?_, ?_⟩
      · simp only [List.replicate_succ, Machine.run, h_machine, h_run]
      · rw [← List.append_assoc, h_all, h_pub]
    · -- nothing outstanding: the prefix is everything
      refine ⟨0, [], s, rfl, ?_⟩
      rw [List.append_nil]
      exact hI.delivered.eq_of_length (by rw [List.length_map]; exact h_done)

/-! ### Delivery -/

/-- **Exactly-once delivery by a single writer.** In every run of one writer that waits
after each `publish`, with fewer than `2 ^ 64` accepted publishes:

* the reader never reads the slot that is being written;
* the reader's outcomes are those of the accepted publishes, one each, in order, each
  what `deliver` makes of the frame as it was written, and the reader running alone
  observes all of them;
* a frame is dropped exactly when it is malformed, and ignored exactly when it is well
  formed and of no kind the reader ingests;
* a wait that returns was for the number of the latest accepted publish, and that one
  and all before it have been observed. -/
theorem sole_writer {tr : List (Event Unit)} {s : System Unit}
    (h : (machine lz4 Unit).ReachBy Undisturbed (System.init Unit) tr s) :
    (∀ w frame n q r, s.writer () = .write w frame n →
      s.reader.pc.reading = some (q, r) → r ≠ w) ∧
    outcomes tr <+: (published tr).map (fun p => deliver lz4 p.2) ∧
    (∃ n tr' s', (machine lz4 Unit).run s (List.replicate n .read) = some (s', tr') ∧
      outcomes (tr ++ tr') = (published tr).map fun p => deliver lz4 p.2) ∧
    (∀ frame, (deliver lz4 frame = .dropped ↔ Malformed lz4 frame) ∧
      (deliver lz4 frame = .ignored ↔ frame.bytes ≠ [] ∧ frame.kind.known = false)) ∧
    ∀ tr₁ tr₂ q, tr = tr₁ ++ .left () q :: tr₂ →
      q.toNat = (published tr₁).length ∧
        outcomes tr₁ = (published tr₁).map fun p => deliver lz4 p.2 := by
  have hI := InletInv.reach_sole h
  refine ⟨fun w frame n q r => hI.apart, hI.delivered, hI.catch_up,
    fun frame => ⟨deliver_eq_dropped lz4 frame, deliver_eq_ignored lz4 frame⟩, ?_⟩
  intro tr₁ tr₂ q h_tr
  -- in the state in which the wait returned
  obtain ⟨s₁, a, s₂, h_reach, -, h_step⟩ := h.exists_step machine_one_event h_tr
  have hI₁ := InletInv.reach_sole h_reach
  obtain ⟨h_wait, h_done⟩ := machine_left h_step
  have h_le : q.toNat ≤ (outcomes tr₁).length := hI₁.le_outs h_done
  have h_outs : (outcomes tr₁).length ≤ (published tr₁).length := by
    have := hI₁.delivered.length_le
    rwa [List.length_map] at this
  -- the latest publish is the writer's own
  have h_pubs : (published tr₁).length ≤ q.toNat := by
    by_contra h_lt
    obtain ⟨⟨⟨⟩, frame⟩, h_get⟩ : ∃ pub, (published tr₁)[q.toNat]? = some pub :=
      ⟨_, List.getElem?_eq_getElem (Nat.not_le.mp h_lt)⟩
    exact Nat.lt_irrefl _ (hI₁.waiting () q h_wait q.toNat frame h_get)
  refine ⟨by omega, hI₁.delivered.eq_of_length ?_⟩
  rw [List.length_map]
  omega

/-- Two publishes in turn, an accepted one and a rejected one. -/
theorem sole_writer_rejected :
    ∃ (tr : List (Event Unit)) (s : System Unit),
      (machine noLz4 Unit).ReachBy Undisturbed (System.init Unit) tr s ∧
      lefts tr = [((), 1), ((), 1)] ∧
      outcomes tr <+: (published tr).map (fun p => deliver noLz4 p.2) := by
  obtain ⟨tr, s, h_reach, h_left⟩ := Machine.exists_reachBy_of_runBy (machine noLz4 Unit)
    Undisturbed (System.init Unit)
    (publishByte () .itch 1 ++ readByte ++ leave () ++ .publish () ⟨.itch, 0, none, 0⟩ :: leave ())
    (fun _ tr => decide (lefts tr = [((), 1), ((), 1)])) (by decide +kernel)
  exact ⟨tr, s, h_reach, of_decide_eq_true h_left, (sole_writer h_reach).2.1⟩

/-- **A frame of kind `none` is neither ingested nor dropped.** The writer leaves its
wait for the first publish, and the reader has ignored the frame. -/
theorem sole_writer_ignored :
    ∃ (tr : List (Event Unit)) (s : System Unit),
      (machine noLz4 Unit).ReachBy Undisturbed (System.init Unit) tr s ∧
      lefts tr = [((), 1)] ∧ outcomes tr = [.ignored] ∧
      ∀ p ∈ published tr, ¬Malformed noLz4 p.2 := by
  obtain ⟨tr, s, h_reach, h_out⟩ := Machine.exists_reachBy_of_runBy (machine noLz4 Unit)
    Undisturbed (System.init Unit)
    (publishByte () .none 1 ++ List.replicate 9 .read ++ leave ())
    (fun _ tr => decide (lefts tr = [((), 1)] ∧ outcomes tr = [.ignored] ∧
      (published tr).map (fun p => deliver noLz4 p.2) = [.ignored])) (by decide +kernel)
  obtain ⟨h_left, h_ignored, h_pub⟩ := of_decide_eq_true h_out
  -- the one frame published is not malformed, for the reader would have dropped it
  refine ⟨tr, s, h_reach, h_left, h_ignored, fun p h_p h_bad => ?_⟩
  have h_mem : deliver noLz4 p.2 ∈ (published tr).map fun p => deliver noLz4 p.2 :=
    List.mem_map_of_mem h_p
  rw [h_pub, (deliver_eq_dropped noLz4 p.2).mpr h_bad] at h_mem
  exact absurd (List.mem_singleton.mp h_mem) nofun

end Feed

end Hft
