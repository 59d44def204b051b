import MpmcPipeline.Feed.Discipline

/-!
# Several writers on one inlet

The hub thread and `main` can both publish to the same inlet. As long as they take turns
the inlet delivers every frame once (`disciplined_writers`); this is what `main` has in
mind when it stops the hub before it publishes itself. When they do not, a frame can be
lost: in `lossRun` the second writer publishes before the reader has looked, so the
slots have been switched twice and the reader sees one change of the sequence where
there were two. Both writers leave their waits, and the first frame is never ingested
(`undisciplined_loss`).
-/

namespace Hft

namespace Feed

variable {ι : Type*}

/-- Only frames of the kinds the reader ingests are published. -/
def Ingestible : Action ι → Prop
  | .publish _ args => args.kind.known = true
  | .read | .write _ | .stop | .start => True

/-- The frame a writer is about to publish. -/
def WriterPc.frame : WriterPc → Option Frame
  | loadPublished frame | write _ frame _ | fetchAdd frame => some frame
  | _ => none

/-- Every frame published or about to be is of a kind the reader ingests. -/
structure KnownInv (tr : List (Event ι)) (s : System ι) : Prop where
  writers : ∀ i frame, (s.writer i).frame = some frame → frame.kind.known = true
  published : ∀ p ∈ published tr, p.2.kind.known = true

theorem KnownInv.initial : KnownInv [] (System.init ι) where
  writers := nofun
  published := nofun

/-- A frame keeps the kind `publish` was called with. -/
theorem Args.accept_kind {args : Args} {frame : Frame} (h : args.accept = some frame) :
    frame.kind = args.kind := by
  unfold Args.accept at h
  split at h
  · exact absurd h nofun
  · split at h
    · obtain rfl := Option.some.inj h
      rfl
    · exact absurd h nofun

/-- A writer's step publishes the frame it was about to. -/
theorem WriterPc.step_frame {pc pc' : WriterPc} {i : ι} {inlet inlet' : SharedInlet}
    {es : List (Event ι)} (h : pc.step i inlet = some (inlet', pc', es)) :
    (∀ frame, pc'.frame = some frame → pc.frame = some frame) ∧
      ∀ p ∈ Feed.published es, pc.frame = some p.2 := by
  -- a frame is under way until `fetch_add` publishes it
  cases pc with
  | idle => cases h
  | loadPublished frame | loadSequence =>
    cases h
    exact ⟨fun _ h_frame => h_frame, fun _ h_p => absurd h_p List.not_mem_nil⟩
  | fetchAdd frame =>
    cases h
    refine ⟨fun _ h_frame => absurd h_frame (Option.some_ne_none _).symm, fun p h_p => ?_⟩
    obtain rfl := List.mem_singleton.mp h_p
    rfl
  | write w frame n =>
    simp only [step] at h
    split at h <;> cases h <;>
      exact ⟨fun _ h_frame => h_frame, fun _ h_p => absurd h_p List.not_mem_nil⟩
  | wait s =>
    simp only [step] at h
    split at h <;> cases h <;>
      exact ⟨fun _ h_frame => absurd h_frame (Option.some_ne_none _).symm,
        fun _ h_p => absurd h_p List.not_mem_nil⟩

theorem KnownInv.step [DecidableEq ι] {lz4 : Lz4} {tr es : List (Event ι)} {s s' : System ι}
    {a : Action ι} (hK : KnownInv tr s) (h_known : Ingestible a)
    (h : (machine lz4 ι).step s a = some (s', es)) : KnownInv (tr ++ es) s' := by
  have h_cases := machine_cases h
  cases a with
  | read =>
    obtain ⟨inlet, reader, os, -, rfl, rfl⟩ := h_cases
    refine ⟨hK.writers, ?_⟩
    rw [published_append, published_outcomes, List.append_nil]
    exact hK.published
  | publish i args =>
    obtain ⟨pc, h_step, rfl⟩ := h_cases
    cases h_pc : s.writer i with
    | idle =>
      rw [h_pc] at h_step
      simp only [WriterPc.publish] at h_step
      split at h_step
      · -- rejected: the writer has no frame
        cases h_step
        refine ⟨fun j frame h_j => ?_, ?_⟩
        · by_cases h_eq : j = i
          · rw [h_eq] at h_j
            simp [WriterPc.frame] at h_j
          · simp only [Function.update_of_ne h_eq] at h_j
            exact hK.writers j frame h_j
        · rw [published_append]
          simpa [Feed.published] using hK.published
      · next frame h_accept =>
        -- accepted: the frame has the kind of the call, which is a known one
        cases h_step
        refine ⟨fun j frame' h_j => ?_, ?_⟩
        · by_cases h_eq : j = i
          · rw [h_eq] at h_j
            simp only [Function.update_self, WriterPc.frame, Option.some.injEq] at h_j
            rw [← h_j, Args.accept_kind h_accept]
            exact h_known
          · simp only [Function.update_of_ne h_eq] at h_j
            exact hK.writers j frame' h_j
        · rw [List.append_nil]
          exact hK.published
    | _ =>
      rw [h_pc] at h_step
      cases h_step
  | write i =>
    obtain ⟨inlet, pc, h_step, rfl⟩ := h_cases
    obtain ⟨h_frame, h_pub⟩ := WriterPc.step_frame h_step
    refine ⟨fun j frame h_j => ?_, fun p h_p => ?_⟩
    · by_cases h_eq : j = i
      · rw [h_eq] at h_j
        simp only [Function.update_self] at h_j
        exact hK.writers i frame (h_frame frame h_j)
      · simp only [Function.update_of_ne h_eq] at h_j
        exact hK.writers j frame h_j
    · rw [published_append] at h_p
      rcases List.mem_append.mp h_p with h_p | h_p
      · exact hK.published p h_p
      · exact hK.writers i p.2 (h_pub p h_p)
  | stop | start =>
    obtain ⟨rfl, h_writer⟩ := h_cases
    rw [List.append_nil]
    exact ⟨by rw [h_writer]; exact hK.writers, hK.published⟩

/-- What a step of disciplined writers of known kinds meets. -/
def TakesTurns (s : System ι) (a : Action ι) : Prop :=
  Undisturbed s a ∧ Disciplined s a ∧ Ingestible a

theorem InletInv.reach [DecidableEq ι] {lz4 : Lz4} {tr : List (Event ι)} {s : System ι}
    (h : (machine lz4 ι).ReachBy TakesTurns (System.init ι) tr s) :
    InletInv lz4 (Feed.published tr) (outcomes tr) s ∧ KnownInv tr s :=
  h.inv (I := fun tr s => InletInv lz4 (Feed.published tr) (outcomes tr) s ∧ KnownInv tr s)
    ⟨InletInv.initial lz4, KnownInv.initial⟩
    fun _ _ _ _ _ hI hC h_step =>
      ⟨hI.1.step hC.1 hC.2.1 h_step, hI.2.step hC.2.2 h_step⟩

/-- **Writers that take turns.** In every run in which writers take turns, of frames of
the kinds the reader ingests: the reader never reads the slot that is being written; its
outcomes are those of the published frames, one each and in order, so that whatever is
ingested is what one `publish` wrote (or what that decompresses to); and when a writer
has left its wait, each of its frames has been ingested or dropped as malformed. -/
theorem disciplined_writers [DecidableEq ι] {lz4 : Lz4} {tr : List (Event ι)} {s : System ι}
    (h : (machine lz4 ι).ReachBy TakesTurns (System.init ι) tr s) :
    (∀ i w frame n q r, s.writer i = .write w frame n →
      s.reader.pc.reading = some (q, r) → r ≠ w) ∧
    outcomes tr <+: (published tr).map (fun p => deliver lz4 p.2) ∧
    (∀ (k : ℕ) kind bytes, (outcomes tr)[k]? = some (.ingested kind bytes) →
      ∃ i frame, (published tr)[k]? = some (i, frame) ∧ kind = frame.kind ∧
        (bytes = frame.bytes ∨ hasFlag frame.flags lz4Compressed ∧
          lz4.decompress frame.bytes kCapacity = some bytes ∧
          bytes.length = frame.uncompressedLen.toNat)) ∧
    ∀ tr₁ tr₂ i q, tr = tr₁ ++ .left i q :: tr₂ →
      ∀ (k : ℕ) frame, (published tr₁)[k]? = some (i, frame) →
        (outcomes tr₁)[k]? = some (deliver lz4 frame) ∧
          ((∃ bytes, deliver lz4 frame = .ingested frame.kind bytes) ∨
            deliver lz4 frame = .dropped ∧ Malformed lz4 frame) := by
  obtain ⟨hI, -⟩ := InletInv.reach h
  -- an outcome is the outcome of the publish at the same place
  have h_at : ∀ {pubs : List (ι × Frame)} {outs : List Outcome},
      outs <+: pubs.map (fun p => deliver lz4 p.2) → ∀ {k : ℕ} {o : Outcome},
      outs[k]? = some o → ∃ p, pubs[k]? = some p ∧ o = deliver lz4 p.2 := by
    intro pubs outs h_prefix k o h_o
    obtain ⟨h_lt, rfl⟩ := List.getElem?_eq_some_iff.mp h_o
    have h_map := List.prefix_iff_getElem?.mp h_prefix k h_lt
    rw [List.getElem?_map] at h_map
    obtain ⟨p, h_p, h_eq⟩ := Option.map_eq_some_iff.mp h_map
    exact ⟨p, h_p, h_eq.symm⟩
  refine ⟨fun i w frame n q r => hI.apart, hI.delivered, ?_, ?_⟩
  · intro k kind bytes h_o
    obtain ⟨⟨i, frame⟩, h_p, h_eq⟩ := h_at hI.delivered h_o
    exact ⟨i, frame, h_p, deliver_eq_ingested h_eq.symm⟩
  · intro tr₁ tr₂ i q h_tr k frame h_k
    -- go back to the state in which the wait returned
    obtain ⟨s₁, a, s₂, h_reach, -, h_step⟩ := h.exists_step machine_one_event h_tr
    obtain ⟨hI₁, hK₁⟩ := InletInv.reach h_reach
    obtain ⟨h_wait, h_done⟩ := machine_left h_step
    have h_lt : k < (outcomes tr₁).length :=
      lt_of_lt_of_le (hI₁.waiting i q h_wait k frame h_k) (hI₁.le_outs h_done)
    obtain ⟨p, h_p, h_eq⟩ := h_at hI₁.delivered (List.getElem?_eq_getElem h_lt)
    obtain rfl := Option.some.inj (h_p.symm.trans h_k)
    refine ⟨by rw [List.getElem?_eq_getElem h_lt, h_eq], ?_⟩
    have h_known : frame.kind.known = true :=
      hK₁.published (i, frame) (List.mem_of_getElem? h_k)
    cases h_deliver : deliver lz4 frame with
    | ingested kind bytes =>
      obtain ⟨rfl, -⟩ := deliver_eq_ingested h_deliver
      exact Or.inl ⟨bytes, rfl⟩
    | dropped => exact Or.inr ⟨rfl, (deliver_eq_dropped lz4 frame).mp h_deliver⟩
    | ignored =>
      -- excluded by `Ingestible`
      have := ((deliver_eq_ignored lz4 frame).mp h_deliver).2
      rw [h_known] at this
      exact absurd this (by decide)

instance : (a : Action ι) → Decidable (Ingestible a)
  | .publish _ _ => inferInstanceAs (Decidable (_ = _))
  | .read | .write _ | .stop | .start => inferInstanceAs (Decidable True)

instance [Fintype ι] [DecidableEq ι] (s : System ι) (a : Action ι) :
    Decidable (TakesTurns s a) :=
  inferInstanceAs (Decidable (_ ∧ _ ∧ _))

/-- Two writers, each leaving its wait before the other starts. -/
theorem disciplined_writers_turns :
    ∃ (tr : List (Event Bool)) (s : System Bool),
      (machine noLz4 Bool).ReachBy TakesTurns (System.init Bool) tr s ∧
      lefts tr = [(false, 1), (true, 2)] ∧
      outcomes tr <+: (published tr).map (fun p => deliver noLz4 p.2) := by
  obtain ⟨tr, s, h_reach, h_left⟩ := Machine.exists_reachBy_of_runBy (machine noLz4 Bool)
    TakesTurns (System.init Bool)
    (publishByte false .itch 1 ++ readByte ++ leave false ++
      publishByte true .mtbt 2 ++ readByte ++ leave true)
    (fun _ tr => decide (lefts tr = [(false, 1), (true, 2)])) (by decide +kernel)
  exact ⟨tr, s, h_reach, of_decide_eq_true h_left, (disciplined_writers h_reach).2.1⟩

/-- The second writer publishes before the reader has looked. -/
def lossRun : List (Action Bool) :=
  publishByte false .itch 1 ++ publishByte true .itch 2 ++ readByte ++ leave false ++ leave true

/-- **Without turns a frame is lost.** Two writers publish a frame each and both leave
their waits; the reader has acknowledged the second sequence number and has ingested the
second frame only. -/
theorem undisciplined_loss :
    ∃ (tr : List (Event Bool)) (s : System Bool),
      (machine noLz4 Bool).ReachBy Undisturbed (System.init Bool) tr s ∧
      (published tr).map (fun p => (p.1, p.2.bytes)) = [(false, [1]), (true, [2])] ∧
      lefts tr = [(false, 2), (true, 2)] ∧
      outcomes tr = [.ingested .itch [2]] := by
  obtain ⟨tr, s, h_reach, h_out⟩ := Machine.exists_reachBy_of_runBy (machine noLz4 Bool)
    Undisturbed (System.init Bool) lossRun
    (fun _ tr => decide ((published tr).map (fun p => (p.1, p.2.bytes)) =
        [(false, [1]), (true, [2])] ∧
      lefts tr = [(false, 2), (true, 2)] ∧ outcomes tr = [.ingested .itch [2]]))
    (by decide +kernel)
  exact ⟨tr, s, h_reach, of_decide_eq_true h_out⟩

end Feed

end Hft
