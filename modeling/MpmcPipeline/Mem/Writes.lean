import MpmcPipeline.Mem.Handoff
import MpmcPipeline.Proto.Record

/-!
# The writes of a step

A step of the hand-off machine writes to one message at most, and `writeOf` says what: the
kind, or one byte. It writes only to a message it owns (`writeOf_owned`), and memory after the
step is memory before it with that write made (`step_written`).

What the messages hold decides nothing else: from a memory with the same queues and the same
state bytes the same thread takes the same step (`step_like`).
-/

namespace Hft

/-- A plain write to a message. -/
inductive Write
  | tag (kind : Kind)
  | byte (k : ℕ) (b : Byte)

/-- The message after a write. -/
def Write.apply (m : TaggedMessage) : Write → TaggedMessage
  | tag kind => { m with kind }
  | byte k b => if h : k < maxSlotSize then m.setByte ⟨k, h⟩ b else m

@[simp] theorem Write.apply_byte_kind (m : TaggedMessage) (k : ℕ) (b : Byte) :
    (Write.apply m (.byte k b)).kind = m.kind := by
  rw [Write.apply]
  split <;> rfl

theorem Write.apply_byte_memory (m : TaggedMessage) {k : ℕ} (h_k : k < maxSlotSize) (b : Byte)
    (j : ℕ) : (Write.apply m (.byte k b)).memory j = if j = k then b else m.memory j := by
  rw [Write.apply, dif_pos h_k, TaggedMessage.memory, TaggedMessage.memory]
  by_cases h_j : j < maxSlotSize
  · rw [dif_pos h_j, dif_pos h_j]
    by_cases h_eq : j = k
    · subst h_eq
      rw [if_pos rfl, TaggedMessage.setByte_self]
    · rw [if_neg h_eq, TaggedMessage.setByte_of_ne]
      exact fun h => h_eq (congrArg Fin.val h)
  · rw [dif_neg h_j, dif_neg h_j, if_neg (by omega)]

/-- The tag of the record, and no byte yet. -/
theorem TaggedMessage.begins_tag (m : TaggedMessage) (x : Record) :
    (Write.apply m (.tag x.kind)).Begins x 0 :=
  ⟨rfl, fun k h_k => absurd h_k (Nat.not_lt_zero k)⟩

/-- A byte of the record is added to the bytes before it. -/
theorem TaggedMessage.Begins.copied {m : TaggedMessage} {x : Record} {k : ℕ}
    (h : m.Begins x k) (h_k : k < maxSlotSize) :
    (Write.apply m (.byte k (x.byte k))).Begins x (k + 1) := by
  refine ⟨by rw [Write.apply_byte_kind, h.kind_eq], fun j h_j => ?_⟩
  rw [Write.apply_byte_memory _ h_k]
  split
  · next h_eq => rw [h_eq]
  · exact h.byte_eq j (by omega)

namespace Handoff

variable {P : PoolCapacity} {Q : Type*} {cap : Q → Capacity}

/-- The write of a step. -/
def writeOf : Pc P cap → Choice P Q → Option (Ptr P × Write)
  | .idle, .writeKind p kind => some (p, .tag kind)
  | .idle, .writeByte p k b => some (p, .byte k b)
  | .setKind _ p, .run => some (p, .tag .itch)
  | .clear _ p k, .run => if k < maxSlotSize then some (p, .byte k 0) else none
  | .copyKind src p, .run => some (p, .tag src.kind)
  | .copy src p k, .run => if h : k < src.bytes.length then some (p, .byte k src.bytes[k]) else none
  | _, _ => none

/-- Memory after a write. -/
def written (pool : TaggedPool P) : Option (Ptr P × Write) → TaggedPool P
  | none => pool
  | some (p, w) => pool.store p (w.apply (pool.load p))

/-- What an event says about the queues, without the contents of the message. -/
inductive Passed (P : PoolCapacity) (Q : Type*)
  | stored (q : Q) (p : Ptr P)
  | taken (q : Q) (p : Ptr P)

/-- What an event shows of the queues. -/
def Event.passed : Event P Q → Option (Passed P Q)
  | .store q p _ => some (.stored q p)
  | .take q p _ => some (.taken q p)
  | _ => none

/-- Two memories that differ in the contents of messages only. -/
structure Like (sh sh₂ : Shared P cap) : Prop where
  queues : sh₂.queues = sh.queues
  state : ∀ p, (sh₂.pool.slots p).state = (sh.pool.slots p).state

section

variable {sh sh₂ : Shared P cap}

/-- Writes to messages keep memories alike. -/
theorem Like.write (h : Like sh sh₂) (p : Ptr P) (m m₂ : TaggedMessage) :
    Like (sh.write p m) (sh₂.write p m₂) := by
  refine ⟨h.queues, fun q => ?_⟩
  show ((sh₂.pool.store p m₂).slots q).state = ((sh.pool.store p m).slots q).state
  rw [TaggedPool.store_state, TaggedPool.store_state, h.state]

/-- So do equal changes of a state byte. -/
theorem Like.setState (h : Like sh sh₂) (p : Ptr P) (state : Byte) :
    Like { sh with pool := sh.pool.setState p state }
      { sh₂ with pool := sh₂.pool.setState p state } := by
  refine ⟨h.queues, fun q => ?_⟩
  show ((sh₂.pool.setState p state).slots q).state = ((sh.pool.setState p state).slots q).state
  by_cases h_q : q = p
  · subst h_q
    rw [TaggedPool.setState_self, TaggedPool.setState_self]
  · rw [TaggedPool.setState_of_ne _ h_q, TaggedPool.setState_of_ne _ h_q, h.state]

theorem Like.cell (h : Like sh sh₂) (c : Cell cap) : sh₂.cell c = sh.cell c := by
  rw [Shared.cell, Shared.cell, h.queues]

end

section

variable [DecidableEq Q] {sh sh' sh₂ : Shared P cap} {l l' : Local P cap} {ch : Choice P Q}
  {es : List (Event P Q)}

/-- A step writes to a message its thread owns. -/
theorem writeOf_owned (h : step sh l ch = some (sh', l', es)) {p : Ptr P} {w : Write}
    (h_w : writeOf l.pc ch = some (p, w)) : p ∈ l.owned := by
  obtain ⟨hand, pc⟩ := l
  cases pc <;> cases ch <;> simp only [writeOf, reduceCtorEq] at h_w
  case idle.writeKind p' kind =>
    cases h_w
    simp only [step] at h
    split at h
    · next h_p => exact h_p
    · exact absurd h (by simp)
  case idle.writeByte p' k b =>
    cases h_w
    simp only [step] at h
    split at h
    · next h_p => exact h_p
    · exact absurd h (by simp)
  case setKind.run src p' | copyKind.run src p' =>
    cases h_w
    exact List.mem_cons_self
  -- inside the loops that clear and copy
  all_goals
    split at h_w
    · cases h_w
      exact List.mem_cons_self
    · exact absurd h_w (by simp)

/-- A step inside a queue makes no write. -/
theorem ringStep_pool {q : Q} {pc : MPMC.Pc (cap q) (Ptr P)} {c : MPMC.Choice (Ptr P)}
    (h : ringStep sh l q pc c = some (sh', l', es)) : sh'.pool = sh.pool := by
  simp only [ringStep] at h
  split at h
  · exact absurd h (by simp)
  · cases h
    rfl

/-- **The writes of a step.** Memory after it is memory before it with its write made. -/
theorem step_written (h : step sh l ch = some (sh', l', es)) (p : Ptr P) :
    sh'.pool.load p = (written sh.pool (writeOf l.pc ch)).load p := by
  obtain ⟨hand, pc⟩ := l
  cases pc <;> cases ch <;> simp only [step, reduceCtorEq] at h
  case idle.release message =>
    cases message with
    | none =>
      cases h
      rfl
    | some p' =>
      simp only at h
      split at h
      · cases h
        show (sh.pool.release (P.address p')).load p = sh.pool.load p
        rw [TaggedPool.release_address, TaggedPool.setState_load]
      · exact absurd h (by simp)
  case idle.call q c =>
    cases c <;> simp only at h <;> (try split at h) <;> cases h <;> rfl
  case idle.writeKind p' kind =>
    split at h
    · cases h
      rfl
    · exact absurd h (by simp)
  case idle.writeByte p' k b =>
    split at h
    · cases h
      simp only [writeOf, written, Write.apply, dif_pos k.isLt]
      rfl
    · exact absurd h (by simp)
  case scan.run src i =>
    split at h
    · split at h
      · cases h
        exact TaggedPool.setState_load ..
      · cases h
        rfl
    · cases h
      rfl
  case clear.run src p' k =>
    split at h
    · next h_k =>
      cases h
      simp only [writeOf, if_pos h_k, written, Write.apply, dif_pos h_k]
      rfl
    · next h_k =>
      simp only [writeOf, if_neg h_k, written]
      cases src <;> cases h <;> rfl
  case copy.run src p' k =>
    split at h
    · next h_k =>
      cases h
      simp only [writeOf, dif_pos h_k, written, Write.apply,
        dif_pos (lt_of_lt_of_le h_k src.fits)]
      rfl
    · next h_k =>
      cases h
      simp only [writeOf, dif_neg h_k, written]
  case ring.run q pc => rw [ringStep_pool h]; rfl
  case ring.spurious q pc => rw [ringStep_pool h]; rfl
  case scan.spurious src i =>
    split at h
    · cases h
      rfl
    · exact absurd h (by simp)
  -- the calls that only start, and the kinds `acquire` sets
  all_goals
    cases h
    rfl

/-- The steps of a queue do not look at the messages. -/
theorem ringStep_like {q : Q} {pc : MPMC.Pc (cap q) (Ptr P)} {c : MPMC.Choice (Ptr P)}
    (h_like : Like sh sh₂) (h : ringStep sh l q pc c = some (sh', l', es)) :
    ∃ sh₂' es₂, ringStep sh₂ l q pc c = some (sh₂', l', es₂) ∧ Like sh' sh₂' ∧
      es₂.filterMap Event.passed = es.filterMap Event.passed := by
  simp only [ringStep] at h ⊢
  rw [h_like.queues]
  split at h
  · exact absurd h (by simp)
  · next queue pc' es' h_step =>
    cases h
    refine ⟨_, _, rfl, ⟨rfl, h_like.state⟩, ?_⟩
    -- the payload an event carries is not shown
    rw [List.filterMap_filterMap, List.filterMap_filterMap]
    congr 1
    funext e
    cases e <;> rfl

/-- **The contents of messages decide nothing.** From a state with the same slots and cells but
other messages the thread takes the same step, and passes on the same pointers. -/
theorem step_like (h_like : Like sh sh₂) (h : step sh l ch = some (sh', l', es)) :
    ∃ sh₂' es₂, step sh₂ l ch = some (sh₂', l', es₂) ∧ Like sh' sh₂' ∧
      es₂.filterMap Event.passed = es.filterMap Event.passed := by
  obtain ⟨hand, pc⟩ := l
  cases pc <;> cases ch <;> simp only [step, reduceCtorEq] at h ⊢
  case idle.release message =>
    cases message with
    | none =>
      cases h
      exact ⟨_, _, rfl, h_like, rfl⟩
    | some p =>
      simp only at h ⊢
      split at h
      · next h_p =>
        cases h
        rw [if_pos h_p]
        refine ⟨_, _, rfl, ?_, rfl⟩
        rw [TaggedPool.release_address, TaggedPool.release_address]
        exact h_like.setState p 0
      · exact absurd h (by simp)
  case idle.writeKind p kind =>
    split at h
    · next h_p =>
      cases h
      rw [if_pos h_p]
      exact ⟨_, _, rfl, h_like.write .., rfl⟩
    · exact absurd h (by simp)
  case idle.writeByte p k b =>
    split at h
    · next h_p =>
      cases h
      rw [if_pos h_p]
      exact ⟨_, _, rfl, h_like.write .., rfl⟩
    · exact absurd h (by simp)
  case idle.call q c =>
    cases c with
    | push p =>
      simp only at h ⊢
      split at h
      · next h_p =>
        cases h
        rw [if_pos h_p]
        exact ⟨_, _, rfl, h_like, rfl⟩
      · exact absurd h (by simp)
    | pop | tryPop =>
      cases h
      exact ⟨_, _, rfl, h_like, rfl⟩
  case scan.run src i =>
    -- the scan looks at a state byte, and the state bytes are the same
    split at h
    · next h_lt =>
      rw [dif_pos h_lt]
      split at h
      · next h_free =>
        cases h
        rw [if_pos ((h_like.state _).trans h_free)]
        exact ⟨_, _, rfl, h_like.setState .., rfl⟩
      · next h_taken =>
        cases h
        rw [if_neg fun h_free => h_taken ((h_like.state _).symm.trans h_free)]
        exact ⟨_, _, rfl, h_like, rfl⟩
    · next h_ge =>
      cases h
      rw [dif_neg h_ge]
      exact ⟨_, _, rfl, h_like, rfl⟩
  case scan.spurious src i =>
    split at h
    · next h_lt =>
      cases h
      rw [if_pos h_lt]
      exact ⟨_, _, rfl, h_like, rfl⟩
    · exact absurd h (by simp)
  case clear.run src p k =>
    split at h
    · next h_k =>
      cases h
      rw [dif_pos h_k]
      exact ⟨_, _, rfl, h_like.write .., rfl⟩
    · next h_k =>
      rw [dif_neg h_k]
      cases src <;> cases h <;> exact ⟨_, _, rfl, h_like, rfl⟩
  case copy.run src p k =>
    split at h
    · next h_k =>
      cases h
      rw [dif_pos h_k]
      exact ⟨_, _, rfl, h_like.write .., rfl⟩
    · next h_k =>
      cases h
      rw [dif_neg h_k]
      exact ⟨_, _, rfl, h_like, rfl⟩
  case ring.run q pc => exact ringStep_like h_like h
  case ring.spurious q pc => exact ringStep_like h_like h
  case setKind.run src p | copyKind.run src p =>
    cases h
    exact ⟨_, _, rfl, h_like.write .., rfl⟩
  case idle.acquire src =>
    cases h
    exact ⟨_, _, rfl, h_like, rfl⟩

end

end Handoff

end Hft
