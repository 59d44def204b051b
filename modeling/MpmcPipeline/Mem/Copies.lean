import MpmcPipeline.Mem.Knowledge

/-!
# Copies in and out of a message

The commands as routines, `memcpy` out of and into a message one byte at a time, and
`acquire_filled`, each with its rule: a record that is not longer than the `slot_size` of the
kind that has been read can be copied out (`wp_copyOut`), and a tag followed by a copy of the
record it stands for leaves a whole message (`wp_fill`).
-/

namespace Hft

namespace Worker

variable {P : PoolCapacity} {Q : Type*} {σ : Type}

/-- An access to the members. -/
def own (update : σ → σ) : Routine P Q σ σ := .perform (Cmd.own update)

/-- `pool_.acquire()` -/
def acquire : Routine P Q σ (Option (Ptr P)) := .perform Cmd.acquire

/-- `queue.try_pop(msg)`, with `none` for `false`. -/
def tryPop (q : Q) : Routine P Q σ (Option (Ptr P)) := .perform (Cmd.tryPop q)

/-- `msg->kind` -/
def readKind (p : Ptr P) : Routine P Q σ Kind := .perform (Cmd.readKind p)

/-- `msg->kind = kind` -/
def writeKind (p : Ptr P) (kind : Kind) : Routine P Q σ Unit := .perform (Cmd.writeKind p kind)

/-- `queue.push(msg)` -/
def push (q : Q) (p : Ptr P) : Routine P Q σ Unit := .perform (Cmd.push q p)

/-- `pool_.release(msg)` -/
def release (p : Ptr P) : Routine P Q σ Unit := .perform (Cmd.release p)

/-- A loop that does not end. -/
def spin : Routine P Q σ Unit := .ask .spin Empty.elim

/-- `left` bytes of a message from byte `k` on. -/
def readBytes (p : Ptr P) : ℕ → ℕ → Routine P Q σ (List Byte)
  | 0, _ => pure []
  | left + 1, k => do
    let b ← .perform (Cmd.readByte p k)
    let bytes ← readBytes p left (k + 1)
    pure (b :: bytes)

/-- `memcpy(&x, msg->bytes.data(), sizeof(x))` -/
def copyOut {α : Type} (A : Codec α) (p : Ptr P) : Routine P Q σ α := do
  let bytes ← readBytes p A.size 0
  pure (A.get fun k => bytes.getD k 0)

/-- `left` bytes into a message from byte `k` on. -/
def writeBytes (p : Ptr P) (byte : ℕ → Byte) : ℕ → ℕ → Routine P Q σ Unit
  | 0, _ => pure ()
  | left + 1, k =>
    if h : k < maxSlotSize then do
      .perform (Cmd.writeByte p ⟨k, h⟩ (byte k))
      writeBytes p byte left (k + 1)
    else pure ()

/-- `memcpy(msg->bytes.data(), &x, sizeof(x))` -/
def copyIn {α : Type} (p : Ptr P) (A : Codec α) (x : α) : Routine P Q σ Unit :=
  writeBytes p (A.put x) A.size 0

/-- `pool_.acquire_filled(src)` -/
def acquireFilled {α : Type} [W : WireMessage α] (src : α) : Routine P Q σ (Option (Ptr P)) := do
  match ← acquire with
  | none => pure none
  | some slot =>
    writeKind slot W.kindOf
    copyIn slot W.codec src
    pure (some slot)

/-! ### Rules -/

section

variable {p : Ptr P} {kind : Kind} {x : Record} {st : Status}

theorem wp_acquire {post : Option (Ptr P) → Held P → Prop} (h_none : post none none)
    (h_some : ∀ p, post (some p) (some (p, .raw))) :
    (acquire : Routine P Q σ (Option (Ptr P))).wp spec none post := ⟨rfl, h_none, h_some⟩

theorem wp_tryPop {q : Q} {post : Option (Ptr P) → Held P → Prop} (h_none : post none none)
    (h_some : ∀ p, post (some p) (some (p, .whole))) :
    (tryPop q : Routine P Q σ (Option (Ptr P))).wp spec none post := ⟨rfl, h_none, h_some⟩

theorem wp_readKind {post : Kind → Held P → Prop} (h_st : st.Readable)
    (h : ∀ kind, post kind (some (p, .kinded kind))) :
    (readKind p : Routine P Q σ Kind).wp spec (some (p, st)) post := ⟨st, rfl, h_st, h⟩

theorem wp_push {q : Q} {post : Unit → Held P → Prop} (h_st : st.Complete) (h : post () none) :
    (push q p : Routine P Q σ Unit).wp spec (some (p, st)) post := ⟨st, rfl, h_st, h⟩

theorem wp_release {post : Unit → Held P → Prop} (h : post () none) :
    (release p : Routine P Q σ Unit).wp spec (some (p, st)) post := ⟨st, rfl, h⟩

theorem wp_readBytes {post : List Byte → Held P → Prop}
    (h : ∀ bytes, post bytes (some (p, .kinded kind))) (left k : ℕ)
    (h_left : k + left ≤ kind.slotSize) :
    (readBytes p left k : Routine P Q σ (List Byte)).wp spec (some (p, .kinded kind)) post := by
  induction left generalizing k post with
  | zero => exact h []
  | succ left ih =>
    refine ⟨kind, rfl, by omega, fun b => ?_⟩
    show (readBytes p left (k + 1) >>= _).wp spec _ _
    rw [Program.wp_bind]
    exact ih (fun bytes => h (b :: bytes)) (k + 1) (by omega)

/-- **Copying out** reads no byte behind the record that the tag stands for. -/
theorem wp_copyOut {α : Type} {A : Codec α} {post : α → Held P → Prop}
    (h_size : A.size ≤ kind.slotSize) (h : ∀ x, post x (some (p, .kinded kind))) :
    (copyOut A p : Routine P Q σ α).wp spec (some (p, .kinded kind)) post :=
  (Program.wp_bind _ _ _).mpr (wp_readBytes (fun _ => h _) A.size 0 (by omega))

theorem wp_writeBytes {post : Unit → Held P → Prop} (left k : ℕ)
    (h_left : k + left = x.kind.slotSize)
    (h : post () (some (p, .writing x x.kind.slotSize))) :
    (writeBytes p x.byte left k : Routine P Q σ Unit).wp spec (some (p, .writing x k)) post := by
  induction left generalizing k with
  | zero =>
    obtain rfl : k = x.kind.slotSize := h_left
    exact h
  | succ left ih =>
    have h_max := x.kind.slotSize_le
    rw [writeBytes, dif_pos (by omega)]
    exact ⟨x, rfl, by dsimp only; omega, rfl, ih (k + 1) (by omega)⟩

/-- **Tag and copy.** The tag is that of the record which is copied in, and of its size. -/
theorem wp_fill {α : Type} {A : Codec α} {a : α} {post : Unit → Held P → Prop} (x : Record)
    (h_kind : x.kind = kind) (h_byte : x.byte = A.put a) (h_size : A.size = kind.slotSize)
    (h : post () (some (p, .writing x x.kind.slotSize))) :
    (do writeKind p kind; copyIn p A a : Routine P Q σ Unit).wp spec (some (p, st)) post := by
  refine ⟨st, x, rfl, h_kind, ?_⟩
  show (copyIn p A a).wp spec _ _
  rw [copyIn, ← h_byte]
  exact wp_writeBytes _ _ (by rw [h_kind, h_size, Nat.zero_add]) h

theorem wp_fill_bind {α β : Type} {A : Codec α} {a : α} {rest : Routine P Q σ β}
    {post : β → Held P → Prop} (x : Record) (h_kind : x.kind = kind) (h_byte : x.byte = A.put a)
    (h_size : A.size = kind.slotSize)
    (h : rest.wp spec (some (p, .writing x x.kind.slotSize)) post) :
    (do writeKind p kind; copyIn p A a; rest).wp spec (some (p, st)) post := by
  have h_fill : (do writeKind p kind; copyIn p A a : Routine P Q σ Unit).wp spec (some (p, st))
      fun _ held => rest.wp spec held post :=
    wp_fill x h_kind h_byte h_size h
  simp only [Program.wp_bind] at h_fill ⊢
  exact h_fill

/-- **`acquire_filled`**: no message, or one with the tag of its type and every byte of the record.
-/
theorem wp_acquireFilled {α : Type} [W : WireMessage α] {a : α}
    {post : Option (Ptr P) → Held P → Prop} (x : Record) (h_kind : x.kind = W.kindOf)
    (h_byte : x.byte = W.codec.put a) (h_none : post none none)
    (h_some : ∀ p, post (some p) (some (p, .writing x x.kind.slotSize))) :
    (acquireFilled a : Routine P Q σ (Option (Ptr P))).wp spec none post := by
  rw [acquireFilled, Program.wp_bind]
  refine wp_acquire h_none fun p => ?_
  exact wp_fill_bind x h_kind h_byte W.size_eq (h_some p)

end

end Worker

end Hft
