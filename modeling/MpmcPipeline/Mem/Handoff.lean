import MpmcPipeline.Mem.Pool
import MpmcPipeline.Mpmc.Conservation

/-!
# Hand-off of pool messages between threads

Any number of threads share one pool and a family of queues. A thread acquires
(`acquire`, `acquire_filled`), writes the payload of messages it owns, pushes a message
it owns, pops, and releases a message it owns. Every atomic operation on a state byte or
in a queue is a step, and so is every plain write: the kind, each byte of the `memset`
that clears an acquired body, each byte of the `memcpy` that fills it.

A thread owns the messages in its `hand` and the one its current call is about: the slot
it is clearing or filling, the message it is pushing, the message it has taken and not
yet returned. A cell of a queue owns the message in it. `Move` says once what a step can
do to ownership; `step_move` is the inversion of the step function into moves. What the
moves keep over whole runs is in `Mem/Exclusivity.lean`.
-/

namespace Hft

/-- An argument of `acquire_filled<T>`: `kind_of<T>` and the bytes of the object. -/
structure Body where
  kind : Kind
  bytes : List Byte
  fits : bytes.length ≤ maxSlotSize

/-- The message `acquire` (for no body) or `acquire_filled` returns. -/
def Body.message : Option Body → TaggedMessage
  | none => TaggedMessage.fresh
  | some src => ⟨src.kind, fun j => src.bytes.getD j 0⟩

namespace Handoff

variable {P : PoolCapacity} {Q : Type*} {cap : Q → Capacity}

/-- A program point of a thread. -/
inductive Pc (P : PoolCapacity) (cap : Q → Capacity)
  | idle
  /-- `slots_[i].state.compare_exchange_weak(0, 1)` -/
  | scan (src : Option Body) (i : ℕ)
  /-- `slots_[i].message.kind = itch` -/
  | setKind (src : Option Body) (p : Ptr P)
  /-- The `memset` of `acquire`, before byte `k`. -/
  | clear (src : Option Body) (p : Ptr P) (k : ℕ)
  /-- `slot->kind = kind_of<T>` -/
  | copyKind (src : Body) (p : Ptr P)
  /-- The `memcpy` of `acquire_filled`, before byte `k`. -/
  | copy (src : Body) (p : Ptr P) (k : ℕ)
  /-- Inside a call on queue `q`. -/
  | ring (q : Q) (pc : MPMC.Pc (cap q) (Ptr P))

/-- What decides a step. -/
inductive Choice (P : PoolCapacity) (Q : Type*)
  | acquire (src : Option Body)
  | release (message : Option (Ptr P))
  | writeKind (p : Ptr P) (kind : Kind)
  | writeByte (p : Ptr P) (k : Fin maxSlotSize) (b : Byte)
  | call (q : Q) (c : MPMC.Call (Ptr P))
  | run
  | spurious

/-- What a step makes visible; every event is about one message. `store` and `take`
carry the message's payload at that moment, `acquired` the payload returned. -/
inductive Event (P : PoolCapacity) (Q : Type*)
  | claimed (p : Ptr P)
  | acquired (src : Option Body) (p : Ptr P) (m : TaggedMessage)
  | released (p : Ptr P)
  | store (q : Q) (p : Ptr P) (m : TaggedMessage)
  | take (q : Q) (p : Ptr P) (m : TaggedMessage)

/-- The message an event is about. -/
def Event.ptr : Event P Q → Ptr P
  | claimed p | acquired _ p _ | released p | store _ p _ | take _ p _ => p

/-- The memory the threads share. -/
structure Shared (P : PoolCapacity) (cap : Q → Capacity) where
  pool : TaggedPool P
  queues : (q : Q) → MPMC (cap q) (Ptr P)

/-- A plain write to the message at `p`. -/
def Shared.write (sh : Shared P cap) (p : Ptr P) (m : TaggedMessage) : Shared P cap :=
  { sh with pool := sh.pool.store p m }

/-- A thread: the messages it owns between two calls, and its program point. -/
structure Local (P : PoolCapacity) (cap : Q → Capacity) where
  hand : List (Ptr P)
  pc : Pc P cap

/-- The program point after a step inside queue `q`. -/
def Pc.inside (q : Q) : MPMC.Pc (cap q) (Ptr P) → Pc P cap
  | .idle => .idle
  | pc => .ring q pc

/-- A step of a queue as this machine shows it. -/
def ringEvent (pool : TaggedPool P) (q : Q) : MPMC.Event (Ptr P) → Option (Event P Q)
  | .store p => some (.store q p (pool.load p))
  | .take p => some (.take q p (pool.load p))
  | _ => none

/-- A step inside queue `q`; a message the call returns goes to the thread's hand. -/
def ringStep [DecidableEq Q] (sh : Shared P cap) (l : Local P cap) (q : Q)
    (pc : MPMC.Pc (cap q) (Ptr P)) (ch : MPMC.Choice (Ptr P)) :
    Option (Shared P cap × Local P cap × List (Event P Q)) :=
  match (sh.queues q).step pc ch with
  | none => none
  | some (queue, pc', es) =>
    some ({ sh with queues := Function.update sh.queues q queue },
      ⟨MPMC.returns es ++ l.hand, .inside q pc'⟩, es.filterMap (ringEvent sh.pool q))

/-- One step of a thread. -/
def step [DecidableEq Q] (sh : Shared P cap) (l : Local P cap) (ch : Choice P Q) :
    Option (Shared P cap × Local P cap × List (Event P Q)) :=
  match l.pc, ch with
  | .idle, .acquire src => some (sh, { l with pc := .scan src 0 }, [])
  -- `release(nullptr)` returns at once
  | .idle, .release none => some (sh, l, [])
  | .idle, .release (some p) =>
    if p ∈ l.hand then
      some ({ sh with pool := sh.pool.release (P.address p) },
        { l with hand := l.hand.erase p }, [.released p])
    else none
  | .idle, .writeKind p kind =>
    if p ∈ l.hand then
      some (sh.write p { sh.pool.load p with kind }, l, [])
    else none
  | .idle, .writeByte p k b =>
    if p ∈ l.hand then
      some (sh.write p ((sh.pool.load p).setByte k b), l, [])
    else none
  | .idle, .call q (.push p) =>
    -- from here on the call owns the message
    if p ∈ l.hand then some (sh, ⟨l.hand.erase p, .ring q (.start (.push p))⟩, []) else none
  | .idle, .call q .pop => some (sh, { l with pc := .ring q (.start .pop) }, [])
  | .idle, .call q .tryPop => some (sh, { l with pc := .ring q (.start .tryPop) }, [])
  | .scan src i, .run =>
    if h : i < P.val then
      if (sh.pool.slots ⟨i, h⟩).state = 0 then
        some ({ sh with pool := sh.pool.setState ⟨i, h⟩ 1 },
          { l with pc := .setKind src ⟨i, h⟩ }, [.claimed ⟨i, h⟩])
      else some (sh, { l with pc := .scan src (i + 1) }, [])
    -- no slot was free when it was looked at: `nullptr`
    else some (sh, { l with pc := .idle }, [])
  | .scan src i, .spurious =>
    if i < P.val then some (sh, { l with pc := .scan src (i + 1) }, []) else none
  | .setKind src p, .run =>
    some (sh.write p { sh.pool.load p with kind := .itch },
      { l with pc := .clear src p 0 }, [])
  | .clear src p k, .run =>
    if h : k < maxSlotSize then
      some (sh.write p ((sh.pool.load p).setByte ⟨k, h⟩ 0),
        { l with pc := .clear src p (k + 1) }, [])
    else
      -- `acquire` returns; `acquire_filled` goes on to copy its argument
      match src with
      | none => some (sh, ⟨p :: l.hand, .idle⟩, [.acquired none p (sh.pool.load p)])
      | some src => some (sh, { l with pc := .copyKind src p }, [])
  | .copyKind src p, .run =>
    some (sh.write p { sh.pool.load p with kind := src.kind },
      { l with pc := .copy src p 0 }, [])
  | .copy src p k, .run =>
    if h : k < src.bytes.length then
      some (sh.write p
          ((sh.pool.load p).setByte ⟨k, lt_of_lt_of_le h src.fits⟩ src.bytes[k]),
        { l with pc := .copy src p (k + 1) }, [])
    else some (sh, ⟨p :: l.hand, .idle⟩, [.acquired (some src) p (sh.pool.load p)])
  | .ring q pc, .run => ringStep sh l q pc .run
  | .ring q pc, .spurious => ringStep sh l q pc .spurious
  | _, _ => none

/-! ### Ownership -/

/-- The message the current call is about. -/
def Pc.owned : Pc P cap → List (Ptr P)
  | .idle | .scan _ _ => []
  | .setKind _ p | .clear _ p _ | .copyKind _ p | .copy _ p _ => [p]
  | .ring _ pc => pc.pending ++ pc.hand

/-- The messages a thread owns. -/
def Local.owned (l : Local P cap) : List (Ptr P) := l.pc.owned ++ l.hand

/-- A cell of one of the queues. -/
abbrev Cell (cap : Q → Capacity) := (q : Q) × Fin (cap q).val

/-- The message in a cell. -/
def Shared.cell (sh : Shared P cap) (c : Cell cap) : Option (Ptr P) :=
  (sh.queues c.1).ring c.2

@[simp] theorem Pc.inside_owned (q : Q) (pc : MPMC.Pc (cap q) (Ptr P)) :
    (Pc.inside q pc).owned = pc.pending ++ pc.hand := by
  cases pc <;> rfl

/-- **What a step does to ownership.** Apart from writing payloads it owns, a step makes
one of four moves with one message. -/
inductive Move (sh sh' : Shared P cap) (l l' : Local P cap) (es : List (Event P Q)) : Prop
  | keep (h_owned : l'.owned.Perm l.owned)
      (h_state : ∀ p, (sh'.pool.slots p).state = (sh.pool.slots p).state)
      (h_cell : ∀ c, sh'.cell c = sh.cell c)
      (h_load : ∀ p, p ∉ l.owned → sh'.pool.load p = sh.pool.load p)
      (h_es : ∀ e ∈ es, ∃ src p, e = .acquired src p (sh.pool.load p) ∧ p ∈ l.owned)
  | claim (p : Ptr P) (h_owned : l'.owned.Perm (p :: l.owned))
      (h_free : (sh.pool.slots p).state = 0) (h_pool : sh'.pool = sh.pool.setState p 1)
      (h_cell : ∀ c, sh'.cell c = sh.cell c) (h_es : es = [.claimed p])
  | free (p : Ptr P) (h_owned : l.owned.Perm (p :: l'.owned))
      (h_pool : sh'.pool = sh.pool.setState p 0)
      (h_cell : ∀ c, sh'.cell c = sh.cell c) (h_es : es = [.released p])
  | put (c : Cell cap) (p : Ptr P) (h_owned : l.owned.Perm (p :: l'.owned))
      (h_pool : sh'.pool = sh.pool) (h_empty : sh.cell c = none) (h_full : sh'.cell c = some p)
      (h_cell : ∀ c', c' ≠ c → sh'.cell c' = sh.cell c')
      (h_es : es = [.store c.1 p (sh.pool.load p)])
  | take (c : Cell cap) (p : Ptr P) (h_owned : l'.owned.Perm (p :: l.owned))
      (h_pool : sh'.pool = sh.pool) (h_full : sh.cell c = some p) (h_empty : sh'.cell c = none)
      (h_cell : ∀ c', c' ≠ c → sh'.cell c' = sh.cell c')
      (h_es : es = [.take c.1 p (sh.pool.load p)])

/-- Writing a payload the thread owns moves nothing. -/
theorem Move.write {sh : Shared P cap} {l l' : Local P cap} {p : Ptr P} (m : TaggedMessage)
    (h_p : p ∈ l.owned) (h_owned : l'.owned.Perm l.owned) :
    Move (Q := Q) sh (sh.write p m) l l' [] := by
  refine .keep h_owned (fun p' => TaggedPool.store_state ..) (fun _ => rfl)
    (fun p' h_p' => ?_) (fun e h_e => absurd h_e List.not_mem_nil)
  refine TaggedPool.load_store_of_ne _ ?_ m
  rintro rfl
  exact h_p' h_p

/-- A step that touches nothing shared and shows nothing. -/
theorem Move.stay {sh : Shared P cap} {l l' : Local P cap}
    (h_owned : l'.owned.Perm l.owned) : Move (Q := Q) sh sh l l' [] :=
  .keep h_owned (fun _ => rfl) (fun _ => rfl) (fun _ _ => rfl)
    fun _ h_e => absurd h_e List.not_mem_nil

section

variable [DecidableEq Q]

/-- The cells after a step of queue `q`. -/
theorem cell_update_self (sh : Shared P cap) (q : Q) (queue : MPMC (cap q) (Ptr P))
    (slot : Fin (cap q).val) :
    Shared.cell { sh with queues := Function.update sh.queues q queue } ⟨q, slot⟩ =
      queue.ring slot := by
  simp only [Shared.cell, Function.update_self]

theorem cell_update_of_ne (sh : Shared P cap) {q q' : Q} (h_ne : q' ≠ q)
    (queue : MPMC (cap q) (Ptr P)) (slot : Fin (cap q').val) :
    Shared.cell { sh with queues := Function.update sh.queues q queue } ⟨q', slot⟩ =
      sh.cell ⟨q', slot⟩ := by
  simp only [Shared.cell, Function.update_of_ne h_ne]

/-- A step that leaves the ring of its queue leaves every cell. -/
theorem cell_update_same (sh : Shared P cap) (q : Q) (queue : MPMC (cap q) (Ptr P))
    (h_ring : queue.ring = (sh.queues q).ring) (c : Cell cap) :
    Shared.cell { sh with queues := Function.update sh.queues q queue } c = sh.cell c := by
  obtain ⟨q', slot⟩ := c
  -- a cell of another queue is not even looked at
  by_cases h_q : q' = q
  · subst h_q
    rw [cell_update_self, h_ring]
    rfl
  · rw [cell_update_of_ne sh h_q]

/-- A step that writes one slot of its queue's ring writes one cell. -/
theorem cell_update_other (sh : Shared P cap) (q : Q) (queue : MPMC (cap q) (Ptr P))
    {slot : Fin (cap q).val} {x : Option (Ptr P)}
    (h_ring : queue.ring = Function.update (sh.queues q).ring slot x) (c : Cell cap)
    (h_c : c ≠ ⟨q, slot⟩) :
    Shared.cell { sh with queues := Function.update sh.queues q queue } c = sh.cell c := by
  obtain ⟨q', slot'⟩ := c
  by_cases h_q : q' = q
  · subst h_q
    have h_slot : slot' ≠ slot := fun h_eq => h_c (by rw [h_eq])
    rw [cell_update_self, h_ring, Function.update_of_ne h_slot]
    rfl
  · rw [cell_update_of_ne sh h_q]

/-- The move of a step inside a queue. -/
theorem ringStep_move {sh sh' : Shared P cap} {l l' : Local P cap} {q : Q}
    {pc : MPMC.Pc (cap q) (Ptr P)} {ch : MPMC.Choice (Ptr P)} {es : List (Event P Q)}
    (h_pc : l.pc = .ring q pc) (h_ch : ∀ c, ch ≠ .call c)
    (h : ringStep sh l q pc ch = some (sh', l', es)) : Move sh sh' l l' es := by
  have h_l : l.owned = pc.pending ++ pc.hand ++ l.hand := by
    rw [Local.owned, h_pc]
    rfl
  simp only [ringStep] at h
  cases h_step : (sh.queues q).step pc ch with
  | none => simp [h_step] at h
  | some r =>
    obtain ⟨queue, pc', es'⟩ := r
    simp only [h_step, Option.some.injEq, Prod.mk.injEq] at h
    obtain ⟨rfl, rfl, rfl⟩ := h
    have h_l' : ∀ hand, (⟨hand, .inside q pc'⟩ : Local P cap).owned =
        pc'.pending ++ pc'.hand ++ hand := fun hand => by
      rw [Local.owned, Pc.inside_owned]
    -- three steps of a queue move a message, between the call and a cell
    cases MPMC.step_steps h_step with
    | call c => exact absurd rfl (h_ch c)
    | casStore p slot h_empty =>
      refine .put ⟨q, slot⟩ p ?_ rfl h_empty ?_ ?_ rfl
      · rw [h_l, h_l']
        exact .refl _
      · rw [cell_update_self]
        exact Function.update_self ..
      · exact cell_update_other sh q _ rfl
    | popTake p slot h_full =>
      refine .take ⟨q, slot⟩ p ?_ rfl h_full ?_ ?_ rfl
      · rw [h_l, h_l']
        exact .refl _
      · rw [cell_update_self]
        exact Function.update_self ..
      · exact cell_update_other sh q _ rfl
    | tryTake p slot probe h_full =>
      refine .take ⟨q, (cap q).index (slot + BitVec.ofNat 32 probe)⟩ p ?_ rfl h_full ?_ ?_ rfl
      · rw [h_l, h_l']
        exact .refl _
      · rw [cell_update_self]
        exact Function.update_self ..
      · exact cell_update_other sh q _ rfl
    | _ =>
      -- the ring stays, and the thread owns what it owned
      refine .keep ?_ (fun _ => rfl) (cell_update_same sh q _ rfl) (fun _ _ => rfl) ?_
      · rw [h_l, h_l']
        exact .refl _
      · intro e h_e
        exact absurd h_e List.not_mem_nil

/-- **Every step is a move.** What a thread does to hands, cells and slots is one of six things,
whatever it is in the middle of. -/
theorem step_move {sh sh' : Shared P cap} {l l' : Local P cap} {ch : Choice P Q}
    {es : List (Event P Q)} (h : step sh l ch = some (sh', l', es)) :
    Move sh sh' l l' es := by
  obtain ⟨hand, pc⟩ := l
  cases pc <;> cases ch <;> simp only [step, reduceCtorEq] at h
  case idle.acquire src =>
    cases h
    exact .stay (.refl _)
  case idle.release message =>
    cases message with
    | none =>
      cases h
      exact .stay (.refl _)
    | some p =>
      simp only at h
      split at h
      · next h_p =>
        cases h
        exact .free p (List.perm_cons_erase h_p) (TaggedPool.release_address ..)
          (fun _ => rfl) rfl
      · exact absurd h (by simp)
  case idle.writeKind p kind =>
    split at h
    · next h_p =>
      cases h
      exact .write _ h_p (.refl _)
    · exact absurd h (by simp)
  case idle.writeByte p k b =>
    split at h
    · next h_p =>
      cases h
      exact .write _ h_p (.refl _)
    · exact absurd h (by simp)
  case idle.call q c =>
    cases c with
    | push p =>
      simp only at h
      split at h
      · next h_p =>
        -- out of the hand, into the call: the thread owns what it owned
        cases h
        exact .stay (List.perm_cons_erase h_p).symm
      · exact absurd h (by simp)
    | pop =>
      cases h
      exact .stay (.refl _)
    | tryPop =>
      cases h
      exact .stay (.refl _)
  case scan.run src i =>
    split at h
    · next h_lt =>
      split at h
      · next h_free =>
        cases h
        exact .claim ⟨i, h_lt⟩ (.refl _) h_free rfl (fun _ => rfl) rfl
      · cases h
        exact .stay (.refl _)
    · cases h
      exact .stay (.refl _)
  case scan.spurious src i =>
    split at h
    · cases h
      exact .stay (.refl _)
    · exact absurd h (by simp)
  case setKind.run src p =>
    cases h
    exact .write _ List.mem_cons_self (.refl _)
  case clear.run src p k =>
    split at h
    · cases h
      exact .write _ List.mem_cons_self (.refl _)
    · cases src with
      | none =>
        -- `acquire` returns: the message goes from the call to the hand
        cases h
        refine .keep (.refl _) (fun _ => rfl) (fun _ => rfl) (fun _ _ => rfl) fun e h_e => ?_
        exact ⟨none, p, List.mem_singleton.mp h_e, List.mem_cons_self⟩
      | some src =>
        cases h
        exact .stay (.refl _)
  case copyKind.run src p =>
    cases h
    exact .write _ List.mem_cons_self (.refl _)
  case copy.run src p k =>
    split at h
    · cases h
      exact .write _ List.mem_cons_self (.refl _)
    · cases h
      refine .keep (.refl _) (fun _ => rfl) (fun _ => rfl) (fun _ _ => rfl) fun e h_e => ?_
      exact ⟨some src, p, List.mem_singleton.mp h_e, List.mem_cons_self⟩
  case ring.run q pc => exact ringStep_move rfl (by simp) h
  case ring.spurious q pc => exact ringStep_move rfl (by simp) h

end

end Handoff

end Hft
