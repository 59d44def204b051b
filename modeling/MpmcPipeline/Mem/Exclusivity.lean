import Mathlib.Data.List.GetD
import MpmcPipeline.Machine.Exclusive
import MpmcPipeline.Mem.Handoff

/-!
# Pool messages have one owner

The discipline of the hand-off machine over whole runs (`exclusive_handoff`): the slots
with state 1 are exactly the owned ones, each owned in one place, a hand or a cell, and
payloads are only touched by their owners, so that a message comes out of a queue as it
went in and an acquired body is the one that was asked for.

The run invariant `HandoffInv` has three parts. Ownership is exclusive, which the moves
keep by the rules of `Machine/Exclusive.lean`. The message in a cell has not been
touched since it was put there. And the body a thread is acquiring is written as far as
its program point says (`Filled`); this part is about the moving thread alone, because
no other thread writes to a slot it does not own.
-/

namespace Hft

namespace Handoff

variable {P : PoolCapacity} {Q : Type*} {cap : Q → Capacity}

/-! ### The contents of an acquired message -/

/-- How far the body of the current acquisition has been written. -/
def Filled (pool : TaggedPool P) : Pc P cap → Prop
  | .clear _ p k => (pool.load p).kind = .itch ∧
      ∀ j : Fin maxSlotSize, j.val < k → (pool.load p).bytes j = 0
  -- the body has been cleared whole
  | .copyKind _ p => pool.load p = TaggedMessage.fresh
  | .copy src p k => (pool.load p).kind = src.kind ∧
      ∀ j : Fin maxSlotSize,
        (pool.load p).bytes j = if j.val < k then src.bytes.getD j 0 else 0
  | _ => True

/-- Only the message being written matters. -/
theorem Filled.congr {pool pool' : TaggedPool P} {pc : Pc P cap} (h : Filled pool pc)
    (h_load : ∀ p ∈ pc.owned, pool'.load p = pool.load p) : Filled pool' pc := by
  cases pc with
  | clear src p k | copyKind src p | copy src p k =>
    simp only [Filled] at h ⊢
    rw [h_load p List.mem_cons_self]
    exact h
  | _ => trivial

theorem Filled.inside (pool : TaggedPool P) (q : Q) (pc : MPMC.Pc (cap q) (Ptr P)) :
    Filled pool (Pc.inside q pc) := by
  cases pc <;> trivial

/-- The kind has been set, no byte cleared. -/
theorem Filled.clear_start (pool : TaggedPool P) (src : Option Body) (p : Ptr P) :
    Filled (pool.store p { pool.load p with kind := .itch }) (.clear src p 0 : Pc P cap) := by
  refine ⟨?_, fun j h_j => absurd h_j (Nat.not_lt_zero _)⟩
  rw [TaggedPool.load_store]

/-- Clearing byte `k`. -/
theorem Filled.clear_step {pool : TaggedPool P} {src : Option Body} {p : Ptr P} {k : ℕ}
    (h : Filled pool (.clear src p k : Pc P cap)) (h_k : k < maxSlotSize) :
    Filled (pool.store p ((pool.load p).setByte ⟨k, h_k⟩ 0))
      (.clear src p (k + 1) : Pc P cap) := by
  refine ⟨by rw [TaggedPool.load_store]; exact h.1, fun j h_j => ?_⟩
  rw [TaggedPool.load_store]
  by_cases h_eq : j = ⟨k, h_k⟩
  · rw [h_eq, TaggedMessage.setByte_self]
  · have h_ne : j.val ≠ k := fun h_val => h_eq (Fin.ext h_val)
    rw [TaggedMessage.setByte_of_ne _ h_eq]
    exact h.2 j (by omega)

/-- The whole body has been cleared. -/
theorem Filled.clear_done {pool : TaggedPool P} {src : Option Body} {p : Ptr P} {k : ℕ}
    (h : Filled pool (.clear src p k : Pc P cap)) (h_k : ¬k < maxSlotSize) :
    pool.load p = TaggedMessage.fresh := by
  refine TaggedMessage.ext h.1 (funext fun j => ?_)
  have := j.isLt
  exact h.2 j (by omega)

/-- The kind of the body has been set, no byte copied. -/
theorem Filled.copy_start {pool : TaggedPool P} {src : Body} {p : Ptr P}
    (h : Filled pool (.copyKind src p : Pc P cap)) :
    Filled (pool.store p { pool.load p with kind := src.kind })
      (.copy src p 0 : Pc P cap) := by
  refine ⟨by rw [TaggedPool.load_store], fun j => ?_⟩
  rw [TaggedPool.load_store, if_neg (Nat.not_lt_zero _)]
  exact congrFun (congrArg TaggedMessage.bytes h) j

/-- Copying byte `k`. -/
theorem Filled.copy_step {pool : TaggedPool P} {src : Body} {p : Ptr P} {k : ℕ}
    (h : Filled pool (.copy src p k : Pc P cap)) (h_k : k < src.bytes.length) :
    Filled (pool.store p
      ((pool.load p).setByte ⟨k, lt_of_lt_of_le h_k src.fits⟩ src.bytes[k]))
      (.copy src p (k + 1) : Pc P cap) := by
  refine ⟨by rw [TaggedPool.load_store]; exact h.1, fun j => ?_⟩
  rw [TaggedPool.load_store]
  -- byte `k` is the one just copied
  by_cases h_eq : j = ⟨k, lt_of_lt_of_le h_k src.fits⟩
  · rw [h_eq, TaggedMessage.setByte_self, if_pos (Nat.lt_succ_self k),
      List.getD_eq_getElem _ _ h_k]
  · -- the others were copied before, or are not yet
    have h_ne : j.val ≠ k := fun h_val => h_eq (Fin.ext h_val)
    rw [TaggedMessage.setByte_of_ne _ h_eq, h.2 j]
    by_cases h_j : j.val < k
    · rw [if_pos h_j, if_pos (by omega)]
    · rw [if_neg h_j, if_neg (by omega)]

/-- The whole body has been copied. -/
theorem Filled.copy_done {pool : TaggedPool P} {src : Body} {p : Ptr P} {k : ℕ}
    (h : Filled pool (.copy src p k : Pc P cap)) (h_k : ¬k < src.bytes.length) :
    pool.load p = Body.message (some src) := by
  refine TaggedMessage.ext h.1 (funext fun j => ?_)
  rw [h.2 j]
  split
  · rfl
  · next h_j =>
    show _ = src.bytes.getD j 0
    exact (List.getD_eq_default _ _ (by omega)).symm

section

variable [DecidableEq Q]

/-- Inside a queue nothing is being filled, and no event is about an acquisition. -/
theorem ringStep_filled {sh sh' : Shared P cap} {l l' : Local P cap} {q : Q}
    {pc : MPMC.Pc (cap q) (Ptr P)} {ch : MPMC.Choice (Ptr P)} {es : List (Event P Q)}
    (h : ringStep sh l q pc ch = some (sh', l', es)) :
    Filled sh'.pool l'.pc ∧ ∀ src p m, .acquired src p m ∈ es → m = Body.message src := by
  simp only [ringStep] at h
  split at h
  · exact absurd h (by simp)
  · cases h
    refine ⟨Filled.inside _ q _, fun src p m h_e => ?_⟩
    obtain ⟨e, -, h_eq⟩ := List.mem_filterMap.mp h_e
    cases e <;> simp [ringEvent] at h_eq

/-- A step writes the body it is acquiring, and returns it whole. -/
theorem step_filled {sh sh' : Shared P cap} {l l' : Local P cap} {ch : Choice P Q}
    {es : List (Event P Q)} (h : step sh l ch = some (sh', l', es))
    (h_filled : Filled sh.pool l.pc) :
    Filled sh'.pool l'.pc ∧ ∀ src p m, .acquired src p m ∈ es → m = Body.message src := by
  have h_none : ∀ src p m, .acquired src p m ∈ ([] : List (Event P Q)) → m = Body.message src :=
    fun _ _ _ h_e => absurd h_e List.not_mem_nil
  obtain ⟨hand, pc⟩ := l
  cases pc <;> cases ch <;> simp only [step, reduceCtorEq] at h
  case setKind.run src p =>
    cases h
    exact ⟨.clear_start _ src p, h_none⟩
  case clear.run src p k =>
    split at h
    · next h_k =>
      cases h
      exact ⟨h_filled.clear_step h_k, h_none⟩
    · next h_k =>
      cases src with
      | none =>
        cases h
        refine ⟨trivial, fun src p' m h_e => ?_⟩
        cases List.mem_singleton.mp h_e
        exact h_filled.clear_done h_k
      | some src =>
        cases h
        exact ⟨h_filled.clear_done h_k, h_none⟩
  case copyKind.run src p =>
    cases h
    exact ⟨h_filled.copy_start, h_none⟩
  case copy.run src p k =>
    split at h
    · next h_k =>
      cases h
      exact ⟨h_filled.copy_step h_k, h_none⟩
    · next h_k =>
      cases h
      refine ⟨trivial, fun src' p' m h_e => ?_⟩
      cases List.mem_singleton.mp h_e
      exact h_filled.copy_done h_k
  case ring.run q pc => exact ringStep_filled h
  case ring.spurious q pc => exact ringStep_filled h
  case idle.release message =>
    cases message with
    | none =>
      cases h
      exact ⟨trivial, h_none⟩
    | some p =>
      simp only at h
      split at h
      · cases h
        exact ⟨trivial, by simp⟩
      · exact absurd h (by simp)
  -- outside an acquisition there is nothing to fill
  case idle.call q c =>
    cases c <;> simp only at h <;> (try split at h) <;> cases h <;> exact ⟨trivial, h_none⟩
  all_goals
    (try split at h) <;> (try split at h) <;> cases h <;> exact ⟨trivial, by simp⟩

end

/-! ### Runs -/

/-- Threads over one pool and the queues. -/
abbrev System (Id : Type*) (P : PoolCapacity) (cap : Q → Capacity) :=
  Threads Id (Shared P cap) (Local P cap)

/-- Every slot free, every queue fresh, no thread holding anything. The bodies are
whatever the pool was mapped with. -/
def System.init (Id : Type*) (cap : Q → Capacity) (message : Ptr P → TaggedMessage) :
    System Id P cap :=
  ⟨⟨TaggedPool.fresh message, fun q => MPMC.fresh (cap q) (Ptr P)⟩, fun _ => ⟨[], .idle⟩⟩

/-- The interleaving of any acquisitions, writes, pushes, pops and releases of any
threads. -/
abbrev machine (Id : Type*) [DecidableEq Id] [DecidableEq Q] (P : PoolCapacity)
    (cap : Q → Capacity) :
    Machine (System Id P cap) (Id × Choice P Q) (Id × Event P Q) :=
  Threads.machine step

/-- A place that can own messages. -/
inductive Place (Id : Type*) (cap : Q → Capacity)
  | hand (i : Id)
  | cell (c : Cell cap)

/-- What a place owns. -/
def held {Id : Type*} (s : System Id P cap) : Place Id cap → List (Ptr P)
  | .hand i => (s.loc i).owned
  | .cell c => (s.shared.cell c).toList

/-- The last thing that happened to `p` in `tr` is that a push put it, with payload `m`,
into a cell of `q`. -/
def LastStored {Id : Type*} (tr : List (Id × Event P Q)) (q : Q) (p : Ptr P)
    (m : TaggedMessage) : Prop :=
  ∃ tr₁ i tr₂, tr = tr₁ ++ (i, .store q p m) :: tr₂ ∧ ∀ e ∈ tr₂, e.2.ptr ≠ p

theorem LastStored.append {Id : Type*} {tr es : List (Id × Event P Q)} {q : Q} {p : Ptr P}
    {m : TaggedMessage} (h : LastStored tr q p m) (h_es : ∀ e ∈ es, e.2.ptr ≠ p) :
    LastStored (tr ++ es) q p m := by
  obtain ⟨tr₁, i, tr₂, rfl, h_rest⟩ := h
  refine ⟨tr₁, i, tr₂ ++ es, by simp, fun e h_e => ?_⟩
  rcases List.mem_append.mp h_e with h_e | h_e
  · exact h_rest e h_e
  · exact h_es e h_e

/-- The run invariant. -/
structure HandoffInv {Id : Type*} (tr : List (Id × Event P Q)) (s : System Id P cap) :
    Prop where
  exclusive : Exclusive (held s) fun p => (s.shared.pool.slots p).state = 1
  carried : ∀ c p, s.shared.cell c = some p →
    LastStored tr c.1 p (s.shared.pool.load p)
  filled : ∀ i, Filled s.shared.pool (s.loc i).pc

theorem HandoffInv.init (Id : Type*) (cap : Q → Capacity) (message : Ptr P → TaggedMessage) :
    HandoffInv [] (System.init Id cap message) where
  exclusive := by
    refine Exclusive.empty.congr (fun a => ?_) fun p => ?_
    · cases a <;> exact .refl _
    · exact iff_of_false (show ¬(0 : Byte) = 1 by decide) id
  carried := fun c p h_cell => absurd h_cell (by simp [System.init, Shared.cell, MPMC.fresh])
  filled := fun _ => trivial

section

variable {Id : Type*} [DecidableEq Id] {sh sh' : Shared P cap} {l l' : Local P cap}
  {es : List (Event P Q)} {i : Id} {loc : Id → Local P cap}

omit [DecidableEq Id] in
/-- A move changes payloads of the moving thread's messages only. -/
theorem Move.load (h : Move sh sh' l l' es) {p : Ptr P} (h_p : p ∉ l.owned) :
    sh'.pool.load p = sh.pool.load p := by
  cases h with
  | keep _ _ _ h_load _ => exact h_load p h_p
  | claim p' _ _ h_pool _ _ => rw [h_pool, TaggedPool.setState_load]
  | free p' _ h_pool _ _ => rw [h_pool, TaggedPool.setState_load]
  | put c p' _ h_pool _ _ _ _ => rw [h_pool]
  | take c p' _ h_pool _ _ _ _ => rw [h_pool]

/-- Ownership after a step of thread `i`, place by place. -/
theorem held_hand_self : held (⟨sh', Function.update loc i l'⟩ : System Id P cap) (.hand i) =
    l'.owned := by
  simp only [held, Function.update_self]

theorem held_hand_of_ne {j : Id} (h_ne : j ≠ i) :
    held (⟨sh', Function.update loc i l'⟩ : System Id P cap) (.hand j) = (loc j).owned := by
  simp only [held, Function.update_of_ne h_ne]

/-- **A move keeps ownership exclusive**: a slot is claimed only when free, and passes between a
hand and a cell in one step. -/
theorem Move.exclusive (h : Move sh sh' (loc i) l' es)
    (hE : Exclusive (held (⟨sh, loc⟩ : System Id P cap)) fun p => (sh.pool.slots p).state = 1) :
    Exclusive (held (⟨sh', Function.update loc i l'⟩ : System Id P cap))
      fun p => (sh'.pool.slots p).state = 1 := by
  -- the hands of the other threads, and the cells a move does not touch
  have h_hands : ∀ j, j ≠ i → (held (⟨sh', Function.update loc i l'⟩ : System Id P cap)
      (.hand j)).Perm (held (⟨sh, loc⟩ : System Id P cap) (.hand j)) := fun j h_j => by
    rw [held_hand_of_ne h_j]
    exact .refl _
  have h_cells : ∀ c, sh'.cell c = sh.cell c →
      (held (⟨sh', Function.update loc i l'⟩ : System Id P cap) (.cell c)).Perm
        (held (⟨sh, loc⟩ : System Id P cap) (.cell c)) := fun c h_c => by
    show (sh'.cell c).toList.Perm (sh.cell c).toList
    rw [h_c]
  cases h with
  | keep h_owned h_state h_cell h_load h_es =>
    refine hE.congr (fun a => ?_) fun p => by rw [h_state]
    cases a with
    | hand j =>
      by_cases h_j : j = i
      · subst h_j
        rw [held_hand_self]
        exact h_owned
      · exact h_hands j h_j
    | cell c => exact h_cells c (h_cell c)
  | claim p h_owned h_free h_pool h_cell h_es =>
    -- a slot whose state was 0 is owned by nobody
    refine hE.claim (t := p) (a := .hand i) (by rw [h_free]; decide) ?_ (fun b h_b => ?_)
      fun p' => ?_
    · rw [held_hand_self]
      exact h_owned
    · cases b with
      | hand j => exact h_hands j fun h_j => h_b (h_j ▸ rfl)
      | cell c => exact h_cells c (h_cell c)
    · rw [h_pool]
      by_cases h_p : p' = p
      · subst h_p
        simp
      · rw [TaggedPool.setState_of_ne _ h_p]
        exact ⟨Or.inr, fun h => h.resolve_left h_p⟩
  | free p h_owned h_pool h_cell h_es =>
    refine hE.free (t := p) (a := .hand i) ?_ (fun b h_b => ?_) fun p' => ?_
    · rw [held_hand_self]
      exact h_owned
    · cases b with
      | hand j => exact h_hands j fun h_j => h_b (h_j ▸ rfl)
      | cell c => exact h_cells c (h_cell c)
    · rw [h_pool]
      by_cases h_p : p' = p
      · subst h_p
        simp
      · rw [TaggedPool.setState_of_ne _ h_p]
        exact ⟨fun h => ⟨h_p, h⟩, And.right⟩
  | put c p h_owned h_pool h_empty h_full h_cell h_es =>
    refine hE.move (t := p) (a := .hand i) (b := .cell c) (by simp) ?_ ?_ (fun b h_a h_b => ?_)
      fun p' => by rw [h_pool]
    · rw [held_hand_self]
      exact h_owned
    · show (sh'.cell c).toList.Perm (p :: (sh.cell c).toList)
      rw [h_full, h_empty]
      exact .refl _
    · cases b with
      | hand j => exact h_hands j fun h_j => h_a (h_j ▸ rfl)
      | cell c' => exact h_cells c' (h_cell c' fun h_c => h_b (h_c ▸ rfl))
  | take c p h_owned h_pool h_full h_empty h_cell h_es =>
    refine hE.move (t := p) (a := .cell c) (b := .hand i) (by simp) ?_ ?_ (fun b h_a h_b => ?_)
      fun p' => by rw [h_pool]
    · show (sh.cell c).toList.Perm (p :: (sh'.cell c).toList)
      rw [h_full, h_empty]
      exact .refl _
    · rw [held_hand_self]
      exact h_owned
    · cases b with
      | hand j => exact h_hands j fun h_j => h_b (h_j ▸ rfl)
      | cell c' => exact h_cells c' (h_cell c' fun h_c => h_a (h_c ▸ rfl))

omit [DecidableEq Id] in
/-- **A move keeps what is known about the messages in cells**: nobody but the owner writes a
message, and a message in a cell has no owner that could. -/
theorem Move.carried {tr : List (Id × Event P Q)} (h : Move sh sh' (loc i) l' es)
    (hE : Exclusive (held (⟨sh, loc⟩ : System Id P cap)) fun p => (sh.pool.slots p).state = 1)
    (hC : ∀ c p, sh.cell c = some p → LastStored tr c.1 p (sh.pool.load p)) (c : Cell cap)
    (p : Ptr P) (h_full : sh'.cell c = some p) :
    LastStored (tr ++ es.map fun e => (i, e)) c.1 p (sh'.pool.load p) := by
  -- a message in a cell is not the moving thread's
  have h_place : ∀ {c}, sh.cell c = some p →
      p ∈ held (⟨sh, loc⟩ : System Id P cap) (.cell c) := fun h_c => by
    show p ∈ (sh.cell _).toList
    rw [h_c]
    exact List.mem_singleton_self p
  have h_other : ∀ {c}, sh.cell c = some p → p ∉ (loc i).owned := fun h_c h_own =>
    absurd (hE.unique (.hand i) _ p h_own (h_place h_c)) (by simp)
  have h_keep : sh.cell c = some p → (∀ e ∈ es, e.ptr ≠ p) →
      LastStored (tr ++ es.map fun e => (i, e)) c.1 p (sh'.pool.load p) := by
    intro h_c h_es
    rw [h.load (h_other h_c)]
    refine (hC c p h_c).append fun e h_e => ?_
    obtain ⟨e', h_e', rfl⟩ := List.mem_map.mp h_e
    exact h_es e' h_e'
  -- a step of one event, which is about another slot
  have h_keep_one : ∀ {e}, es = [e] → sh.cell c = some p → e.ptr ≠ p →
      LastStored (tr ++ es.map fun e => (i, e)) c.1 p (sh'.pool.load p) := by
    intro e h_es h_c h_ne
    refine h_keep h_c fun e' h_e' => ?_
    rw [h_es, List.mem_singleton] at h_e'
    rwa [h_e']
  cases h with
  | keep h_owned h_state h_cell h_load h_es =>
    have h_c : sh.cell c = some p := (h_cell c).symm.trans h_full
    refine h_keep h_c fun e h_e => ?_
    obtain ⟨src, p', rfl, h_own⟩ := h_es e h_e
    rintro rfl
    exact h_other h_c h_own
  | claim p' h_owned h_free h_pool h_cell h_es =>
    have h_c : sh.cell c = some p := (h_cell c).symm.trans h_full
    refine h_keep_one h_es h_c ?_
    rintro rfl
    -- a free slot is in no cell
    have h_dead : ¬(sh.pool.slots p').state = 1 := by
      rw [h_free]
      decide
    exact hE.not_mem h_dead _ (h_place h_c)
  | free p' h_owned h_pool h_cell h_es =>
    have h_c : sh.cell c = some p := (h_cell c).symm.trans h_full
    refine h_keep_one h_es h_c ?_
    rintro rfl
    exact h_other h_c (h_owned.mem_iff.mpr List.mem_cons_self)
  | put c' p' h_owned h_pool h_empty h_full' h_cell h_es =>
    by_cases h_eq : c = c'
    · -- the message just put there: the step itself is its last event
      subst h_eq
      obtain rfl : p' = p := Option.some.inj (h_full'.symm.trans h_full)
      refine ⟨tr, i, [], ?_, fun e h_e => absurd h_e List.not_mem_nil⟩
      rw [h_es, h_pool]
      rfl
    · have h_c : sh.cell c = some p := (h_cell c h_eq).symm.trans h_full
      refine h_keep_one h_es h_c ?_
      rintro rfl
      exact h_other h_c (h_owned.mem_iff.mpr List.mem_cons_self)
  | take c' p' h_owned h_pool h_full' h_empty h_cell h_es =>
    by_cases h_eq : c = c'
    · subst h_eq
      rw [h_empty] at h_full
      exact absurd h_full (by simp)
    · have h_c : sh.cell c = some p := (h_cell c h_eq).symm.trans h_full
      refine h_keep_one h_es h_c ?_
      rintro rfl
      -- a message is in one cell only
      have h_place' : p' ∈ held (⟨sh, loc⟩ : System Id P cap) (.cell c') := by
        show p' ∈ (sh.cell c').toList
        rw [h_full']
        exact List.mem_singleton_self p'
      have := hE.unique _ _ p' (h_place h_c) h_place'
      exact h_eq (by simpa using this)

/-- **One step keeps the run invariant**, whichever thread takes it and wherever the others are. -/
theorem HandoffInv.step [DecidableEq Q] {tr es : List (Id × Event P Q)}
    {s s' : System Id P cap} {a : Id × Choice P Q} (hI : HandoffInv tr s)
    (h : (machine Id P cap).step s a = some (s', es)) : HandoffInv (tr ++ es) s' := by
  obtain ⟨sh, l, es, h_step, rfl, rfl⟩ := Threads.machine_step h
  have h_move := step_move h_step
  refine ⟨h_move.exclusive hI.exclusive, h_move.carried hI.exclusive hI.carried, fun j => ?_⟩
  -- the moving thread fills as its step says, the others' bodies are theirs alone
  by_cases h_j : j = a.1
  · subst h_j
    show Filled sh.pool (Function.update s.loc a.1 l a.1).pc
    rw [Function.update_self]
    exact (step_filled h_step (hI.filled a.1)).1
  · show Filled sh.pool (Function.update s.loc a.1 l j).pc
    rw [Function.update_of_ne h_j]
    refine (hI.filled j).congr fun p h_p => h_move.load fun h_own => ?_
    -- the message thread `j` is filling is not the moving thread's
    have h_place : p ∈ held s (.hand j) := List.mem_append_left _ h_p
    have := hI.exclusive.unique (.hand j) (.hand a.1) p h_place h_own
    exact h_j (by simpa using this)

theorem HandoffInv.reach [DecidableEq Q] {message : Ptr P → TaggedMessage}
    {tr : List (Id × Event P Q)} {s : System Id P cap}
    (h : (machine Id P cap).Reach (System.init Id cap message) tr s) : HandoffInv tr s :=
  h.inv (HandoffInv.init Id cap message) fun _ _ _ _ _ hI _ h_step => hI.step h_step

/-- What the events of a step say about the state it is taken from. -/
theorem Move.events (h : Move sh sh' l l' es) :
    (∀ p, .claimed p ∈ es → (sh.pool.slots p).state = 0) ∧
      (∀ src p m, .acquired src p m ∈ es → p ∈ l'.owned) ∧
      ∀ q p m, .take q p m ∈ es →
        m = sh.pool.load p ∧ m = sh'.pool.load p ∧ ∃ slot, sh.cell ⟨q, slot⟩ = some p := by
  cases h with
  | keep h_owned h_state h_cell h_load h_es =>
    -- an event that says whose slot it is comes from the owner's own step
    refine ⟨fun p h_e => ?_, fun src p m h_e => ?_, fun q p m h_e => ?_⟩
    · obtain ⟨src, p', h_eq, -⟩ := h_es _ h_e
      exact absurd h_eq (by simp)
    · obtain ⟨src', p', h_eq, h_own⟩ := h_es _ h_e
      obtain rfl : p = p' := (Event.acquired.inj h_eq).2.1
      exact h_owned.mem_iff.mpr h_own
    · obtain ⟨src, p', h_eq, -⟩ := h_es _ h_e
      exact absurd h_eq (by simp)
  | claim p' h_owned h_free h_pool h_cell h_es =>
    refine ⟨fun p h_e => ?_, by simp [h_es], by simp [h_es]⟩
    -- the scan has found the slot free
    rw [h_es, List.mem_singleton] at h_e
    rw [Event.claimed.inj h_e]
    exact h_free
  | free p' h_owned h_pool h_cell h_es => simp [h_es]
  | put c p' h_owned h_pool h_empty h_full h_cell h_es => simp [h_es]
  | take c p' h_owned h_pool h_full h_empty h_cell h_es =>
    refine ⟨by simp [h_es], by simp [h_es], fun q p m h_e => ?_⟩
    -- the message was in the cell that the exchange has emptied
    rw [h_es, List.mem_singleton] at h_e
    obtain ⟨rfl, rfl, rfl⟩ := Event.take.inj h_e
    rw [h_pool]
    exact ⟨rfl, rfl, c.2, h_full⟩

/-- **Exclusive ownership with hand-off.** In every reachable state a slot with state 1
is owned in exactly one place, a hand or a cell, and every owned slot has state 1. In
every step from there, the slot a thread claims was owned by nobody; a pointer `acquire`
or `acquire_filled` returns is owned by the caller alone and its body is the one asked
for; a payload that changes is the moving thread's; and a message that is taken out of a
queue holds what it held when it was last put there, with nothing having happened to it
in between. -/
theorem exclusive_handoff [DecidableEq Q] {message : Ptr P → TaggedMessage}
    {tr : List (Id × Event P Q)} {s : System Id P cap}
    (h : (machine Id P cap).Reach (System.init Id cap message) tr s) :
    (∀ p, (s.shared.pool.slots p).state = 1 → ∃! a, p ∈ held s a) ∧
      (∀ a, (held s a).Nodup) ∧
      (∀ a, ∀ p ∈ held s a, (s.shared.pool.slots p).state = 1) ∧
      ∀ i ch s' es, (machine Id P cap).step s (i, ch) = some (s', es) →
        (∀ p, (i, .claimed p) ∈ es → ∀ a, p ∉ held s a) ∧
        (∀ src p m, (i, .acquired src p m) ∈ es →
          m = Body.message src ∧ ∀ a, p ∈ held s' a → a = .hand i) ∧
        (∀ p, s'.shared.pool.load p ≠ s.shared.pool.load p → p ∈ held s (.hand i)) ∧
        ∀ q p m, (i, .take q p m) ∈ es → m = s'.shared.pool.load p ∧ LastStored tr q p m := by
  have hI := HandoffInv.reach h
  refine ⟨fun p h_live => hI.exclusive.existsUnique h_live, hI.exclusive.nodup,
    fun a p h_p => hI.exclusive.live_of_mem h_p, fun i ch s' es h_step => ?_⟩
  have hI' := hI.step h_step
  obtain ⟨sh, l, es, h_own, rfl, rfl⟩ := Threads.machine_step h_step
  have h_move := step_move h_own
  obtain ⟨h_claimed, h_acquired, h_taken⟩ := h_move.events
  have h_mem : ∀ e, (i, e) ∈ es.map (fun e => (i, e)) → e ∈ es := fun e h_e => by
    simpa using h_e
  refine ⟨fun p h_e => ?_, fun src p m h_e => ⟨?_, fun a h_a => ?_⟩, fun p h_ne => ?_,
    fun q p m h_e => ?_⟩
  -- claimed, acquired, changed, taken
  · have h_free := h_claimed p (h_mem _ h_e)
    exact hI.exclusive.not_mem (by rw [h_free]; decide)
  · exact (step_filled h_own (hI.filled i)).2 src p m (h_mem _ h_e)
  · refine hI'.exclusive.unique _ _ p h_a ?_
    rw [held_hand_self]
    exact h_acquired src p m (h_mem _ h_e)
  · by_contra h_other
    exact h_ne (h_move.load h_other)
  · obtain ⟨h_m, h_m', slot, h_cell⟩ := h_taken q p m (h_mem _ h_e)
    refine ⟨h_m', ?_⟩
    rw [h_m]
    exact hI.carried ⟨q, slot⟩ p h_cell

end

/-- The slot a thread has just claimed is owned in exactly one place, although its body
has not been cleared yet. -/
theorem exclusive_handoff_claimed :
    ∃ (tr : List (Bool × Event onePool Unit)) (s : System Bool onePool fun _ => Capacity.two),
      (machine Bool onePool fun _ => Capacity.two).Reach
        (System.init Bool _ fun _ => TaggedMessage.fresh) tr s ∧
      (s.shared.pool.slots ⟨0, by decide⟩).state = 1 ∧
      ∃! a, (⟨0, by decide⟩ : Ptr onePool) ∈ held s a := by
  obtain ⟨tr, s, h_reach, h_state⟩ := Machine.exists_reach_of_run
    (machine Bool onePool fun _ => Capacity.two)
    (System.init Bool (fun _ : Unit => Capacity.two) fun _ => TaggedMessage.fresh)
    [(false, .acquire none), (true, .acquire none), (false, .run), (true, .run)]
    (fun s _ => decide ((s.shared.pool.slots ⟨0, by decide⟩).state = 1)) (by decide)
  have h_claimed := of_decide_eq_true h_state
  exact ⟨tr, s, h_reach, h_claimed, (exclusive_handoff h_reach).1 _ h_claimed⟩

end Handoff

end Hft
