import MpmcPipeline.Machine.Exclusive
import MpmcPipeline.Machine.History
import MpmcPipeline.Trading.Moves

/-!
# No slot is leaked and none is released twice

Between two calls nobody has a message in hand, so every acquired slot must lie in a
queue. The invariant is about moves and counts the hand as one more place: the slots with
state byte 1 are the ones held, each at one place (`Exclusive`); the state byte is 1 just
when the last event about the slot is not its release; and an event about a slot finds it
acquired, an acquisition finds it free (`Event.Allowed`), so that no slot is released
twice.

`whole_pipeline_ownership` reads it between two calls, where the hand is empty: slots in
use and full cells correspond one to one.
-/

namespace Hft

open Handoff (Cell Env Placed Taken)
open History (Lives lastAt lastAt_snoc_of_ne lastAt_snoc_self)

namespace Trading

variable {P : PoolCapacity} {cap : Stage → Capacity}

/-- The slot is in use after its last event. -/
def Alive : Option (Event P) → Prop
  | none | some (.released _) => False
  | some _ => True

/-- A slot is acquired when it is not in use; anything else happens to a slot in use. -/
def Event.Allowed (prev : Option (Event P)) : Event P → Prop
  | .acquired _ _ => ¬Alive prev
  | _ => Alive prev

/-- What a place holds: the hand (`none`) or a cell. -/
def Core.held (c : Core P cap) : Option (Cell cap) → List (Ptr P)
  | none => c.hand.toList
  | some cell => (c.mem.cell cell).toList

/-- Between two calls a place that holds a message is a cell. -/
theorem World.mem_held {w : World P cap} {place : Option (Cell cap)} {p : Ptr P} :
    p ∈ w.core.held place ↔ ∃ cell, place = some cell ∧ w.mem.cell cell = some p := by
  cases place with
  | none => simp [Core.held, World.core]
  | some cell => simp [Core.held, World.core]

/-- **The invariant.** The slots in use are exactly those in one hand or cell, a state is 0 or 1,
and a slot is in use exactly while the last event about it is no release. -/
structure OwnedInv (tr : List (Event P)) (c : Core P cap) : Prop where
  exclusive : Exclusive c.held fun p => (c.mem.pool.slots p).state = 1
  bit : ∀ p, (c.mem.pool.slots p).state = 0 ∨ (c.mem.pool.slots p).state = 1
  alive : ∀ p, (c.mem.pool.slots p).state = 1 ↔ Alive (lastAt Event.ptr tr p)
  lives : Lives Event.ptr Event.Allowed tr

theorem OwnedInv.init (config : Config) (message : Ptr P → TaggedMessage) :
    OwnedInv [] (World.init config message : World P cap).core where
  exclusive :=
    { nodup := fun place => by cases place <;> exact List.nodup_nil
      unique := fun place _ _ h_mem _ => by cases place <;> cases h_mem
      live_iff := fun p => by
        refine ⟨fun h_state => absurd h_state (by decide : (0 : Byte) ≠ 1), ?_⟩
        rintro ⟨place, h_mem⟩
        cases place <;> cases h_mem }
  bit _ := Or.inl rfl
  alive _ := ⟨fun h_state => absurd h_state (by decide : (0 : Byte) ≠ 1), False.elim⟩
  lives := Lives.nil

section

variable {tr : List (Event P)} {mem mem' : Memory P cap} {counters counters' : Counters}
  {p : Ptr P}

/-- The message in hand is in use. -/
theorem OwnedInv.hand_alive (hI : OwnedInv tr ⟨mem, counters, some p⟩) :
    (mem.pool.slots p).state = 1 :=
  hI.exclusive.live_of_mem (a := none) (List.mem_singleton_self p)

/-- A free slot is not in use. -/
theorem OwnedInv.not_alive {c : Core P cap} (hI : OwnedInv tr c)
    (h_free : (c.mem.pool.slots p).state = 0) : ¬Alive (lastAt Event.ptr tr p) := by
  rw [← hI.alive p, h_free]
  decide

/-- Nothing happens to the slots. -/
theorem OwnedInv.moved {c c' : Core P cap} (hI : OwnedInv tr c)
    (h_pool : c'.mem.pool = c.mem.pool)
    (h_exclusive : Exclusive c'.held fun p => (c.mem.pool.slots p).state = 1) :
    OwnedInv tr c' := by
  refine ⟨?_, ?_, ?_, hI.lives⟩
  · rw [h_pool]
    exact h_exclusive
  · rw [h_pool]
    exact hI.bit
  · rw [h_pool]
    exact hI.alive

/-- `try_pop`: from a cell into the hand. -/
theorem OwnedInv.take {cell : Cell cap} (hI : OwnedInv tr ⟨mem, counters, none⟩)
    (h_taken : Taken mem cell p mem') : OwnedInv tr ⟨mem', counters, some p⟩ := by
  refine hI.moved h_taken.pool_eq (hI.exclusive.move (a := some cell) (b := none) (t := p)
    (by simp) ?_ ?_ ?_ fun _ => Iff.rfl)
  · simp [Core.held, h_taken.full, h_taken.cell_eq]
  · simp [Core.held]
  · -- every other place holds what it held
    rintro (_ | other) h_other h_hand
    · exact absurd rfl h_hand
    · have h_ne : other ≠ cell := fun h_eq => h_other (congrArg some h_eq)
      simp [Core.held, h_taken.cell_eq, Function.update_of_ne h_ne]

/-- `push`: from the hand into a cell. -/
theorem OwnedInv.put {cell : Cell cap} (hI : OwnedInv tr ⟨mem, counters, some p⟩)
    (h_placed : Placed mem cell p mem') : OwnedInv tr ⟨mem', counters, none⟩ := by
  refine hI.moved h_placed.pool_eq (hI.exclusive.move (a := none) (b := some cell) (t := p)
    (by simp) ?_ ?_ ?_ fun _ => Iff.rfl)
  · simp [Core.held]
  · simp [Core.held, h_placed.empty, h_placed.cell_eq]
  · rintro (_ | other) h_hand h_other
    · exact absurd rfl h_hand
    · have h_ne : other ≠ cell := fun h_eq => h_other (congrArg some h_eq)
      simp [Core.held, h_placed.cell_eq, Function.update_of_ne h_ne]

/-- `acquire`: a free slot into the hand. -/
theorem OwnedInv.acquire (hI : OwnedInv tr ⟨mem, counters, none⟩) (source : Option Tick)
    (m : TaggedMessage) (h_free : (mem.pool.slots p).state = 0) :
    OwnedInv (tr ++ [.acquired p source])
      ⟨{ mem with pool := (mem.pool.setState p 1).store p m }, counters, some p⟩ := by
  have h_dead : (mem.pool.slots p).state ≠ 1 := by rw [h_free]; decide
  -- filling the message leaves the state bytes alone
  have h_state : ∀ u, (((mem.pool.setState p 1).store p m).slots u).state = 1 ↔
      u = p ∨ (mem.pool.slots u).state = 1 := by
    intro u
    rw [TaggedPool.store_state]
    by_cases h_u : u = p
    · simp [h_u]
    · simp [h_u, TaggedPool.setState_of_ne _ h_u]
  refine ⟨hI.exclusive.claim (a := none) (t := p) h_dead ?_ ?_ h_state, fun u => ?_, fun u => ?_,
    hI.lives.snoc fun h_alive => h_dead ((hI.alive p).mpr h_alive)⟩
  · simp [Core.held]
  · rintro (_ | other) h_hand
    · exact absurd rfl h_hand
    · exact List.Perm.refl _
  · by_cases h_u : u = p
    · exact Or.inr ((h_state u).mpr (Or.inl h_u))
    · rcases hI.bit u with h_zero | h_one
      · refine Or.inl ?_
        rw [TaggedPool.store_state, TaggedPool.setState_of_ne _ h_u]
        exact h_zero
      · exact Or.inr ((h_state u).mpr (Or.inr h_one))
  · rw [h_state]
    by_cases h_u : u = p
    · subst h_u
      rw [show lastAt Event.ptr (tr ++ [.acquired u source]) u = some (.acquired u source) from
        lastAt_snoc_self Event.ptr tr (.acquired u source)]
      simp [Alive]
    · rw [lastAt_snoc_of_ne Event.ptr tr (e := .acquired p source) h_u, ← hI.alive u]
      simp [h_u]

/-- `release`: the slot in hand is free again. -/
theorem OwnedInv.release (hI : OwnedInv tr ⟨mem, counters, some p⟩) :
    OwnedInv (tr ++ [.released p])
      ⟨{ mem with pool := mem.pool.setState p 0 }, counters, none⟩ := by
  -- slot `p` is free afterwards, and no other has changed
  have h_state : ∀ u, ((mem.pool.setState p 0).slots u).state = 1 ↔
      u ≠ p ∧ (mem.pool.slots u).state = 1 := by
    intro u
    by_cases h_u : u = p
    · simp [h_u]
    · simp [h_u, TaggedPool.setState_of_ne _ h_u]
  -- the hand is the only place the message leaves
  refine ⟨hI.exclusive.free (a := none) (t := p) ?_ ?_ h_state, fun u => ?_, fun u => ?_,
    hI.lives.snoc ((hI.alive p).mp hI.hand_alive)⟩
  · simp [Core.held]
  · rintro (_ | other) h_hand
    · exact absurd rfl h_hand
    · exact List.Perm.refl _
  · by_cases h_u : u = p
    · subst h_u
      exact Or.inl (TaggedPool.setState_self _ _ _)
    · show ((mem.pool.setState p 0).slots u).state = 0 ∨ _
      rw [TaggedPool.setState_of_ne _ h_u]
      exact hI.bit u
  · -- the last event of `p` says that it is released, the others keep theirs
    rw [h_state]
    by_cases h_u : u = p
    · subst h_u
      rw [show lastAt Event.ptr (tr ++ [.released u]) u = some (.released u) from
        lastAt_snoc_self Event.ptr tr (.released u)]
      simp [Alive]
    · rw [lastAt_snoc_of_ne Event.ptr tr (e := .released p) h_u, ← hI.alive u]
      simp [h_u]

/-- An event about the message in hand, which stays there and in use. -/
theorem OwnedInv.note (hI : OwnedInv tr ⟨mem, counters, some p⟩) {e : Event P} (h_ptr : e.ptr = p)
    (h_allowed : ∀ prev, Alive prev → e.Allowed prev) (h_alive : Alive (some e)) :
    OwnedInv (tr ++ [e]) ⟨mem, counters, some p⟩ := by
  subst h_ptr
  have h_life := (hI.alive _).mp hI.hand_alive
  refine ⟨hI.exclusive, hI.bit, fun u => ?_, hI.lives.snoc (h_allowed _ h_life)⟩
  rw [hI.alive u]
  by_cases h_u : u = e.ptr
  · subst h_u
    rw [lastAt_snoc_self]
    exact iff_of_true h_life h_alive
  · rw [lastAt_snoc_of_ne Event.ptr tr h_u]

/-- `on_tick`, as far as it looks at the tick only. -/
theorem OwnedInv.evaluate (hI : OwnedInv tr ⟨mem, counters, some p⟩) (tick : Tick)
    (next : BitVec 32) : OwnedInv (tr ++ [.evaluated p tick next]) ⟨mem, counters, some p⟩ :=
  hI.note rfl (fun _ h_alive => h_alive) trivial

/-- The message in hand is rewritten. -/
theorem OwnedInv.write (hI : OwnedInv tr ⟨mem, counters, some p⟩) (m : TaggedMessage)
    {e : Event P} (h_ptr : e.ptr = p) (h_allowed : ∀ prev, Alive prev → e.Allowed prev)
    (h_alive : Alive (some e)) : OwnedInv (tr ++ [e]) ⟨mem.write p m, counters', some p⟩ := by
  have h_noted := hI.note h_ptr h_allowed h_alive
  -- the bytes change, no state byte does
  have h_state : ∀ u, ((mem.pool.store p m).slots u).state = (mem.pool.slots u).state :=
    fun u => TaggedPool.store_state _ _ _ _
  refine ⟨hI.exclusive.congr (fun place => ?_) fun u => by rw [← h_state u]; rfl, fun u => ?_,
    fun u => ?_, h_noted.lives⟩
  · cases place <;> exact List.Perm.refl _
  · show ((mem.pool.store p m).slots u).state = 0 ∨ ((mem.pool.store p m).slots u).state = 1
    rw [h_state u]
    exact hI.bit u
  · show ((mem.pool.store p m).slots u).state = 1 ↔ _
    rw [h_state u]
    exact h_noted.alive u

/-- **Step.** Every move keeps the invariant: it moves one message from one place to another, or
between a place and the pool. -/
theorem OwnedInv.move {bandBps : Kind → BitVec 32} {c c' : Core P cap} {es : List (Event P)}
    (hI : OwnedInv tr c) (h : Move bandBps c es c') : OwnedInv (tr ++ es) c' := by
  cases h with
  | take p h_taken =>
    rw [List.append_nil]
    exact hI.take h_taken
  | put p h_placed =>
    rw [List.append_nil]
    exact hI.put h_placed
  | acquire p tick m h_free _ => exact hI.acquire (some tick) m h_free
  | release p => exact hI.release
  | dismiss p tick next _ =>
    rw [List.append_cons]
    exact (hI.evaluate tick next).release
  | signal p origin _ _ =>
    rw [List.append_cons]
    exact (hI.evaluate _ _).write _ rfl (fun _ h_alive => h_alive) trivial
  | signalNew p origin h_free h_mem _ =>
    -- three events: the acquisition, then what is done to the message it gave
    rw [List.append_cons, List.append_cons]
    subst h_mem
    exact ((hI.acquire none _ h_free).evaluate _ _).write _ rfl (fun _ h_alive => h_alive) trivial
  | order p order _ _ => exact hI.write _ rfl (fun _ h_alive => h_alive) trivial
  | confirm p ack _ => exact hI.write _ rfl (fun _ h_alive => h_alive) trivial

end

/-- **Run.** The invariant holds after every run, as every call is moves. -/
theorem OwnedInv.reach {config : Config} {message : Ptr P → TaggedMessage}
    {tr : List (Event P)} {w : World P cap}
    (h : (machine P cap).Reach (World.init config message) tr w) : OwnedInv tr w.core :=
  World.core_inv (.init config message) (fun _ _ _ _ hI h_move => hI.move h_move) h

/-- Between two calls the slots in use are as many as the full cells. -/
theorem OwnedInv.card_eq {tr : List (Event P)} {w : World P cap} (hI : OwnedInv tr w.core) :
    (Finset.univ.filter fun p => (w.mem.pool.slots p).state = 1).card =
      ∑ stage, (w.mem.queues stage).occupancy := by
  -- both sides count the messages in the cells
  have h_image : (Finset.univ.filter fun p => (w.mem.pool.slots p).state = 1).image some =
      (Finset.univ.filter fun c : Cell cap => w.mem.cell c ≠ none).image w.mem.cell := by
    ext x
    simp only [Finset.mem_image, Finset.mem_filter, Finset.mem_univ, true_and]
    constructor
    · rintro ⟨p, h_live, rfl⟩
      obtain ⟨place, h_mem⟩ := (hI.exclusive.live_iff p).mp h_live
      obtain ⟨cell, rfl, h_cell⟩ := World.mem_held.mp h_mem
      exact ⟨cell, by rw [h_cell]; exact Option.some_ne_none p, h_cell⟩
    · rintro ⟨cell, h_full, rfl⟩
      obtain ⟨p, h_cell⟩ := Option.ne_none_iff_exists'.mp h_full
      exact ⟨p, hI.exclusive.live_of_mem (World.mem_held.mpr ⟨cell, rfl, h_cell⟩), h_cell.symm⟩
  rw [← w.mem.card_full, ← Finset.card_image_of_injective _ (Option.some_injective _), h_image]
  -- two cells with one message are one cell
  refine Finset.card_image_of_injOn fun cell h_full cell' _ h_eq => ?_
  obtain ⟨p, h_cell⟩ := Option.ne_none_iff_exists'.mp (Finset.mem_filter.mp h_full).2
  exact Option.some.inj (hI.exclusive.unique _ _ p (World.mem_held.mpr ⟨cell, rfl, h_cell⟩)
    (World.mem_held.mpr ⟨cell', rfl, h_eq.symm.trans h_cell⟩))

/-- **Whole-pipeline ownership.** After any calls in any order, a slot is acquired and in
exactly one cell of one queue, or free and in none; there are as many acquired slots as
the queues hold messages; and every slot that was released was in use, so none was released
twice. -/
theorem whole_pipeline_ownership {config : Config} {message : Ptr P → TaggedMessage}
    {tr : List (Event P)} {w : World P cap}
    (h : (machine P cap).Reach (World.init config message) tr w) :
    (∀ p, ((w.mem.pool.slots p).state = 1 ∧ ∃! cell, w.mem.cell cell = some p) ∨
        ((w.mem.pool.slots p).state = 0 ∧ ∀ cell, w.mem.cell cell ≠ some p)) ∧
      (Finset.univ.filter fun p => (w.mem.pool.slots p).state = 1).card =
        (w.mem.queues .market).occupancy + (w.mem.queues .signal).occupancy +
          (w.mem.queues .pending).occupancy + (w.mem.queues .confirm).occupancy ∧
      ∀ tr₁ p tr₂, tr = tr₁ ++ .released p :: tr₂ → Alive (lastAt Event.ptr tr₁ p) := by
  have hI := OwnedInv.reach h
  refine ⟨fun p => ?_, ?_, fun tr₁ p tr₂ h_tr => hI.lives tr₁ (.released p) tr₂ h_tr⟩
  · -- the state is 0 or 1, as nobody writes anything else
    rcases hI.bit p with h_zero | h_one
    · -- a message in a cell would be alive
      refine Or.inr ⟨h_zero, fun cell h_cell => ?_⟩
      have h_live := hI.exclusive.live_of_mem (World.mem_held.mpr ⟨cell, rfl, h_cell⟩)
      exact absurd (h_zero.symm.trans h_live) (by decide)
    · refine Or.inl ⟨h_one, ?_⟩
      -- an acquired slot is in one place, and without a hand the places are the cells
      obtain ⟨place, h_mem, h_unique⟩ := hI.exclusive.existsUnique h_one
      obtain ⟨cell, rfl, h_cell⟩ := World.mem_held.mp h_mem
      refine ⟨cell, h_cell, fun other h_other => ?_⟩
      exact Option.some.inj (h_unique _ (World.mem_held.mpr ⟨other, rfl, h_other⟩))
  · rw [hI.card_eq]
    exact Stage.sum_eq _

/-- An ITCH frame with one order to add. -/
def itchFrame (price : BitVec 32) : List Byte :=
  0 :: 36 :: List.ofFn fun k : Fin 36 => ItchAddOrder.codec.put { price, shares := 100 } k

/-- Two ITCH ticks in frames and two MTBT ticks given to the producer; the second of each
makes a signal, an order and a confirm. -/
def roundTrip : List Action :=
  [.ingestItchFrame (some (itchFrame 10000)), .drainMarket,
    .ingestItchFrame (some (itchFrame 9000)), .pollItch, .pollOuch, .pollGateway,
    .onMtbtTick { token := 111, quantity := 10, price := 250000 },
    .onMtbtTick { token := 111, quantity := 10, price := 240000 }, .pollNnf,
    .pollGateway].map fun op => ⟨op, fun _ => ⟨MPMC.strong, MPMC.strong, 2⟩⟩

/-- After the round trip both slots are acquired and both lie in the confirm queue. -/
theorem whole_pipeline_ownership_roundTrip :
    ∃ (tr : List (Event twoPool)) (w : World twoPool fun _ => Capacity.two),
      (machine twoPool fun _ => Capacity.two).Reach
        (World.init {} fun _ => TaggedMessage.fresh) tr w ∧
      (w.mem.queues .confirm).occupancy = 2 ∧
      (Finset.univ.filter fun p => (w.mem.pool.slots p).state = 1).card =
        (w.mem.queues .market).occupancy + (w.mem.queues .signal).occupancy +
          (w.mem.queues .pending).occupancy + (w.mem.queues .confirm).occupancy := by
  obtain ⟨tr, w, h_reach, h_confirm⟩ := Machine.exists_reach_of_run
    (machine twoPool fun _ => Capacity.two) (World.init {} fun _ => TaggedMessage.fresh)
    roundTrip (fun w _ => decide ((w.mem.queues .confirm).occupancy = 2)) (by decide +kernel)
  exact ⟨tr, w, h_reach, of_decide_eq_true h_confirm, (whole_pipeline_ownership h_reach).2.1⟩

end Trading

end Hft
