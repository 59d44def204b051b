import Mathlib.Algebra.BigOperators.Group.Finset.Sigma
import Mathlib.Algebra.Module.BigOperators
import Mathlib.Data.Fintype.Sigma
import MpmcPipeline.Machine.Ledger
import MpmcPipeline.Mem.Contract

/-!
# Contracts over whole runs

Where every call keeps a contract by itself, the contract holds of any number of workers in any
interleaving of their steps: a record in a queue is one that may lie there and the members stay
what they have to be (`Holds.reach`), a slot becomes free only where its record may be released
(`freed`), and the quantity that members, queues and accounts hold together is that of the start
(`Holds.balance`). Between calls there are no accounts, and so the members tell what is in the
queues (`balance_atRest`).

The second half are the rules for the routines of `Mem/Copies.lean`: a record that is copied out
is the one that was copied in.
-/

namespace Hft

namespace Worker

namespace Contract

variable {P : PoolCapacity} {Q Op : Type*} {σ G : Type} {cap : Q → Capacity} {Id : Type*}
  [AddCommGroup G] {K : Contract Q σ G} {s : System Id P cap σ} {acc : Id → Account P G}
  {message : Ptr P → TaggedMessage} {parts : σ} {tr : List (Id × Event P Q)}

/-- **The contract holds**, with an account for every worker: the members are as agreed, every
message in a queue carries a record its queue may hold, and every worker is where its account says.
-/
structure Holds (K : Contract Q σ G) (s : System Id P cap σ) (acc : Id → Account P G) : Prop where
  members : K.members s.shared.parts
  cell : ∀ c p, s.shared.mem.cell c = some p →
    ∃ x, K.queue c.1 x ∧ (s.shared.mem.pool.load p).Carries x
  under : ∀ i, K.Under s.shared.mem.pool (s.loc i) (acc i)

/-- No worker is in a call. -/
def AtRest (s : System Id P cap σ) : Prop := ∀ i, (s.loc i).code = .done ()

/-- The calls that are started keep the contract. -/
def Admits (K : Contract Q σ G) (ops : Op → Routine P Q σ Unit) (_ : System Id P cap σ)
    (a : Id × Choice Op) : Prop :=
  ∀ op, a.2 = .call op → K.KeptBy (ops op)

/-- What a cell accounts for. -/
def stored (K : Contract Q σ G) (pool : TaggedPool P) (c : Handoff.Cell cap) :
    Option (Ptr P) → G
  | none => 0
  | some p => (pool.load p).decode.elim 0 (K.weight c.1)

/-- What the queues account for. -/
def inQueues [Fintype Q] (K : Contract Q σ G) (mem : Handoff.Shared P cap) : G :=
  ∑ c, K.stored mem.pool c (mem.cell c)

theorem stored_of_carries {pool : TaggedPool P} {c : Handoff.Cell cap} {p : Ptr P} {x : Record}
    (h : (pool.load p).Carries x) : K.stored pool c (some p) = K.weight c.1 x := by
  rw [stored, h.decode_eq]
  rfl

theorem stored_congr {pool pool' : TaggedPool P} {c : Handoff.Cell cap} {v : Option (Ptr P)}
    (h : ∀ p, v = some p → pool'.load p = pool.load p) :
    K.stored pool' c v = K.stored pool c v := by
  cases v with
  | none => rfl
  | some p => rw [stored, stored, h p rfl]

/-- Nobody is in a call, so nothing is owed. -/
theorem Holds.settled (hK : K.Holds s acc) (h_rest : AtRest s) (i : Id) : acc i = .settled := by
  have h_code := h_rest i
  have h_under := hK.under i
  generalize s.loc i = l at h_code h_under
  generalize acc i = g at h_under
  -- inside a command there is something left of the code
  cases h_under with
  | between _ calls h_settles h_right =>
    subst h_code
    exact h_settles
  | _ => cases h_code

theorem Holds.init (h_members : K.members parts) :
    K.Holds (System.init Id cap message parts) fun _ => .settled where
  members := h_members
  cell c p h_c := by
    rw [System.init_cell] at h_c
    cases h_c
  under _ := .between .settled 0 rfl (by simp [Account.Right, Account.settled])

section

variable [DecidableEq Id] [DecidableEq Q] {ops : Op → Routine P Q σ Unit} {i : Id}
  {ch : Choice Op} {sh : Shared P cap σ} {l : Local P cap σ} {es : List (Event P Q)}

omit [AddCommGroup G] [DecidableEq Id] in
/-- A step leaves the messages that its worker does not own. -/
theorem load_frame (h : Worker.step ops s.shared (s.loc i) ch = some (sh, l, es)) {p : Ptr P}
    (h_p : p ∉ (s.loc i).base.owned) : sh.mem.pool.load p = s.shared.mem.pool.load p := by
  rw [step_replay i h p, step_writes i h h_p]
  rfl

omit [AddCommGroup G] [DecidableEq Id] [DecidableEq Q] in
/-- Nobody owns a message in a cell. -/
theorem not_owned_of_cell
    (hE : Exclusive (Handoff.held s.base) fun p => (s.shared.mem.pool.slots p).state = 1)
    {c : Handoff.Cell cap} {p : Ptr P} (h_c : s.shared.mem.cell c = some p) (i : Id) :
    p ∉ (s.loc i).base.owned := fun h_own => by
  -- it would be in two places
  have h_place : p ∈ Handoff.held s.base (.cell c) := by
    show p ∈ (s.shared.mem.cell c).toList
    rw [h_c]
    exact List.mem_singleton_self p
  exact absurd (hE.unique (.cell c) (.hand i) p h_place h_own) (by simp)

/-- **The rule for a step.** A worker whose calls keep the contract goes on with a new account, and
the accounts of the others still hold. -/
theorem Holds.step (h_ops : ∀ op, ch = .call op → K.KeptBy (ops op))
    (hE : Exclusive (Handoff.held s.base) fun p => (s.shared.mem.pool.slots p).state = 1)
    (hK : K.Holds s acc) (h : Worker.step ops s.shared (s.loc i) ch = some (sh, l, es)) :
    ∃ g, K.Holds (⟨sh, Function.update s.loc i l⟩ : System Id P cap σ) (Function.update acc i g) ∧
      K.Forward s.shared sh l (acc i) g := by
  obtain ⟨g, h_forward⟩ := (hK.under i).step h_ops hK.members hK.cell h
  refine ⟨g, ⟨h_forward.members, fun c p h_c => ?_, fun j => ?_⟩, h_forward⟩
  · -- what is in a cell was there before, or has been put there
    have h_before : s.shared.mem.cell c = some p →
        ∃ x, K.queue c.1 x ∧ (sh.mem.pool.load p).Carries x := fun h_old => by
      rw [load_frame h (not_owned_of_cell hE h_old i)]
      exact hK.cell c p h_old
    dsimp only at h_c
    cases h_forward.shift with
    | keep h_cell _ =>
      rw [h_cell] at h_c
      exact h_before h_c
    | put c' p' x h_x h_queue _ h_cell _ _ =>
      rw [h_cell] at h_c
      by_cases h_eq : c = c'
      · subst h_eq
        rw [Function.update_self] at h_c
        cases h_c
        exact ⟨x, h_queue, h_x⟩
      · rw [Function.update_of_ne h_eq] at h_c
        exact h_before h_c
    | take c' p' x _ _ h_cell _ _ =>
      rw [h_cell] at h_c
      by_cases h_eq : c = c'
      · subst h_eq
        rw [Function.update_self] at h_c
        cases h_c
      · rw [Function.update_of_ne h_eq] at h_c
        exact h_before h_c
  · by_cases h_j : j = i
    · subst h_j
      dsimp only
      rw [Function.update_self, Function.update_self]
      exact h_forward.under
    · -- another worker: the step leaves the messages it owns
      dsimp only
      rw [Function.update_of_ne h_j, Function.update_of_ne h_j]
      refine (hK.under j).congr fun p h_own => load_frame h fun h_own' => h_j ?_
      have := hE.unique (.hand j) (.hand i) p h_own h_own'
      simpa using this

/-- **The contract holds over every run** in which only calls are made that keep it, whatever the
interleaving of their steps. -/
theorem Holds.reach (h_members : K.members parts)
    (h : (machine Id P cap ops).ReachBy (K.Admits ops) (System.init Id cap message parts) tr s) :
    ∃ acc, K.Holds s acc := by
  induction h with
  | init => exact ⟨_, .init h_members⟩
  | @step tr s s' a es h_reach h_admits h_step ih =>
    obtain ⟨acc, hK⟩ := ih
    obtain ⟨sh, l, es, h_own, rfl, rfl⟩ := Threads.machine_step h_step
    obtain ⟨g, hK', -⟩ := hK.step h_admits (exclusive (h_reach.mono fun _ _ _ => trivial)) h_own
    exact ⟨_, hK'⟩

/-- **What becomes free.** In a run, a slot is given back only with a record in it that may be
released. -/
theorem freed (h_members : K.members parts)
    (h : (machine Id P cap ops).ReachBy (K.Admits ops) (System.init Id cap message parts) tr s)
    {a : Id × Choice Op} {s' : System Id P cap σ} {es : List (Id × Event P Q)}
    (h_admits : K.Admits ops s a) (h_step : (machine Id P cap ops).step s a = some (s', es))
    {p : Ptr P} (h_live : (s.shared.mem.pool.slots p).state = 1)
    (h_free : (s'.shared.mem.pool.slots p).state ≠ 1) :
    ∃ x, K.discard x ∧ (s.shared.mem.pool.load p).Carries x := by
  obtain ⟨acc, hK⟩ := Holds.reach h_members h
  obtain ⟨sh, l, es, h_own, rfl, rfl⟩ := Threads.machine_step h_step
  obtain ⟨g, -, h_forward⟩ := hK.step h_admits (exclusive (h.mono fun _ _ _ => trivial)) h_own
  exact h_forward.freed p h_live h_free

/-! ### Quantities -/

section

variable [Fintype Id] [Fintype Q]

/-- What members, queues and accounts hold together. -/
def total (K : Contract Q σ G) (s : System Id P cap σ) (acc : Id → Account P G) : G :=
  K.value s.shared.parts + K.inQueues s.shared.mem + ∑ i, (acc i).due

omit [DecidableEq Id] in
/-- One cell changes, and the messages in the others stay. -/
theorem inQueues_update {mem mem' : Handoff.Shared P cap} {c : Handoff.Cell cap}
    {v : Option (Ptr P)} (h_cell : mem'.cell = Function.update mem.cell c v)
    (h_load : ∀ c' p, c' ≠ c → mem.cell c' = some p → mem'.pool.load p = mem.pool.load p) :
    K.inQueues mem' + K.stored mem.pool c (mem.cell c) =
      K.inQueues mem + K.stored mem'.pool c v := by
  -- cell `c` apart from the sum over the other cells
  rw [inQueues, inQueues, ← Finset.add_sum_erase Finset.univ _ (Finset.mem_univ c),
    ← Finset.add_sum_erase Finset.univ (fun c => K.stored mem.pool c (mem.cell c))
      (Finset.mem_univ c)]
  have h_rest : ∑ c' ∈ Finset.univ.erase c, K.stored mem'.pool c' (mem'.cell c') =
      ∑ c' ∈ Finset.univ.erase c, K.stored mem.pool c' (mem.cell c') := by
    refine Finset.sum_congr rfl fun c' h_c' => ?_
    have h_ne : c' ≠ c := Finset.ne_of_mem_erase h_c'
    rw [h_cell, Function.update_of_ne h_ne]
    exact stored_congr fun p h_p => h_load c' p h_ne h_p
  rw [h_rest, h_cell, Function.update_self]
  abel

omit [DecidableEq Id] [DecidableEq Q] in
/-- No cell changes, nor a message in one. -/
theorem inQueues_same {mem mem' : Handoff.Shared P cap} (h_cell : mem'.cell = mem.cell)
    (h_load : ∀ c p, mem.cell c = some p → mem'.pool.load p = mem.pool.load p) :
    K.inQueues mem' = K.inQueues mem := by
  refine Finset.sum_congr rfl fun c _ => ?_
  rw [h_cell]
  exact stored_congr fun p h_p => h_load c p h_p

omit [DecidableEq Id] [Fintype Id] in
/-- A shift moves what it takes from one to the other. -/
theorem Shift.balance {sh' : Shared P cap σ} {g g' : Account P G}
    (h : K.Shift sh sh' g g')
    (h_load : ∀ c p, sh.mem.cell c = some p → sh'.mem.pool.load p = sh.mem.pool.load p) :
    K.value sh'.parts + K.inQueues sh'.mem + g'.due =
      K.value sh.parts + K.inQueues sh.mem + g.due := by
  cases h with
  | keep h_cell h_due =>
    rw [inQueues_same h_cell h_load, add_right_comm, h_due, add_right_comm]
  | put c p x h_x _ h_empty h_cell h_parts h_due =>
    -- the cell accounts for what the call has owed
    have h_sum := inQueues_update (K := K) h_cell fun c' p' _ h_p' => h_load c' p' h_p'
    rw [h_empty, stored_of_carries h_x, stored, add_zero] at h_sum
    rw [h_sum, h_parts, ← h_due]
    abel
  | take c p x h_x h_full h_cell h_parts h_due =>
    -- and the call owes what the cell has accounted for
    have h_sum := inQueues_update (K := K) h_cell fun c' p' _ h_p' => h_load c' p' h_p'
    rw [h_full, stored_of_carries h_x, stored, add_zero] at h_sum
    rw [← h_sum, h_parts, h_due]
    abel

/-- **Conservation.** Over every run, members, queues and accounts hold together what the
members held at the start. -/
theorem Holds.balance (h_members : K.members parts)
    (h : (machine Id P cap ops).ReachBy (K.Admits ops) (System.init Id cap message parts) tr s) :
    ∃ acc, K.Holds s acc ∧ K.total s acc = K.value parts := by
  induction h with
  | init =>
    refine ⟨_, .init h_members, ?_⟩
    have h_none : K.inQueues (System.init Id cap message parts).shared.mem = 0 :=
      Finset.sum_eq_zero fun c _ => by rw [System.init_cell, stored]
    have h_due : ∑ _i : Id, (Account.settled : Account P G).due = 0 := Finset.sum_const_zero
    rw [total, h_none, h_due, add_zero, add_zero]
    rfl
  | @step tr s s' a es h_reach h_admits h_step ih =>
    obtain ⟨acc, hK, h_total⟩ := ih
    obtain ⟨sh, l, es, h_own, rfl, rfl⟩ := Threads.machine_step h_step
    have hE := exclusive (h_reach.mono fun _ _ _ => trivial)
    obtain ⟨g, hK', h_forward⟩ := hK.step h_admits hE h_own
    refine ⟨_, hK', ?_⟩
    -- only the account of the moving worker changes
    obtain ⟨rest, h_before, h_after⟩ := Finset.exists_rest Account.due acc a.1
    have h_shift := h_forward.shift.balance fun c p h_c =>
      load_frame h_own (not_owned_of_cell hE h_c a.1)
    rw [← h_total, total, total, h_after, h_before, ← add_assoc, ← add_assoc]
    exact congrArg (· + rest) h_shift

/-- **Between calls** the members tell what is in the queues: what they have accounted for since the
start is the sum of the weights of the queued messages. -/
theorem balance_atRest (h_members : K.members parts)
    (h : (machine Id P cap ops).ReachBy (K.Admits ops) (System.init Id cap message parts) tr s)
    (h_rest : AtRest s) :
    K.value s.shared.parts + K.inQueues s.shared.mem = K.value parts := by
  obtain ⟨acc, hK, h_total⟩ := Holds.balance h_members h
  have h_due : ∑ i, (acc i).due = 0 :=
    Finset.sum_eq_zero fun i _ => congrArg Account.due (hK.settled h_rest i)
  rw [total, h_due, add_zero] at h_total
  exact h_total

end

end

/-- Where a record counts by its queue alone, a queue accounts for its occupancy. -/
theorem Holds.inQueues_eq [Fintype Q] (hK : K.Holds s acc) (count : Q → G)
    (h_count : ∀ q x, K.weight q x = count q) :
    K.inQueues s.shared.mem = ∑ q, (s.shared.mem.queues q).occupancy • count q := by
  -- the sum over all cells, a queue at a time
  rw [inQueues, Fintype.sum_sigma]
  refine Finset.sum_congr rfl fun q _ => ?_
  rw [MPMC.occupancy_eq_sum, Finset.sum_smul]
  refine Finset.sum_congr rfl fun slot _ => ?_
  cases h_cell : s.shared.mem.cell ⟨q, slot⟩ with
  | none =>
    -- an empty cell counts nothing on either side
    have h_ring : (s.shared.mem.queues q).ring slot = none := h_cell
    rw [h_ring]
    exact (zero_nsmul _).symm
  | some p =>
    -- the message in a full cell is weighed by its queue
    obtain ⟨x, -, h_x⟩ := hK.cell _ p h_cell
    have h_ring : (s.shared.mem.queues q).ring slot = some p := h_cell
    rw [h_ring, stored_of_carries h_x, h_count]
    exact (one_nsmul _).symm

/-! ### Rules for the routines -/

section

variable {p : Ptr P} {kind : Kind} {x : Record} {c : Content} {due : G} {g : Account P G}

theorem wp_own {update : σ → σ} {post : σ → Account P G → Prop}
    (h : ∀ parts, K.members parts → K.members (update parts) ∧
      post parts ⟨g.message, g.due + K.value parts - K.value (update parts)⟩) :
    (own update : Routine P Q σ σ).wp K.rules g post := h

theorem wp_acquire {post : Option (Ptr P) → Account P G → Prop} (h_none : post none ⟨none, due⟩)
    (h_some : ∀ p, post (some p) ⟨some (p, .raw), due⟩) :
    (acquire : Routine P Q σ (Option (Ptr P))).wp K.rules ⟨none, due⟩ post :=
  ⟨rfl, h_none, h_some⟩

theorem wp_tryPop {q : Q} {post : Option (Ptr P) → Account P G → Prop}
    (h_none : post none ⟨none, due⟩)
    (h_some : ∀ p x, K.queue q x → post (some p) ⟨some (p, .holds x), due + K.weight q x⟩) :
    (tryPop q : Routine P Q σ (Option (Ptr P))).wp K.rules ⟨none, due⟩ post :=
  ⟨rfl, h_none, h_some⟩

theorem wp_readKind {post : Kind → Account P G → Prop}
    (h : post x.kind ⟨some (p, .holds x), due⟩) :
    (readKind p : Routine P Q σ Kind).wp K.rules ⟨some (p, .holds x), due⟩ post := ⟨x, rfl, h⟩

theorem wp_push {q : Q} {post : Unit → Account P G → Prop} (x : Record) (h_is : c.Is x)
    (h_queue : K.queue q x) (h : post () ⟨none, due - K.weight q x⟩) :
    (push q p : Routine P Q σ Unit).wp K.rules ⟨some (p, c), due⟩ post :=
  ⟨c, x, rfl, h_is, h_queue, h⟩

theorem wp_release {post : Unit → Account P G → Prop} (h_discard : K.discard x)
    (h : post () ⟨none, due⟩) :
    (release p : Routine P Q σ Unit).wp K.rules ⟨some (p, .holds x), due⟩ post :=
  ⟨x, rfl, h_discard, h⟩

theorem wp_readBytes (left k : ℕ) {post : List Byte → Account P G → Prop}
    (h_left : k + left ≤ x.kind.slotSize)
    (h : post ((List.range' k left).map x.byte) ⟨some (p, .holds x), due⟩) :
    (readBytes p left k : Routine P Q σ (List Byte)).wp K.rules ⟨some (p, .holds x), due⟩ post := by
  induction left generalizing k post with
  | zero => exact h
  | succ left ih =>
    refine ⟨x, rfl, by omega, ?_⟩
    show (readBytes p left (k + 1) >>= _).wp K.rules _ _
    rw [Program.wp_bind]
    exact ih (k + 1) (by omega) h

/-- **Copying out** a value of the record's size gives the value whose bytes the record has. -/
theorem wp_copyOut {α : Type} {A : Codec α} (a : α) {post : α → Account P G → Prop}
    (h_byte : x.byte = A.put a) (h_size : A.size ≤ x.kind.slotSize)
    (h : post a ⟨some (p, .holds x), due⟩) :
    (copyOut A p : Routine P Q σ α).wp K.rules ⟨some (p, .holds x), due⟩ post := by
  rw [copyOut, Program.wp_bind]
  refine wp_readBytes A.size 0 (by omega) ?_
  have h_get : (A.get fun k => ((List.range' 0 A.size).map x.byte).getD k 0) = a := by
    refine A.get_of_image fun k h_k => ?_
    rw [List.getD_eq_getElem _ _ (by simpa using h_k), List.getElem_map, List.getElem_range',
      h_byte, one_mul, zero_add]
  show post (A.get _) _
  rw [h_get]
  exact h

theorem wp_writeBytes {post : Unit → Account P G → Prop} (left k : ℕ)
    (h_left : k + left = x.kind.slotSize)
    (h : post () ⟨some (p, .writing x x.kind.slotSize), due⟩) :
    (writeBytes p x.byte left k : Routine P Q σ Unit).wp K.rules ⟨some (p, .writing x k), due⟩
      post := by
  induction left generalizing k with
  | zero =>
    obtain rfl : k = x.kind.slotSize := h_left
    exact h
  | succ left ih =>
    have h_max := x.kind.slotSize_le
    rw [writeBytes, dif_pos (by omega)]
    exact ⟨x, rfl, by dsimp only; omega, rfl, ih (k + 1) (by omega)⟩

/-- **Tag and copy.** The message a worker has in hand is the record once the tag and all bytes of
it are written. -/
theorem wp_fill {α : Type} {A : Codec α} {a : α} {post : Unit → Account P G → Prop} (x : Record)
    (h_kind : x.kind = kind) (h_byte : x.byte = A.put a) (h_size : A.size = kind.slotSize)
    (h : post () ⟨some (p, .writing x x.kind.slotSize), due⟩) :
    (do writeKind p kind; copyIn p A a : Routine P Q σ Unit).wp K.rules ⟨some (p, c), due⟩
      post := by
  refine ⟨c, x, rfl, h_kind, ?_⟩
  show (copyIn p A a).wp K.rules _ _
  rw [copyIn, ← h_byte]
  exact wp_writeBytes _ _ (by rw [h_kind, h_size, Nat.zero_add]) h

theorem wp_fill_bind {α β : Type} {A : Codec α} {a : α} {rest : Routine P Q σ β}
    {post : β → Account P G → Prop} (x : Record) (h_kind : x.kind = kind)
    (h_byte : x.byte = A.put a) (h_size : A.size = kind.slotSize)
    (h : rest.wp K.rules ⟨some (p, .writing x x.kind.slotSize), due⟩ post) :
    (do writeKind p kind; copyIn p A a; rest).wp K.rules ⟨some (p, c), due⟩ post := by
  have h_fill : (do writeKind p kind; copyIn p A a : Routine P Q σ Unit).wp K.rules
      ⟨some (p, c), due⟩ fun _ g => rest.wp K.rules g post :=
    wp_fill x h_kind h_byte h_size h
  simp only [Program.wp_bind] at h_fill ⊢
  exact h_fill

end

end Contract

end Worker

end Hft
