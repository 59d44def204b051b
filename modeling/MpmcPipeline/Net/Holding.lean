import MpmcPipeline.Machine.Exclusive
import MpmcPipeline.Net.Socket

/-!
# Who holds a descriptor

Every open descriptor is with one socket, which has it in `fd_`, or with the thread that is
setting it up, as a local of `open_receiver` or `open_sender`. A `Holding` says where they are,
and `Holding.spec` what a command needs of that: a system call is made on a descriptor that is
held, and a socket gets a descriptor only when it has none. `Holding.Of.exec` says that the
commands then keep the account, which is an instance of `Exclusive`.

A holding is *tidy* between two calls of methods: a socket has what `fd_` says, and no thread has
anything. `wp_close` and `wp_openWith` take one tidy holding to another.

Sockets that another thread uses meanwhile are *frozen*: they are neither opened nor closed.
-/

namespace Hft

namespace Net

variable {κ : Type*} [DecidableEq κ]

/-- What `fd_` of each socket is, and who has which descriptor: a socket, or the thread. -/
structure Holding (κ : Type*) where
  fd : κ → Int
  held : Option κ → List Int

/-- The descriptor that a value of `fd_` names. -/
def named (fd : Int) : List Int := if 0 ≤ fd then [fd] else []

namespace Holding

/-- The sockets as they are constructed. -/
def initial (κ : Type*) : Holding κ := ⟨fun _ => -1, fun _ => []⟩

/-- The thread is given a descriptor, or −1. -/
def take (h : Holding κ) (fd : Int) : Holding κ :=
  { h with held := Function.update h.held none (named fd) }

/-- A descriptor is closed. -/
def drop (h : Holding κ) (place : Option κ) : Holding κ :=
  { h with held := Function.update h.held place [] }

/-- The thread assigns `fd_`, and hands a descriptor over with it. -/
def put (h : Holding κ) (k : κ) (fd : Int) : Holding κ where
  fd := Function.update h.fd k fd
  held :=
    if 0 ≤ fd then Function.update (Function.update h.held none []) (some k) [fd]
    else h.held

section

variable (h : Holding κ) (k : κ) (fd : Int)

@[simp] theorem named_of_nonneg {fd : Int} (h_fd : 0 ≤ fd) : named fd = [fd] := if_pos h_fd

@[simp] theorem named_of_neg {fd : Int} (h_fd : fd < 0) : named fd = [] :=
  if_neg (not_le.mpr h_fd)

@[simp] theorem take_hand : (h.take fd).held none = named fd := by
  simp only [take, Function.update_self]

@[simp] theorem take_socket : (h.take fd).held (some k) = h.held (some k) := by
  simp only [take, Function.update_of_ne (Option.some_ne_none k)]

@[simp] theorem drop_self (place : Option κ) : (h.drop place).held place = [] := by
  simp only [drop, Function.update_self]

theorem drop_of_ne {place place' : Option κ} (h_ne : place' ≠ place) :
    (h.drop place).held place' = h.held place' := by
  simp only [drop, Function.update_of_ne h_ne]

@[simp] theorem put_fd : (h.put k fd).fd k = fd := by
  simp only [put, Function.update_self]

theorem put_fd_of_ne {j : κ} (h_j : j ≠ k) : (h.put k fd).fd j = h.fd j := by
  simp only [put, Function.update_of_ne h_j]

theorem put_held_of_neg {fd : Int} (h_fd : fd < 0) : (h.put k fd).held = h.held :=
  if_neg (not_le.mpr h_fd)

theorem put_hand {fd : Int} (h_fd : 0 ≤ fd) : (h.put k fd).held none = [] := by
  simp only [put, if_pos h_fd, Function.update_of_ne (Option.some_ne_none k).symm,
    Function.update_self]

theorem put_socket {fd : Int} (h_fd : 0 ≤ fd) : (h.put k fd).held (some k) = [fd] := by
  simp only [put, if_pos h_fd, Function.update_self]

theorem put_socket_of_ne {j : κ} (h_j : j ≠ k) : (h.put k fd).held (some j) = h.held (some j) := by
  have h_some : some j ≠ some k := fun h_eq => h_j (Option.some.inj h_eq)
  by_cases h_fd : 0 ≤ fd
  · simp only [put, if_pos h_fd, Function.update_of_ne h_some,
      Function.update_of_ne (Option.some_ne_none j)]
  · rw [put_held_of_neg h k (not_le.mp h_fd)]

end

/-- A descriptor is held. -/
def Holds (h : Holding κ) (fd : Int) : Prop := ∃ place, fd ∈ h.held place

/-- What a command needs and leads to. -/
def spec (frozen : κ → Prop) : Program.Spec (Sys κ) Sys.Answer (Holding κ)
  | h, .fd k, post => post (h.fd k) h
  | h, .setFd k fd, post =>
    ¬frozen k ∧ h.held (some k) = [] ∧ (0 ≤ fd → h.held none = [fd]) ∧ post () (h.put k fd)
  | h, .endpoint _, post => ∀ endpoint, post endpoint h
  | h, .setEndpoint _ _, post => post () h
  | h, .socket, post => h.held none = [] ∧ ∀ fd, post fd (h.take fd)
  | h, .setsockopt fd _, post | h, .bind fd _ _, post => h.Holds fd ∧ ∀ ok, post ok h
  | h, .recvfrom k fd _, post =>
    (h.fd k = fd ∧ h.Holds fd) ∧ ∀ received, post received h
  | h, .sendto k fd _ _ _, post => (h.fd k = fd ∧ h.Holds fd) ∧ ∀ sent, post sent h
  | h, .close fd, post =>
    ∃ place, (∀ k, place = some k → ¬frozen k) ∧ h.held place = [fd] ∧ post () (h.drop place)

theorem spec_mono (frozen : κ → Prop) : (spec frozen).Mono := by
  intro h c post post' h_post
  -- for each command the postcondition stands at the end of the rule
  cases c with
  | fd k | setEndpoint k endpoint => exact h_post _ _
  | setFd k fd =>
    rintro ⟨h_frozen, h_empty, h_hand, h_next⟩
    exact ⟨h_frozen, h_empty, h_hand, h_post _ _ h_next⟩
  | endpoint k => exact fun h_next endpoint => h_post _ _ (h_next endpoint)
  | socket | setsockopt _ _ | bind _ _ _ | recvfrom _ _ _ | sendto _ _ _ _ _ =>
    rintro ⟨h_need, h_next⟩
    exact ⟨h_need, fun r => h_post _ _ (h_next r)⟩
  | close fd =>
    rintro ⟨place, h_frozen, h_place, h_next⟩
    exact ⟨place, h_frozen, h_place, h_post _ _ h_next⟩

/-- The holding of the sockets and of the open descriptors. -/
structure Of (h : Holding κ) (t : Table κ) : Prop where
  fd : ∀ k, (t.socket k).fd = h.fd k
  nodup : t.opened.Nodup
  exclusive : Exclusive h.held (· ∈ t.opened)

omit [DecidableEq κ] in
theorem initial_of : (initial κ).Of (Table.fresh κ) where
  fd := fun _ => rfl
  nodup := List.nodup_nil
  exclusive := Exclusive.empty.congr (fun _ => List.Perm.refl _) fun _ => List.mem_nil_iff _

/-- A system call that is made as it should be is made on an open descriptor. -/
theorem Of.target_opened {h : Holding κ} {t : Table κ} (h_of : h.Of t) {frozen : κ → Prop}
    {c : Sys κ} {post : c.Answer → Holding κ → Prop} (h_spec : spec frozen h c post) {fd : Int}
    (h_fd : c.target = some fd) : fd ∈ t.opened := by
  -- what is accounted for is open
  have h_held : h.Holds fd → fd ∈ t.opened := (h_of.exclusive.live_iff fd).mpr
  cases c with
  | fd _ | setFd _ _ | endpoint _ | setEndpoint _ _ | socket => cases h_fd
  | setsockopt _ _ | bind _ _ _ =>
    cases h_fd
    exact h_held h_spec.1
  | recvfrom _ _ _ | sendto _ _ _ _ _ =>
    cases h_fd
    exact h_held h_spec.1.2
  | close d =>
    -- a descriptor is closed out of a place it is in
    cases h_fd
    obtain ⟨place, -, h_place, -⟩ := h_spec
    exact h_held ⟨place, by rw [h_place]; exact List.mem_singleton_self _⟩

section

variable {h : Holding κ} {t t' : Table κ} {frozen : κ → Prop}

/-- Nothing has been given. -/
theorem take_of_neg (h_empty : h.held none = []) {fd : Int} (h_fd : fd < 0) :
    h.take fd = h := by
  rw [take, named_of_neg h_fd, ← h_empty, Function.update_eq_self]

theorem Of.socket_given (h_of : h.Of t) (h_empty : h.held none = []) {fd : Int}
    (h_fd : 0 ≤ fd) (h_new : fd ∉ t.opened) :
    (h.take fd).Of { t with opened := fd :: t.opened } where
  fd := h_of.fd
  nodup := List.nodup_cons.mpr ⟨h_new, h_of.nodup⟩
  exclusive := by
    refine h_of.exclusive.claim (a := none) h_new ?_ (fun place h_place => ?_)
      fun u => List.mem_cons
    · rw [take_hand, named_of_nonneg h_fd, h_empty]
    · cases place with
      | none => exact absurd rfl h_place
      | some k => rw [take_socket]

theorem Of.socket_failed (h_of : h.Of t) (h_empty : h.held none = []) {fd : Int}
    (h_fd : fd < 0) : (h.take fd).Of t := by
  rw [take_of_neg h_empty h_fd]
  exact h_of

theorem Of.closed (h_of : h.Of t) {place : Option κ} {fd : Int} (h_place : h.held place = [fd]) :
    (h.drop place).Of { t with opened := t.opened.erase fd } where
  fd := h_of.fd
  nodup := h_of.nodup.erase fd
  exclusive := by
    refine h_of.exclusive.free (a := place) (t := fd) ?_ (fun place' h_ne => ?_)
      fun u => h_of.nodup.mem_erase_iff
    · rw [drop_self, h_place]
    · rw [drop_of_ne h h_ne]

theorem Of.assigned (h_of : h.Of t) {k : κ} {fd : Int} (h_empty : h.held (some k) = [])
    (h_hand : 0 ≤ fd → h.held none = [fd]) :
    (h.put k fd).Of
      { t with socket := Function.update t.socket k { t.socket k with fd } } where
  fd k' := by
    by_cases h_k : k' = k
    · subst h_k
      simp only [put_fd, Function.update_self]
    · simp only [put_fd_of_ne h k fd h_k, Function.update_of_ne h_k]
      exact h_of.fd k'
  nodup := h_of.nodup
  exclusive := by
    by_cases h_fd : 0 ≤ fd
    · -- the descriptor moves from the thread to the socket
      refine h_of.exclusive.move (a := none) (b := some k) (t := fd)
        (Option.some_ne_none k).symm ?_ ?_ (fun place h_none h_some => ?_) fun _ => Iff.rfl
      · rw [put_hand h k h_fd, h_hand h_fd]
      · rw [put_socket h k h_fd, h_empty]
      · cases place with
        | none => exact absurd rfl h_none
        | some j => rw [put_socket_of_ne h k fd fun h_j => h_some (congrArg some h_j)]
    · rw [put_held_of_neg h k (not_le.mp h_fd)]
      exact h_of.exclusive

/-- **The commands keep the account.** A command made as the rules want it, answered in any way the
system can answer, leaves an account of the new table that the postcondition speaks of. -/
theorem Of.exec (h_of : h.Of t) {c : Sys κ} {post : c.Answer → Holding κ → Prop}
    (h_spec : spec frozen h c post) {reply : Reply} {r : c.Answer}
    (h_exec : t.exec reply c = some (t', r)) : ∃ h', h'.Of t' ∧ post r h' := by
  cases c with
  | fd k =>
    cases h_exec
    refine ⟨h, h_of, ?_⟩
    rw [h_of.fd k]
    exact h_spec
  | setFd k fd =>
    -- from the hand into `fd_`
    cases h_exec
    obtain ⟨-, h_empty, h_hand, h_post⟩ := h_spec
    exact ⟨h.put k fd, h_of.assigned h_empty h_hand, h_post⟩
  | endpoint k =>
    cases h_exec
    exact ⟨h, h_of, h_spec _⟩
  | setEndpoint k endpoint =>
    cases h_exec
    -- the endpoint of a socket is no descriptor
    refine ⟨h, ⟨fun k' => ?_, h_of.nodup, h_of.exclusive⟩, h_spec⟩
    rw [← h_of.fd k']
    by_cases h_k : k' = k
    · subst h_k
      simp only [Function.update_self]
    · simp only [Function.update_of_ne h_k]
  | socket =>
    obtain ⟨h_empty, h_post⟩ := h_spec
    simp only [Table.exec] at h_exec
    split at h_exec
    · -- `socket` has failed, and the hand holds nothing
      next h_fd =>
      cases h_exec
      exact ⟨_, h_of.socket_failed h_empty h_fd, h_post _⟩
    · next h_fd =>
      -- or it has given a new descriptor, now in the hand
      split at h_exec
      · cases h_exec
      · next h_new =>
        cases h_exec
        exact ⟨_, h_of.socket_given h_empty (not_lt.mp h_fd) h_new, h_post _⟩
  | setsockopt _ _ | bind _ _ _ | sendto _ _ _ _ _ =>
    cases h_exec
    exact ⟨h, h_of, h_spec.2 _⟩
  | recvfrom k fd capacity =>
    simp only [Table.exec] at h_exec
    split at h_exec
    · cases h_exec
      exact ⟨h, h_of, h_spec.2 _⟩
    · cases h_exec
  | close fd =>
    -- the descriptor leaves the place it was in
    cases h_exec
    obtain ⟨place, -, h_place, h_post⟩ := h_spec
    exact ⟨_, h_of.closed h_place, h_post⟩

/-- A command leaves `fd_` of a frozen socket as it is. -/
theorem spec_frozen {c : Sys κ} {post : c.Answer → Holding κ → Prop}
    (h_spec : spec frozen h c post) {k : κ} (h_k : frozen k) :
    spec frozen h c fun r h' =>
      post r h' ∧ h'.fd k = h.fd k ∧ h'.held (some k) = h.held (some k) := by
  cases c with
  | fd _ | setEndpoint _ _ => exact ⟨h_spec, rfl, rfl⟩
  | endpoint _ => exact fun endpoint => ⟨h_spec endpoint, rfl, rfl⟩
  | socket => exact ⟨h_spec.1, fun fd => ⟨h_spec.2 fd, rfl, take_socket h k fd⟩⟩
  | setsockopt _ _ | bind _ _ _ | recvfrom _ _ _ | sendto _ _ _ _ _ =>
    exact ⟨h_spec.1, fun r => ⟨h_spec.2 r, rfl, rfl⟩⟩
  | setFd k' fd =>
    -- the socket assigned to is not a frozen one
    obtain ⟨h_frozen, h_empty, h_hand, h_post⟩ := h_spec
    have h_ne : k ≠ k' := fun h_eq => h_frozen (h_eq ▸ h_k)
    exact ⟨h_frozen, h_empty, h_hand, h_post, put_fd_of_ne h k' fd h_ne,
      put_socket_of_ne h k' fd h_ne⟩
  | close fd =>
    -- nor is the place that is emptied
    obtain ⟨place, h_frozen, h_place, h_post⟩ := h_spec
    exact ⟨place, h_frozen, h_place, h_post, rfl,
      drop_of_ne h fun h_eq => h_frozen k h_eq.symm h_k⟩

end

/-! ### The methods -/

/-- Between two calls: sockets have what `fd_` says, and the thread has nothing. -/
structure Tidy (h : Holding κ) : Prop where
  sockets : ∀ k, h.held (some k) = named (h.fd k)
  hand : h.held none = []

/-- Only the socket `k` has changed. -/
def Elsewhere (k : κ) (h h' : Holding κ) : Prop := ∀ j, j ≠ k → h'.fd j = h.fd j

omit [DecidableEq κ] in
theorem initial_tidy : (initial κ).Tidy := ⟨fun _ => rfl, rfl⟩

variable {h : Holding κ} {frozen : κ → Prop} {k : κ}

/-- `close` leaves the socket without a descriptor. -/
theorem wp_close {post : Unit → Holding κ → Prop} (h_tidy : h.Tidy) (h_frozen : ¬frozen k)
    (h_post : ∀ h', h'.Tidy → h'.fd k < 0 → Elsewhere k h h' → post () h') :
    (Code.close k).wp (spec frozen) h post := by
  rw [Code.close, Program.wp_bind]
  show Program.wp _ (if 0 ≤ h.fd k then _ else _) _ _
  split
  · next h_fd =>
    -- the descriptor is closed, and then `fd_` is assigned
    have h_held : h.held (some k) = [h.fd k] := by rw [h_tidy.sockets, named_of_nonneg h_fd]
    have h_neg : (-1 : Int) < 0 := by decide
    refine ⟨some k, fun j h_j => Option.some.inj h_j ▸ h_frozen, h_held, ?_⟩
    refine ⟨h_frozen, drop_self h (some k), fun h_pos => absurd h_neg (not_lt.mpr h_pos),
      h_post _ ⟨fun j => ?_, ?_⟩ ?_ fun j h_j => ?_⟩
    · rw [put_held_of_neg _ _ h_neg]
      by_cases h_j : j = k
      · subst h_j
        rw [drop_self, put_fd, named_of_neg h_neg]
      · rw [drop_of_ne h fun h_eq => h_j (Option.some.inj h_eq), put_fd_of_ne _ _ _ h_j]
        exact h_tidy.sockets j
    · rw [put_held_of_neg _ _ h_neg, drop_of_ne h (Option.some_ne_none k).symm]
      exact h_tidy.hand
    · rw [put_fd]
      exact h_neg
    · exact put_fd_of_ne _ _ _ h_j
  · next h_fd => exact h_post h h_tidy (not_le.mp h_fd) fun _ _ => rfl

/-- A call on a descriptor that is held tells nothing. -/
theorem answers_setsockopt {fd : Int} (h_fd : h.Holds fd) (option : SocketOption) :
    (Code.setsockopt fd option).Answers (spec frozen) h fun _ => True :=
  fun _ h_post => ⟨h_fd, fun ok => h_post ok trivial⟩

theorem answers_bind {fd : Int} (h_fd : h.Holds fd) (address : BitVec 32) (port : BitVec 16) :
    (Code.bind fd address port).Answers (spec frozen) h fun _ => True :=
  fun _ h_post => ⟨h_fd, fun ok => h_post ok trivial⟩

theorem answers_joinGroup {inetPton : String → Option (BitVec 32)} {fd : Int} (h_fd : h.Holds fd)
    (group : Option String) (loopback : Bool) :
    (Code.joinGroup inetPton fd group loopback).Answers (spec frozen) h fun _ => True := by
  intro post h_post
  rw [Code.joinGroup]
  split
  · exact h_post false trivial
  · exact answers_setsockopt h_fd _ post h_post

/-- `open_receiver` and `open_sender` leave the socket with a descriptor when they return `true`,
and without one when they return `false`. -/
theorem wp_openWith {endpoint : MulticastEndpoint} {setUp : Int → List (SysCode κ Bool)}
    {post : Bool → Holding κ → Prop} (h_tidy : h.Tidy) (h_frozen : ¬frozen k)
    (h_setUp : ∀ fd h', h'.Holds fd →
      ∀ p ∈ setUp fd, p.Answers (spec frozen) h' fun _ => True)
    (h_post : ∀ r h', h'.Tidy → (r = true ↔ 0 ≤ h'.fd k) → Elsewhere k h h' → post r h') :
    (Code.openWith k endpoint setUp).wp (spec frozen) h post := by
  rw [Code.openWith, Program.wp_bind]
  refine wp_close h_tidy h_frozen fun h₁ h_tidy₁ h_fd₁ h_else => ?_
  rw [Program.wp_bind]
  dsimp only [Code.setEndpoint, Program.perform, Program.wp, spec]
  rw [Program.wp_bind]
  refine ⟨h_tidy₁.hand, fun (fd : Int) => ?_⟩
  show Program.wp _ (if fd < 0 then _ else _) _ _
  split
  · next h_fd =>
    -- there is no descriptor
    rw [take_of_neg h_tidy₁.hand h_fd]
    exact h_post false h₁ h_tidy₁ (by simpa using h_fd₁) h_else
  · next h_fd =>
    have h_pos := not_lt.mp h_fd
    have h_hand : (h₁.take fd).held none = [fd] := by rw [take_hand, named_of_nonneg h_pos]
    have h_holds : (h₁.take fd).Holds fd :=
      ⟨none, by rw [h_hand]; exact List.mem_singleton_self fd⟩
    rw [Program.wp_bind]
    refine Program.Answers.allOf trivial (h_setUp fd _ h_holds) _ fun r _ => ?_
    cases r with
    | true =>
      -- the socket takes it over
      show Program.wp _ (Code.setFd k fd >>= _) _ _
      rw [Program.wp_bind]
      refine ⟨h_frozen, ?_, fun _ => h_hand, ?_⟩
      · rw [take_socket, h_tidy₁.sockets, named_of_neg h_fd₁]
      · refine h_post true _ ⟨fun j => ?_, put_hand _ _ h_pos⟩ ?_ fun j h_j => ?_
        · by_cases h_j : j = k
          · subst h_j
            rw [put_socket _ _ h_pos, put_fd, named_of_nonneg h_pos]
          · rw [put_socket_of_ne _ _ _ h_j, take_socket, put_fd_of_ne _ _ _ h_j]
            exact h_tidy₁.sockets j
        · rw [put_fd]
          exact iff_of_true rfl h_pos
        · exact (put_fd_of_ne _ _ _ h_j).trans (h_else j h_j)
    | false =>
      -- it is given back
      show Program.wp _ (Code.sysClose fd >>= _) _ _
      rw [Program.wp_bind]
      refine ⟨none, nofun, h_hand, h_post false _ ⟨fun j => ?_, drop_self _ _⟩ ?_ h_else⟩
      · rw [drop_of_ne _ (Option.some_ne_none j), take_socket]
        exact h_tidy₁.sockets j
      · exact iff_of_false Bool.false_ne_true (not_le.mpr h_fd₁)

/-- `recv` uses the descriptor of the socket. -/
theorem wp_recv {capacity : ℕ} {post : Option (List Byte) → Holding κ → Prop} (h_tidy : h.Tidy)
    (h_post : ∀ received, post received h) :
    (Code.recv k capacity).wp (spec frozen) h post := by
  rw [Code.recv, Program.wp_bind]
  show Program.wp _ (if h.fd k < 0 ∨ capacity = 0 then _ else _) _ _
  split
  · exact h_post none
  · next h_if =>
    refine ⟨⟨rfl, some k, ?_⟩, h_post⟩
    rw [h_tidy.sockets, named_of_nonneg (not_lt.mp fun h_fd => h_if (Or.inl h_fd))]
    exact List.mem_singleton_self _

/-- So does `send`. -/
theorem wp_send {inetPton : String → Option (BitVec 32)} {buffer : List Byte}
    {post : Option ℕ → Holding κ → Prop} (h_tidy : h.Tidy) (h_post : ∀ sent, post sent h) :
    (Code.send inetPton k buffer).wp (spec frozen) h post := by
  rw [Code.send, Program.wp_bind]
  dsimp only [Code.fd, Program.perform, Program.wp, spec]
  rw [Program.wp_bind]
  intro (endpoint : MulticastEndpoint)
  show Program.wp _ (if h.fd k < 0 ∨ _ then _ else _) _ _
  split
  · -- no descriptor or no payload
    exact h_post none
  · next h_if =>
    split
    · -- no address
      exact h_post none
    · -- a socket that is open has its descriptor in its place
      refine ⟨⟨rfl, some k, ?_⟩, h_post⟩
      rw [h_tidy.sockets, named_of_nonneg (not_lt.mp fun h_fd => h_if (Or.inl h_fd))]
      exact List.mem_singleton_self _

end Holding

end Net

end Hft
