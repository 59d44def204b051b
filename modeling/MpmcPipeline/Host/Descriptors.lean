import MpmcPipeline.Host.Process
import MpmcPipeline.Net.Holding

/-!
# The descriptors of the process

The six sockets open and close descriptors in `main`, and the hub's thread polls three of them
and receives on them, while it also keeps copies of them in an array of its own. Whatever the
operating system answers and however the threads interleave, every system call is made on a
descriptor that is open, each descriptor is closed once, and when `main` is through none is left
(`descriptors_sound` in `Host/Lifecycle.lean`).

The proof is an outline over `Net/Holding.lean`. `main` knows who holds which descriptor, and that
the hub's sockets are frozen as long as the hub's thread may be there; the thread knows what
`fd_` of its sockets is.
-/

namespace Hft

namespace Host

open Net (Holding Sys SysCode)
open Parallel.Outline (After)

/-- What a thread knows. -/
structure Custody where
  /-- `main`: who holds which descriptor. -/
  holding : Holding Socket
  /-- `main`: the hub's thread may be there. -/
  up : Bool
  /-- The hub's thread: it is inside. -/
  inside : Bool
  /-- The hub's thread: `fd_` of its sockets. -/
  fds : MulticastChannel → Int

/-- The sockets of the hub are frozen while its thread may be there. -/
def Custody.frozen (K : Custody) (k : Socket) : Prop := K.up = true ∧ ∃ c, k = .hub c

/-- What `main` needs for a command and knows after it. -/
def Custody.mainSpec : Program.Spec Cmd Cmd.Answer Custody
  | K, .net c, post => Holding.spec K.frozen K.holding c fun r holding => post r { K with holding }
  | K, .spawn, post =>
    K.up = false ∧ (∀ c, 0 ≤ K.holding.fd (.hub c) ∧
      K.holding.held (some (.hub c)) = [K.holding.fd (.hub c)]) ∧ post () { K with up := true }
  | K, .join, post => post () { K with up := false }
  | _, .poll _, _ | _, .loop _, _ | _, .exit, _ | _, .loadRunning, _ | _, .count _, _ => False
  | K, .datagrams _, post => ∀ n, post n K
  | K, .storeRunning _, post | K, .setInlet _, post | K, .publish _, post | K, .returned, post
  | K, .await, post | K, .stopReader, post | K, .joinReader, post | K, .startReader, post
  | K, .unmap, post => post () K

/-- What the hub's thread needs for a command and knows after it. -/
def Custody.hubSpec : Program.Spec Cmd Cmd.Answer Custody
  | K, .net (.fd k), post => K.inside = true ∧ ∃ c, k = .hub c ∧ post (K.fds c) K
  | K, .net (.recvfrom k fd _), post =>
    K.inside = true ∧ (∃ c, k = .hub c ∧ fd = K.fds c) ∧ ∀ received, post received K
  | K, .poll descriptors, post =>
    K.inside = true ∧ descriptors = K.fds ∧ ∀ ready, post ready K
  | K, .loop descriptors, post => K.inside = true ∧ descriptors = K.fds ∧ post () K
  | K, .exit, post => K.inside = true ∧ post () { K with inside := false }
  | K, .loadRunning, post => ∀ running, post running K
  | K, .count _, post | K, .publish _, post | K, .returned, post | K, .await, post => post () K
  | _, .net _, _ | _, .spawn, _ | _, .join, _ | _, .storeRunning _, _ | _, .setInlet _, _
  | _, .datagrams _, _ | _, .stopReader, _ | _, .joinReader, _ | _, .startReader, _
  | _, .unmap, _ => False

/-- What the threads know is so. -/
structure Custody.Inv (s : Process) (K : Party → Custody) : Prop where
  table : (K .main).holding.Of s.table
  present : s.thread ≠ .absent → (K .main).up = true
  opened : (K .main).up = true → ∀ c, 0 ≤ (K .main).holding.fd (.hub c) ∧
    (K .main).holding.held (some (.hub c)) = [(K .main).holding.fd (.hub c)]
  inside : (K .hub).inside = true →
    (s.thread = .started ∨ ∃ descriptors, s.thread = .looping descriptors) ∧
    (K .hub).fds = fun c => (K .main).holding.fd (.hub c)
  looping : ∀ descriptors, s.thread = .looping descriptors →
    descriptors = fun c => (K .main).holding.fd (.hub c)

/-- The outline. When `main` is through, no descriptor is held. -/
def Custody.outline : Parallel.Outline Party Process Event Cmd Custody Cmd.Answer where
  spec
    | .main => mainSpec
    | .hub => hubSpec
  inv _ := Custody.Inv
  rest
    | .main, K => K.holding.Tidy ∧ ∀ k, K.holding.fd k < 0
    | .hub, _ => True

namespace Custody

variable {s s' : Process} {K : Party → Custody} {k : Custody}

@[simp] theorem update_main_main : Function.update K .main k .main = k := Function.update_self ..

@[simp] theorem update_main_hub : Function.update K .main k .hub = K .hub :=
  Function.update_of_ne (by decide) k K

@[simp] theorem update_hub_hub : Function.update K .hub k .hub = k := Function.update_self ..

@[simp] theorem update_hub_main : Function.update K .hub k .main = K .main :=
  Function.update_of_ne (by decide) k K

/-- A step that concerns neither the descriptors nor the hub's thread. -/
theorem Inv.congr (h : Inv s K) (h_table : s'.table = s.table) (h_thread : s'.thread = s.thread) :
    Inv s' K := by
  obtain ⟨table, present, opened, inside, looping⟩ := h
  rw [← h_table] at table
  rw [← h_thread] at present inside looping
  exact ⟨table, present, opened, inside, looping⟩

/-- A thread that is inside has not left. -/
theorem Inv.thread_ne (h : Inv s K) (h_inside : (K .hub).inside = true) :
    s.thread ≠ .absent ∧ s.thread ≠ .exited := by
  rcases (h.inside h_inside).1 with h_thread | ⟨_, h_thread⟩ <;> simp [h_thread]

/-- While the hub's thread is inside, its sockets have open descriptors. -/
theorem Inv.fds_opened (h : Inv s K) (h_inside : (K .hub).inside = true) (c : MulticastChannel) :
    (K .hub).fds c ∈ s.table.opened ∧ (s.table.socket (.hub c)).fd = (K .hub).fds c := by
  obtain ⟨-, h_held⟩ := h.opened (h.present (h.thread_ne h_inside).1) c
  rw [(h.inside h_inside).2, h.table.fd]
  refine ⟨(h.table.exclusive.live_iff _).mpr ⟨some (.hub c), ?_⟩, rfl⟩
  rw [h_held]
  exact List.mem_singleton_self _

/-- `main` makes a system call. -/
theorem Inv.net (h : Inv s K) {c : Sys Socket} {post : c.Answer → Custody → Prop}
    (h_spec : mainSpec (K .main) (.net c) post) {reply : Net.Reply} {table : Net.Table Socket}
    {r : c.Answer} (h_exec : s.table.exec reply c = some (table, r)) :
    ∃ k, Inv { s with table } (Function.update K .main k) ∧ post r k := by
  by_cases h_up : (K .main).up = true
  · -- the hub's sockets stay as they are
    have h_frozen : ∀ c', (K .main).frozen (.hub c') := fun c' => ⟨h_up, c', rfl⟩
    have h_all : Holding.spec (K .main).frozen (K .main).holding c fun r holding =>
        post r { K .main with holding } ∧ ∀ c', holding.fd (.hub c') =
          (K .main).holding.fd (.hub c') ∧ holding.held (some (.hub c')) =
            (K .main).holding.held (some (.hub c')) := by
      have h₁ := Holding.spec_frozen h_spec (h_frozen .itch)
      have h₂ := Holding.spec_frozen h₁ (h_frozen .mtbt)
      have h₃ := Holding.spec_frozen h₂ (h_frozen .mcx)
      refine Holding.spec_mono _ _ _ _ _ ?_ h₃
      rintro r' holding ⟨⟨⟨h_post, h_itch⟩, h_mtbt⟩, h_mcx⟩
      refine ⟨h_post, fun c' => ?_⟩
      cases c' with
      | itch => exact h_itch
      | mtbt => exact h_mtbt
      | mcx => exact h_mcx
    obtain ⟨holding, h_of, h_post, h_same⟩ := h.table.exec h_all h_exec
    refine ⟨{ K .main with holding }, ?_, h_post⟩
    have h_fd : (fun c => holding.fd (.hub c)) = fun c => (K .main).holding.fd (.hub c) :=
      funext fun c' => (h_same c').1
    constructor
    · rw [update_main_main]
      exact h_of
    · rw [update_main_main]
      exact h.present
    · rw [update_main_main]
      intro h_up c'
      rw [(h_same c').1, (h_same c').2]
      exact h.opened h_up c'
    · rw [update_main_main, update_main_hub, h_fd]
      exact h.inside
    · rw [update_main_main, h_fd]
      exact h.looping
  · -- there is no thread that could see them
    obtain ⟨holding, h_of, h_post⟩ := h.table.exec h_spec h_exec
    have h_absent : s.thread = .absent := by
      by_contra h_ne
      exact h_up (h.present h_ne)
    refine ⟨{ K .main with holding }, ?_, h_post⟩
    constructor
    · rw [update_main_main]
      exact h_of
    · rw [update_main_main]
      exact h.present
    · rw [update_main_main]
      exact fun h_now => absurd h_now h_up
    · rw [update_main_hub]
      exact fun h_inside => absurd h_absent (h.thread_ne h_inside).1
    · intro descriptors h_looping
      exact HubThread.noConfusion (h_absent.symm.trans h_looping)

/-- A step that takes the knowledge of `main` to `k`, and the descriptors not. -/
theorem Inv.main (h : Inv s K) (h_table : s'.table = s.table)
    (h_holding : k.holding = (K .main).holding) (h_present : s'.thread ≠ .absent → k.up = true)
    (h_up : k.up = true → ∀ c, 0 ≤ k.holding.fd (.hub c) ∧
      k.holding.held (some (.hub c)) = [k.holding.fd (.hub c)])
    (h_inside : (K .hub).inside = true → s'.thread = s.thread)
    (h_looping : ∀ descriptors, s'.thread = .looping descriptors → s'.thread = s.thread) :
    Inv s' (Function.update K .main k) := by
  -- the fields of the invariant are about what `main` and the hub know, one after the other
  constructor
  · rw [update_main_main, h_holding, h_table]
    exact h.table
  · rw [update_main_main]
    exact h_present
  · rw [update_main_main]
    exact h_up
  · rw [update_main_main, update_main_hub, h_holding]
    intro h_in
    rw [h_inside h_in]
    exact h.inside h_in
  · rw [update_main_main, h_holding]
    intro descriptors h_loop
    exact h.looping descriptors ((h_looping descriptors h_loop).symm.trans h_loop)

/-- A step of the hub's thread. -/
theorem Inv.hub (h : Inv s K) (h_table : s'.table = s.table)
    (h_present : s'.thread ≠ .absent → s.thread ≠ .absent)
    (h_inside : k.inside = true →
      (s'.thread = .started ∨ ∃ descriptors, s'.thread = .looping descriptors) ∧
      k.fds = fun c => (K .main).holding.fd (.hub c))
    (h_looping : ∀ descriptors, s'.thread = .looping descriptors →
      descriptors = fun c => (K .main).holding.fd (.hub c)) :
    Inv s' (Function.update K .hub k) := by
  -- what `main` knows stays, so its fields follow the old ones
  constructor
  · rw [update_hub_main, h_table]
    exact h.table
  · rw [update_hub_main]
    exact fun h_thread => h.present (h_present h_thread)
  · rw [update_hub_main]
    exact h.opened
  · rw [update_hub_hub, update_hub_main]
    exact h_inside
  · rw [update_hub_main]
    exact h_looping

/-- A step of `main` keeps the outline. -/
theorem exec_main {lz4 : Feed.Lz4} {env : Env} {c : Cmd} {post : c.Answer → Custody → Prop}
    {r : Option c.Answer} {es : List Event} (h : Inv s K) (h_spec : mainSpec (K .main) c post)
    (h_exec : Process.exec lz4 .main env s c = some (s', r, es)) :
    ∃ k, Inv s' (Function.update K .main k) ∧ After mainSpec k c post r := by
  have h_stay : ∀ s' : Process, s'.table = s.table → s'.thread = s.thread →
      Inv s' (Function.update K .main (K .main)) := by
    intro s' h_table h_thread
    rw [Function.update_eq_self]
    exact h.congr h_table h_thread
  cases c with
  | net c =>
    obtain ⟨a, rfl, ⟨reply, h_table⟩, h_frame⟩ := Process.exec_net h_exec
    obtain ⟨k, h_inv, h_post⟩ := h.net h_spec h_table
    exact ⟨k, h_inv.congr rfl (by rw [h_frame]), h_post⟩
  | spawn =>
    cases h_exec
    obtain ⟨h_down, h_opened, h_post⟩ := h_spec
    have h_absent : s.thread = .absent := by
      by_contra h_ne
      exact Bool.false_ne_true (h_down.symm.trans (h.present h_ne))
    exact ⟨{ K .main with up := true }, h.main rfl rfl (fun _ => rfl) (fun _ => h_opened)
      (fun h_in => absurd h_absent (h.thread_ne h_in).1) (fun _ => HubThread.noConfusion), h_post⟩
  | join =>
    simp only [Process.exec] at h_exec
    split at h_exec
    · next h_thread =>
      cases h_exec
      exact ⟨{ K .main with up := false }, h.main rfl rfl (fun h_ne => absurd h_thread h_ne)
        (fun h_up => absurd h_up Bool.false_ne_true) (fun _ => rfl) fun _ _ => rfl, h_spec⟩
    · next h_thread =>
      -- the thread has left, so it is not inside
      cases h_exec
      exact ⟨{ K .main with up := false }, h.main rfl rfl (fun h_ne => absurd rfl h_ne)
        (fun h_up => absurd h_up Bool.false_ne_true)
        (fun h_in => absurd h_thread (h.thread_ne h_in).2) (fun _ => HubThread.noConfusion), h_spec⟩
    · cases h_exec
    · cases h_exec
  | poll _ | loop _ | exit | loadRunning | count _ => exact absurd h_spec id
  | datagrams _ =>
    cases h_exec
    exact ⟨_, h_stay _ rfl rfl, h_spec _⟩
  | storeRunning _ | setInlet _ | unmap =>
    cases h_exec
    exact ⟨_, h_stay _ rfl rfl, h_spec⟩
  | publish _ | stopReader | startReader =>
    simp only [Process.exec] at h_exec
    obtain ⟨rfl, feed, es', -, rfl, -⟩ := Process.map_feedStep_eq_some h_exec
    exact ⟨_, h_stay _ rfl rfl, h_spec⟩
  | returned | await =>
    simp only [Process.exec] at h_exec
    split at h_exec
    · cases h_exec
      exact ⟨_, h_stay _ rfl rfl, h_spec⟩
    · obtain ⟨rfl, feed, es', -, rfl, -⟩ := Process.map_feedStep_eq_some h_exec
      exact ⟨_, h_stay _ rfl rfl, h_spec⟩
  | joinReader =>
    simp only [Process.exec] at h_exec
    split at h_exec <;> cases h_exec
    exact ⟨_, h_stay _ rfl rfl, h_spec⟩

/-- So does a step of the hub's thread. -/
theorem exec_hub {lz4 : Feed.Lz4} {env : Env} {c : Cmd} {post : c.Answer → Custody → Prop}
    {r : Option c.Answer} {es : List Event} (h : Inv s K) (h_spec : hubSpec (K .hub) c post)
    (h_exec : Process.exec lz4 .hub env s c = some (s', r, es)) :
    ∃ k, Inv s' (Function.update K .hub k) ∧ After hubSpec k c post r := by
  -- most commands leave table and thread alone
  have h_stay : ∀ s' : Process, s'.table = s.table → s'.thread = s.thread →
      Inv s' (Function.update K .hub (K .hub)) := by
    intro s' h_table h_thread
    rw [Function.update_eq_self]
    exact h.congr h_table h_thread
  cases c with
  | net c =>
    obtain ⟨a, rfl, ⟨reply, h_table⟩, h_frame⟩ := Process.exec_net h_exec
    have h_thread : s'.thread = s.thread := by rw [h_frame]
    -- of the socket commands the hub makes two
    cases c with
    | fd k =>
      obtain ⟨h_in, c, rfl, h_post⟩ := h_spec
      simp only [Net.Table.exec, Option.some.injEq] at h_table
      obtain ⟨h_same, rfl⟩ := Prod.mk.inj h_table
      refine ⟨_, h_stay _ h_same.symm h_thread, ?_⟩
      rw [(h.fds_opened h_in c).2]
      exact h_post
    | recvfrom k fd capacity =>
      obtain ⟨-, -, h_post⟩ := h_spec
      simp only [Net.Table.exec] at h_table
      split at h_table
      · -- the table is the same after a receive
        obtain ⟨h_same, rfl⟩ := Prod.mk.inj (Option.some.inj h_table)
        exact ⟨_, h_stay _ h_same.symm h_thread, h_post _⟩
      · cases h_table
    | _ => exact absurd h_spec id
  | poll _ =>
    cases h_exec
    exact ⟨_, h_stay _ rfl rfl, h_spec.2.2 _⟩
  | loop descriptors =>
    -- the array is that of the sockets, as the hub knew when it filled it
    cases h_exec
    obtain ⟨h_in, h_eq, h_post⟩ := h_spec
    have h_fds := (h.inside h_in).2
    refine ⟨K .hub, h.hub rfl (fun _ => (h.thread_ne h_in).1) (fun _ => ⟨Or.inr ⟨_, rfl⟩, h_fds⟩)
      fun descriptors' h_loop => ?_, h_post⟩
    cases h_loop
    rw [h_eq, h_fds]
  | exit =>
    -- the thread leaves, and knows nothing more
    cases h_exec
    obtain ⟨h_in, h_post⟩ := h_spec
    exact ⟨{ K .hub with inside := false }, h.hub rfl (fun _ => (h.thread_ne h_in).1)
      (fun h_now => absurd h_now Bool.false_ne_true) (fun _ => HubThread.noConfusion), h_post⟩
  | loadRunning =>
    cases h_exec
    exact ⟨_, h_stay _ rfl rfl, h_spec _⟩
  | count _ =>
    cases h_exec
    exact ⟨_, h_stay _ rfl rfl, h_spec⟩
  | publish _ =>
    -- the inlet is not the table's business
    simp only [Process.exec] at h_exec
    obtain ⟨rfl, feed, es', -, rfl, -⟩ := Process.map_feedStep_eq_some h_exec
    exact ⟨_, h_stay _ rfl rfl, h_spec⟩
  | returned | await =>
    simp only [Process.exec] at h_exec
    split at h_exec
    · cases h_exec
      exact ⟨_, h_stay _ rfl rfl, h_spec⟩
    · obtain ⟨rfl, feed, es', -, rfl, -⟩ := Process.map_feedStep_eq_some h_exec
      exact ⟨_, h_stay _ rfl rfl, h_spec⟩
  | _ => exact absurd h_spec id

end Custody

end Host

end Hft
