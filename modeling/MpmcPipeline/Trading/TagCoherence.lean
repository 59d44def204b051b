import MpmcPipeline.Mem.StaleBytes
import MpmcPipeline.Trading.Routines

/-!
# The stages pair tags and payloads

Every call of a stage is clean (`StageCall.clean`): each of the places where a tag is set and a
record copied in has the record of that tag, each of those where a record is copied out has
read its kind first, and a message is handed on whole. So the results of `Mem/Coherence.lean`
and `Mem/StaleBytes.lean` hold of the pipeline (`tag_coherence`).
-/

namespace Hft

namespace Trading

open Worker

variable {P : PoolCapacity} {Q ι : Type}

namespace Code

open Program (wp_bind)

variable {p : Ptr P} {st : Status}

/-- An access to the members of an object changes nothing of what is known of a message. -/
theorem wp_access {α : Type} {get : Parts ι → α} {update : Parts ι → Parts ι} {held : Held P}
    {post : α → Held P → Prop} (h : ∀ members, post members held) :
    (do let parts ← own update; pure (get parts) : Code P Q ι α).wp spec held post :=
  fun parts => h (get parts)

/-! ### Ingestion -/

theorem store_clean {α : Type} [W : WireMessage α] {decoded : α} (market : Q) (x : Record)
    (h_kind : x.kind = W.kindOf) (h_byte : x.byte = W.codec.put decoded) :
    Clean (store market decoded : Code P Q ι Unit) := by
  rw [Clean, Ends, store, wp_bind]
  exact wp_acquireFilled x h_kind h_byte rfl fun slot => wp_push rfl rfl

/-- A loop whose handler is clean, however often it runs. -/
theorem split_clean {β : Type} {cut : ℕ → Splitter.Cut β} {handler : β → Code P Q ι Unit}
    (h_handler : ∀ piece, Clean (handler piece)) (fuel offset : ℕ) :
    Clean (split cut handler fuel offset) := by
  induction fuel generalizing offset with
  | zero => trivial
  | succ fuel ih =>
    rw [split]
    split
    · rfl
    · exact (h_handler _).bind (ih _)

theorem ingestItchFrame_clean (market : Q) (frame : Option (List Byte)) :
    Clean (ingestItchFrame market frame : Code P Q ι Unit) := by
  cases frame with
  | none => rfl
  | some frame =>
    refine split_clean (fun slice => ?_) _ 0
    split
    · rfl
    · next decoded h_decoded => exact store_clean market (.itch decoded) rfl rfl

theorem ingestMtbtFrame_clean (market : Q) (frame : Option (List Byte)) (fuel : ℕ) :
    Clean (ingestMtbtFrame market fuel frame : Code P Q ι Unit) := by
  cases frame with
  | none => rfl
  | some frame =>
    refine split_clean (fun packet => ?_) fuel 0
    split
    · rfl
    · next decoded h_decoded => exact store_clean market (.mtbt decoded.order) rfl rfl

theorem ingestMcxTobFrame_clean (market : Q) (frame : Option (List Byte)) :
    Clean (ingestMcxTobFrame market frame : Code P Q ι Unit) := by
  cases frame with
  | none => rfl
  | some frame =>
    rw [ingestMcxTobFrame]
    split
    · rfl
    · exact store_clean market (.mcxMarket _) rfl rfl

/-! ### Producers -/

section

variable [DecidableEq ι]

theorem emit_ends (self : ι) (signals : Q) (signal : StrategySignal) :
    Ends (emit self signals signal p : Code P Q ι Unit) (some (p, st)) := by
  rw [Ends, emit, wp_bind]
  refine wp_fill (.signal signal) rfl rfl rfl ?_
  rw [wp_bind]
  refine wp_push rfl ?_
  rw [wp_bind]
  exact wp_access fun _ => rfl

/-- A producer hands on the message of its tick, with the signal in it, or releases it. -/
theorem producerOnTick_ends (self : ι) (signals : Q) (tick : Tick) (held : Held P) :
    Ends (producerOnTick self signals tick (held.map Prod.fst) : Code P Q ι Unit) held := by
  unfold producerOnTick
  rw [Ends, wp_bind]
  refine wp_access fun before => ?_
  dsimp only
  split
  · -- no side
    cases held with
    | none => rfl
    | some held => exact wp_release rfl
  · rw [wp_bind]
    refine wp_access fun issued => ?_
    cases held with
    | some held => exact emit_ends self signals _
    | none =>
      -- a tick that came in no message gets one
      rw [Option.map_none]
      dsimp only
      rw [wp_bind]
      exact wp_acquire rfl fun msg => emit_ends self signals _

theorem producerPollOnce_clean {α : Type} {kind : Kind} {A : Codec α} {tick : α → Tick}
    (h_size : A.size = kind.slotSize) (self : ι) (market signals : Q) :
    Clean (producerPollOnce kind A tick self market signals : Code P Q ι Unit) := by
  rw [Clean, Ends, producerPollOnce, wp_bind]
  refine wp_tryPop rfl fun msg => ?_
  dsimp only
  rw [wp_bind]
  refine wp_readKind trivial fun seen => ?_
  -- a tick of another kind is not read, only released
  split
  · next h_seen =>
    subst h_seen
    rw [wp_bind]
    refine wp_copyOut (le_of_eq h_size) fun decoded => ?_
    exact producerOnTick_ends self signals _ (some (msg, _))
  · exact wp_release rfl

theorem routeMarketTick_ends (itch mtbt mcx : ι) (signals : Q) :
    Ends (routeMarketTick itch mtbt mcx signals p : Code P Q ι Unit) (some (p, .whole)) := by
  rw [Ends, routeMarketTick, wp_bind]
  refine wp_readKind trivial fun kind => ?_
  -- each branch reads as many bytes as its kind has
  split
  · rw [wp_bind]
    refine wp_copyOut (le_of_eq rfl) fun tick => ?_
    exact producerOnTick_ends itch signals _ (some (p, _))
  · rw [wp_bind]
    refine wp_copyOut (le_of_eq rfl) fun tick => ?_
    exact producerOnTick_ends mtbt signals _ (some (p, _))
  · rw [wp_bind]
    refine wp_copyOut (le_of_eq rfl) fun tick => ?_
    exact producerOnTick_ends mcx signals _ (some (p, _))
  · exact wp_release rfl

theorem drainMarket_clean (itch mtbt mcx : ι) (market signals : Q) :
    Clean (drainMarket itch mtbt mcx market signals : Code P Q ι Unit) := by
  rw [Clean, Ends, drainMarket, wp_bind]
  exact wp_tryPop rfl fun _ => routeMarketTick_ends itch mtbt mcx signals

end

/-! ### Consumers -/

/-- The signal of a message whose kind has been read to be that of a signal. -/
theorem wp_decodeSignal {post : StrategySignal → Held P → Prop}
    (h : ∀ signal kind, post signal (some (p, .kinded kind))) :
    (decodeSignal p : Code P Q ι StrategySignal).wp spec (some (p, .kinded .signal)) post := by
  rw [decodeSignal, wp_bind]
  refine wp_readKind trivial fun kind => ?_
  split
  · next h_kind =>
    subst h_kind
    exact wp_copyOut (le_of_eq rfl) fun signal => h signal _
  · exact h {} kind

/-- A consumer puts back, releases, or submits with what its `submit` does. -/
theorem consumerPollOnce_clean {submit : StrategySignal → Ptr P → Code P Q ι Unit}
    (h_submit : ∀ signal msg st, Ends (submit signal msg) (some (msg, st))) (feed : Kind)
    (signals : Q) : Clean (consumerPollOnce feed signals submit) := by
  rw [Clean, Ends, consumerPollOnce, wp_bind]
  refine wp_tryPop rfl fun msg => ?_
  dsimp only
  rw [wp_bind]
  refine wp_readKind trivial fun seen => ?_
  split
  · next h_seen =>
    subst h_seen
    rw [wp_bind]
    refine wp_decodeSignal fun signal kind => ?_
    split
    · -- a signal of another feed goes back as it is
      exact wp_push trivial rfl
    · split
      · exact wp_release rfl
      · exact h_submit signal msg _
  · exact wp_release rfl

section

variable [DecidableEq ι]

theorem ouchPollOnce_clean (self : ι) (signals pending : Q) :
    Clean (ouchPollOnce self signals pending : Code P Q ι Unit) := by
  refine consumerPollOnce_clean (fun signal msg st => ?_) _ signals
  refine wp_fill_bind (.ouch (ouchOrder signal)) rfl rfl rfl ?_
  rw [wp_bind]
  refine wp_push rfl ?_
  rw [wp_bind]
  exact wp_access fun _ => rfl

theorem nnfPollOnce_clean (self : ι) (signals pending : Q) :
    Clean (nnfPollOnce self signals pending : Code P Q ι Unit) := by
  refine consumerPollOnce_clean (fun signal msg st => ?_) _ signals
  rw [Ends, wp_bind]
  refine wp_access fun members => ?_
  refine wp_fill_bind (.nnf (nnfOrder members.traderId signal)) rfl rfl rfl ?_
  rw [wp_bind]
  refine wp_push rfl ?_
  rw [wp_bind]
  exact wp_access fun _ => rfl

theorem sbeOrderPollOnce_clean (self : ι) (signals pending : Q) :
    Clean (sbeOrderPollOnce self signals pending : Code P Q ι Unit) := by
  refine consumerPollOnce_clean (fun signal msg st => ?_) _ signals
  rw [Ends, wp_bind]
  refine wp_access fun members => ?_
  refine wp_fill_bind (.sbeOrderEntry (Trading.sbeOrder members.symbolId signal)) rfl rfl rfl ?_
  rw [wp_bind]
  refine wp_push rfl ?_
  rw [wp_bind]
  exact wp_access fun _ => rfl

theorem mcxOrderPollOnce_clean (self : ι) (signals pending : Q) :
    Clean (mcxOrderPollOnce self signals pending : Code P Q ι Unit) := by
  refine consumerPollOnce_clean (fun signal msg st => ?_) _ signals
  rw [Ends, wp_bind]
  refine wp_access fun members => ?_
  refine wp_fill_bind (.mcxOrder (Trading.mcxOrder members.nextSeq members.senderSubId
    members.simpleSecurityId signal)) rfl rfl rfl ?_
  rw [wp_bind]
  refine wp_push rfl ?_
  rw [wp_bind]
  exact wp_access fun _ => rfl

/-! ### The gateway, and the confirms -/

theorem wp_counters {self : ι} {f : Counters → Counters} {held : Held P}
    {post : Counters → Held P → Prop} (h : ∀ refs, post refs held) :
    (counters self f : Code P Q ι Counters).wp spec held post := by
  rw [counters, wp_bind]
  exact wp_access fun members => h members.counters

/-- A whole message is handed on. -/
theorem confirmed_ends (self : ι) (confirms : Q) (h_st : st.Complete) :
    Ends (confirmed self confirms p : Code P Q ι Unit) (some (p, st)) := by
  rw [Ends, confirmed, wp_bind]
  refine wp_push h_st ?_
  rw [wp_bind]
  exact wp_access fun _ => rfl

/-- The gateway answers each kind of order with the confirm of its venue, and its tag. -/
theorem gatewayPollOnce_clean (self : ι) (pendings confirms : Q) :
    Clean (gatewayPollOnce self pendings confirms : Code P Q ι Unit) := by
  rw [Clean, Ends, gatewayPollOnce, wp_bind]
  refine wp_tryPop rfl fun pending => ?_
  dsimp only
  rw [wp_bind]
  refine wp_readKind trivial fun kind => ?_
  -- each branch reads the order of its kind and writes the confirm of the same venue
  split
  · rw [wp_bind]
    refine wp_copyOut (le_of_eq rfl) fun req => ?_
    rw [wp_bind]
    refine wp_counters fun refs => ?_
    exact wp_fill_bind (.ouchConfirm (makeOuchConfirm req refs.nextOuchRef)) rfl rfl rfl
      (confirmed_ends self confirms rfl)
  · rw [wp_bind]
    refine wp_copyOut (le_of_eq rfl) fun req => ?_
    rw [wp_bind]
    refine wp_counters fun refs => ?_
    exact wp_fill_bind (.nnfConfirm (makeNnfConfirm req
      (Double.ofNat refs.nextNnfOrder.toNat))) rfl rfl rfl (confirmed_ends self confirms rfl)
  · rw [wp_bind]
    refine wp_copyOut (le_of_eq rfl) fun req => ?_
    rw [wp_bind]
    refine wp_counters fun refs => ?_
    exact wp_fill_bind (.sbeFastOrder (makeSbeFastConfirm req refs.nextSbeSeq)) rfl rfl rfl
      (confirmed_ends self confirms rfl)
  · rw [wp_bind]
    refine wp_copyOut (le_of_eq rfl) fun req => ?_
    rw [wp_bind]
    refine wp_counters fun orders => ?_
    rw [wp_bind]
    -- an MCX confirm draws two numbers
    refine wp_counters fun execs => ?_
    exact wp_fill_bind (.mcxConfirm (makeMcxConfirm req orders.nextMcxOrder execs.nextMcxExec))
      rfl rfl rfl (confirmed_ends self confirms rfl)
  · exact wp_release rfl

end

theorem releaseConfirm_clean (confirms : Q) :
    Clean (releaseConfirm confirms : Code P Q ι Unit) := by
  rw [Clean, Ends, releaseConfirm, wp_bind]
  refine wp_tryPop rfl fun confirm => ?_
  dsimp only
  rw [wp_bind]
  exact wp_readKind trivial fun _ => wp_release rfl

/-! ### `Runtime` -/

section

variable [DecidableEq ι]

theorem producerMain_clean (self : ι) (queue : Q) :
    Clean (producerMain self queue : Code P Q ι Unit) := by
  rw [Clean, Ends, producerMain, wp_bind]
  refine wp_access fun members => ?_
  rw [wp_bind]
  refine wp_acquire rfl fun msg => ?_
  dsimp only
  rw [wp_bind]
  refine wp_fill (.itch _) rfl rfl rfl ?_
  rw [wp_bind]
  refine wp_push rfl ?_
  rw [wp_bind]
  exact wp_access fun _ => rfl

theorem consumerMain_clean (self : ι) (queue : Q) :
    Clean (consumerMain self queue : Code P Q ι Unit) := by
  rw [Clean, Ends, consumerMain, wp_bind]
  refine wp_tryPop rfl fun msg => ?_
  dsimp only
  rw [wp_bind]
  refine wp_release ?_
  rw [wp_bind]
  exact wp_access fun _ => rfl

end

end Code

/-- **Every call is clean**: it reads what the tag covers, and pushes a message only with its tag
and all bytes of its record written. -/
theorem StageCall.clean [DecidableEq ι] (call : StageCall Q ι) :
    Clean (call.code : Code P Q ι Unit) := by
  cases call with
  | ingestItchFrame market frame => exact Code.ingestItchFrame_clean market frame
  | ingestMtbtFrame market frame fuel => exact Code.ingestMtbtFrame_clean market frame fuel
  | ingestMcxTobFrame market frame => exact Code.ingestMcxTobFrame_clean market frame
  | feedBbo market tick => exact Code.store_clean market (.sbeMarket tick) rfl rfl
  | pollItch self market signals => exact Code.producerPollOnce_clean rfl self market signals
  | pollMtbt self market signals => exact Code.producerPollOnce_clean rfl self market signals
  | pollSbe self market signals => exact Code.producerPollOnce_clean rfl self market signals
  | pollMcx self market signals => exact Code.producerPollOnce_clean rfl self market signals
  | onTick self signals tick => exact Code.producerOnTick_ends self signals tick none
  | drainMarket itch mtbt mcx market signals =>
    exact Code.drainMarket_clean itch mtbt mcx market signals
  | pollOuch self signals pending => exact Code.ouchPollOnce_clean self signals pending
  | pollNnf self signals pending => exact Code.nnfPollOnce_clean self signals pending
  | pollSbeOrder self signals pending => exact Code.sbeOrderPollOnce_clean self signals pending
  | pollMcxOrder self signals pending => exact Code.mcxOrderPollOnce_clean self signals pending
  | pollGateway self pendings confirms => exact Code.gatewayPollOnce_clean self pendings confirms
  | releaseConfirm confirms => exact Code.releaseConfirm_clean confirms
  | produceTest self queue => exact Code.producerMain_clean self queue
  | consumeTest self queue => exact Code.consumerMain_clean self queue

/-! ### Over whole runs -/

section

variable {Id : Type*} [DecidableEq Id] [DecidableEq Q] [DecidableEq ι] {cap : Q → Capacity}
  {message : Ptr P → TaggedMessage} {parts : Parts ι} {tr : List (Id × Worker.Event P Q)}
  {s : System Id P cap (Parts ι)}

/-- **Tag coherence, and no stale bytes.** In every state that any number of workers reach who
call the stages, wired in any way, in any order and with any interleaving of their steps: a
message in a queue carries one record, the one its tag stands for; the last writes to it, since
the pool was mapped, are those of one call, its tag and then all bytes of the record; and this
record is what decoding by tag gives. And a run from there shows the same, every kind and
byte that is read or written and every message that is passed on, where the free slots hold
anything else and the queued messages anything else behind their records; what is in the
queues after it decodes to the same. -/
theorem tag_coherence
    (h : (Worker.machine Id P cap (StageCall.code (P := P))).Reach
      (System.init Id cap message parts) tr s) :
    (∀ c p, s.shared.mem.cell c = some p →
      ∃ who x, Stamped who x x.kind.slotSize (writes p tr) ∧
        (s.shared.mem.pool.load p).Carries x ∧
        (s.shared.mem.pool.load p).decode = some x) ∧
    ∀ s₂ as s' es, Alike s s₂ →
      (∀ i, ∀ p ∈ (s.loc i).base.owned,
        s₂.shared.mem.pool.load p = s.shared.mem.pool.load p) →
      (Worker.machine Id P cap (StageCall.code (P := P))).run s as = some (s', es) →
      ∃ s₂', (Worker.machine Id P cap (StageCall.code (P := P))).run s₂ as = some (s₂', es) ∧
        Alike s' s₂' ∧ ∀ c p, s'.shared.mem.cell c = some p →
          (s₂'.shared.mem.pool.load p).decode = (s'.shared.mem.pool.load p).decode := by
  refine ⟨fun c p h_c => ?_, fun s₂ as s' es h_alike h_hand h_run => ?_⟩
  · -- what a queue carries is known of every message in it
    obtain ⟨who, x, h_x, h_carries⟩ := coherent StageCall.clean h h_c
    exact ⟨who, x, h_x, h_carries, h_carries.decode_eq⟩
  · -- the second run does what the first does, as no worker reads what differs
    obtain ⟨s₂', h_run₂, h_after⟩ := same_run StageCall.clean h h_alike h_hand h_run
    exact ⟨s₂', h_run₂, h_after, fun c p h_c => (h_after.queued c p h_c).decode_eq⟩

end

/-- One worker, one queue and a pool of one message, mapped with `m` in it. -/
abbrev tiny (m : TaggedMessage) : System Unit onePool (fun _ : Unit => Capacity.two) (Parts Unit) :=
  System.init Unit (fun _ => Capacity.two) (fun _ => m) (.fresh Unit)

/-- What the worker can call. -/
abbrev tinyMachine := Worker.machine Unit onePool (fun _ : Unit => Capacity.two)
  (StageCall.code (P := onePool) (Q := Unit) (ι := Unit))

/-- One round of `producer_main`. -/
def oneRound : List (Unit × Choice (StageCall Unit Unit)) :=
  ((), .call (.produceTest () ())) :: List.replicate 288 ((), .run)

/-- The message of a first round is decoded; and the round shows the same in a pool that was
mapped with other bytes. -/
theorem tag_coherence_oneRound :
    (∃ tr s p x, tinyMachine.Reach (tiny .fresh) tr s ∧
      s.shared.mem.cell ⟨(), ⟨0, by decide⟩⟩ = some p ∧
      (s.shared.mem.pool.load p).decode = some x) ∧
    ∃ s' s₂' es, tinyMachine.run (tiny .fresh) oneRound = some (s', es) ∧
      tinyMachine.run (tiny ⟨.mcxConfirm, fun _ => 0xFF⟩) oneRound = some (s₂', es) := by
  constructor
  · obtain ⟨tr, s, h_reach, h_cell⟩ := Machine.exists_reach_of_run tinyMachine (tiny .fresh)
      oneRound (fun s _ => (s.shared.mem.cell ⟨(), ⟨0, by decide⟩⟩).isSome) (by decide +kernel)
    obtain ⟨p, h_p⟩ := Option.isSome_iff_exists.mp h_cell
    -- the theorem applies to the run of one round
    obtain ⟨who, x, -, -, h_x⟩ := (tag_coherence h_reach).1 _ p h_p
    exact ⟨tr, s, p, x, h_reach, h_p, h_x⟩
  · have h_some : (tinyMachine.run (tiny .fresh) oneRound).isSome := by decide +kernel
    obtain ⟨⟨s', es⟩, h_run⟩ := Option.isSome_iff_exists.mp h_some
    have h_init : tinyMachine.Reach (tiny .fresh) [] (tiny .fresh) := .init
    -- and to the empty run, from which the round is made in both pools
    obtain ⟨s₂', h_run₂, -⟩ := (tag_coherence h_init).2 (tiny ⟨.mcxConfirm, fun _ => 0xFF⟩)
      oneRound s' es (Alike.init ..) (fun _ _ h_p => absurd h_p List.not_mem_nil) h_run
    exact ⟨s', s₂', es, h_run, h_run₂⟩

end Trading

end Hft
