import MpmcPipeline.Mem.Alone
import MpmcPipeline.Trading.Pipeline
import MpmcPipeline.Trading.TagCoherence

/-!
# The pipeline as calls of one worker

`Trading/Pipeline.lean` runs each call to its end before the next one starts. The code of such
a call, run alone, does what the call does (`step_alone`), so that a run of the pipeline is a
run of one worker that makes its calls one after the other (`pipeline_refines`): the pipeline
is one of the schedules of the workers, and what holds of all of them holds of it.
-/

namespace Hft

open Handoff (Env)

namespace Trading

open Worker

variable {P : PoolCapacity} {cap : Stage → Capacity} {ι : Type} [DecidableEq ι]

/-- A producer is replaced. -/
def Parts.setProducer (parts : Parts ι) (self : ι) (members : Producer) : Parts ι :=
  { parts with producer := Function.update parts.producer self members }

@[simp] theorem Parts.setProducer_self (parts : Parts ι) (self : ι) (members : Producer) :
    (parts.setProducer self members).producer self = members := Function.update_self ..

@[simp] theorem Parts.setProducer_setProducer (parts : Parts ι) (self : ι)
    (members members' : Producer) :
    (parts.setProducer self members).setProducer self members' =
      parts.setProducer self members' := by
  simp only [setProducer, Function.update_idem]

@[simp] theorem Parts.setProducer_eq (parts : Parts ι) (self : ι) :
    parts.setProducer self (parts.producer self) = parts := by
  simp only [setProducer, Function.update_eq_self]

/-- What is no order is not answered. -/
theorem Counters.answer_none {refs : Counters} {pending : TaggedMessage}
    (h_ouch : pending.kind ≠ .ouch) (h_nnf : pending.kind ≠ .nnf)
    (h_sbe : pending.kind ≠ .sbeOrderEntry) (h_mcx : pending.kind ≠ .mcxOrder) :
    refs.answer pending = none := by
  unfold answer
  split <;> first | rfl | contradiction

/-- What no producer of `main` takes is released. -/
theorem routeMarketTick_released {env : Env} {mem : Memory P cap} {producers : Producers}
    {msg : Ptr P} (h_itch : (mem.load msg).kind ≠ .itch) (h_mtbt : (mem.load msg).kind ≠ .mtbt)
    (h_mcx : (mem.load msg).kind ≠ .mcxMarket) :
    routeMarketTick env mem producers msg =
      some (mem.release msg, producers, [.released msg]) := by
  unfold routeMarketTick
  split <;> first | rfl | contradiction

namespace Code

open Program (wp_bind)

variable {sh : Worker.Shared P cap (Parts ι)} {mem' : Memory P cap} {env : Env}
  {es : List (Trading.Event P)}

omit [DecidableEq ι] in
/-- An access to the members of an object. -/
theorem alone_access {α : Type} {get : Parts ι → α} {update : Parts ι → Parts ι}
    {post : α → Worker.Shared P cap (Parts ι) → Prop}
    (h : post (get sh.parts) { sh with parts := update sh.parts }) :
    (do let parts ← own update; pure (get parts) : Code P Stage ι α).wp alone sh post :=
  ⟨_, _, .own _, h⟩

/-! ### Producers -/

theorem alone_producer {self : ι} {f : Producer → Producer}
    {post : Producer → Worker.Shared P cap (Parts ι) → Prop}
    (h : post (sh.parts.producer self)
      { sh with parts := sh.parts.setProducer self (f (sh.parts.producer self)) }) :
    (producer self f : Code P Stage ι Producer).wp alone sh post := alone_access h

/-- An access to a producer that has been accessed before. -/
theorem alone_producer_again {mem : Memory P cap} {parts : Parts ι} {self : ι}
    {members : Producer} {f : Producer → Producer}
    {post : Producer → Worker.Shared P cap (Parts ι) → Prop}
    (h : post members ⟨mem, parts.setProducer self (f members)⟩) :
    (producer self f : Code P Stage ι Producer).wp alone ⟨mem, parts.setProducer self members⟩
      post := by
  refine alone_producer ?_
  simp only [Parts.setProducer_self, Parts.setProducer_setProducer]
  exact h

theorem alone_emit {mem : Memory P cap} {parts : Parts ι} {self : ι} {members : Producer}
    {signal : StrategySignal} {out : Ptr P}
    (h : (mem.write out (Strategy.encodeSignal signal (mem.load out))).push env .signal out =
      some mem') :
    (emit self .signal signal out : Code P Stage ι Unit).wp alone
      ⟨mem, parts.setProducer self members⟩ fun _ sh' => sh' =
        ⟨mem', parts.setProducer self { members with signals := members.signals + 1 }⟩ := by
  rw [emit, wp_bind]
  refine alone_fill (by decide) ?_
  rw [wp_bind]
  refine alone_push h ?_
  rw [wp_bind]
  exact alone_producer_again rfl

theorem alone_producerOnTick {self : ι} {tick : Tick} {owned : Option (Ptr P)}
    {members : Producer}
    (h : Trading.producerOnTick env sh.mem (sh.parts.producer self) tick owned =
      some (mem', members, es)) :
    (producerOnTick self .signal tick owned : Code P Stage ι Unit).wp alone sh fun _ sh' =>
      sh' = ⟨mem', sh.parts.setProducer self members⟩ := by
  unfold producerOnTick
  rw [wp_bind]
  -- the first access follows the tick, the second takes a token
  refine alone_producer ?_
  dsimp only
  cases producerOnTick_step h with
  | released msg h_side =>
    rw [if_pos h_side]
    exact alone_release rfl
  | passed h_side =>
    rw [if_pos h_side]
    rfl
  | signal msg h_side h_push =>
    rw [if_neg h_side, wp_bind]
    exact alone_producer_again (alone_emit h_push)
  | exhausted h_side h_acquire =>
    rw [if_neg h_side, wp_bind]
    refine alone_producer_again ?_
    dsimp only
    rw [wp_bind]
    exact alone_acquire h_acquire rfl
  | signalNew msg h_side h_acquire h_push =>
    rw [if_neg h_side, wp_bind]
    refine alone_producer_again ?_
    dsimp only
    rw [wp_bind]
    exact alone_acquire h_acquire (alone_emit h_push)

theorem alone_producerPollOnce {α : Type} {kind : Kind} {A : Codec α} {tick : α → Tick} {self : ι}
    {members : Producer}
    (h : Trading.producerPollOnce kind (fun msg => tick (msg.read A)) env sh.mem
      (sh.parts.producer self) = some (mem', members, es)) :
    (producerPollOnce kind A tick self .market .signal : Code P Stage ι Unit).wp alone sh
      fun _ sh' => sh' = ⟨mem', sh.parts.setProducer self members⟩ := by
  rw [producerPollOnce, wp_bind]
  unfold Trading.producerPollOnce at h
  -- the sequential call and the routine branch at the same tests
  split at h
  · next h_pop =>
    cases h
    refine alone_tryPop h_pop ?_
    rw [Parts.setProducer_eq]
    rfl
  · -- the message taken is the same, and so is its kind
    next msg mem h_pop =>
    refine alone_tryPop h_pop ?_
    dsimp only
    rw [wp_bind]
    refine alone_readKind ?_
    split at h
    · next h_kind =>
      rw [if_pos h_kind, wp_bind]
      exact alone_copyOut (alone_producerOnTick h)
    · next h_kind =>
      cases h
      rw [if_neg h_kind, Parts.setProducer_eq]
      exact alone_release rfl

/-! ### Consumers -/

omit [DecidableEq ι] in
theorem alone_decodeSignal {p : Ptr P}
    {post : StrategySignal → Worker.Shared P cap (Parts ι) → Prop}
    (h : post (Strategy.decodeSignal (sh.mem.load p)) sh) :
    (decodeSignal p : Code P Stage ι StrategySignal).wp alone sh post := by
  rw [decodeSignal, wp_bind]
  refine alone_readKind ?_
  by_cases h_kind : (sh.mem.load p).kind = .signal
  · rw [Strategy.decodeSignal, if_pos h_kind] at h
    rw [if_pos h_kind]
    exact alone_copyOut h
  · rw [Strategy.decodeSignal, if_neg h_kind] at h
    rw [if_neg h_kind]
    exact h

omit [DecidableEq ι] in
/-- `set` puts the members of the consumer in their place. -/
theorem alone_consumerPollOnce {σ : Type} (set : σ → Parts ι) {self submitted members : σ}
    {feed : Kind} {order : StrategySignal → Order}
    {submit : StrategySignal → Ptr P → Code P Stage ι Unit} (h_set : set self = sh.parts)
    (h_submit : ∀ signal msg (mem mem' : Memory P cap),
      (mem.write msg ((order signal).writeTo (mem.load msg))).push env .pending msg = some mem' →
      (submit signal msg).wp alone ⟨mem, sh.parts⟩ fun _ sh' => sh' = ⟨mem', set submitted⟩)
    (h : polled self submitted (Trading.consumerPollOnce feed order env sh.mem) =
      some (mem', members, es)) :
    (consumerPollOnce feed .signal submit).wp alone sh fun _ sh' => sh' = ⟨mem', set members⟩ := by
  obtain ⟨b, h_poll, rfl⟩ := polled_eq_some h
  rw [consumerPollOnce, wp_bind]
  -- one case for each way through `poll_once`; only the last of them gets to `submit`
  cases consumerPollOnce_call h_poll with
  | empty h_pop =>
    refine alone_tryPop h_pop ?_
    rw [cond_false, h_set]
    rfl
  | noSignal msg h_pop h_kind =>
    refine alone_tryPop h_pop ?_
    dsimp only
    rw [wp_bind]
    refine alone_readKind ?_
    rw [if_neg h_kind, cond_false, h_set]
    exact alone_release rfl
  | putBack msg h_pop h_kind h_feed h_push =>
    refine alone_tryPop h_pop ?_
    dsimp only
    rw [wp_bind]
    refine alone_readKind ?_
    rw [if_pos h_kind, wp_bind]
    refine alone_decodeSignal ?_
    rw [if_pos h_feed, cond_false, h_set]
    exact alone_push h_push rfl
  | noSide msg h_pop h_kind h_feed h_side =>
    refine alone_tryPop h_pop ?_
    dsimp only
    rw [wp_bind]
    refine alone_readKind ?_
    rw [if_pos h_kind, wp_bind]
    refine alone_decodeSignal ?_
    rw [if_neg (not_not.mpr h_feed), if_pos h_side, cond_false, h_set]
    exact alone_release rfl
  | submit msg h_pop h_kind h_feed h_side h_push =>
    refine alone_tryPop h_pop ?_
    dsimp only
    rw [wp_bind]
    refine alone_readKind ?_
    rw [if_pos h_kind, wp_bind]
    refine alone_decodeSignal ?_
    rw [if_neg (not_not.mpr h_feed), if_neg h_side]
    exact h_submit _ msg _ _ h_push

theorem alone_ouchPollOnce {self : ι} {members : OuchConsumer}
    (h : (sh.parts.ouch self).pollOnce env sh.mem = some (mem', members, es)) :
    (ouchPollOnce self .signal .pending : Code P Stage ι Unit).wp alone sh fun _ sh' =>
      sh' = ⟨mem', { sh.parts with ouch := Function.update sh.parts.ouch self members }⟩ := by
  refine alone_consumerPollOnce
    (fun ouch => { sh.parts with ouch := Function.update sh.parts.ouch self ouch })
    (by rw [Function.update_eq_self]) (fun signal msg mem mem' h_push => ?_) h
  refine alone_fill_bind (by decide) ?_
  rw [wp_bind]
  refine alone_push h_push ?_
  rw [wp_bind]
  exact alone_access rfl

theorem alone_nnfPollOnce {self : ι} {members : NnfConsumer}
    (h : (sh.parts.nnf self).pollOnce env sh.mem = some (mem', members, es)) :
    (nnfPollOnce self .signal .pending : Code P Stage ι Unit).wp alone sh fun _ sh' =>
      sh' = ⟨mem', { sh.parts with nnf := Function.update sh.parts.nnf self members }⟩ := by
  -- of the consumer's own part there is the order it builds and what it counts
  refine alone_consumerPollOnce
    (fun nnf => { sh.parts with nnf := Function.update sh.parts.nnf self nnf })
    (by rw [Function.update_eq_self]) (fun signal msg mem mem' h_push => ?_) h
  rw [wp_bind]
  refine alone_access ?_
  -- the members are read without a change
  rw [id_eq, Function.update_eq_self]
  refine alone_fill_bind (by decide) ?_
  rw [wp_bind]
  -- the order is written and pushed, then counted
  refine alone_push h_push ?_
  rw [wp_bind]
  exact alone_access rfl

theorem alone_sbeOrderPollOnce {self : ι} {members : SbeOrderEntryConsumer}
    (h : (sh.parts.sbeOrder self).pollOnce env sh.mem = some (mem', members, es)) :
    (sbeOrderPollOnce self .signal .pending : Code P Stage ι Unit).wp alone sh fun _ sh' =>
      sh' =
        ⟨mem', { sh.parts with sbeOrder := Function.update sh.parts.sbeOrder self members }⟩ := by
  refine alone_consumerPollOnce
    (fun sbeOrder => { sh.parts with sbeOrder := Function.update sh.parts.sbeOrder self sbeOrder })
    (by rw [Function.update_eq_self]) (fun signal msg mem mem' h_push => ?_) h
  rw [wp_bind]
  -- the members are read without a change
  refine alone_access ?_
  rw [id_eq, Function.update_eq_self]
  refine alone_fill_bind (by decide) ?_
  -- the order is written and pushed, then counted
  rw [wp_bind]
  refine alone_push h_push ?_
  rw [wp_bind]
  exact alone_access rfl

theorem alone_mcxOrderPollOnce {self : ι} {members : McxOrderConsumer}
    (h : (sh.parts.mcxOrder self).pollOnce env sh.mem = some (mem', members, es)) :
    (mcxOrderPollOnce self .signal .pending : Code P Stage ι Unit).wp alone sh fun _ sh' =>
      sh' =
        ⟨mem', { sh.parts with mcxOrder := Function.update sh.parts.mcxOrder self members }⟩ := by
  refine alone_consumerPollOnce
    (fun mcxOrder => { sh.parts with mcxOrder := Function.update sh.parts.mcxOrder self mcxOrder })
    (by rw [Function.update_eq_self]) (fun signal msg mem mem' h_push => ?_) h
  rw [wp_bind]
  refine alone_access ?_
  refine alone_fill_bind (by decide) ?_
  rw [wp_bind]
  refine alone_push h_push ?_
  rw [wp_bind]
  -- the sequence number first, the counter last
  refine alone_access ?_
  simp only [Function.update_self, Function.update_idem]
  rfl

/-! ### The gateway, and the confirms -/

/-- An access to the references of a gateway. -/
theorem alone_counters {self : ι} {f : Counters → Counters}
    {post : Counters → Worker.Shared P cap (Parts ι) → Prop}
    (h : post (sh.parts.gateway self).counters { sh with parts := { sh.parts with
      gateway := Function.update sh.parts.gateway self
        { sh.parts.gateway self with counters := f (sh.parts.gateway self).counters } } }) :
    (counters self f : Code P Stage ι Counters).wp alone sh post := by
  rw [counters, wp_bind]
  exact alone_access h

theorem alone_confirmed {mem : Memory P cap} {parts : Parts ι} {self : ι}
    {members : ExchangeGateway} {pending : Ptr P}
    (h : mem.push env .confirm pending = some mem') :
    (confirmed self .confirm pending : Code P Stage ι Unit).wp alone
      ⟨mem, { parts with gateway := Function.update parts.gateway self members }⟩ fun _ sh' =>
        sh' = ⟨mem', { parts with
          gateway := Function.update parts.gateway self
            { members with confirms := members.confirms + 1 } }⟩ := by
  -- the push is the last thing that can fail to return
  rw [confirmed, wp_bind]
  refine alone_push h ?_
  rw [wp_bind]
  refine alone_access ?_
  simp only [Function.update_self, Function.update_idem]
  rfl

/-- An order is read, and answered with a fresh reference. -/
theorem alone_answered {α β : Type} {A : Codec α} {B : Codec β} {kind : Kind}
    {answer : α → Counters → β} {mem : Memory P cap} {parts : Parts ι} {self : ι}
    {f : Counters → Counters} {pending : Ptr P} (h_size : B.size ≤ maxSlotSize)
    (h : (mem.write pending ((mem.load pending).write B kind
      (answer ((mem.load pending).read A) (parts.gateway self).counters))).push env .confirm
        pending = some mem') :
    (do
      let req ← copyOut A pending
      let refs ← counters self f
      writeKind pending kind
      copyIn pending B (answer req refs)
      confirmed self .confirm pending : Code P Stage ι Unit).wp alone ⟨mem, parts⟩ fun _ sh' =>
        sh' = ⟨mem', { parts with
          gateway := Function.update parts.gateway self
            { counters := f (parts.gateway self).counters
              confirms := (parts.gateway self).confirms + 1 } }⟩ := by
  -- the order is read before it is written over
  rw [wp_bind]
  refine alone_copyOut ?_
  rw [wp_bind]
  exact alone_counters (alone_fill_bind h_size (alone_confirmed h))

theorem alone_gatewayPollOnce {self : ι} {members : ExchangeGateway}
    (h : (sh.parts.gateway self).pollOnce env sh.mem = some (mem', members, es)) :
    (gatewayPollOnce self .pending .confirm : Code P Stage ι Unit).wp alone sh fun _ sh' =>
      sh' = ⟨mem', { sh.parts with gateway := Function.update sh.parts.gateway self members }⟩ := by
  rw [gatewayPollOnce, wp_bind]
  unfold ExchangeGateway.pollOnce at h
  split at h
  · next h_pop =>
    cases h
    refine alone_tryPop h_pop ?_
    rw [Function.update_eq_self]
    rfl
  · next pending mem h_pop =>
    refine alone_tryPop h_pop ?_
    dsimp only
    rw [wp_bind]
    refine alone_readKind ?_
    dsimp only
    split
    · next h_kind =>
      rw [Counters.answer, h_kind] at h
      dsimp only at h
      split at h
      · cases h
      · next h_push =>
        cases h
        exact alone_answered (by decide) h_push
    · next h_kind =>
      rw [Counters.answer, h_kind] at h
      dsimp only at h
      split at h
      · cases h
      · next h_push =>
        cases h
        exact alone_answered (by decide) h_push
    · next h_kind =>
      rw [Counters.answer, h_kind] at h
      dsimp only at h
      split at h
      · cases h
      · next h_push =>
        cases h
        exact alone_answered (by decide) h_push
    · next h_kind =>
      rw [Counters.answer, h_kind] at h
      dsimp only at h
      split at h
      · cases h
      · next h_push =>
        cases h
        rw [wp_bind]
        refine alone_copyOut ?_
        rw [wp_bind]
        refine alone_counters ?_
        rw [wp_bind]
        refine alone_counters ?_
        -- the two references of MCX are fetched one after the other
        simp only [Function.update_self, Function.update_idem]
        exact alone_fill_bind (by decide) (alone_confirmed h_push)
    · next h_ouch h_nnf h_sbe h_mcx =>
      rw [Counters.answer_none h_ouch h_nnf h_sbe h_mcx] at h
      cases h
      rw [Function.update_eq_self]
      exact alone_release rfl

omit [DecidableEq ι] in
theorem alone_releaseConfirm {post : Unit → Worker.Shared P cap (Parts ι) → Prop}
    (h_none : ∀ mem, sh.mem.tryPop .confirm = (none, mem) → post () { sh with mem })
    (h_some : ∀ confirm mem, sh.mem.tryPop .confirm = (some confirm, mem) →
      post () { sh with mem := mem.release confirm }) :
    (releaseConfirm .confirm : Code P Stage ι Unit).wp alone sh post := by
  rw [releaseConfirm, wp_bind]
  rcases h_pop : sh.mem.tryPop .confirm with ⟨_ | confirm, mem⟩
  · exact alone_tryPop h_pop (h_none mem h_pop)
  · refine alone_tryPop h_pop ?_
    dsimp only
    rw [wp_bind]
    exact alone_readKind (alone_release (h_some confirm mem h_pop))

/-! ### Ingestion -/

section

variable {parts : Parts ι} {mem : Memory P cap} {stored : Bool}

omit [DecidableEq ι] in
theorem alone_store {α : Type} [WireMessage α] {decoded : α} {tick : Tick}
    (h_tick : tick.acquireFilled env mem = mem.acquireFilled env decoded)
    (h : storeTick env mem tick = some (mem', stored, es)) :
    (store .market decoded : Code P Stage ι Unit).wp alone ⟨mem, parts⟩ fun _ sh' =>
      sh' = ⟨mem', parts⟩ := by
  rw [store, wp_bind]
  -- whether the slot is found is the same question for both
  refine alone_acquireFilled env ?_
  rw [storeTick, h_tick] at h
  split at h
  · -- no slot: both leave memory alone
    next h_fill =>
    cases h
    rw [h_fill]
    rfl
  · next h_fill =>
    split at h
    · cases h
    · -- with a slot, both push
      next h_push =>
      cases h
      rw [h_fill]
      exact alone_push h_push rfl

omit [DecidableEq ι] in
/-- The loop of a splitter, from what its handler does. -/
theorem alone_split {β : Type} {cut : ℕ → Splitter.Cut β}
    {handler : Ingest P cap → β → Option (Ingest P cap × Bool)} {code : β → Code P Stage ι Unit}
    (h_handler : ∀ piece s s' accepted, handler s piece = some (s', accepted) →
      (code piece).wp alone ⟨s.mem, parts⟩ fun _ sh' => sh' = ⟨s'.mem, parts⟩)
    {fuel offset consumed : ℕ} {s s' : Ingest P cap} {answers : List Bool}
    (h : Splitter.run cut handler fuel offset s = some (s', answers, consumed)) :
    (split cut code fuel offset).wp alone ⟨s.mem, parts⟩ fun _ sh' => sh' = ⟨s'.mem, parts⟩ := by
  -- induction on the iterations; the members stay those from before the loop
  induction fuel generalizing offset s answers with
  | zero => cases h
  | succ fuel ih =>
    rw [Splitter.run] at h
    rw [split]
    split at h
    · next h_cut =>
      cases h
      rw [h_cut]
      rfl
    · next piece next h_cut =>
      split at h
      · cases h
      · next s₁ accepted h_call =>
        obtain ⟨⟨s₂, rest, c⟩, h_run, h_eq⟩ := Option.map_eq_some_iff.mp h
        cases h_eq
        rw [h_cut]
        dsimp only
        rw [wp_bind]
        refine Program.wp_mono alone_mono (fun _ sh' h_sh' => ?_) (h_handler _ _ _ _ h_call)
        subst h_sh'
        exact ih h_run

omit [DecidableEq ι] in
/-- A handler that has decoded nothing, or stores what it has decoded. -/
theorem alone_handler {envs : ℕ → Env} {s s' : Ingest P cap} {tick : Option Tick}
    {code : Code P Stage ι Unit} (h_none : tick = none → code = pure ())
    (h_some : ∀ decoded env mem' es, tick = some decoded →
      storeTick env s.mem decoded = some (mem', stored, es) →
      code.wp alone ⟨s.mem, parts⟩ fun _ sh' => sh' = ⟨mem', parts⟩)
    (h : Ingest.store envs s tick = some (s', stored)) :
    code.wp alone ⟨s.mem, parts⟩ fun _ sh' => sh' = ⟨s'.mem, parts⟩ := by
  -- what is not decoded is not stored
  cases tick with
  | none =>
    cases h
    rw [h_none rfl]
    rfl
  | some decoded =>
    rw [Ingest.store] at h
    split at h
    · cases h
    · next h_store =>
      cases h
      exact h_some decoded _ _ _ rfl h_store

omit [DecidableEq ι] in
theorem alone_ingestItchFrame {envs : ℕ → Env} {frame : Option (List Byte)} {stats : Stats}
    (h : Trading.ingestItchFrame envs mem frame = some (mem', stats, es)) :
    (ingestItchFrame .market frame : Code P Stage ι Unit).wp alone ⟨mem, parts⟩ fun _ sh' =>
      sh' = ⟨mem', parts⟩ := by
  -- the splitter's walk, with the handler on every slice
  obtain ⟨⟨s, stats⟩, h_split, h_result⟩ := Option.map_eq_some_iff.mp h
  cases h_result
  cases frame with
  | none =>
    cases h_split
    rfl
  | some frame =>
    rw [splitItchFrame, splitItchLoop_eq] at h_split
    obtain ⟨⟨s', answers, consumed⟩, h_run, h_eq⟩ := Option.map_eq_some_iff.mp h_split
    cases h_eq
    -- the handler decodes what the routine decodes
    refine alone_split (fun slice s s' accepted h_call => ?_) h_run
    refine alone_handler (fun h_none => ?_) (fun decoded env mem' es h_some h_store => ?_) h_call
    · rw [Option.map_eq_none_iff.mp h_none]
    · obtain ⟨order, h_order, rfl⟩ := Option.map_eq_some_iff.mp h_some
      rw [h_order]
      exact alone_store rfl h_store

omit [DecidableEq ι] in
theorem alone_ingestMtbtFrame {envs : ℕ → Env} {frame : Option (List Byte)} {fuel : ℕ}
    {stats : Stats} (h : Trading.ingestMtbtFrame envs fuel mem frame = some (mem', stats, es)) :
    (ingestMtbtFrame .market fuel frame : Code P Stage ι Unit).wp alone ⟨mem, parts⟩ fun _ sh' =>
      sh' = ⟨mem', parts⟩ := by
  obtain ⟨⟨s, stats⟩, h_split, h_result⟩ := Option.map_eq_some_iff.mp h
  cases h_result
  cases frame with
  | none =>
    cases h_split
    rfl
  | some frame =>
    -- the walk over the packets
    rw [splitMtbtFrame, splitMtbtLoop_eq] at h_split
    obtain ⟨⟨s', answers, consumed⟩, h_run, h_eq⟩ := Option.map_eq_some_iff.mp h_split
    cases h_eq
    refine alone_split (fun packet s s' accepted h_call => ?_) h_run
    -- the handler decodes what the routine decodes
    refine alone_handler (fun h_none => ?_) (fun decoded env mem' es h_some h_store => ?_) h_call
    · rw [Option.map_eq_none_iff.mp h_none]
    · obtain ⟨order, h_order, rfl⟩ := Option.map_eq_some_iff.mp h_some
      rw [h_order]
      exact alone_store rfl h_store

omit [DecidableEq ι] in
theorem alone_ingestMcxTobFrame {frame : Option (List Byte)} {stats : Stats}
    (h : Trading.ingestMcxTobFrame env mem frame = some (mem', stats, es)) :
    (ingestMcxTobFrame .market frame : Code P Stage ι Unit).wp alone ⟨mem, parts⟩ fun _ sh' =>
      sh' = ⟨mem', parts⟩ := by
  cases frame with
  | none =>
    cases h
    rfl
  | some frame =>
    rw [Trading.ingestMcxTobFrame] at h
    rw [ingestMcxTobFrame]
    -- of the wrong length: skipped by both
    split at h
    · next h_length =>
      cases h
      rw [if_pos h_length]
      rfl
    · -- the tick is stored, or there is no slot for it
      next h_length =>
      rw [if_neg h_length]
      split at h
      · cases h
      · next h_store =>
        cases h
        exact alone_store rfl h_store
      · next h_store =>
        cases h
        exact alone_store rfl h_store

end

end Code

/-! ### The calls of the pipeline -/

/-- The feeds. A producer and a consumer have the name of their feed, the gateway that of the
first. -/
inductive Line
  | itch
  | mtbt
  | sbe
  | mcx
  deriving DecidableEq

/-- A call of the pipeline as a call of a stage. -/
def Op.call : Op → StageCall Stage Line
  | ingestItchFrame frame => .ingestItchFrame .market frame
  | ingestMtbtFrame frame fuel => .ingestMtbtFrame .market frame fuel
  | ingestMcxTobFrame frame => .ingestMcxTobFrame .market frame
  | feedBbo tick => .feedBbo .market tick
  | pollItch => .pollItch .itch .market .signal
  | pollMtbt => .pollMtbt .mtbt .market .signal
  | pollSbe => .pollSbe .sbe .market .signal
  | pollMcx => .pollMcx .mcx .market .signal
  | drainMarket => .drainMarket .itch .mtbt .mcx .market .signal
  | onItchTick tick => .onTick .itch .signal (.itch tick)
  | onMtbtTick tick => .onTick .mtbt .signal (.mtbt tick)
  | onSbeTick tick => .onTick .sbe .signal (.sbe tick)
  | onMcxTick tick => .onTick .mcx .signal (.mcx tick)
  | pollOuch => .pollOuch .itch .signal .pending
  | pollNnf => .pollNnf .mtbt .signal .pending
  | pollSbeOrder => .pollSbeOrder .sbe .signal .pending
  | pollMcxOrder => .pollMcxOrder .mcx .signal .pending
  | pollGateway => .pollGateway .itch .pending .confirm
  | releaseConfirm => .releaseConfirm .confirm

/-- The memory of the workers is that of the pipeline, and the members are those of its
objects. -/
structure Models (w : World P cap) (sh : Worker.Shared P cap (Parts Line)) : Prop where
  mem : sh.mem = w.mem
  itch : sh.parts.producer .itch = w.producers.itch
  mtbt : sh.parts.producer .mtbt = w.producers.mtbt
  sbe : sh.parts.producer .sbe = w.sbe
  mcx : sh.parts.producer .mcx = w.producers.mcx
  ouch : sh.parts.ouch .itch = w.consumers.ouch
  nnf : sh.parts.nnf .mtbt = w.consumers.nnf
  sbeOrder : sh.parts.sbeOrder .sbe = w.sbeOrder
  mcxOrder : sh.parts.mcxOrder .mcx = w.consumers.mcx
  gateway : sh.parts.gateway .itch = w.gateway

section

variable {w : World P cap} {sh : Worker.Shared P cap (Parts Line)} {mem' : Memory P cap}

/-- The world with another producer. -/
def World.setProducer (w : World P cap) : Line → Producer → World P cap
  | .itch, itch => { w with producers := { w.producers with itch } }
  | .mtbt, mtbt => { w with producers := { w.producers with mtbt } }
  | .sbe, sbe => { w with sbe }
  | .mcx, mcx => { w with producers := { w.producers with mcx } }

theorem Models.setMem (h : Models w sh) (mem' : Memory P cap) :
    Models { w with mem := mem' } { sh with mem := mem' } := { h with mem := rfl }

theorem Models.setProducer (h : Models w sh) (line : Line) (members : Producer) :
    Models (w.setProducer line members) { sh with parts := sh.parts.setProducer line members } := by
  cases line <;> constructor <;>
    simp [World.setProducer, Parts.setProducer, h.mem, h.itch, h.mtbt, h.sbe, h.mcx, h.ouch,
      h.nnf, h.sbeOrder, h.mcxOrder, h.gateway]

/-- A call that ends in one state only. -/
theorem Models.leave {w' : World P cap} {sh₁ : Worker.Shared P cap (Parts Line)}
    {code : Code P Stage Line Unit} (h : Models w' sh₁)
    (h_alone : code.wp alone sh fun _ sh' => sh' = sh₁) :
    code.wp alone sh fun _ sh' => Models w' sh' := by
  refine Program.wp_mono alone_mono (fun _ sh' h_sh' => ?_) h_alone
  rwa [h_sh']

/-- A call that leaves memory and a producer. -/
theorem Models.leave_producer (h : Models w sh) {line : Line} {members : Producer}
    {code : Code P Stage Line Unit}
    (h_alone : code.wp alone sh fun _ sh' => sh' = ⟨mem', sh.parts.setProducer line members⟩) :
    code.wp alone sh fun _ sh' =>
      Models { w.setProducer line members with mem := mem' } sh' :=
  Models.leave ((h.setProducer line members).setMem mem') h_alone

/-- A call that leaves memory only. -/
theorem Models.leave_mem (h : Models w sh) {code : Code P Stage Line Unit}
    (h_alone : code.wp alone sh fun _ sh' => sh' = ⟨mem', sh.parts⟩) :
    code.wp alone sh fun _ sh' => Models { w with mem := mem' } sh' :=
  Models.leave (h.setMem mem') h_alone

/-! ### Every call -/

variable {a : Action} {w' : World P cap} {es : List (Trading.Event P)}

/-- A tick that has been handed to its producer. -/
theorem Models.routed {α : Type} {A : Codec α} {tick : α → Tick} {env : Env} {line : Line}
    {before members : Producer} {msg : Ptr P} (h_models : Models w sh)
    (h_line : sh.parts.producer line = before)
    (h : Trading.producerOnTick env w.mem before (tick ((w.mem.load msg).read A)) (some msg) =
      some (mem', members, es)) :
    (do
      let decoded ← copyOut A msg
      Code.producerOnTick line .signal (tick decoded) (some msg) :
        Code P Stage Line Unit).wp alone sh fun _ sh' =>
          Models { w.setProducer line members with mem := mem' } sh' := by
  subst h_line
  -- the routine copies out what the sequential call reads
  rw [← h_models.mem] at h
  rw [Program.wp_bind]
  exact alone_copyOut (h_models.leave_producer (Code.alone_producerOnTick h))

theorem step_alone_routeMarketTick (h_models : Models w sh) {env : Env} {producers : Producers}
    {msg : Ptr P}
    (h : Trading.routeMarketTick env w.mem w.producers msg = some (mem', producers, es)) :
    (Code.routeMarketTick .itch .mtbt .mcx .signal msg : Code P Stage Line Unit).wp alone sh
      fun _ sh' => Models { w with mem := mem', producers } sh' := by
  rw [Code.routeMarketTick, Program.wp_bind]
  refine alone_readKind ?_
  rw [h_models.mem]
  split
  -- a kind that a producer takes is handed to that producer
  · next h_kind =>
    rw [Trading.routeMarketTick, h_kind] at h
    dsimp only at h
    split at h
    · cases h
    · next h_tick =>
      cases h
      exact h_models.routed h_models.itch h_tick
  · next h_kind =>
    rw [Trading.routeMarketTick, h_kind] at h
    dsimp only at h
    split at h
    · cases h
    · next h_tick =>
      cases h
      exact h_models.routed h_models.mtbt h_tick
  · next h_kind =>
    rw [Trading.routeMarketTick, h_kind] at h
    dsimp only at h
    split at h
    · cases h
    · next h_tick =>
      cases h
      exact h_models.routed h_models.mcx h_tick
  · next h_itch h_mtbt h_mcx =>
    rw [routeMarketTick_released h_itch h_mtbt h_mcx] at h
    cases h
    refine alone_release ?_
    rw [← h_models.mem]
    exact h_models.setMem _

theorem step_alone_drainMarket (h_models : Models w sh) {env : Env} {producers : Producers}
    (h : Trading.drainMarket env w.mem w.producers = some (mem', producers, es)) :
    (Code.drainMarket .itch .mtbt .mcx .market .signal : Code P Stage Line Unit).wp alone sh
      fun _ sh' => Models { w with mem := mem', producers } sh' := by
  rw [Code.drainMarket, Program.wp_bind]
  rw [Trading.drainMarket, ← h_models.mem] at h
  split at h
  · next h_pop =>
    cases h
    exact alone_tryPop h_pop (h_models.setMem _)
  · next msg mem h_pop =>
    exact alone_tryPop h_pop (step_alone_routeMarketTick (h_models.setMem mem) h)

/-- **A call of the pipeline is its code, run alone**: from a state that the sequential world models
the routine ends in one that the world after the call models. -/
theorem step_alone (h_models : Models w sh) (h : w.step a = some (w', es)) :
    (a.op.call.code : Code P Stage Line Unit).wp alone sh fun _ sh' => Models w' sh' := by
  obtain ⟨op, envs⟩ := a
  cases op with
  -- a poll of a producer changes the memory and the members of that producer
  | pollItch =>
    obtain ⟨mem', itch, h_poll, rfl⟩ := World.ended_eq_some h
    rw [← h_models.mem, ← h_models.itch] at h_poll
    exact h_models.leave_producer (Code.alone_producerPollOnce h_poll)
  | pollMtbt =>
    obtain ⟨mem', mtbt, h_poll, rfl⟩ := World.ended_eq_some h
    rw [← h_models.mem, ← h_models.mtbt] at h_poll
    exact h_models.leave_producer (Code.alone_producerPollOnce h_poll)
  | pollSbe =>
    obtain ⟨mem', sbe, h_poll, rfl⟩ := World.ended_eq_some h
    rw [← h_models.mem, ← h_models.sbe] at h_poll
    exact h_models.leave_producer (Code.alone_producerPollOnce h_poll)
  | pollMcx =>
    obtain ⟨mem', mcx, h_poll, rfl⟩ := World.ended_eq_some h
    rw [← h_models.mem, ← h_models.mcx] at h_poll
    exact h_models.leave_producer (Code.alone_producerPollOnce h_poll)
  -- so does a tick that is handed to a producer directly
  | onItchTick tick =>
    obtain ⟨mem', itch, h_tick, rfl⟩ := World.ended_eq_some h
    rw [← h_models.mem, ← h_models.itch] at h_tick
    exact h_models.leave_producer (Code.alone_producerOnTick h_tick)
  | onMtbtTick tick =>
    obtain ⟨mem', mtbt, h_tick, rfl⟩ := World.ended_eq_some h
    rw [← h_models.mem, ← h_models.mtbt] at h_tick
    exact h_models.leave_producer (Code.alone_producerOnTick h_tick)
  | onSbeTick tick =>
    obtain ⟨mem', sbe, h_tick, rfl⟩ := World.ended_eq_some h
    rw [← h_models.mem, ← h_models.sbe] at h_tick
    exact h_models.leave_producer (Code.alone_producerOnTick h_tick)
  | onMcxTick tick =>
    obtain ⟨mem', mcx, h_tick, rfl⟩ := World.ended_eq_some h
    rw [← h_models.mem, ← h_models.mcx] at h_tick
    exact h_models.leave_producer (Code.alone_producerOnTick h_tick)
  | drainMarket =>
    obtain ⟨mem', producers, h_drain, rfl⟩ := World.ended_eq_some h
    exact step_alone_drainMarket h_models h_drain
  -- a frame changes the memory only
  | ingestItchFrame frame =>
    obtain ⟨mem', stats, h_ingest, rfl⟩ := World.ended_eq_some h
    rw [← h_models.mem] at h_ingest
    exact h_models.leave_mem (Code.alone_ingestItchFrame h_ingest)
  | ingestMtbtFrame frame fuel =>
    obtain ⟨mem', stats, h_ingest, rfl⟩ := World.ended_eq_some h
    rw [← h_models.mem] at h_ingest
    exact h_models.leave_mem (Code.alone_ingestMtbtFrame h_ingest)
  | ingestMcxTobFrame frame =>
    obtain ⟨mem', stats, h_ingest, rfl⟩ := World.ended_eq_some h
    rw [← h_models.mem] at h_ingest
    exact h_models.leave_mem (Code.alone_ingestMcxTobFrame h_ingest)
  | feedBbo tick =>
    obtain ⟨mem', stored, h_store, rfl⟩ := World.ended_eq_some h
    rw [← h_models.mem] at h_store
    exact h_models.leave_mem (Code.alone_store rfl h_store)
  -- a poll of an order object changes the memory and the members of that object
  | pollOuch =>
    obtain ⟨mem', ouch, h_poll, rfl⟩ := World.ended_eq_some h
    rw [← h_models.mem, ← h_models.ouch] at h_poll
    refine Models.leave ?_ (Code.alone_ouchPollOnce h_poll)
    exact { h_models with mem := rfl, ouch := by simp }
  | pollNnf =>
    obtain ⟨mem', nnf, h_poll, rfl⟩ := World.ended_eq_some h
    rw [← h_models.mem, ← h_models.nnf] at h_poll
    refine Models.leave ?_ (Code.alone_nnfPollOnce h_poll)
    exact { h_models with mem := rfl, nnf := by simp }
  | pollSbeOrder =>
    obtain ⟨mem', sbeOrder, h_poll, rfl⟩ := World.ended_eq_some h
    rw [← h_models.mem, ← h_models.sbeOrder] at h_poll
    refine Models.leave ?_ (Code.alone_sbeOrderPollOnce h_poll)
    exact { h_models with mem := rfl, sbeOrder := by simp }
  | pollMcxOrder =>
    obtain ⟨mem', mcx, h_poll, rfl⟩ := World.ended_eq_some h
    rw [← h_models.mem, ← h_models.mcxOrder] at h_poll
    refine Models.leave ?_ (Code.alone_mcxOrderPollOnce h_poll)
    exact { h_models with mem := rfl, mcxOrder := by simp }
  | pollGateway =>
    obtain ⟨mem', gateway, h_poll, rfl⟩ := World.ended_eq_some h
    rw [← h_models.mem, ← h_models.gateway] at h_poll
    refine Models.leave ?_ (Code.alone_gatewayPollOnce h_poll)
    exact { h_models with mem := rfl, gateway := by simp }
  | releaseConfirm =>
    dsimp only [World.step] at h
    rw [← h_models.mem] at h
    refine Code.alone_releaseConfirm (fun mem h_pop => ?_) (fun confirm mem h_pop => ?_)
    · rw [h_pop] at h
      cases h
      exact h_models.setMem mem
    · rw [h_pop] at h
      cases h
      exact h_models.setMem _

/-! ### Over whole runs -/

/-- The members of the objects as they are constructed. -/
def Config.parts (config : Config) : Parts Line where
  producer
    | .itch => { bandBps := config.itchBandBps }
    | .mtbt => { bandBps := config.mtbtBandBps }
    | .sbe => { bandBps := config.sbeBandBps }
    | .mcx => { bandBps := config.mcxBandBps }
  ouch _ := {}
  nnf _ := { traderId := config.traderId }
  sbeOrder _ := { symbolId := config.symbolId }
  mcxOrder _ :=
    { senderSubId := config.senderSubId, simpleSecurityId := config.simpleSecurityId }
  gateway _ := {}
  runtime _ := {}

theorem Models.init (config : Config) (message : Ptr P → TaggedMessage) :
    Models (World.init config message : World P cap)
      ⟨⟨TaggedPool.fresh message, fun q => MPMC.fresh (cap q) (Ptr P)⟩, config.parts⟩ := by
  constructor <;> rfl

/-- A worker between two calls, who has made `n` of them. -/
abbrev between (P : PoolCapacity) (cap : Stage → Capacity) (n : ℕ) : Local P cap (Parts Line) :=
  ⟨⟨[], .idle⟩, .done (), n⟩

/-- One call of the pipeline, made by a worker. -/
theorem step_runs (h_models : Models w sh) (h : w.step a = some (w', es)) (n : ℕ) :
    ∃ sh', Runs StageCall.code (sh, between P cap n) (sh', between P cap (n + 1)) ∧
      Models w' sh' := by
  obtain ⟨sh', h_runs, h_models'⟩ := runs_of_alone (n + 1) a.op.call.clean (step_alone h_models h)
  have h_call : Runs StageCall.code (sh, between P cap n)
      (sh, ⟨⟨[], .idle⟩, a.op.call.code, n + 1⟩) := .single (.call a.op.call) rfl
  exact ⟨sh', h_call.trans h_runs, h_models'⟩

end

section

variable {config : Config} {message : Ptr P → TaggedMessage} {tr : List (Trading.Event P)}
  {w : World P cap} {Id : Type*} [DecidableEq Id]

/-- **The pipeline is a schedule of the workers**: any state of it is one that workers reach, by
the calls of one of them, with no step of the others in between. -/
theorem pipeline_refines (i : Id)
    (h : (machine P cap).Reach (World.init config message) tr w) :
    ∃ tr' s, (Worker.machine Id P cap StageCall.code).Reach
      (System.init Id cap message config.parts) tr' s ∧ Models w s.shared := by
  suffices h_runs : ∃ sh n, Runs StageCall.code
      (⟨⟨TaggedPool.fresh message, fun q => MPMC.fresh (cap q) (Ptr P)⟩, config.parts⟩,
        between P cap 0) (sh, between P cap n) ∧ Models w sh by
    obtain ⟨sh, n, ⟨tr', h_solo⟩, h_models⟩ := h_runs
    exact ⟨_, _, Threads.reach_of_solo i (fun _ => between P cap 0) h_solo, h_models⟩
  -- the worker is between two calls whenever the pipeline is
  induction h with
  | init => exact ⟨_, 0, .refl _, .init config message⟩
  | step _ _ h_step ih =>
    obtain ⟨sh, n, h_runs, h_models⟩ := ih
    obtain ⟨sh', h_call, h_models'⟩ := step_runs h_models h_step n
    exact ⟨sh', n + 1, h_runs.trans h_call, h_models'⟩

/-- A message in a queue of the pipeline carries one record, the one its tag stands for. -/
theorem pipeline_coherent (h : (machine P cap).Reach (World.init config message) tr w)
    {c : Handoff.Cell cap} {p : Ptr P} (h_c : w.mem.cell c = some p) :
    ∃ x, (w.mem.load p).Carries x := by
  obtain ⟨tr', s, h_reach, h_models⟩ := pipeline_refines () h
  rw [← h_models.mem] at h_c ⊢
  obtain ⟨who, x, -, h_carries⟩ := coherent StageCall.clean h_reach h_c
  exact ⟨x, h_carries⟩

end

end Trading

end Hft
