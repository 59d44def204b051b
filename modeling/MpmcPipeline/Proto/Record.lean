import MpmcPipeline.Proto.Layouts

/-!
# The record in a message

`slot_size` has thirteen kinds, and each has a record (`Record`). A message carries a record if
it is tagged with the record's kind and its first `slot_size(kind)` bytes are the bytes of the
record; the bytes behind them can be anything. `TaggedMessage.decode` reads by tag, and what it
reads is the record that is carried (`Begins.decode_eq`).
-/

namespace Hft

/-- A record of each kind. -/
inductive Record
  | itch (x : ItchAddOrder)
  | ouch (x : OuchEnterOrder)
  | mtbt (x : MtbtNewOrder)
  | nnf (x : NnfOrderEntry)
  | signal (x : StrategySignal)
  | sbeMarket (x : BestObRpi)
  | sbeOrderEntry (x : CreateOrderReqV5)
  | sbeFastOrder (x : FastOrderResp)
  | ouchConfirm (x : OuchOrderAccepted)
  | nnfConfirm (x : NnfOrderConfirm)
  | mcxMarket (x : TopOfBook)
  | mcxOrder (x : NewOrderSingleShort)
  | mcxConfirm (x : ExecutionReportNew)

namespace Record

/-- `kind_of` -/
def kind : Record → Kind
  | itch _ => .itch
  | ouch _ => .ouch
  | mtbt _ => .mtbt
  | nnf _ => .nnf
  | signal _ => .signal
  | sbeMarket _ => .sbeMarket
  | sbeOrderEntry _ => .sbeOrderEntry
  | sbeFastOrder _ => .sbeFastOrder
  | ouchConfirm _ => .ouchConfirm
  | nnfConfirm _ => .nnfConfirm
  | mcxMarket _ => .mcxMarket
  | mcxOrder _ => .mcxOrder
  | mcxConfirm _ => .mcxConfirm

/-- The object representation. -/
def byte : Record → ℕ → Byte
  | itch x => ItchAddOrder.codec.put x
  | ouch x => OuchEnterOrder.codec.put x
  | mtbt x => MtbtNewOrder.codec.put x
  | nnf x => NnfOrderEntry.codec.put x
  | signal x => StrategySignal.codec.put x
  | sbeMarket x => BestObRpi.codec.put x
  | sbeOrderEntry x => CreateOrderReqV5.codec.put x
  | sbeFastOrder x => FastOrderResp.codec.put x
  | ouchConfirm x => OuchOrderAccepted.codec.put x
  | nnfConfirm x => NnfOrderConfirm.codec.put x
  | mcxMarket x => TopOfBook.codec.put x
  | mcxOrder x => NewOrderSingleShort.codec.put x
  | mcxConfirm x => ExecutionReportNew.codec.put x

end Record

namespace TaggedMessage

/-- The record the tag stands for, read from the first bytes; a byte that is no enumerator
stands for none. -/
def decode (m : TaggedMessage) : Option Record :=
  match m.kind with
  | .itch => some (.itch (m.read ItchAddOrder.codec))
  | .ouch => some (.ouch (m.read OuchEnterOrder.codec))
  | .mtbt => some (.mtbt (m.read MtbtNewOrder.codec))
  | .nnf => some (.nnf (m.read NnfOrderEntry.codec))
  | .signal => some (.signal (m.read StrategySignal.codec))
  | .sbeMarket => some (.sbeMarket (m.read BestObRpi.codec))
  | .sbeOrderEntry => some (.sbeOrderEntry (m.read CreateOrderReqV5.codec))
  | .sbeFastOrder => some (.sbeFastOrder (m.read FastOrderResp.codec))
  | .ouchConfirm => some (.ouchConfirm (m.read OuchOrderAccepted.codec))
  | .nnfConfirm => some (.nnfConfirm (m.read NnfOrderConfirm.codec))
  | .mcxMarket => some (.mcxMarket (m.read TopOfBook.codec))
  | .mcxOrder => some (.mcxOrder (m.read NewOrderSingleShort.codec))
  | .mcxConfirm => some (.mcxConfirm (m.read ExecutionReportNew.codec))
  | .unnamed _ => none

/-- The message is tagged as the record and begins with the first `n` of its bytes. -/
structure Begins (m : TaggedMessage) (x : Record) (n : ℕ) : Prop where
  kind_eq : m.kind = x.kind
  byte_eq : ∀ k < n, m.memory k = x.byte k

/-- The message is tagged as the record and begins with its bytes. -/
abbrev Carries (m : TaggedMessage) (x : Record) : Prop := m.Begins x x.kind.slotSize

/-- What is carried is decoded. -/
theorem Begins.decode_eq {m : TaggedMessage} {x : Record} (h : m.Carries x) :
    m.decode = some x := by
  obtain ⟨h_kind, h_byte⟩ := h
  cases x with
  | _ x =>
    simp only [decode, h_kind, Record.kind]
    exact congrArg _ (congrArg _ (Codec.get_of_image _ h_byte))

/-- Two messages with one tag and the same bytes within the `slot_size` of their kind. -/
structure Same (m m' : TaggedMessage) : Prop where
  kind_eq : m'.kind = m.kind
  byte_eq : ∀ k < m.kind.slotSize, m'.memory k = m.memory k

theorem Same.refl (m : TaggedMessage) : m.Same m := ⟨rfl, fun _ _ => rfl⟩

/-- Two messages that carry one record. -/
theorem Begins.same {m m' : TaggedMessage} {x : Record} (h : m.Carries x) (h' : m'.Carries x) :
    m.Same m' := by
  refine ⟨h'.kind_eq.trans h.kind_eq.symm, fun k h_k => ?_⟩
  rw [h.kind_eq] at h_k
  rw [h.byte_eq k h_k, h'.byte_eq k h_k]

theorem Same.read_eq {m m' : TaggedMessage} (h : m.Same m') {α : Type} {A : Codec α} {kind : Kind}
    (h_kind : m.kind = kind) (h_size : A.size = kind.slotSize) : m'.read A = m.read A := by
  refine A.get_congr fun k h_k => h.byte_eq k ?_
  rw [h_kind, ← h_size]
  exact h_k

/-- What is behind the record is not decoded. -/
theorem Same.decode_eq {m m' : TaggedMessage} (h : m.Same m') : m'.decode = m.decode := by
  have h_kind := h.kind_eq
  cases h_m : m.kind with
  | unnamed b => simp only [decode, h_kind, h_m]
  | _ =>
    simp only [decode, h_kind, h_m]
    exact congrArg _ (congrArg _ (h.read_eq h_m rfl))

end TaggedMessage

end Hft
