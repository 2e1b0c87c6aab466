import ItchAggregator.BatchAssembler
import ItchAggregator.OrderMap

/-! What a message says about orders. `fill` reads no more of a message for the order
table than the event it carries. -/

namespace ItchAggregator

inductive OrderEvent
  | add (ref : UInt64) (o : Order)
  | cancel (ref : UInt64) (canceled : UInt32)
  | delete (ref : UInt64)
  | replace (orig new : UInt64) (shares price : UInt32)
  deriving DecidableEq

def orderEvent? (msg : Ptr) : Option OrderEvent :=
  match msgType? (msg Ofs.type) with
  | some .addOrder | some .addOrderMpid =>
    some (.add (loadBe64 (shift msg Ofs.addRef))
      ⟨loadBe16 (shift msg Ofs.locate), msg Ofs.addSide, loadBe32 (shift msg Ofs.addShares),
        loadBe32 (shift msg Ofs.addPrice)⟩)
  | some .orderCancel =>
    some (.cancel (loadBe64 (shift msg Ofs.cancelRef)) (loadBe32 (shift msg Ofs.cancelCanceled)))
  | some .orderDelete => some (.delete (loadBe64 (shift msg Ofs.delRef)))
  | some .orderReplace =>
    some (.replace (loadBe64 (shift msg Ofs.replaceOrigRef)) (loadBe64 (shift msg Ofs.replaceNewRef))
      (loadBe32 (shift msg Ofs.replaceShares)) (loadBe32 (shift msg Ofs.replacePrice)))
  | _ => none

namespace BatchAssembler

variable {k : LogCapacity} {hash : UInt64 → UInt64} {a : BatchAssembler k}

def resolveEvent (hash : UInt64 → UInt64) (a : BatchAssembler k) :
    OrderEvent → UInt8 × BatchAssembler k
  | .add ref o => (0, { a with orders := (a.orders.insert hash ref o.locate o.side o.shares o.price).2 })
  | .cancel ref canceled =>
    let r := a.orders.reduce hash ref canceled
    (0,
      { a with
        orders := r.2
        unknownCancels := if r.1 then a.unknownCancels else a.unknownCancels + 1 })
  | .delete ref =>
    let r := a.orders.erase hash ref
    (0,
      { a with
        orders := r.2
        unknownCancels := if r.1 then a.unknownCancels else a.unknownCancels + 1 })
  | .replace orig new shares price =>
    match a.orders.find hash orig with
    | some o =>
      (o.side,
        { a with
          orders := ((a.orders.insert hash new o.locate o.side shares price).2.erase hash orig).2 })
    | none => (0, { a with unresolvedReplaces := a.unresolvedReplaces + 1 })

theorem resolve_eq (msg : Ptr) :
    a.resolve hash msg =
      match orderEvent? msg with
      | some e => resolveEvent hash a e
      | none => (0, a) := by
  unfold resolve orderEvent?
  cases msgType? (msg Ofs.type) with
  | none => rfl
  | some t => cases t <;> rfl

end BatchAssembler

end ItchAggregator
