import ItchAggregator.Library.PackedRecord
import ItchAggregator.MessageTypes

/-! The stream builder of the tests: each call appends one framed message. A message is
a record whose fields are written one after the other into a zeroed array. -/

namespace ItchAggregator

open PackedRecord

/-! Big-endian values as cells. -/

def be16 (v : UInt16) : List UInt8 := [(v >>> 8).toUInt8, v.toUInt8]

def be32 (v : UInt32) : List UInt8 :=
  [(v >>> 24).toUInt8, (v >>> 16).toUInt8, (v >>> 8).toUInt8, v.toUInt8]

def be48 (v : UInt64) : List UInt8 :=
  [(v >>> 40).toUInt8, (v >>> 32).toUInt8, (v >>> 24).toUInt8, (v >>> 16).toUInt8,
    (v >>> 8).toUInt8, v.toUInt8]

def be64 (v : UInt64) : List UInt8 := be32 (v >>> 32).toUInt32 ++ be32 v.toUInt32

@[simp] theorem length_be16 (v : UInt16) : (be16 v).length = 2 := rfl

@[simp] theorem length_be32 (v : UInt32) : (be32 v).length = 4 := rfl

@[simp] theorem length_be48 (v : UInt64) : (be48 v).length = 6 := rfl

@[simp] theorem length_be64 (v : UInt64) : (be64 v).length = 8 := rfl

theorem be16_toNat (v : UInt16) :
    (v >>> 8).toUInt8.toNat * 256 + v.toUInt8.toNat = v.toNat := by
  have bound := v.toNat_lt
  simp [Nat.shiftRight_eq_div_pow]
  omega

section Stores

variable (m : Ptr) (a : Nat)

theorem store_field (b : UInt8) : store m a b = (Piece.mk a [b]).store m := by
  funext i
  rw [store_apply]
  by_cases here : i = a
  · subst here
    exact (if_pos rfl).trans (Piece.store_inside (f := ⟨i, [b]⟩) (i := 0) rfl).symm
  · rw [if_neg here, Piece.store_outside (f := ⟨a, [b]⟩) (by simp; omega)]

theorem store_next {n : Nat} {l : List UInt8} (b : UInt8) (next : n = a + l.length) :
    store ((Piece.mk a l).store m) n b = (Piece.mk a (l ++ [b])).store m := by
  rw [next, store_field]
  exact Piece.store_append a l [b] m

theorem putBe16_field (v : UInt16) : putBe16 m a v = (Piece.mk a (be16 v)).store m := by
  rw [putBe16, store_field m a, store_next m a _ (by rfl)]
  rfl

theorem putBe32_field (v : UInt32) : putBe32 m a v = (Piece.mk a (be32 v)).store m := by
  rw [putBe32, store_field m a, store_next m a _ (by rfl), store_next m a _ (by rfl),
    store_next m a _ (by rfl)]
  rfl

theorem putBe48_field (v : UInt64) : putBe48 m a v = (Piece.mk a (be48 v)).store m := by
  rw [putBe48, store_field m a, store_next m a _ (by rfl), store_next m a _ (by rfl),
    store_next m a _ (by rfl), store_next m a _ (by rfl), store_next m a _ (by rfl)]
  rfl

theorem putBe64_field (v : UInt64) : putBe64 m a v = (Piece.mk a (be64 v)).store m := by
  rw [putBe64, putBe32_field, putBe32_field]
  exact Piece.store_append a (be32 _) (be32 _) m

end Stores

section Loads

variable {m : Ptr} {a : Nat}

theorem loadBe16_shown {v : UInt16} (shown : Piece.Shown m ⟨a, be16 v⟩) :
    loadBe16 (shift m a) = v := by
  have same := loadBe16_putBe16 m a v
  rwa [putBe16_field, shown.store_eq] at same

theorem loadBe32_shown {v : UInt32} (shown : Piece.Shown m ⟨a, be32 v⟩) :
    loadBe32 (shift m a) = v := by
  have same := loadBe32_putBe32 m a v
  rwa [putBe32_field, shown.store_eq] at same

theorem loadBe48_shown {v : UInt64} (shown : Piece.Shown m ⟨a, be48 v⟩) (small : v.toNat < 2 ^ 48) :
    loadBe48 (shift m a) = v := by
  have same := loadBe48_putBe48 m a small
  rwa [putBe48_field, shown.store_eq] at same

theorem loadBe64_shown {v : UInt64} (shown : Piece.Shown m ⟨a, be64 v⟩) :
    loadBe64 (shift m a) = v := by
  have same := loadBe64_putBe64 m a v
  rwa [putBe64_field, shown.store_eq] at same

theorem byte_shown {v : UInt8} (shown : Piece.Shown m ⟨a, [v]⟩) : m a = v := shown 0 v rfl

end Loads

/-! The builder. -/

structure StreamBuilder where
  bytes : List UInt8 := []

namespace StreamBuilder

def header (m : Ptr) (type : UInt8) (locate : UInt16) (ts : UInt64) : Ptr :=
  let m := store m Ofs.type type
  let m := putBe16 m Ofs.locate locate
  let m := putBe16 m Ofs.tracking 0
  putBe48 m Ofs.timestamp ts

/-- `put_stock(m + a, stock)`; the string goes without its terminator. -/
def putStock (m : Ptr) (a : Nat) (stock : List UInt8) : Ptr :=
  let m := memset m a ' '.toUInt8 8
  memcpy m a (ptrOf stock) (if 8 < stock.length then 8 else stock.length)

def frame (b : StreamBuilder) (m : Ptr) (len : UInt16) : StreamBuilder where
  bytes := b.bytes ++ ItchAggregator.bytes (putBe16 (fun _ => 0) 0 len) 2 ++
    ItchAggregator.bytes m len.toNat

def zeros : Ptr := fun _ => 0

def testMpid : List UInt8 := ['T'.toUInt8, 'E'.toUInt8, 'S'.toUInt8, 'T'.toUInt8]

def addOrder (b : StreamBuilder) (locate : UInt16) (ts ref : UInt64) (side : UInt8)
    (shares : UInt32) (stock : List UInt8) (price : UInt32) (mpid : Bool) : StreamBuilder :=
  let type := if mpid then MsgType.addOrderMpid else MsgType.addOrder
  let m := header zeros type.code locate ts
  let m := putBe64 m Ofs.addRef ref
  let m := store m Ofs.addSide side
  let m := putBe32 m Ofs.addShares shares
  let m := putStock m Ofs.addStock stock
  let m := putBe32 m Ofs.addPrice price
  let m := if mpid then memcpy m 36 (ptrOf testMpid) 4 else m
  b.frame m (if mpid then 40 else 36)

def cancel (b : StreamBuilder) (locate : UInt16) (ts ref : UInt64) (canceled : UInt32) :
    StreamBuilder :=
  let m := header zeros MsgType.orderCancel.code locate ts
  let m := putBe64 m Ofs.cancelRef ref
  let m := putBe32 m Ofs.cancelCanceled canceled
  b.frame m 23

def del (b : StreamBuilder) (locate : UInt16) (ts ref : UInt64) : StreamBuilder :=
  let m := header zeros MsgType.orderDelete.code locate ts
  let m := putBe64 m Ofs.delRef ref
  b.frame m 19

def replace (b : StreamBuilder) (locate : UInt16) (ts orig nref : UInt64) (shares price : UInt32) :
    StreamBuilder :=
  let m := header zeros MsgType.orderReplace.code locate ts
  let m := putBe64 m Ofs.replaceOrigRef orig
  let m := putBe64 m Ofs.replaceNewRef nref
  let m := putBe32 m Ofs.replaceShares shares
  let m := putBe32 m Ofs.replacePrice price
  b.frame m 35

def trade (b : StreamBuilder) (locate : UInt16) (ts ref : UInt64) (side : UInt8) (shares : UInt32)
    (stock : List UInt8) (price : UInt32) (matchNo : UInt64) : StreamBuilder :=
  let m := header zeros MsgType.trade.code locate ts
  let m := putBe64 m Ofs.tradeRef ref
  let m := store m Ofs.tradeSide side
  let m := putBe32 m Ofs.tradeShares shares
  let m := putStock m Ofs.tradeStock stock
  let m := putBe32 m Ofs.tradePrice price
  let m := putBe64 m Ofs.tradeMatch matchNo
  b.frame m 44

def cross (b : StreamBuilder) (locate : UInt16) (ts shares64 : UInt64) (stock : List UInt8)
    (price : UInt32) (matchNo : UInt64) (crossType : UInt8) : StreamBuilder :=
  let m := header zeros MsgType.tradeCross.code locate ts
  let m := putBe64 m Ofs.crossShares64 shares64
  let m := putStock m Ofs.crossStock stock
  let m := putBe32 m Ofs.crossPrice price
  let m := putBe64 m Ofs.crossMatch matchNo
  let m := store m Ofs.crossType crossType
  b.frame m 40

def sysEvent (b : StreamBuilder) (ts : UInt64) (code : UInt8) : StreamBuilder :=
  let m := header zeros MsgType.systemEvent.code 0 ts
  let m := store m Ofs.sysEvent code
  b.frame m 12

def stockDir (b : StreamBuilder) (locate : UInt16) (ts : UInt64) (stock : List UInt8) :
    StreamBuilder :=
  let m := header zeros MsgType.stockDir.code locate ts
  let m := putStock m Ofs.dirStock stock
  b.frame m 39

end StreamBuilder

inductive BuilderCall
  | addOrder (locate : UInt16) (ts ref : UInt64) (side : UInt8) (shares : UInt32)
    (stock : List UInt8) (price : UInt32) (mpid : Bool)
  | cancel (locate : UInt16) (ts ref : UInt64) (canceled : UInt32)
  | del (locate : UInt16) (ts ref : UInt64)
  | replace (locate : UInt16) (ts orig nref : UInt64) (shares price : UInt32)
  | trade (locate : UInt16) (ts ref : UInt64) (side : UInt8) (shares : UInt32)
    (stock : List UInt8) (price : UInt32) (matchNo : UInt64)
  | cross (locate : UInt16) (ts shares64 : UInt64) (stock : List UInt8) (price : UInt32)
    (matchNo : UInt64) (crossType : UInt8)
  | sysEvent (ts : UInt64) (code : UInt8)
  | stockDir (locate : UInt16) (ts : UInt64) (stock : List UInt8)

def StreamBuilder.call (b : StreamBuilder) : BuilderCall → StreamBuilder
  | .addOrder locate ts ref side shares stock price mpid =>
    b.addOrder locate ts ref side shares stock price mpid
  | .cancel locate ts ref canceled => b.cancel locate ts ref canceled
  | .del locate ts ref => b.del locate ts ref
  | .replace locate ts orig nref shares price => b.replace locate ts orig nref shares price
  | .trade locate ts ref side shares stock price matchNo =>
    b.trade locate ts ref side shares stock price matchNo
  | .cross locate ts shares64 stock price matchNo crossType =>
    b.cross locate ts shares64 stock price matchNo crossType
  | .sysEvent ts code => b.sysEvent ts code
  | .stockDir locate ts stock => b.stockDir locate ts stock

def StreamBuilder.build (calls : List BuilderCall) : StreamBuilder :=
  calls.foldl StreamBuilder.call {}

end ItchAggregator
