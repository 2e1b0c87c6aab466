import ItchAggregator.MessageTypes

/-! The CPU twin of decode, aggregate and snapshot. The nine arrays of `HostAccum`
are two families, the 64-bit and the 32-bit ones, each array under its name; all
arithmetic wraps at its width. -/

namespace ItchAggregator

inductive Array64
  | vwapNum
  | vwapDen
  | buyVol
  | sellVol
  | cancelShares
  deriving DecidableEq, Repr

inductive Array32
  | tradeCount
  | addCount
  | winBid
  | winAsk
  deriving DecidableEq, Repr

abbrev Sym := Fin maxSymbols

instance : NeZero maxSymbols := ⟨by decide⟩

def bidEmpty : UInt32 := 0
def askEmpty : UInt32 := 0xFFFFFFFF

@[ext] structure HostAccum where
  u64 : Array64 → Sym → UInt64
  u32 : Array32 → Sym → UInt32

def Array32.initial : Array32 → UInt32
  | .tradeCount => 0
  | .addCount => 0
  | .winBid => bidEmpty
  | .winAsk => askEmpty

namespace HostAccum

/-- Zero everything, sentinel the window; the constructor does the same. -/
def reset : HostAccum where
  u64 := fun _ _ => 0
  u32 := fun a _ => a.initial

def set64 (acc : HostAccum) (a : Array64) (sym : Sym) (v : UInt64) : HostAccum :=
  { acc with u64 := Function.update acc.u64 a (Function.update (acc.u64 a) sym v) }

def set32 (acc : HostAccum) (a : Array32) (sym : Sym) (v : UInt32) : HostAccum :=
  { acc with u32 := Function.update acc.u32 a (Function.update (acc.u32 a) sym v) }

/-- `acc.a[sym] += v`. -/
def add64 (acc : HostAccum) (a : Array64) (sym : Sym) (v : UInt64) : HostAccum :=
  acc.set64 a sym (acc.u64 a sym + v)

def count (acc : HostAccum) (a : Array32) (sym : Sym) : HostAccum :=
  acc.set32 a sym (acc.u32 a sym + 1)

/-- A quote on side `side`: it counts as an add, and the best one of the window stays. -/
def quote (acc : HostAccum) (sym : Sym) (side : UInt8) (price : UInt32) : HostAccum :=
  let acc := acc.count .addCount sym
  if side = 'B'.toUInt8 then
    if acc.u32 .winBid sym < price then acc.set32 .winBid sym price else acc
  else if side = 'S'.toUInt8 then
    if price < acc.u32 .winAsk sym then acc.set32 .winAsk sym price else acc
  else acc

end HostAccum

/-- The body of `cpu_aggregate` for one slot. -/
def cpuAggregateSlot (slot : Ptr) (acc : HostAccum) : HostAccum :=
  let type := slot Ofs.type
  let locate := (loadBe16 (shift slot Ofs.locate)).toNat
  if h : locate < maxSymbols then
    let sym : Sym := ⟨locate, h⟩
    match msgType? type with
    | some .addOrder | some .addOrderMpid =>
      acc.quote sym (slot Ofs.addSide) (loadBe32 (shift slot Ofs.addPrice))
    | some .orderReplace =>
      acc.quote sym (slot slotSideTag) (loadBe32 (shift slot Ofs.replacePrice))
    | some .orderCancel =>
      acc.add64 .cancelShares sym (loadBe32 (shift slot Ofs.cancelCanceled)).toUInt64
    | some .trade =>
      let qty := (loadBe32 (shift slot Ofs.tradeShares)).toUInt64
      if qty = 0 then acc
      else
        let price := loadBe32 (shift slot Ofs.tradePrice)
        let acc := acc.add64 .vwapNum sym (price.toUInt64 * qty)
        let acc := acc.add64 .vwapDen sym qty
        let acc := acc.count .tradeCount sym
        let side := slot Ofs.tradeSide
        if side = 'B'.toUInt8 then acc.add64 .buyVol sym qty
        else if side = 'S'.toUInt8 then acc.add64 .sellVol sym qty
        else acc
    | some .tradeCross =>
      let qty := loadBe64 (shift slot Ofs.crossShares64)
      if qty = 0 then acc
      else
        let price := loadBe32 (shift slot Ofs.crossPrice)
        let acc := acc.add64 .vwapNum sym (price.toUInt64 * qty)
        let acc := acc.add64 .vwapDen sym qty
        acc.count .tradeCount sym
    -- a delete has no measurable contribution
    | _ => acc
  else acc

def cpuAggregate (slots : Ptr) (nMsgs : Nat) (acc : HostAccum) : HostAccum :=
  (List.range nMsgs).foldl
    (fun acc i => cpuAggregateSlot (shift slots (i * slotBytes)) acc) acc

/-- The integer fields of a snapshot row; `vwapNum` is the numerator its `vwap` is
computed from. -/
structure Snapshot where
  vwapNum : UInt64
  volume : UInt64
  buyVol : UInt64
  sellVol : UInt64
  cancelShares : UInt64
  bid : UInt32
  ask : UInt32
  trades : UInt32
  adds : UInt32
  deriving DecidableEq, Repr

namespace Snapshot

def vwap (s : Snapshot) : ℚ :=
  if s.volume = 0 then 0 else s.vwapNum.toNat / s.volume.toNat / 10000

/-- Before rounding; the difference of the volumes is signed, their sum wraps. -/
def imbalance (s : Snapshot) : ℚ :=
  if s.buyVol + s.sellVol = 0 then 0
  else ((s.buyVol.toInt64 - s.sellVol.toInt64).toInt : ℚ) / (s.buyVol + s.sellVol).toNat

end Snapshot

def HostAccum.row (acc : HostAccum) (sym : Sym) : Snapshot where
  vwapNum := acc.u64 .vwapNum sym
  volume := acc.u64 .vwapDen sym
  buyVol := acc.u64 .buyVol sym
  sellVol := acc.u64 .sellVol sym
  cancelShares := acc.u64 .cancelShares sym
  bid := acc.u32 .winBid sym
  ask := acc.u32 .winAsk sym
  trades := acc.u32 .tradeCount sym
  adds := acc.u32 .addCount sym

/-- The rows, and the accumulators with the quote window consumed. -/
def cpuSnapshot (acc : HostAccum) : (Sym → Snapshot) × HostAccum :=
  (acc.row,
    { acc with
      u32 := fun a sym =>
        match a with
        | .winBid => bidEmpty
        | .winAsk => askEmpty
        | a => acc.u32 a sym })

end ItchAggregator
