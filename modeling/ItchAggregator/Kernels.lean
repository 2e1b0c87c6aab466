import ItchAggregator.CpuReference
import ItchAggregator.Library.Threads

/-! The kernels, one thread for each message or symbol, over the memory they share
with the host: the raw slots on both sides, the decoded batch, the accumulators and
the snapshot buffers. -/

namespace ItchAggregator

open Threads

inductive SoaField
  | type
  | side
  | locate
  | price
  | qty
  | ts
  deriving DecidableEq, Repr

abbrev SoaField.Ty : SoaField → Type
  | .type => UInt8
  | .side => UInt8
  | .locate => UInt16
  | .price => UInt32
  | .qty => UInt64
  | .ts => UInt64

/-- Memory locations. `hRaw`, `dRaw` and `soa` are the buffers of a ring slot; `hSnap`
is one of the two host snapshot buffers; `out` is what the host printed, snapshot by
snapshot. -/
inductive Loc
  | hRaw (slot i : Nat)
  | dRaw (slot i : Nat)
  | soa (f : SoaField) (slot idx : Nat)
  | acc64 (a : Array64) (sym : Sym)
  | acc32 (a : Array32) (sym : Sym)
  | dSnap (sym : Sym)
  | hSnap (b : Fin 2) (sym : Sym)
  | out (n : Nat) (sym : Sym)
  deriving DecidableEq

abbrev Loc.Ty : Loc → Type
  | .hRaw _ _ => UInt8
  | .dRaw _ _ => UInt8
  | .soa f _ _ => f.Ty
  | .acc64 _ _ => UInt64
  | .acc32 _ _ => UInt32
  | .dSnap _ => Snapshot
  | .hSnap _ _ => Snapshot
  | .out _ _ => Snapshot

abbrev DeviceMemory := Memory Loc.Ty

def DeviceMemory.zeroed : DeviceMemory := fun l =>
  match l with
  | .hRaw _ _ | .dRaw _ _ | .soa .type _ _ | .soa .side _ _ => (0 : UInt8)
  | .soa .locate _ _ => (0 : UInt16)
  | .soa .price _ _ | .acc32 _ _ => (0 : UInt32)
  | .soa .qty _ _ | .soa .ts _ _ | .acc64 _ _ => (0 : UInt64)
  | .dSnap _ | .hSnap _ _ | .out _ _ => (⟨0, 0, 0, 0, 0, 0, 0, 0, 0⟩ : Snapshot)

abbrev ThreadCode := Code Loc.Ty

/-! Atomic operations. -/

def atomicMax (v x : UInt32) : UInt32 := if x < v then v else x

def atomicMin (v x : UInt32) : UInt32 := if v < x then v else x

theorem atomicMax_toNat (v x : UInt32) : (atomicMax v x).toNat = max x.toNat v.toNat := by
  have lt := UInt32.lt_iff_toNat_lt (a := x) (b := v)
  unfold atomicMax
  split
  · have := lt.mp ‹_›
    omega
  · have := mt lt.mpr ‹_›
    omega

theorem atomicMin_toNat (v x : UInt32) : (atomicMin v x).toNat = min x.toNat v.toNat := by
  have lt := UInt32.lt_iff_toNat_lt (a := v) (b := x)
  unfold atomicMin
  split
  · have := lt.mp ‹_›
    omega
  · have := mt lt.mpr ‹_›
    omega

/-- Adds commute with adds, maxima with maxima and minima with minima. -/
def atomics : Blending Loc.Ty where
  ops := fun l =>
    match l with
    | .acc64 _ _ => Set.range fun (v x : UInt64) => x + v
    | .acc32 .tradeCount _ => Set.range fun (v x : UInt32) => x + v
    | .acc32 .addCount _ => Set.range fun (v x : UInt32) => x + v
    | .acc32 .winBid _ => Set.range atomicMax
    | .acc32 .winAsk _ => Set.range atomicMin
    | _ => ∅
  commute := by
    intro l f hf g hg x
    match l with
    | .acc64 _ _ =>
      obtain ⟨v, rfl⟩ := hf
      obtain ⟨w, rfl⟩ := hg
      exact add_right_comm x w v
    | .acc32 .tradeCount _ | .acc32 .addCount _ =>
      obtain ⟨v, rfl⟩ := hf
      obtain ⟨w, rfl⟩ := hg
      exact add_right_comm x w v
    | .acc32 .winBid _ =>
      obtain ⟨v, rfl⟩ := hf
      obtain ⟨w, rfl⟩ := hg
      apply UInt32.toNat_inj.mp
      rw [atomicMax_toNat, atomicMax_toNat, atomicMax_toNat, atomicMax_toNat, max_right_comm]
    | .acc32 .winAsk _ =>
      obtain ⟨v, rfl⟩ := hf
      obtain ⟨w, rfl⟩ := hg
      apply UInt32.toNat_inj.mp
      rw [atomicMin_toNat, atomicMin_toNat, atomicMin_toNat, atomicMin_toNat, min_right_comm]
    | .hRaw _ _ | .dRaw _ _ | .soa _ _ _ | .dSnap _ | .hSnap _ _ | .out _ _ =>
      exact absurd hf (Set.notMem_empty f)

/-! The threads. -/

structure Decoded where
  type : UInt8
  side : UInt8
  locate : UInt16
  price : UInt32
  qty : UInt64
  ts : UInt64
  deriving DecidableEq, Repr

/-- The switch of `decode_kernel`: side, price and quantity. -/
def decodeSwitch (slot : Ptr) : UInt8 × UInt32 × UInt64 :=
  match msgType? (slot Ofs.type) with
  | some .addOrder | some .addOrderMpid =>
    (slot Ofs.addSide, loadBe32 (shift slot Ofs.addPrice),
      (loadBe32 (shift slot Ofs.addShares)).toUInt64)
  | some .orderReplace =>
    (slot slotSideTag, loadBe32 (shift slot Ofs.replacePrice),
      (loadBe32 (shift slot Ofs.replaceShares)).toUInt64)
  | some .orderCancel => (0, 0, (loadBe32 (shift slot Ofs.cancelCanceled)).toUInt64)
  | some .trade =>
    (slot Ofs.tradeSide, loadBe32 (shift slot Ofs.tradePrice),
      (loadBe32 (shift slot Ofs.tradeShares)).toUInt64)
  | some .tradeCross =>
    (0, loadBe32 (shift slot Ofs.crossPrice), loadBe64 (shift slot Ofs.crossShares64))
  -- a delete and anything unexpected: header only
  | _ => (0, 0, 0)

def decodeSlot (slot : Ptr) : Decoded where
  type := slot Ofs.type
  side := (decodeSwitch slot).1
  locate := loadBe16 (shift slot Ofs.locate)
  price := (decodeSwitch slot).2.1
  qty := (decodeSwitch slot).2.2
  ts := loadBe48 (shift slot Ofs.timestamp)

def loadRaw (slot base : Nat) : Nat → Ptr → (Ptr → ThreadCode) → ThreadCode
  | 0, p, next => next p
  | n + 1, p, next => .load (.dRaw slot (base + n)) fun b => loadRaw slot base n (store p n b) next

/-- `decode_kernel`, the thread of message `idx`. -/
def decodeKernel (slot idx : Nat) : ThreadCode :=
  loadRaw slot (idx * slotBytes) slotBytes (fun _ => 0) fun raw =>
    let d := decodeSlot raw
    .store (.soa .type slot idx) d.type <|
    .store (.soa .side slot idx) d.side <|
    .store (.soa .locate slot idx) d.locate <|
    .store (.soa .price slot idx) d.price <|
    .store (.soa .qty slot idx) d.qty <|
    .store (.soa .ts slot idx) d.ts .done

def atomAdd64 (a : Array64) (sym : Sym) (v : UInt64) (next : ThreadCode) : ThreadCode :=
  .update (.acc64 a sym) (fun x => x + v) next

def atomicAdd (a : Array32) (sym : Sym) (v : UInt32) (next : ThreadCode) : ThreadCode :=
  .update (.acc32 a sym) (fun x => x + v) next

def aggregateSwitch (sym : Sym) (type side : UInt8) (price : UInt32) (qty : UInt64) : ThreadCode :=
  match msgType? type with
  | some .addOrder | some .addOrderMpid | some .orderReplace =>
    atomicAdd .addCount sym 1 <|
      if side = 'B'.toUInt8 then .update (.acc32 .winBid sym) (atomicMax price) .done
      else if side = 'S'.toUInt8 then .update (.acc32 .winAsk sym) (atomicMin price) .done
      else .done
  | some .orderCancel => atomAdd64 .cancelShares sym qty .done
  | some .trade =>
    if qty = 0 then .done
    else
      atomAdd64 .vwapNum sym (price.toUInt64 * qty) <|
      atomAdd64 .vwapDen sym qty <|
      atomicAdd .tradeCount sym 1 <|
        if side = 'B'.toUInt8 then atomAdd64 .buyVol sym qty .done
        else if side = 'S'.toUInt8 then atomAdd64 .sellVol sym qty .done
        else .done
  | some .tradeCross =>
    if qty = 0 then .done
    else
      atomAdd64 .vwapNum sym (price.toUInt64 * qty) <|
      atomAdd64 .vwapDen sym qty <|
      atomicAdd .tradeCount sym 1 .done
  | _ => .done

def aggregateKernel (slot idx : Nat) : ThreadCode :=
  .load (.soa .type slot idx) fun type =>
  .load (.soa .side slot idx) fun side =>
  .load (.soa .locate slot idx) fun locate =>
  .load (.soa .price slot idx) fun price =>
  .load (.soa .qty slot idx) fun qty =>
    if h : UInt16.toNat locate < maxSymbols then
      aggregateSwitch ⟨UInt16.toNat locate, h⟩ type side price qty
    else .done

def resetKernel (sym : Sym) : ThreadCode :=
  .store (.acc64 .vwapNum sym) (0 : UInt64) <|
  .store (.acc64 .vwapDen sym) (0 : UInt64) <|
  .store (.acc64 .buyVol sym) (0 : UInt64) <|
  .store (.acc64 .sellVol sym) (0 : UInt64) <|
  .store (.acc64 .cancelShares sym) (0 : UInt64) <|
  .store (.acc32 .tradeCount sym) (0 : UInt32) <|
  .store (.acc32 .addCount sym) (0 : UInt32) <|
  .store (.acc32 .winBid sym) bidEmpty <|
  .store (.acc32 .winAsk sym) askEmpty .done

def snapshotKernel (sym : Sym) : ThreadCode :=
  .load (.acc64 .vwapNum sym) fun num =>
  .load (.acc64 .vwapDen sym) fun den =>
  .load (.acc64 .buyVol sym) fun buy =>
  .load (.acc64 .sellVol sym) fun sell =>
  .load (.acc64 .cancelShares sym) fun cancel =>
  .load (.acc32 .tradeCount sym) fun trades =>
  .load (.acc32 .addCount sym) fun adds =>
  .load (.acc32 .winBid sym) fun bid =>
  .load (.acc32 .winAsk sym) fun ask =>
  .store (.dSnap sym) (⟨num, den, buy, sell, cancel, bid, ask, trades, adds⟩ : Snapshot) <|
  .store (.acc32 .winBid sym) bidEmpty <|
  .store (.acc32 .winAsk sym) askEmpty .done

end ItchAggregator
