import ItchAggregator.ItchParser
import ItchAggregator.OrderHash

/-! The batch assembler: messages are pulled from the parser, order references are
resolved against the order table, and what the kernels use is packed into 48-byte
slots of the caller's buffer. A market-open event closes a batch that has messages
and flags the next one. -/

namespace ItchAggregator

structure BatchMeta where
  nMsgs : Nat := 0
  resetVwap : Bool := false
  firstTs : UInt64 := 0
  lastTs : UInt64 := 0

/-- The assembler with the order table it refers to. -/
structure BatchAssembler (k : LogCapacity) where
  orders : OrderHash k
  symbols : SymbolTable
  pendingReset : Bool
  unresolvedReplaces : Nat
  unknownCancels : Nat

namespace BatchAssembler

variable {k : LogCapacity} {σ : Type}

def start (k : LogCapacity) : BatchAssembler k where
  orders := .empty k
  symbols := .empty
  pendingReset := false
  unresolvedReplaces := 0
  unknownCancels := 0

/-- The switch of `fill`: the side tag, which only a replace sets, and the assembler
after the message's calls on the order table. -/
def resolve (hash : UInt64 → UInt64) (a : BatchAssembler k) (msg : Ptr) :
    UInt8 × BatchAssembler k :=
  match msgType? (msg Ofs.type) with
  | some .addOrder | some .addOrderMpid =>
    let r := a.orders.insert hash (loadBe64 (shift msg Ofs.addRef))
      (loadBe16 (shift msg Ofs.locate)) (msg Ofs.addSide)
      (loadBe32 (shift msg Ofs.addShares)) (loadBe32 (shift msg Ofs.addPrice))
    (0, { a with orders := r.2 })
  | some .orderCancel =>
    let r := a.orders.reduce hash (loadBe64 (shift msg Ofs.cancelRef))
      (loadBe32 (shift msg Ofs.cancelCanceled))
    (0,
      { a with
        orders := r.2
        unknownCancels := if r.1 then a.unknownCancels else a.unknownCancels + 1 })
  | some .orderDelete =>
    let r := a.orders.erase hash (loadBe64 (shift msg Ofs.delRef))
    (0,
      { a with
        orders := r.2
        unknownCancels := if r.1 then a.unknownCancels else a.unknownCancels + 1 })
  | some .orderReplace =>
    let orig := loadBe64 (shift msg Ofs.replaceOrigRef)
    match a.orders.find hash orig with
    | some o =>
      -- the results of both calls are dropped
      let r := a.orders.insert hash (loadBe64 (shift msg Ofs.replaceNewRef)) o.locate o.side
        (loadBe32 (shift msg Ofs.replaceShares)) (loadBe32 (shift msg Ofs.replacePrice))
      (o.side, { a with orders := (r.2.erase hash orig).2 })
    | none => (0, { a with unresolvedReplaces := a.unresolvedReplaces + 1 })
  | _ => (0, a)

def pack (dst : Ptr) (i : Nat) (m : Msg) (sideTag : UInt8) : Ptr :=
  let slot := i * slotBytes
  let copied := memcpy dst slot m.data m.len
  let padded := memset copied (slot + m.len) 0 (slotBytes - m.len)
  if m.data Ofs.type = MsgType.orderReplace.code then store padded (slot + slotSideTag) sideTag
  else padded

/-- The locals of `fill` with the assembler and the destination buffer. -/
structure Filling (k : LogCapacity) where
  asm : BatchAssembler k
  batchMeta : BatchMeta
  dst : Ptr

def Filling.ship (f : Filling k) (asm : BatchAssembler k) (m : Msg) (sideTag : UInt8) :
    Filling k where
  asm := asm
  dst := pack f.dst f.batchMeta.nMsgs m sideTag
  batchMeta :=
    let ts := loadBe48 (shift m.data Ofs.timestamp)
    { f.batchMeta with
      firstTs := if f.batchMeta.nMsgs = 0 then ts else f.batchMeta.firstTs
      lastTs := ts
      nMsgs := f.batchMeta.nMsgs + 1 }

/-- The loop body of `fill` after `next` returned `m`; `true` is its `break`. -/
def onMessage (hash : UInt64 → UInt64) (f : Filling k) (m : Msg) : Bool × Filling k :=
  let type := m.data Ofs.type
  if type = MsgType.stockDir.code then
    (false, { f with asm := { f.asm with symbols := f.asm.symbols.update m.data } })
  else if type = MsgType.systemEvent.code then
    if m.data Ofs.sysEvent = 'O'.toUInt8 then
      if f.batchMeta.nMsgs = 0 then
        (false, { f with batchMeta := { f.batchMeta with resetVwap := true } })
      else (true, { f with asm := { f.asm with pendingReset := true } })
    else (false, f)
  else if !gpuRelevant type then (false, f)
  -- malformed: in-scope types are at most 44 bytes
  else if slotBytes < m.len then (false, f)
  else
    let r := f.asm.resolve hash m.data
    (false, f.ship r.2 m r.1)

/-- The loop of `fill`; `none` when the turns run out. -/
def fillLoop (source : ByteSource σ) (hash : UInt64 → UInt64) :
    Nat → ItchParser σ → Filling k → Option (ItchParser σ × Filling k)
  | 0, _, _ => none
  | turns + 1, p, f =>
    if f.batchMeta.nMsgs < batchMsgs then
      match p.next source with
      | (none, p) => some (p, f)
      | (some m, p) =>
        match onMessage hash f m with
        | (true, f) => some (p, f)
        | (false, f) => fillLoop source hash turns p f
    else some (p, f)

def Filling.enter (a : BatchAssembler k) (dst : Ptr) : Filling k where
  asm := { a with pendingReset := false }
  batchMeta := { resetVwap := a.pendingReset }
  dst := dst

def fill (source : ByteSource σ) (hash : UInt64 → UInt64) (turns : Nat) (p : ItchParser σ)
    (a : BatchAssembler k) (dst : Ptr) : Option (ItchParser σ × Filling k) :=
  fillLoop source hash turns p (.enter a dst)

end BatchAssembler

end ItchAggregator
