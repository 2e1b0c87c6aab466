import ItchAggregator.AssemblerStates
import ItchAggregator.Library.ReadLog

/-! The bytes of a message that `fill` reads. The loop body and what it calls are given
once more as computations that read the message byte by byte; run on the message they
are the ones of the assembler, and their logs are the indices read. -/

namespace ItchAggregator

open ReadLog (Reads)

abbrev MsgReads := Reads Nat UInt8

namespace MsgReads

def bytesAt (a n : Nat) : MsgReads (List UInt8) := Reads.getAll ((List.range n).map (a + ·))

def be16 (a : Nat) : MsgReads UInt16 := do
  let l ← bytesAt a 2
  pure (loadBe16 (ptrOf l))

def be32 (a : Nat) : MsgReads UInt32 := do
  let l ← bytesAt a 4
  pure (loadBe32 (ptrOf l))

def be48 (a : Nat) : MsgReads UInt64 := do
  let l ← bytesAt a 6
  pure (loadBe48 (ptrOf l))

def be64 (a : Nat) : MsgReads UInt64 := do
  let l ← bytesAt a 8
  pure (loadBe64 (ptrOf l))

variable (m : Ptr) (a n : Nat)

@[simp] theorem run_bytesAt : (bytesAt a n).run m = bytes (shift m a) n := by
  rw [bytesAt, Reads.run_getAll, List.map_map]
  rfl

@[simp] theorem run_be16 : (be16 a).run m = loadBe16 (shift m a) := by
  simp only [be16, Reads.run_bind, Reads.run_pure, run_bytesAt]
  exact loadBe16_congr fun i hi => ptrOf_bytes _ hi

@[simp] theorem run_be32 : (be32 a).run m = loadBe32 (shift m a) := by
  simp only [be32, Reads.run_bind, Reads.run_pure, run_bytesAt]
  exact loadBe32_congr fun i hi => ptrOf_bytes _ hi

@[simp] theorem run_be48 : (be48 a).run m = loadBe48 (shift m a) := by
  simp only [be48, Reads.run_bind, Reads.run_pure, run_bytesAt]
  exact loadBe48_congr fun i hi => ptrOf_bytes _ hi

@[simp] theorem run_be64 : (be64 a).run m = loadBe64 (shift m a) := by
  simp only [be64, Reads.run_bind, Reads.run_pure, run_bytesAt]
  exact loadBe64_congr fun i hi => ptrOf_bytes _ hi

abbrev Inside (len : Nat) {α : Type} (p : MsgReads α) : Prop := p.Within (· < len) m

variable {m} {len : Nat}

theorem inside_bytesAt : Inside m len (bytesAt a (n + 1)) ↔ a + n < len := by
  simp only [bytesAt, Reads.within_getAll, List.mem_map, List.mem_range, forall_exists_index,
    and_imp, forall_apply_eq_imp_iff₂]
  exact ⟨fun all => all n (Nat.lt_succ_self n), fun last i hi => by omega⟩

@[simp] theorem inside_be16 : Inside m len (be16 a) ↔ a + 1 < len := by
  simp [be16, inside_bytesAt]

@[simp] theorem inside_be32 : Inside m len (be32 a) ↔ a + 3 < len := by
  simp [be32, inside_bytesAt]

@[simp] theorem inside_be48 : Inside m len (be48 a) ↔ a + 5 < len := by
  simp [be48, inside_bytesAt]

@[simp] theorem inside_be64 : Inside m len (be64 a) ↔ a + 7 < len := by
  simp [be64, inside_bytesAt]

theorem inside_message : Inside m len (bytesAt 0 len) := by
  simp [bytesAt]

end MsgReads

namespace SymbolTable

def copyTickerReads : (left n : Nat) → Ptr → MsgReads Ptr
  | 0, n, dst => pure (store dst n 0)
  | left + 1, n, dst => do
    let c ← Reads.get (Ofs.dirStock + n)
    if c = ' '.toUInt8 ∨ c = 0 then pure (store dst n 0)
    else copyTickerReads left (n + 1) (store dst n c)

def updateReads (t : SymbolTable) : MsgReads SymbolTable := do
  let locate ← MsgReads.be16 Ofs.locate
  if maxSymbols ≤ locate.toNat then pure t
  else do
    let name ← copyTickerReads 8 0 (t.names locate.toNat)
    pure ⟨Function.update t.names locate.toNat name⟩

theorem run_copyTickerReads (m : Ptr) (left n : Nat) (dst : Ptr) :
    (copyTickerReads left n dst).run m = copyTicker m left n dst := by
  induction left generalizing n dst with
  | zero => rfl
  | succ left ih =>
    simp only [copyTickerReads, copyTicker, Reads.run_bind, Reads.run_get, Reads.run_ite,
      Reads.run_pure, ih]

@[simp] theorem run_updateReads (m : Ptr) (t : SymbolTable) : t.updateReads.run m = t.update m := by
  simp only [updateReads, update, Reads.run_bind, MsgReads.run_be16, Reads.run_ite,
    Reads.run_pure, run_copyTickerReads]

end SymbolTable

namespace BatchAssembler

variable {k : LogCapacity} {hash : UInt64 → UInt64}

/-- The switch of `fill`, byte by byte. -/
def resolveReads (hash : UInt64 → UInt64) (a : BatchAssembler k) (type : UInt8) :
    MsgReads (UInt8 × BatchAssembler k) :=
  match msgType? type with
  | some .addOrder | some .addOrderMpid => do
    let ref ← MsgReads.be64 Ofs.addRef
    let locate ← MsgReads.be16 Ofs.locate
    let side ← Reads.get Ofs.addSide
    let shares ← MsgReads.be32 Ofs.addShares
    let price ← MsgReads.be32 Ofs.addPrice
    let r := a.orders.insert hash ref locate side shares price
    pure (0, { a with orders := r.2 })
  | some .orderCancel => do
    let ref ← MsgReads.be64 Ofs.cancelRef
    let canceled ← MsgReads.be32 Ofs.cancelCanceled
    let r := a.orders.reduce hash ref canceled
    pure (0,
      { a with
        orders := r.2
        unknownCancels := if r.1 then a.unknownCancels else a.unknownCancels + 1 })
  | some .orderDelete => do
    let ref ← MsgReads.be64 Ofs.delRef
    let r := a.orders.erase hash ref
    pure (0,
      { a with
        orders := r.2
        unknownCancels := if r.1 then a.unknownCancels else a.unknownCancels + 1 })
  | some .orderReplace => do
    let orig ← MsgReads.be64 Ofs.replaceOrigRef
    match a.orders.find hash orig with
    | some o => do
      let new ← MsgReads.be64 Ofs.replaceNewRef
      let shares ← MsgReads.be32 Ofs.replaceShares
      let price ← MsgReads.be32 Ofs.replacePrice
      let r := a.orders.insert hash new o.locate o.side shares price
      pure (o.side, { a with orders := (r.2.erase hash orig).2 })
    | none => pure (0, { a with unresolvedReplaces := a.unresolvedReplaces + 1 })
  | _ => pure (0, a)

def onMessageReads (hash : UInt64 → UInt64) (f : Filling k) (len : Nat) :
    MsgReads (Bool × Filling k) := do
  let type ← Reads.get Ofs.type
  if type = MsgType.stockDir.code then do
    let symbols ← f.asm.symbols.updateReads
    pure (false, { f with asm := { f.asm with symbols := symbols } })
  else if type = MsgType.systemEvent.code then do
    let event ← Reads.get Ofs.sysEvent
    if event = 'O'.toUInt8 then
      if f.batchMeta.nMsgs = 0 then
        pure (false, { f with batchMeta := { f.batchMeta with resetVwap := true } })
      else pure (true, { f with asm := { f.asm with pendingReset := true } })
    else pure (false, f)
  else if !gpuRelevant type then pure (false, f)
  else if slotBytes < len then pure (false, f)
  else do
    let r ← resolveReads hash f.asm type
    let copy ← MsgReads.bytesAt 0 len
    let ts ← MsgReads.be48 Ofs.timestamp
    let slot := f.batchMeta.nMsgs * slotBytes
    let copied := memcpy f.dst slot (ptrOf copy) len
    let padded := memset copied (slot + len) 0 (slotBytes - len)
    pure (false,
      { asm := r.2
        dst :=
          if type = MsgType.orderReplace.code then store padded (slot + slotSideTag) r.1 else padded
        batchMeta :=
          { f.batchMeta with
            firstTs := if f.batchMeta.nMsgs = 0 then ts else f.batchMeta.firstTs
            lastTs := ts
            nMsgs := f.batchMeta.nMsgs + 1 } })

theorem run_resolveReads (m : Ptr) (a : BatchAssembler k) :
    (resolveReads hash a (m Ofs.type)).run m = a.resolve hash m := by
  unfold resolveReads resolve
  cases msgType? (m Ofs.type) with
  | none => rfl
  | some t =>
    cases t with
    | systemEvent | stockDir | trade | tradeCross => rfl
    | addOrder | addOrderMpid | orderCancel | orderDelete => simp
    | orderReplace =>
      simp only [Reads.run_bind, MsgReads.run_be64]
      cases a.orders.find hash (loadBe64 (shift m Ofs.replaceOrigRef)) <;> simp

/-- The reading loop body is the loop body. -/
theorem run_onMessageReads (f : Filling k) (m : Msg) :
    (onMessageReads hash f m.len).run m.data = onMessage hash f m := by
  have copied : ∀ dst a, memcpy dst a (ptrOf (bytes m.data m.len)) m.len =
      memcpy dst a m.data m.len := by
    intro dst a
    funext i
    unfold memcpy
    split
    · exact ptrOf_bytes m.data (by omega)
    · rfl
  unfold onMessageReads onMessage
  simp only [Reads.run_bind, Reads.run_get, Reads.run_ite, Reads.run_pure, MsgReads.run_bytesAt,
    MsgReads.run_be48, SymbolTable.run_updateReads, run_resolveReads, shift_zero, copied]
  rfl

end BatchAssembler

end ItchAggregator
