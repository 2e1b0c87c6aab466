import ItchAggregator.DeviceOps
import ItchAggregator.RunCpu

/-! The GPU pipeline. The host fills the slots of a ring and gives copies, kernels,
records and waits to two streams in turn; it reads a snapshot's rows when it prints
them. What it issues depends on `fill` alone, so that a run leaves a program for the
stream machine and the labels of what was printed; the rows are left to the
executions of that program. -/

namespace ItchAggregator

open BatchAssembler
open StreamMachine (Cmd Program)

/-- The index of one of the two streams; the other one is `1 - s`. -/
abbrev GpuStream := Fin 2

inductive GpuEvent
  | done (slot : Nat)
  | barrier
  | snapDone (b : Fin 2)
  deriving DecidableEq, Repr

/-- The slots go by their index; `next` is the one `acquire` hands out. -/
structure SlotRing where
  nSlots : Nat
  next : Nat := 0

/-- The locals of `run_gpu`, the host buffers of the slots, and what has been issued.
The rows of the `n`-th print are in the output `n`. -/
structure GpuRun (k : LogCapacity) (σ : Type) where
  parser : ItchParser σ
  assembler : BatchAssembler k
  ring : SlotRing
  hRaw : Nat → Ptr
  commands : Program DeviceOp GpuStream GpuEvent
  lastAgg : GpuStream → Option GpuEvent
  barrierSet : Bool
  pending : Option (Fin 2)
  pendingTs : UInt64
  rs : RunStats
  lastTs : UInt64
  printed : List (UInt64 × SymbolTable)

namespace GpuRun

variable {k : LogCapacity} {σ : Type}

def start (k : LogCapacity) (nSlots : Nat) (p : ItchParser σ) : GpuRun k σ where
  parser := p
  assembler := .start k
  ring := { nSlots := nSlots }
  hRaw := fun _ _ => 0
  commands := [.launch 0 .reset, .streamSync 0]
  lastAgg := fun _ => none
  barrierSet := false
  pending := none
  pendingTs := 0
  rs := {}
  lastTs := 0
  printed := []

def issue (r : GpuRun k σ) (c : Cmd DeviceOp GpuStream GpuEvent) : GpuRun k σ :=
  { r with commands := r.commands ++ [c] }

/-- `acquire`: the slot's last use has drained. -/
def acquire (r : GpuRun k σ) : GpuRun k σ :=
  { r.issue (.eventSync (.done r.ring.next)) with
    ring := { r.ring with next := (r.ring.next + 1) % r.ring.nSlots } }

def filled (r : GpuRun k σ) (slot : Nat) (p : ItchParser σ) (f : Filling k) : GpuRun k σ :=
  { r.issue (.host (.fill slot f.dst f.batchMeta.nMsgs)) with
    parser := p
    assembler := f.asm
    hRaw := Function.update r.hRaw slot f.dst }

def stream (r : GpuRun k σ) : GpuStream := Fin.ofNat 2 r.rs.batches

def waitBarrier (r : GpuRun k σ) (s : GpuStream) : GpuRun k σ :=
  if r.barrierSet then r.issue (.wait s .barrier) else r

def waitOther (r : GpuRun k σ) (s : GpuStream) : GpuRun k σ :=
  match r.lastAgg (1 - s) with
  | some e => r.issue (.wait s e)
  | none => r

def reset (r : GpuRun k σ) (s : GpuStream) : GpuRun k σ :=
  let r := r.waitOther s
  let r := r.issue (.launch s .reset)
  let r := r.issue (.record s .barrier)
  { r with barrierSet := true }

def aggregate (r : GpuRun k σ) (s : GpuStream) (slot : Nat) (b : BatchMeta) : GpuRun k σ :=
  let r := r.issue (.launch s (.copyIn slot b.nMsgs))
  let r := r.issue (.launch s (.decode slot b.nMsgs))
  let r := r.issue (.launch s (.aggregate slot b.nMsgs))
  let r := r.issue (.record s (.done slot))
  { r with
    lastAgg := Function.update r.lastAgg s (some (.done slot))
    lastTs := b.lastTs
    rs :=
      { r.rs with
        shippedMsgs := r.rs.shippedMsgs + b.nMsgs
        batches := r.rs.batches + 1 } }

def print (r : GpuRun k σ) (b : Fin 2) (ts : UInt64) : GpuRun k σ :=
  { r.issue (.host (.print r.printed.length b)) with
    printed := r.printed ++ [(ts, r.assembler.symbols)] }

/-- Print the previous snapshot once it has arrived. -/
def drain (r : GpuRun k σ) : GpuRun k σ :=
  match r.pending with
  | some b => (r.issue (.eventSync (.snapDone b))).print b r.pendingTs
  | none => r

def snapshot (r : GpuRun k σ) (s : GpuStream) : GpuRun k σ :=
  let r := r.waitOther s
  let bi : Fin 2 := if r.pending = some 0 then 1 else 0
  let r := r.drain
  let r := r.issue (.launch s .snapshot)
  let r := r.issue (.record s .barrier)
  let r := r.issue (.launch s (.copyOut bi))
  let r := r.issue (.record s (.snapDone bi))
  { r with
    barrierSet := true
    pending := some bi
    pendingTs := r.lastTs
    rs := { r.rs with snapshots := r.rs.snapshots + 1 } }

/-- The loop body behind the call of `fill`, for a batch with messages. -/
def onBatch (opt : Options) (r : GpuRun k σ) (slot : Nat) (b : BatchMeta) : GpuRun k σ :=
  let s := r.stream
  let r := r.waitBarrier s
  let r := if b.resetVwap then r.reset s else r
  let r := r.aggregate s slot b
  if r.rs.batches % opt.snapshotInterval = 0 then r.snapshot s else r

def loop (source : ByteSource σ) (hash : UInt64 → UInt64) (opt : Options) (turns : Nat) :
    Nat → GpuRun k σ → Option (GpuRun k σ)
  | 0, _ => none
  | loops + 1, r =>
    let slot := r.ring.next
    let r := r.acquire
    match fill source hash turns r.parser r.assembler (r.hRaw slot) with
    | none => none
    | some (p, f) =>
      let r := r.filled slot p f
      if f.batchMeta.nMsgs = 0 then some r
      else
        let r := r.onBatch opt slot f.batchMeta
        if opt.maxMsgs ≠ 0 ∧ opt.maxMsgs ≤ r.parser.total then some r
        else loop source hash opt turns loops r

theorem loop_cases {source : ByteSource σ} {hash : UInt64 → UInt64} {opt : Options}
    {turns loops : Nat} {r r' : GpuRun k σ}
    (result : loop source hash opt turns (loops + 1) r = some r') :
    ∃ p f, fill source hash turns r.acquire.parser r.acquire.assembler
        (r.acquire.hRaw r.ring.next) = some (p, f) ∧
      let filled := r.acquire.filled r.ring.next p f
      let next := filled.onBatch opt r.ring.next f.batchMeta
      (f.batchMeta.nMsgs = 0 ∧ r' = filled ∨
        f.batchMeta.nMsgs ≠ 0 ∧
          ((opt.maxMsgs ≠ 0 ∧ opt.maxMsgs ≤ next.parser.total) ∧ r' = next ∨
            ¬(opt.maxMsgs ≠ 0 ∧ opt.maxMsgs ≤ next.parser.total) ∧
              loop source hash opt turns loops next = some r')) := by
  unfold loop at result
  dsimp only at result
  cases call : fill source hash turns r.acquire.parser r.acquire.assembler
      (r.acquire.hRaw r.ring.next) with
  | none => simp [call] at result
  | some x =>
    obtain ⟨p, f⟩ := x
    rw [call] at result
    refine ⟨p, f, rfl, ?_⟩
    dsimp only at result ⊢
    split at result
    · rename_i empty
      exact Or.inl ⟨empty, (Option.some.inj result).symm⟩
    · rename_i some_
      refine Or.inr ⟨some_, ?_⟩
      split at result
      · rename_i reached
        exact Or.inl ⟨reached, (Option.some.inj result).symm⟩
      · rename_i more
        exact Or.inr ⟨more, result⟩

def drained (r : GpuRun k σ) : GpuRun k σ :=
  let r := r.issue (.streamSync 0)
  r.issue (.streamSync 1)

def printPending (r : GpuRun k σ) : GpuRun k σ :=
  match r.pending with
  | some b => r.print b r.pendingTs
  | none => r

def finalSnapshot (r : GpuRun k σ) : GpuRun k σ :=
  let r := r.issue (.launch 0 .snapshot)
  let r := r.issue (.launch 0 (.copyOut 0))
  let r := r.issue (.streamSync 0)
  let r := { r with rs := { r.rs with snapshots := r.rs.snapshots + 1 } }
  r.print 0 r.lastTs

def finish (r : GpuRun k σ) : GpuRun k σ := r.drained.printPending.finalSnapshot

end GpuRun

/-- `run_gpu` over the bytes of `s`, with its ring of four slots. -/
def runGpu {σ : Type} (source : ByteSource σ) (opt : Options) (turns : Nat) (s : σ) :
    Option (GpuRun 24 σ) :=
  (GpuRun.loop source OrderHash.mix opt turns turns
    (.start 24 4 (ItchParser.start s ItchParser.defaultBufBytes))).map GpuRun.finish

end ItchAggregator
