import ItchAggregator.Tally

/-! The CPU pipeline: batches are filled and aggregated until one is empty, a
snapshot is taken every so many batches and once more at the end. -/

namespace ItchAggregator

open BatchAssembler

/-- The options the pipelines read; a limit of 0 messages is no limit. -/
structure Options where
  snapshotInterval : Nat
  maxMsgs : Nat
  interval_pos : 0 < snapshotInterval

namespace Options

def default : Options := ⟨128, 0, by decide⟩

end Options

/-- What `print_snapshot_csv` is called with. -/
structure SnapshotCsv where
  ts : UInt64
  snap : Sym → Snapshot
  symbols : SymbolTable

structure RunStats where
  batches : Nat := 0
  shippedMsgs : Nat := 0
  snapshots : Nat := 0

/-- The locals of `run_cpu`, and what it has printed. -/
structure CpuRun (k : LogCapacity) (σ : Type) where
  parser : ItchParser σ
  assembler : BatchAssembler k
  batch : Ptr
  acc : HostAccum
  rs : RunStats
  lastTs : UInt64
  printed : List SnapshotCsv

namespace CpuRun

variable {k : LogCapacity} {σ : Type}

def start (k : LogCapacity) (p : ItchParser σ) : CpuRun k σ where
  parser := p
  assembler := .start k
  batch := fun _ => 0
  acc := .reset
  rs := {}
  lastTs := 0
  printed := []

def snapshot (r : CpuRun k σ) : CpuRun k σ :=
  let s := cpuSnapshot r.acc
  { r with
    acc := s.2
    rs := { r.rs with snapshots := r.rs.snapshots + 1 }
    printed := r.printed ++ [⟨r.lastTs, s.1, r.assembler.symbols⟩] }

/-- The loop body up to its snapshot, for a batch with messages. -/
def aggregate (r : CpuRun k σ) (b : BatchMeta) : CpuRun k σ :=
  let acc := if b.resetVwap then .reset else r.acc
  { r with
    acc := cpuAggregate r.batch b.nMsgs acc
    lastTs := b.lastTs
    rs :=
      { r.rs with
        shippedMsgs := r.rs.shippedMsgs + b.nMsgs
        batches := r.rs.batches + 1 } }

def onBatch (opt : Options) (r : CpuRun k σ) (b : BatchMeta) : CpuRun k σ :=
  let r := r.aggregate b
  if r.rs.batches % opt.snapshotInterval = 0 then r.snapshot else r

/-- The loop of `run_cpu`; `none` when the turns run out. -/
def loop (source : ByteSource σ) (hash : UInt64 → UInt64) (opt : Options) (turns : Nat) :
    Nat → CpuRun k σ → Option (CpuRun k σ)
  | 0, _ => none
  | loops + 1, r =>
    match fill source hash turns r.parser r.assembler r.batch with
    | none => none
    | some (p, f) =>
      let r := { r with parser := p, assembler := f.asm, batch := f.dst }
      if f.batchMeta.nMsgs = 0 then some r
      else
        let r := r.onBatch opt f.batchMeta
        if opt.maxMsgs ≠ 0 ∧ opt.maxMsgs ≤ r.parser.total then some r
        else loop source hash opt turns loops r

end CpuRun

/-- `run_cpu` over the bytes of `s`, with the table of 2^24 slots and the buffer it
constructs; the last of its snapshots is the final one. -/
def runCpu {σ : Type} (source : ByteSource σ) (opt : Options) (turns : Nat) (s : σ) :
    Option (CpuRun 24 σ) :=
  (CpuRun.loop source OrderHash.mix opt turns turns
    (.start 24 (ItchParser.start s ItchParser.defaultBufBytes))).map CpuRun.snapshot

/-! The accumulators and the snapshots depend on the calls of `fill` alone. -/

structure Ledger where
  acc : HostAccum
  batches : Nat
  rows : List (Sym → Snapshot)

namespace Ledger

def start : Ledger := ⟨.reset, 0, []⟩

def snapshot (l : Ledger) : Ledger :=
  let s := cpuSnapshot l.acc
  { l with acc := s.2, rows := l.rows ++ [s.1] }

def call (interval : Nat) (l : Ledger) (c : BatchAssembler.Call) : Ledger :=
  let acc := if c.batchMeta.resetVwap then .reset else l.acc
  let l := { l with acc := cpuAggregate c.out c.batchMeta.nMsgs acc, batches := l.batches + 1 }
  if l.batches % interval = 0 then l.snapshot else l

end Ledger

namespace CpuRun

variable {k : LogCapacity} {σ : Type} {source : ByteSource σ} {hash : UInt64 → UInt64}
  {opt : Options} {turns : Nat} {r r' : CpuRun k σ}

def ledger (r : CpuRun k σ) : Ledger := ⟨r.acc, r.rs.batches, r.printed.map SnapshotCsv.snap⟩

theorem snapshot_ledger (r : CpuRun k σ) : r.snapshot.ledger = r.ledger.snapshot := by
  simp [snapshot, ledger, Ledger.snapshot]

theorem onBatch_ledger (r : CpuRun k σ) (dst : Ptr) (b : BatchMeta) :
    (r.onBatch opt b).ledger = r.ledger.call opt.snapshotInterval ⟨dst, b, r.batch⟩ := by
  simp only [onBatch, Ledger.call]
  change (if (r.rs.batches + 1) % opt.snapshotInterval = 0 then _ else _ : CpuRun k σ).ledger =
    if (r.rs.batches + 1) % opt.snapshotInterval = 0 then _ else _
  split
  · rw [snapshot_ledger]
    rfl
  · rfl

theorem onBatch_pulls (r : CpuRun k σ) (b : BatchMeta) :
    (r.onBatch opt b).parser = r.parser ∧ (r.onBatch opt b).assembler = r.assembler := by
  simp only [onBatch]
  split <;> exact ⟨rfl, rfl⟩

def filled (r : CpuRun k σ) (p : ItchParser σ) (f : Filling k) : CpuRun k σ :=
  { r with parser := p, assembler := f.asm, batch := f.dst }

/-- A turn of the loop is a call of `fill`: the loop ends behind an empty batch, or
behind the one that reaches the limit, or goes on. -/
theorem loop_cases {loops : Nat} (result : loop source hash opt turns (loops + 1) r = some r') :
    ∃ p f, fill source hash turns r.parser r.assembler r.batch = some (p, f) ∧
      (f.batchMeta.nMsgs = 0 ∧ r' = r.filled p f ∨
        f.batchMeta.nMsgs ≠ 0 ∧
          ((opt.maxMsgs ≠ 0 ∧ opt.maxMsgs ≤ p.total) ∧
              r' = (r.filled p f).onBatch opt f.batchMeta ∨
            ¬(opt.maxMsgs ≠ 0 ∧ opt.maxMsgs ≤ p.total) ∧
              loop source hash opt turns loops ((r.filled p f).onBatch opt f.batchMeta) =
                some r')) := by
  unfold loop at result
  cases call : fill source hash turns r.parser r.assembler r.batch with
  | none => simp [call] at result
  | some x =>
    obtain ⟨p, f⟩ := x
    rw [call] at result
    have parser : ((r.filled p f).onBatch opt f.batchMeta).parser = p := (onBatch_pulls _ _).1
    refine ⟨p, f, rfl, ?_⟩
    change (if f.batchMeta.nMsgs = 0 then some (r.filled p f) else
      if opt.maxMsgs ≠ 0 ∧ opt.maxMsgs ≤ ((r.filled p f).onBatch opt f.batchMeta).parser.total then
        some ((r.filled p f).onBatch opt f.batchMeta)
      else loop source hash opt turns loops ((r.filled p f).onBatch opt f.batchMeta)) =
        some r' at result
    rw [parser] at result
    split at result
    · rename_i empty
      exact Or.inl ⟨empty, (Option.some.inj result).symm⟩
    · rename_i some_
      refine Or.inr ⟨some_, ?_⟩
      split at result
      · rename_i reached
        exact Or.inl ⟨reached, (Option.some.inj result).symm⟩
      · rename_i more
        exact Or.inr ⟨more, result⟩

/-- Enough turns for the messages are enough for the run. -/
theorem loop_returns {q : ItchParser σ} {ms : List Msg} {loops : Nat}
    (yields : ItchParser.Yields source r.parser ms q) (bounds : r.parser.Bounds)
    (enough : ms.length < turns) (rounds : ms.length < loops) :
    ∃ r', loop source hash opt turns loops r = some r' := by
  induction loops generalizing ms r with
  | zero => omega
  | succ loops ih =>
    obtain ⟨p, f, call⟩ := fill_returns yields bounds r.assembler r.batch enough
    obtain ⟨used, rest, drew⟩ := fill_drew yields bounds call
    unfold loop
    rw [call]
    dsimp only
    by_cases empty : f.batchMeta.nMsgs = 0
    · exact ⟨_, if_pos empty⟩
    · rw [if_neg empty]
      split
      · exact ⟨_, rfl⟩
      · have shorter := drew.shorter empty
        have left : rest.length < turns ∧ rest.length < loops := by omega
        refine ih ?_ ?_ left.1 left.2
        · rw [(onBatch_pulls _ _).1]
          exact drew.yields
        · rw [(onBatch_pulls _ _).1]
          exact drew.bounds

/-- Without a limit the run is a run of `fill` until an empty batch, and its
ledger is that of the calls. -/
theorem loop_batches {loops : Nat} (unlimited : opt.maxMsgs = 0)
    (result : loop source hash opt turns loops r = some r') :
    ∃ calls last, Batches source hash r.parser r.assembler calls last r'.parser r'.assembler ∧
      r'.ledger = calls.foldl (Ledger.call opt.snapshotInterval) r.ledger := by
  induction loops generalizing r with
  | zero => cases result
  | succ loops ih =>
    obtain ⟨p, f, call, ⟨empty, rfl⟩ | ⟨some, ⟨reached, _⟩ | ⟨_, later⟩⟩⟩ := loop_cases result
    · exact ⟨[], _, .stop r.batch turns call empty, rfl⟩
    · exact absurd unlimited reached.1
    · obtain ⟨calls, last, run, final⟩ := ih later
      rw [(onBatch_pulls _ _).1, (onBatch_pulls _ _).2] at run
      rw [onBatch_ledger _ r.batch] at final
      exact ⟨_, last, .batch r.batch turns call some run, final⟩

end CpuRun

end ItchAggregator
