import ItchAggregator.Reports
import ItchAggregator.TradeSums

/-! The turns of the pipelines' loop. A turn draws messages from the parser: the directory
messages among them go to the symbol table and the others to its batch. What the CPU
pipeline prints, and the symbol table it prints with, follow from the turns. -/

namespace ItchAggregator

open Batching (Batch since hold)
open BatchAssembler

def SymbolTable.listed (t : SymbolTable) (ms : List Msg) : SymbolTable :=
  ms.foldl (fun t m => if m.data Ofs.type = MsgType.stockDir.code then t.update m.data else t) t

theorem SymbolTable.listed_append (t : SymbolTable) (l r : List Msg) :
    t.listed (l ++ r) = (t.listed l).listed r := List.foldl_append

namespace BatchAssembler

variable {k : LogCapacity} {σ : Type} {source : ByteSource σ} {hash : UInt64 → UInt64}

def fillReads (source : ByteSource σ) (hash : UInt64 → UInt64) :
    Nat → ItchParser σ → Filling k → List Msg
  | 0, _, _ => []
  | turns + 1, p, f =>
    if f.batchMeta.nMsgs < batchMsgs then
      match p.next source with
      | (none, _) => []
      | (some m, p) =>
        let r := onMessage hash f m
        if r.1 then [m] else m :: fillReads source hash turns p r.2
    else []

theorem fillReads_message {turns : Nat} {p p' : ItchParser σ} {f : Filling k} {m : Msg}
    (room : f.batchMeta.nMsgs < batchMsgs) (call : p.next source = (some m, p')) :
    fillReads source hash (turns + 1) p f =
      if (onMessage hash f m).1 then [m]
      else m :: fillReads source hash turns p' (onMessage hash f m).2 := by
  rw [fillReads, if_pos room, call]

theorem resolve_symbols (a : BatchAssembler k) (msg : Ptr) :
    (a.resolve hash msg).2.symbols = a.symbols := by
  unfold resolve
  cases msgType? (msg Ofs.type) with
  | none => rfl
  | some t =>
    cases t with
    | orderReplace =>
      cases found : a.orders.find hash (loadBe64 (shift msg Ofs.replaceOrigRef)) <;> simp [found]
    | _ => rfl

theorem onMessage_symbols (f : Filling k) (m : Msg) :
    (onMessage hash f m).2.asm.symbols = f.asm.symbols.listed [m] := by
  simp only [onMessage, SymbolTable.listed, List.foldl_cons, List.foldl_nil]
  by_cases dir : m.data Ofs.type = MsgType.stockDir.code
  · rw [if_pos dir, if_pos dir]
  · rw [if_neg dir, if_neg dir]
    split
    · split
      · split <;> rfl
      · rfl
    · split
      · rfl
      · split
        · rfl
        · exact resolve_symbols f.asm m.data

theorem fillLoop_symbols {turns : Nat} {p p' : ItchParser σ} {f f' : Filling k}
    (result : fillLoop source hash turns p f = some (p', f')) :
    f'.asm.symbols = f.asm.symbols.listed (fillReads source hash turns p f) := by
  induction turns generalizing p f with
  | zero => cases result
  | succ turns ih =>
    rcases fillLoop_cases result with ⟨full, rfl, rfl⟩ | ⟨room, ⟨call, rfl⟩ | ⟨m, q, call, turn⟩⟩
    · rw [fillReads, if_neg full]
      rfl
    · rw [fillReads, if_pos room, call]
      rfl
    · rw [fillReads_message room call]
      have step : (onMessage hash f m).2.asm.symbols = _ := onMessage_symbols f m
      rcases turn with ⟨closes, rfl, rfl⟩ | ⟨stays, later⟩
      · rw [if_pos closes]
        exact step
      · rw [if_neg (Bool.eq_false_iff.mp stays), ih later, step, ← SymbolTable.listed_append]
        rfl

end BatchAssembler

/-- A turn: what it draws from the parser, and the batch it fills. -/
structure Turn where
  reads : List Msg
  batch : Batch Shipped

namespace Turn

def ofFill {k : LogCapacity} (reads : List Msg) (f : Filling k) : Turn where
  reads := reads
  batch := ⟨SlotBatch.messages ⟨f.dst, f.batchMeta.nMsgs⟩, f.batchMeta.resetVwap⟩

def batches (ts : List Turn) : Nat := ts.countP fun t => !t.batch.items.isEmpty

def table (ts : List Turn) (n : Nat) : SymbolTable :=
  SymbolTable.empty.listed ((ts.take n).flatMap Turn.reads)

/-- The rows of the periodic snapshot `j`, behind the batch `(j + 1) * interval`. -/
def rows (interval : Nat) (ts : List Turn) (j : Nat) : Sym → Snapshot :=
  let upto := (ts.map Turn.batch).take ((j + 1) * interval)
  report (since upto) (since (upto.drop (j * interval)))

theorem table_concat {ts : List Turn} {n : Nat} (t : Turn) (inside : n ≤ ts.length) :
    table (ts ++ [t]) n = table ts n := by
  rw [table, table, List.take_append_of_le_length inside]

theorem table_all {ts : List Turn} {n : Nat} (all : ts.length ≤ n) :
    table ts n = SymbolTable.empty.listed (ts.flatMap Turn.reads) := by
  rw [table, List.take_of_length_le all]

end Turn

theorem range_succ_div (m n : Nat) :
    List.range ((m + 1) / n) =
      if (m + 1) % n = 0 then List.range (m / n) ++ [m / n] else List.range (m / n) := by
  rw [Nat.succ_div]
  by_cases due : (m + 1) % n = 0
  · rw [if_pos due, if_pos (Nat.dvd_of_mod_eq_zero due), List.range_succ]
  · rw [if_neg due, if_neg fun divides => due (Nat.mod_eq_zero_of_dvd divides), Nat.add_zero]

theorem Tallied.turn {acc : HostAccum} {day window : List Shipped}
    (tallied : Tallied acc day window) (b : SlotBatch) (reset : Bool) :
    Tallied (cpuAggregate b.raw b.nMsgs (if reset then .reset else acc))
      (hold day ⟨b.messages, reset⟩) (hold window ⟨b.messages, reset⟩) := by
  unfold hold
  cases reset with
  | true => exact Tallied.reset.slotBatch b
  | false => exact tallied.slotBatch b

namespace CpuRun

variable {k : LogCapacity} {σ : Type} {source : ByteSource σ} {hash : UInt64 → UInt64}
  {opt : Options} {turns loops interval : Nat} {r r' : CpuRun k σ} {ts : List Turn}

def turn (source : ByteSource σ) (hash : UInt64 → UInt64) (turns : Nat) (r : CpuRun k σ)
    (f : Filling k) : Turn :=
  .ofFill (fillReads source hash turns r.parser (.enter r.assembler r.batch)) f

def loopTurns (source : ByteSource σ) (hash : UInt64 → UInt64) (opt : Options) (turns : Nat) :
    Nat → CpuRun k σ → List Turn
  | 0, _ => []
  | loops + 1, r =>
    match fill source hash turns r.parser r.assembler r.batch with
    | none => []
    | some (p, f) =>
      if f.batchMeta.nMsgs = 0 then [r.turn source hash turns f]
      else if opt.maxMsgs ≠ 0 ∧ opt.maxMsgs ≤ p.total then [r.turn source hash turns f]
      else
        r.turn source hash turns f ::
          loopTurns source hash opt turns loops ((r.filled p f).onBatch opt f.batchMeta)

structure Turned (interval : Nat) (ts : List Turn) (r : CpuRun k σ) : Prop where
  full : Turn.batches ts = ts.length
  ledger : r.ledger.Reports interval (ts.map Turn.batch)
  symbols : r.assembler.symbols = Turn.table ts ts.length
  printed : r.printed.map SnapshotCsv.symbols =
    (List.range (ts.length / interval)).map fun j => Turn.table ts ((j + 1) * interval)

/-- The run has ended its loop behind the turns `ts`, the last of which may have been
without messages. -/
structure Ended (interval : Nat) (ts : List Turn) (r : CpuRun k σ) : Prop where
  last : ts.length ≤ Turn.batches ts + 1
  symbols : r.assembler.symbols = Turn.table ts ts.length
  rows : r.printed.map SnapshotCsv.snap =
    (List.range (Turn.batches ts / interval)).map (Turn.rows interval ts)
  printed : r.printed.map SnapshotCsv.symbols =
    (List.range (Turn.batches ts / interval)).map fun j => Turn.table ts ((j + 1) * interval)

theorem turn_symbols {p : ItchParser σ} {f : Filling k}
    (symbols : r.assembler.symbols = Turn.table ts ts.length)
    (call : fill source hash turns r.parser r.assembler r.batch = some (p, f)) :
    f.asm.symbols = Turn.table (ts ++ [r.turn source hash turns f]) (ts.length + 1) := by
  have drawn : f.asm.symbols = r.assembler.symbols.listed _ := fillLoop_symbols call
  rw [drawn, symbols, Turn.table_all le_rfl, Turn.table_all (by simp), List.flatMap_append,
    SymbolTable.listed_append, List.flatMap_singleton]
  rfl

theorem onBatch_printed_symbols (r : CpuRun k σ) (b : BatchMeta) :
    (r.onBatch opt b).printed.map SnapshotCsv.symbols =
      r.printed.map SnapshotCsv.symbols ++
        if (r.rs.batches + 1) % opt.snapshotInterval = 0 then [r.assembler.symbols] else [] := by
  simp only [onBatch]
  change (if (r.rs.batches + 1) % opt.snapshotInterval = 0 then _ else _ : CpuRun k σ).printed.map
    SnapshotCsv.symbols = _
  split
  · exact List.map_append
  · exact (List.append_nil _).symm

namespace Turned

theorem start (interval : Nat) (p : ItchParser σ) : Turned interval [] (.start k p) where
  full := rfl
  ledger := .start
  symbols := rfl
  printed := by simp [CpuRun.start]

theorem onBatch {p : ItchParser σ} {f : Filling k} (turned : Turned opt.snapshotInterval ts r)
    (call : fill source hash turns r.parser r.assembler r.batch = some (p, f))
    (messages : f.batchMeta.nMsgs ≠ 0) :
    Turned opt.snapshotInterval (ts ++ [r.turn source hash turns f])
      ((r.filled p f).onBatch opt f.batchMeta) where
  full := by
    have items : (r.turn source hash turns f).batch.items ≠ [] := by
      simp [turn, Turn.ofFill, SlotBatch.messages, messages]
    rw [Turn.batches, List.countP_append, ← Turn.batches, turned.full]
    simp [items]
  ledger := by
    rw [onBatch_ledger _ r.batch, List.map_append]
    exact turned.ledger.tally opt.interval_pos
      (turned.ledger.tallied.turn ⟨f.dst, f.batchMeta.nMsgs⟩ f.batchMeta.resetVwap)
  symbols := by
    rw [(onBatch_pulls _ _).2, List.length_append]
    exact turn_symbols turned.symbols call
  printed := by
    have batches : r.rs.batches = ts.length := by
      have count := turned.ledger.batches
      rwa [List.length_map] at count
    have earlier : (List.range (ts.length / opt.snapshotInterval)).map
          (fun j => Turn.table (ts ++ [r.turn source hash turns f])
            ((j + 1) * opt.snapshotInterval)) =
        (List.range (ts.length / opt.snapshotInterval)).map
          fun j => Turn.table ts ((j + 1) * opt.snapshotInterval) := by
      refine List.map_congr_left fun j hj => Turn.table_concat _ ?_
      exact (Nat.le_div_iff_mul_le opt.interval_pos).mp (List.mem_range.mp hj)
    rw [onBatch_printed_symbols, List.length_append, List.length_singleton, range_succ_div]
    change r.printed.map _ ++ (if (r.rs.batches + 1) % _ = 0 then [f.asm.symbols] else []) = _
    rw [turned.printed, batches, turn_symbols turned.symbols call]
    by_cases due : (ts.length + 1) % opt.snapshotInterval = 0
    · have next : (ts.length / opt.snapshotInterval + 1) * opt.snapshotInterval = ts.length + 1 := by
        rw [← Nat.succ_div_of_dvd (Nat.dvd_of_mod_eq_zero due)]
        exact Nat.div_mul_cancel (Nat.dvd_of_mod_eq_zero due)
      rw [if_pos due, if_pos due, List.map_append, earlier, List.map_singleton, next]
    · rw [if_neg due, if_neg due, earlier, List.append_nil]

theorem ended (turned : Turned interval ts r) : Ended interval ts r where
  last := by
    rw [turned.full]
    exact Nat.le_succ _
  symbols := turned.symbols
  rows := by
    have rows := turned.ledger.rows
    rw [List.length_map] at rows
    rw [turned.full]
    exact rows
  printed := by
    rw [turned.full]
    exact turned.printed

theorem empty {p : ItchParser σ} {f : Filling k} (turned : Turned interval ts r)
    (call : fill source hash turns r.parser r.assembler r.batch = some (p, f))
    (none : f.batchMeta.nMsgs = 0) :
    Ended interval (ts ++ [r.turn source hash turns f]) (r.filled p f) := by
  have batches : Turn.batches (ts ++ [r.turn source hash turns f]) = ts.length := by
    have items : (r.turn source hash turns f).batch.items = [] := by
      simp [turn, Turn.ofFill, SlotBatch.messages, none]
    rw [Turn.batches, List.countP_append, ← Turn.batches, turned.full]
    simp [items]
  have inside : ∀ j ∈ List.range (ts.length / interval), (j + 1) * interval ≤ ts.length := by
    intro j hj
    exact (Nat.mul_le_mul_right _ (List.mem_range.mp hj)).trans (Nat.div_mul_le_self _ _)
  refine ⟨?_, ?_, ?_, ?_⟩
  · rw [batches, List.length_append, List.length_singleton]
  · rw [List.length_append]
    exact turn_symbols turned.symbols call
  · have rows := turned.ledger.rows
    rw [List.length_map] at rows
    rw [batches]
    refine Eq.trans rows (List.map_congr_left fun j hj => ?_)
    simp only [Turn.rows, List.map_append]
    rw [List.take_append_of_le_length (by rw [List.length_map]; exact inside j hj)]
  · rw [batches]
    refine Eq.trans turned.printed (List.map_congr_left fun j hj => ?_)
    rw [Turn.table_concat _ (inside j hj)]

theorem loop (turned : Turned opt.snapshotInterval ts r)
    (result : CpuRun.loop source hash opt turns loops r = some r') :
    Ended opt.snapshotInterval (ts ++ loopTurns source hash opt turns loops r) r' := by
  induction loops generalizing r ts with
  | zero => cases result
  | succ loops ih =>
    obtain ⟨p, f, call, turn⟩ := loop_cases result
    unfold loopTurns
    rw [call]
    dsimp only
    rcases turn with ⟨empty, rfl⟩ | ⟨messages, ⟨reached, rfl⟩ | ⟨more, looped⟩⟩
    · rw [if_pos empty]
      exact turned.empty call empty
    · rw [if_neg messages, if_pos reached]
      exact (turned.onBatch call messages).ended
    · rw [if_neg messages, if_neg more, ← List.singleton_append, ← List.append_assoc]
      exact ih (turned.onBatch call messages) looped

end Turned

end CpuRun

def runCpuTurns {σ : Type} (source : ByteSource σ) (opt : Options) (turns : Nat) (s : σ) :
    List Turn :=
  CpuRun.loopTurns source OrderHash.mix opt turns turns
    (.start 24 (ItchParser.start s ItchParser.defaultBufBytes))

end ItchAggregator
