import ItchAggregator.CsvRows
import ItchAggregator.GpuReports
import ItchAggregator.RunTurns

/-! Under which names the GPU pipeline prints. A periodic snapshot is printed when the
next one is taken, or behind the loop, and with the symbol table of that time; the CPU
pipeline prints it at once. The rows carry the same names unless a directory message in
between renames a symbol that has a row. -/

namespace ItchAggregator

open Batching (Batch since)
open BatchAssembler
open StreamMachine (Complete)

namespace GpuRun

variable {k : LogCapacity} {σ : Type}

structure Host where
  symbols : SymbolTable
  pending : Option (Fin 2)
  tables : List SymbolTable

namespace Host

def print (h : Host) : Host := { h with tables := h.tables ++ [h.symbols] }

def drain (h : Host) : Host := if h.pending = none then h else h.print

end Host

def host (g : GpuRun k σ) : Host := ⟨g.assembler.symbols, g.pending, g.printed.map Prod.snd⟩

variable (g : GpuRun k σ)

theorem waitBarrier_host (s : GpuStream) : (g.waitBarrier s).host = g.host := by
  unfold waitBarrier
  split <;> rfl

theorem waitOther_host (s : GpuStream) : (g.waitOther s).host = g.host := by
  unfold waitOther
  split <;> rfl

theorem print_host (b : Fin 2) (ts : UInt64) : (g.print b ts).host = g.host.print := by
  simp [print, issue, host, Host.print]

theorem drain_host : g.drain.host = g.host.drain := by
  unfold drain Host.drain
  cases pending : g.pending with
  | none => rw [if_pos (by simpa [host] using pending)]
  | some b =>
    rw [if_neg (by simp [host, pending])]
    exact print_host (g.issue (.eventSync (.snapDone b))) b g.pendingTs

theorem printPending_host : g.printPending.host = g.host.drain := by
  unfold printPending Host.drain
  cases pending : g.pending with
  | none => rw [if_pos (by simpa [host] using pending)]
  | some b =>
    rw [if_neg (by simp [host, pending])]
    exact print_host g b g.pendingTs

theorem snapshot_host (s : GpuStream) :
    ∃ b, (g.snapshot s).host = { g.host.drain with pending := some b } := by
  have drained := drain_host (g.waitOther s)
  rw [waitOther_host] at drained
  rw [← drained]
  exact ⟨if (g.waitOther s).pending = some 0 then 1 else 0, rfl⟩

theorem onBatch_host (opt : Options) (slot : Nat) (b : BatchMeta) :
    ∃ q : GpuRun k σ, q.host = g.host ∧
      g.onBatch opt slot b =
        if (g.rs.batches + 1) % opt.snapshotInterval = 0 then q.snapshot g.stream else q := by
  have waited := waitBarrier_host g g.stream
  refine ⟨GpuRun.aggregate (if b.resetVwap then (g.waitBarrier g.stream).reset g.stream
    else g.waitBarrier g.stream) g.stream slot b, ?_, ?_⟩
  · change GpuRun.host (if b.resetVwap then (g.waitBarrier g.stream).reset g.stream
      else g.waitBarrier g.stream) = _
    split
    · exact (waitOther_host (g.waitBarrier g.stream) g.stream).trans waited
    · exact waited
  · have batches : (if b.resetVwap then (g.waitBarrier g.stream).reset g.stream
        else g.waitBarrier g.stream).rs.batches = g.rs.batches := by
      have same : (g.waitBarrier g.stream).rs = g.rs := by
        unfold GpuRun.waitBarrier
        split <;> rfl
      split
      · unfold GpuRun.reset GpuRun.waitOther
        split <;> exact congrArg RunStats.batches same
      · exact congrArg RunStats.batches same
    unfold onBatch
    dsimp only
    rw [← batches]
    rfl

end GpuRun

/-- Of what the CPU pipeline has printed, the host has printed all but the last one, each
with the table that belongs to the next. -/
structure Lagging (h : GpuRun.Host) (symbols : SymbolTable) (tables : List SymbolTable) : Prop where
  symbols : h.symbols = symbols
  pending : h.pending = none ↔ tables = []
  tables : h.tables = tables.tail

namespace Lagging

variable {k : LogCapacity} {σ : Type} {g : GpuRun k σ} {symbols : SymbolTable}
  {tables : List SymbolTable}

theorem snapshot (lagging : Lagging g.host symbols tables) (s : GpuStream) :
    Lagging (g.snapshot s).host symbols (tables ++ [symbols]) := by
  obtain ⟨b, host⟩ := g.snapshot_host s
  rw [host, GpuRun.Host.drain]
  cases tables with
  | nil =>
    rw [if_pos (lagging.pending.mpr rfl)]
    exact ⟨lagging.symbols, by simp, lagging.tables⟩
  | cons first rest =>
    rw [if_neg (mt lagging.pending.mp (List.cons_ne_nil _ _))]
    refine ⟨lagging.symbols, by simp, ?_⟩
    simp only [GpuRun.Host.print, lagging.tables, lagging.symbols, List.tail_cons, List.cons_append]

theorem finish (lagging : Lagging g.host symbols tables) :
    g.finish.printed.map Prod.snd = (tables ++ [symbols]).tail ++ [symbols] := by
  have final : g.finish.host = g.drained.printPending.host.print :=
    GpuRun.print_host { ((g.drained.printPending.issue (.launch 0 .snapshot)).issue
      (.launch 0 (.copyOut 0))).issue (.streamSync 0) with rs := _ } 0 _
  rw [GpuRun.printPending_host] at final
  change g.finish.host.tables = _
  rw [final]
  change (g.host.drain).print.tables = _
  rw [GpuRun.Host.drain]
  cases tables with
  | nil =>
    rw [if_pos (lagging.pending.mpr rfl)]
    simp [GpuRun.Host.print, lagging.tables, lagging.symbols]
  | cons first rest =>
    rw [if_neg (mt lagging.pending.mp (List.cons_ne_nil _ _))]
    simp [GpuRun.Host.print, lagging.tables, lagging.symbols]

theorem turn {opt : Options} {m : DeviceMemory} {r : CpuRun k σ} (twin : GpuRun.Twin m g r)
    (lagging : Lagging g.host r.assembler.symbols (r.printed.map SnapshotCsv.symbols))
    {f f' : Filling k} (same : SameBatch f f') (p : ItchParser σ) :
    Lagging (g.acquire.filled g.ring.next p f').host (r.filled p f).assembler.symbols
        ((r.filled p f).printed.map SnapshotCsv.symbols) ∧
      Lagging ((g.acquire.filled g.ring.next p f').onBatch opt g.ring.next f.batchMeta).host
        ((r.filled p f).onBatch opt f.batchMeta).assembler.symbols
        (((r.filled p f).onBatch opt f.batchMeta).printed.map SnapshotCsv.symbols) := by
  have filled : Lagging (g.acquire.filled g.ring.next p f').host (r.filled p f).assembler.symbols
      ((r.filled p f).printed.map SnapshotCsv.symbols) :=
    ⟨congrArg BatchAssembler.symbols same.asm, lagging.pending, lagging.tables⟩
  refine ⟨filled, ?_⟩
  obtain ⟨q, host, next⟩ :=
    (g.acquire.filled g.ring.next p f').onBatch_host opt g.ring.next f.batchMeta
  have batches : (g.acquire.filled g.ring.next p f').rs.batches = (r.filled p f).rs.batches :=
    congrArg RunStats.batches twin.rs
  rw [← host] at filled
  rw [next, (CpuRun.onBatch_pulls _ _).2, CpuRun.onBatch_printed_symbols, batches]
  split
  · exact filled.snapshot _
  · rw [List.append_nil]
    exact filled

end Lagging

namespace GpuRun

variable {k : LogCapacity} {σ : Type}

def csv (g : GpuRun k σ) (m : DeviceMemory) : List CsvRow :=
  (g.printed.mapIdx fun n label =>
    printSnapshotCsv label.1 (fun sym => m (.out n sym)) label.2).flatten

theorem csv_eq {g : GpuRun k σ} {m : DeviceMemory} {ps : List SnapshotCsv}
    (prints : g.prints m = ps.map fun p => (p.ts, p.snap)) :
    g.csv m = (ps.zip (g.printed.map Prod.snd)).flatMap fun x =>
      printSnapshotCsv x.1.ts x.1.snap x.2 := by
  have length : g.printed.length = ps.length := by
    simpa [GpuRun.prints] using congrArg List.length prints
  rw [csv, List.flatMap_def]
  refine congrArg List.flatten (List.ext_getElem (by simp [length]) fun n here there => ?_)
  have row : ((g.prints m)[n]?) = (ps.map fun p => (p.ts, p.snap))[n]? := by rw [prints]
  have inside : n < g.printed.length := by simpa using here
  have inside' : n < ps.length := length ▸ inside
  simp only [GpuRun.prints, List.getElem?_mapIdx, List.getElem?_map, List.getElem?_eq_getElem inside,
    List.getElem?_eq_getElem inside', Option.map_some, Option.some.injEq, Prod.mk.injEq] at row
  simp [row.1, row.2]

end GpuRun

/-- No symbol with a row in a periodic snapshot gets another name from the directory
messages drawn between that snapshot's last batch and the last one of the next snapshot
or, for the last snapshot, the end of the run. -/
def NamesKept (interval : Nat) (ts : List Turn) : Prop :=
  ∀ j, (j + 1) * interval ≤ Turn.batches ts →
    ∀ sym, (Turn.rows interval ts j sym).dirty = true →
      (Turn.table ts ((j + 2) * interval)).name sym.val =
        (Turn.table ts ((j + 1) * interval)).name sym.val

theorem forall₂_concat {α β : Type*} {R : α → β → Prop} {l : List α} {l' : List β} {a : α} {b : β} :
    List.Forall₂ R (l ++ [a]) (l' ++ [b]) ↔ List.Forall₂ R l l' ∧ R a b := by
  rw [← List.forall₂_reverse_iff]
  simp [and_comm]

namespace CpuRun.Ended

variable {k : LogCapacity} {σ : Type} {r : CpuRun k σ} {interval : Nat} {ts : List Turn}

theorem symbols_next (ended : Ended interval ts r) (positive : 0 < interval) :
    r.assembler.symbols = Turn.table ts ((Turn.batches ts / interval + 1) * interval) := by
  have beyond : ts.length ≤ (Turn.batches ts / interval + 1) * interval :=
    ended.last.trans ((Nat.lt_mul_div_succ _ positive).trans_eq (Nat.mul_comm _ _))
  rw [ended.symbols, Turn.table_all le_rfl, Turn.table_all beyond]

/-- The lagging tables give the snapshots their labels exactly when the names are kept. -/
theorem labels_iff (ended : Ended interval ts r) (positive : 0 < interval) :
    List.Forall₂ SameLabels r.snapshot.printed
        ((r.printed.map SnapshotCsv.symbols ++ [r.assembler.symbols]).tail ++
          [r.assembler.symbols]) ↔
      NamesKept interval ts := by
  let table (j : Nat) : SymbolTable := Turn.table ts ((j + 1) * interval)
  let count := Turn.batches ts / interval
  have later : (r.printed.map SnapshotCsv.symbols ++ [r.assembler.symbols]).tail =
      (List.range count).map fun j => table (j + 1) := by
    have last : r.assembler.symbols = table count := ended.symbols_next positive
    have all : r.printed.map SnapshotCsv.symbols ++ [r.assembler.symbols] =
        (List.range (count + 1)).map table := by
      rw [ended.printed, last, List.range_succ, List.map_append]
      rfl
    rw [all, List.range_succ_eq_map, List.map_cons, List.tail_cons, List.map_map]
    rfl
  have periodic : r.printed.map (fun p => (p.snap, p.symbols)) =
      (List.range count).map fun j => (Turn.rows interval ts j, table j) := by
    rw [← List.zip_map', ended.rows, ended.printed, List.zip_map']
  have names : List.Forall₂ SameLabels r.printed ((List.range count).map fun j => table (j + 1)) ↔
      NamesKept interval ts := by
    let Same (x : (Sym → Snapshot) × SymbolTable) (symbols : SymbolTable) : Prop :=
      ∀ sym, (x.1 sym).dirty = true → symbols.name sym.val = x.2.name sym.val
    have pairs : List.Forall₂ SameLabels r.printed ((List.range count).map fun j => table (j + 1)) ↔
        List.Forall₂ Same (r.printed.map fun p => (p.snap, p.symbols))
          ((List.range count).map fun j => table (j + 1)) :=
      (List.forall₂_map_left_iff (R := Same) (f := fun p : SnapshotCsv => (p.snap, p.symbols))).symm
    rw [pairs, periodic, List.forall₂_map_left_iff, List.forall₂_map_right_iff, List.forall₂_same]
    refine forall_congr' fun j => ?_
    rw [List.mem_range, ← Nat.succ_le_iff, Nat.le_div_iff_mul_le positive]
  rw [later]
  have final : r.snapshot.printed =
      r.printed ++ [⟨r.lastTs, (cpuSnapshot r.acc).1, r.assembler.symbols⟩] := rfl
  rw [final, forall₂_concat, names]
  exact and_iff_left fun _ _ => rfl

end CpuRun.Ended

variable {σ : Type} {source : ByteSource σ} {left : σ → List UInt8} {s : σ} {opt : Options}

theorem labels_of_runs {turns : Nat} {r : CpuRun 24 σ} (m : DeviceMemory)
    (cpu : runCpu source opt turns s = some r) :
    ∃ g, runGpu source opt turns s = some g ∧
      ∀ final, Complete deviceOps g.commands m final →
        ((g.csv final.mem).map CsvRow.label = r.csv.map CsvRow.label ↔
          NamesKept opt.snapshotInterval (runCpuTurns source opt turns s)) := by
  obtain ⟨r', looped, rfl⟩ := Option.map_eq_some_iff.mp cpu
  obtain ⟨g', looped', twin, lagging⟩ := GpuRun.loop_paired
    (R := fun g r => GpuRun.Twin m g r ∧
      Lagging g.host r.assembler.symbols (r.printed.map SnapshotCsv.symbols))
    (fun both => ⟨both.1.parser, both.1.assembler⟩)
    (fun both _ _ same p =>
      have twins := both.1.turn same p
      have lags := Lagging.turn both.1 both.2 same p
      ⟨⟨twins.1, lags.1⟩, twins.2, lags.2⟩)
    ⟨GpuRun.Twin.start m _ 4, rfl, ⟨fun _ => rfl, fun _ => rfl⟩, rfl⟩ looped
  have gpu : runGpu source opt turns s = some g'.finish := by
    rw [runGpu, looped']
    rfl
  refine ⟨g'.finish, gpu, fun final run => ?_⟩
  have prints : g'.finish.prints final.mem = r'.snapshot.printed.map fun p => (p.ts, p.snap) := by
    rw [run.memory (GpuRun.runGpu_synced gpu)]
    exact twin.finish.2
  have ended := (CpuRun.Turned.start opt.snapshotInterval _).loop looped
  have length : r'.snapshot.printed.length = (g'.finish.printed.map Prod.snd).length := by
    simpa [GpuRun.prints] using (congrArg List.length prints).symm
  rw [GpuRun.csv_eq prints, CpuRun.csv, flatMap_labels_iff length, lagging.finish,
    ended.labels_iff opt.interval_pos]
  rfl

/-- The two pipelines label their rows alike exactly when directory messages rename no
symbol between the snapshot with its row and the print of that snapshot. -/
theorem runGpu_labels_iff (hsrc : source.Delivers left) (m : DeviceMemory) :
    (∃ turns r, runCpu source opt turns s = some r) ∧
    ∀ turns r, runCpu source opt turns s = some r →
      ∃ g, runGpu source opt turns s = some g ∧
        (∃ final, Complete deviceOps g.commands m final) ∧
        ∀ final, Complete deviceOps g.commands m final →
          ((g.csv final.mem).map CsvRow.label = r.csv.map CsvRow.label ↔
            NamesKept opt.snapshotInterval (runCpuTurns source opt turns s)) := by
  refine ⟨runCpu_returns hsrc s opt, fun turns r cpu => ?_⟩
  obtain ⟨g, gpu, labels⟩ := labels_of_runs m cpu
  exact ⟨g, gpu, StreamMachine.exists_complete _ _ m, labels⟩

def listing (locate : UInt8) (ticker : List UInt8) : List UInt8 :=
  [0, 39, 82, 0, locate, 0, 0, 0, 0, 0, 0, 0, 1] ++ ticker ++ List.replicate 20 0

/-- The ticker `AAPL` with a trade in front of a market open and one behind it, and a ticker
`MSFT` that has no trade. -/
def listedLate : List UInt8 :=
  listing 7 [65, 65, 80, 76, 32, 32, 32, 32] ++ (reopened ++ listing 9 [77, 83, 70, 84, 32, 32, 32, 32])

/-- With a snapshot after every batch the late ticker changes no label. -/
theorem runGpu_labels_iff_late :
    let opt : Options := ⟨1, 0, by decide⟩
    ∃ r g, runCpu memSource opt 8 listedLate = some r ∧ runGpu memSource opt 8 listedLate = some g ∧
      r.printed.length = 3 ∧ ∃ final, Complete deviceOps g.commands DeviceMemory.zeroed final ∧
        (g.csv final.mem).map CsvRow.label = r.csv.map CsvRow.label := by
  intro opt
  let ts := runCpuTurns memSource opt 8 listedLate
  have ran : (runCpu memSource opt 8 listedLate).map (fun r => r.printed.length) = some 3 := by
    decide +kernel
  obtain ⟨r, cpu, three⟩ := Option.map_eq_some_iff.mp ran
  obtain ⟨g, gpu, ⟨final, complete⟩, labels⟩ :=
    (@runGpu_labels_iff _ memSource id listedLate opt memSource_delivers
      DeviceMemory.zeroed).2 8 r cpu
  have two : Turn.batches ts = 2 := by decide +kernel
  have shipped : ∀ j < 2, ∀ m ∈ since ((ts.map Turn.batch).take (j + 1)) ++
      since (((ts.map Turn.batch).take (j + 1)).drop j), m.locatedAt 7 = true := by decide +kernel
  have names : ∀ j < 2, (Turn.table ts (j + 2)).name 7 = (Turn.table ts (j + 1)).name 7 := by
    decide +kernel
  have kept : NamesKept opt.snapshotInterval ts := by
    intro j inside sym dirty
    have inside : j < 2 := by
      rw [two] at inside
      exact (Nat.mul_one (j + 1)).symm.trans_le inside
    obtain ⟨m, mem, here⟩ := report_dirty dirty
    have seven := shipped j inside m (by simpa [opt] using mem)
    have same : sym = 7 := Fin.ext ((beq_iff_eq.mp here).symm.trans (beq_iff_eq.mp seven))
    have table : ∀ n, n * opt.snapshotInterval = n := Nat.mul_one
    rw [same, table, table]
    exact names j inside
  exact ⟨r, g, cpu, gpu, three, final, complete, (labels final complete).mpr kept⟩

/-- A directory message for locate 7 and the ticker `AAPL`, a trade, a market open, and
another directory message with the ticker `MSFT`. -/
def renamed : List UInt8 :=
  listing 7 [65, 65, 80, 76, 32, 32, 32, 32] ++ ([0, 44] ++ tradeFrame ++
    ([0, 12, 83, 0, 0, 0, 0, 0, 0, 0, 0, 0, 1, 79] ++ listing 7 [77, 83, 70, 84, 32, 32, 32, 32]))

/-- With a snapshot after every batch, `run_cpu` prints the trade's row as `AAPL` and
`run_gpu` as `MSFT`. -/
theorem labels_differ :
    let opt : Options := ⟨1, 0, by decide⟩
    ∃ r g, runCpu memSource opt 8 renamed = some r ∧ runGpu memSource opt 8 renamed = some g ∧
      (∃ final, Complete deviceOps g.commands DeviceMemory.zeroed final) ∧
      ∀ final, Complete deviceOps g.commands DeviceMemory.zeroed final →
        (g.csv final.mem).map CsvRow.label ≠ r.csv.map CsvRow.label := by
  intro opt
  have returns : (runCpu memSource opt 8 renamed).isSome = true := by decide +kernel
  obtain ⟨r, cpu⟩ := Option.isSome_iff_exists.mp returns
  obtain ⟨g, gpu, labels⟩ := labels_of_runs DeviceMemory.zeroed cpu
  refine ⟨r, g, cpu, gpu, StreamMachine.exists_complete _ _ _, fun final complete same => ?_⟩
  have kept := (labels final complete).mp same 0
  have printed : Turn.batches (runCpuTurns memSource opt 8 renamed) = 1 := by decide +kernel
  have traded : (Turn.rows 1 (runCpuTurns memSource opt 8 renamed) 0 7).dirty = true := by
    decide +kernel
  have names : (Turn.table (runCpuTurns memSource opt 8 renamed) 2).name 7 ≠
      (Turn.table (runCpuTurns memSource opt 8 renamed) 1).name 7 := by decide +kernel
  exact names (kept printed.ge 7 traded)

end ItchAggregator
