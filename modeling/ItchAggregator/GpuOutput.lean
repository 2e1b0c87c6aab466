import ItchAggregator.GpuLabels
import ItchAggregator.RunOutput

/-! What a run of the GPU pipeline prints, as a function of the messages it has read: the
snapshots of the CPU pipeline, every one of them under the names listed when the next one
is taken, in whatever order the device works. -/

namespace ItchAggregator

open StreamMachine (Complete)

/-- Every snapshot with the table of the next one, the last one with its own. -/
def lagging (ps : List SnapshotCsv) : List SnapshotCsv :=
  let tables := ps.map SnapshotCsv.symbols
  (ps.zip (tables.tail ++ tables.getLast?.toList)).map fun x => { x.1 with symbols := x.2 }

def csvRows (ps : List SnapshotCsv) : List CsvRow :=
  ps.flatMap fun p => printSnapshotCsv p.ts p.snap p.symbols

namespace GpuRun

variable {k : LogCapacity} {σ : Type}

theorem printPending_pulls (g : GpuRun k σ) :
    g.printPending.parser = g.parser ∧ g.printPending.assembler = g.assembler := by
  unfold printPending
  split <;> exact ⟨rfl, rfl⟩

theorem finish_pulls (g : GpuRun k σ) :
    g.finish.parser = g.parser ∧ g.finish.assembler = g.assembler :=
  (printPending_pulls g.drained : _)

end GpuRun

variable {σ : Type} {source : ByteSource σ} {left : σ → List UInt8} {s : σ} {opt : Options}

theorem runGpu_beside {turns : Nat} {r : CpuRun 24 σ} (m : DeviceMemory)
    (cpu : runCpu source opt turns s = some r) :
    ∃ g, runGpu source opt turns s = some g ∧ g.rs = r.rs ∧ g.parser = r.parser ∧
      g.assembler = r.assembler ∧ ∀ final, Complete deviceOps g.commands m final →
        g.csv final.mem = csvRows (lagging r.printed) := by
  obtain ⟨r', looped, rfl⟩ := Option.map_eq_some_iff.mp cpu
  obtain ⟨g', looped', twin, lags⟩ := GpuRun.loop_paired
    (R := fun g r => GpuRun.Twin m g r ∧
      Lagging g.host r.assembler.symbols (r.printed.map SnapshotCsv.symbols))
    (fun both => ⟨both.1.parser, both.1.assembler⟩)
    (fun both _ _ same p =>
      have twins := both.1.turn same p
      have lags := Lagging.turn both.1 both.2 same p
      ⟨⟨twins.1, lags.1⟩, twins.2, lags.2⟩)
    ⟨GpuRun.Twin.start m _ 4, rfl, ⟨fun _ => rfl, fun _ => rfl⟩, rfl⟩ looped
  have gpu : runGpu source opt turns s = some g'.finish := by
    rw [runGpu, looped']
    rfl
  refine ⟨g'.finish, gpu, twin.finish.1, ?_, ?_, fun final run => ?_⟩
  · exact g'.finish_pulls.1.trans twin.parser
  · exact g'.finish_pulls.2.trans twin.assembler
  · have prints : g'.finish.prints final.mem = r'.snapshot.printed.map fun p => (p.ts, p.snap) := by
      rw [run.memory (GpuRun.runGpu_synced gpu)]
      exact twin.finish.2
    have tables : r'.snapshot.printed.map SnapshotCsv.symbols =
        r'.printed.map SnapshotCsv.symbols ++ [r'.assembler.symbols] := List.map_append
    rw [GpuRun.csv_eq prints, csvRows, lagging, tables, lags.finish, List.getLast?_concat,
      List.flatMap_map]
    rfl

/-- No symbol with a row in a snapshot has another name in the table of the next one. -/
def NamesHeld (ps : List SnapshotCsv) : Prop :=
  ∀ i p next, ps[i]? = some p → ps[i + 1]? = some next → SameLabels p next.symbols

theorem printSnapshotCsv_names {p : SnapshotCsv} {symbols : SymbolTable}
    (same : SameLabels p symbols) :
    printSnapshotCsv p.ts p.snap symbols = printSnapshotCsv p.ts p.snap p.symbols := by
  refine List.map_congr_left fun sym mem => ?_
  rw [same sym (List.mem_filter.mp mem).2]

theorem namesHeld_cons {p next : SnapshotCsv} {ps : List SnapshotCsv} :
    NamesHeld (p :: next :: ps) ↔ SameLabels p next.symbols ∧ NamesHeld (next :: ps) := by
  constructor
  · intro held
    exact ⟨held 0 p next rfl rfl, fun i q later here there => held (i + 1) q later here there⟩
  · rintro ⟨first, held⟩ i q later here there
    cases i with
    | zero =>
      obtain rfl := Option.some_inj.mp here
      obtain rfl := Option.some_inj.mp there
      exact first
    | succ i => exact held i q later here there

theorem lagging_cons (p next : SnapshotCsv) (ps : List SnapshotCsv) :
    lagging (p :: next :: ps) = { p with symbols := next.symbols } :: lagging (next :: ps) := by
  simp [lagging]

/-- The lagging tables change no row exactly when they change no name. -/
theorem csvRows_lagging_iff (ps : List SnapshotCsv) :
    csvRows (lagging ps) = csvRows ps ↔ NamesHeld ps := by
  induction ps with
  | nil => simp [lagging, csvRows, NamesHeld]
  | cons p ps ih =>
    cases ps with
    | nil => simp [lagging, csvRows, NamesHeld]
    | cons next ps =>
      have rows (q : SnapshotCsv) (qs : List SnapshotCsv) :
          csvRows (q :: qs) = printSnapshotCsv q.ts q.snap q.symbols ++ csvRows qs := rfl
      have size : (printSnapshotCsv p.ts p.snap next.symbols).length =
          (printSnapshotCsv p.ts p.snap p.symbols).length := by
        simp [printSnapshotCsv]
      rw [lagging_cons, namesHeld_cons, ← ih, rows, rows p]
      constructor
      · intro both
        obtain ⟨here, later⟩ := List.append_inj both size
        exact ⟨(labels_eq_iff _ _ _ _).mp (congrArg (List.map CsvRow.label) here), later⟩
      · rintro ⟨same, later⟩
        rw [later, printSnapshotCsv_names same]

/-- Whatever order the streams and events leave open, a run of `run_gpu` prints the snapshots
of `run_cpu` under the names of the next snapshot each; these are the rows of `run_cpu` exactly
when no name changes in between. -/
theorem runGpu_output (hsrc : source.Delivers left) (m : DeviceMemory) :
    (∃ turns r, runCpu source opt turns s = some r) ∧
    ∀ turns r, runCpu source opt turns s = some r →
      ∃ g, runGpu source opt turns s = some g ∧
        (∃ final, Complete deviceOps g.commands m final) ∧
        g.rs = r.rs ∧ g.parser = r.parser ∧ g.assembler = r.assembler ∧
        ∀ final, Complete deviceOps g.commands m final →
          g.csv final.mem = csvRows (lagging r.printed) ∧
          (g.csv final.mem = r.csv ↔ NamesHeld r.printed) := by
  refine ⟨runCpu_returns hsrc s opt, fun turns r cpu => ?_⟩
  obtain ⟨g, gpu, stats, parser, assembler, rows⟩ := runGpu_beside m cpu
  refine ⟨g, gpu, StreamMachine.exists_complete _ _ m, stats, parser, assembler,
    fun final run => ?_⟩
  rw [rows final run]
  exact ⟨rfl, csvRows_lagging_iff r.printed⟩

/-- With a snapshot after every batch, the first trade, of `AAPL`, is printed under the name
that its symbol gets behind the second one. -/
theorem runGpu_output_renamed :
    let bs := listing 7 [65, 65, 80, 76, 32, 32, 32, 32] ++
      (reopened ++ listing 7 [77, 83, 70, 84, 32, 32, 32, 32])
    ∃ r g, runCpu memSource ⟨1, 0, by decide⟩ 8 bs = some r ∧
      runGpu memSource ⟨1, 0, by decide⟩ 8 bs = some g ∧ g.rs.batches = 2 ∧
      (∃ final, Complete deviceOps g.commands DeviceMemory.zeroed final) ∧
      ∀ final, Complete deviceOps g.commands DeviceMemory.zeroed final →
        g.csv final.mem = csvRows (lagging r.printed) ∧ g.csv final.mem ≠ r.csv := by
  intro bs
  have ran : (runCpu memSource ⟨1, 0, by decide⟩ 8 bs).map (fun r =>
      (r.rs.batches, r.printed.map fun p => ((p.snap 7).dirty, p.symbols.name (7 : Sym).val))) =
        some (2, [(true, [65, 65, 80, 76]), (true, [77, 83, 70, 84]),
          (true, [77, 83, 70, 84])]) := by decide +kernel
  obtain ⟨r, result, counters⟩ := Option.map_eq_some_iff.mp ran
  obtain ⟨two, printed⟩ := Prod.mk.inj counters
  obtain ⟨_, output⟩ :=
    @runGpu_output _ memSource id bs ⟨1, 0, by decide⟩ memSource_delivers DeviceMemory.zeroed
  obtain ⟨g, gpu, complete, stats, _, _, rows⟩ := output 8 r result
  refine ⟨r, g, result, gpu, stats ▸ two, complete, fun final run => ⟨(rows final run).1, ?_⟩⟩
  intro same
  have held := (rows final run).2.mp same
  obtain ⟨p, next, last, three⟩ : ∃ p next last, r.printed = [p, next, last] :=
    List.length_eq_three.mp (by simpa using congrArg List.length printed)
  rw [three] at printed held
  simp only [List.map_cons, List.map_nil, List.cons.injEq, Prod.mk.injEq] at printed
  obtain ⟨⟨dirty, early⟩, ⟨_, late⟩, _⟩ := printed
  have kept := held 0 p next rfl rfl 7 dirty
  rw [early, late] at kept
  exact absurd kept (by decide)

end ItchAggregator
