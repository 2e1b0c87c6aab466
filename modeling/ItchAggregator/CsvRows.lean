import ItchAggregator.RunCpu

/-! The CSV rows of a snapshot: one for each symbol with activity, under the name that
the symbol table has for it when the row is printed. -/

namespace ItchAggregator

/-- Does the symbol get a row? -/
def Snapshot.dirty (s : Snapshot) : Bool :=
  s.volume != 0 || s.trades != 0 || s.adds != 0 || s.cancelShares != 0 || s.bid != bidEmpty ||
    s.ask != askEmpty

theorem report_dirty {day window : List Shipped} {sym : Sym}
    (dirty : (report day window sym).dirty = true) : ∃ m ∈ day ++ window, m.locatedAt sym = true := by
  by_contra none
  have other : ∀ m ∈ day ++ window, ¬m.locatedAt sym = true := fun m mem here => none ⟨m, mem, here⟩
  have day_ : day.filter (Shipped.locatedAt sym) = [] :=
    List.filter_eq_nil_iff.mpr fun m mem => other m (List.mem_append_left _ mem)
  have window_ : window.filter (Shipped.locatedAt sym) = [] :=
    List.filter_eq_nil_iff.mpr fun m mem => other m (List.mem_append_right _ mem)
  simp [Snapshot.dirty, report, sumOf, countOf, bestBid, bestAsk, quotesOf, day_, window_] at dirty

/-- The columns before formatting; a blank one is `none`, and prices are in units of
1/10000. -/
structure CsvRow where
  ts : UInt64
  symbol : List UInt8
  snap : Snapshot
  bid : Option UInt32
  ask : Option UInt32
  spread : Option Int

namespace CsvRow

def ofSnapshot (ts : UInt64) (symbol : List UInt8) (s : Snapshot) : CsvRow where
  ts := ts
  symbol := symbol
  snap := s
  bid := if s.bid ≠ bidEmpty then some s.bid else none
  ask := if s.ask ≠ askEmpty then some s.ask else none
  spread :=
    if s.bid ≠ bidEmpty ∧ s.ask ≠ askEmpty then some ((s.ask.toNat : Int) - s.bid.toNat) else none

def label (r : CsvRow) : UInt64 × List UInt8 := (r.ts, r.symbol)

end CsvRow

def printSnapshotCsv (ts : UInt64) (snap : Sym → Snapshot) (symbols : SymbolTable) : List CsvRow :=
  ((List.finRange maxSymbols).filter fun sym => (snap sym).dirty).map fun sym =>
    .ofSnapshot ts (symbols.name sym.val) (snap sym)

/-- The labels of a snapshot's rows are the same under two symbol tables exactly when
these name every symbol with a row alike. -/
theorem labels_eq_iff (ts : UInt64) (snap : Sym → Snapshot) (symbols symbols' : SymbolTable) :
    (printSnapshotCsv ts snap symbols).map CsvRow.label =
        (printSnapshotCsv ts snap symbols').map CsvRow.label ↔
      ∀ sym, (snap sym).dirty = true → symbols.name sym.val = symbols'.name sym.val := by
  simp only [printSnapshotCsv, List.map_map, List.map_inj_left, List.mem_filter,
    List.mem_finRange, true_and]
  refine forall₂_congr fun sym _ => ?_
  simp [CsvRow.label, CsvRow.ofSnapshot]

/-- A snapshot printed with the table `symbols` has the labels it has with its own. -/
def SameLabels (p : SnapshotCsv) (symbols : SymbolTable) : Prop :=
  ∀ sym, (p.snap sym).dirty = true → symbols.name sym.val = p.symbols.name sym.val

theorem flatMap_labels_iff {ps : List SnapshotCsv} {tables : List SymbolTable}
    (length : ps.length = tables.length) :
    ((ps.zip tables).flatMap fun x => printSnapshotCsv x.1.ts x.1.snap x.2).map CsvRow.label =
        (ps.flatMap fun p => printSnapshotCsv p.ts p.snap p.symbols).map CsvRow.label ↔
      List.Forall₂ SameLabels ps tables := by
  induction ps generalizing tables with
  | nil =>
    obtain rfl := List.length_eq_zero_iff.mp length.symm
    simp
  | cons p ps ih =>
    cases tables with
    | nil => cases length
    | cons symbols tables =>
      have first := labels_eq_iff p.ts p.snap symbols p.symbols
      have size : ((printSnapshotCsv p.ts p.snap symbols).map CsvRow.label).length =
          ((printSnapshotCsv p.ts p.snap p.symbols).map CsvRow.label).length := by
        simp [printSnapshotCsv]
      rw [List.zip_cons_cons, List.flatMap_cons, List.flatMap_cons, List.map_append, List.map_append,
        List.forall₂_cons, ← ih (Nat.succ.inj length), SameLabels, ← first]
      constructor
      · intro both
        exact List.append_inj both size
      · rintro ⟨here, later⟩
        rw [here, later]

def CpuRun.csv {k : LogCapacity} {σ : Type} (r : CpuRun k σ) : List CsvRow :=
  r.printed.flatMap fun p => printSnapshotCsv p.ts p.snap p.symbols

end ItchAggregator
