import ItchAggregator.BatchStream
import ItchAggregator.RunCpu

/-! What the snapshots of the CPU pipeline report. After any number of batches the
accumulators show the messages shipped since the last flagged batch, and the
quotes those of them shipped since the last snapshot. A periodic snapshot
therefore reports the messages since the market open in front of it; the final one
forgets a market open behind which nothing was shipped. -/

namespace ItchAggregator

open Batching (Batch ships sinceMark upto behind since hold)
open BatchAssembler

theorem Tallied.call {acc : HostAccum} {day window : List Shipped} {c : BatchAssembler.Call}
    {b : Batch Shipped}
    (tallied : Tallied acc day window) (shows : c.Shows b)
    (whole : ∀ m ∈ b.items, m.frame.length ≤ slotBytes) :
    Tallied (cpuAggregate c.out c.batchMeta.nMsgs (if c.batchMeta.resetVwap then .reset else acc))
      (hold day b) (hold window b) := by
  rw [shows.count, shows.flag]
  unfold hold
  by_cases marked : b.marked = true
  · simp only [marked, if_true]
    exact Tallied.reset.batch shows.slots.packed whole
  · simp only [marked, if_false, Bool.false_eq_true]
    exact tallied.batch shows.slots.packed whole

/-- The batches `bs` have been aggregated with a snapshot every `interval` of them. -/
structure Ledger.Reports (interval : Nat) (l : Ledger) (bs : List (Batch Shipped)) : Prop where
  batches : l.batches = bs.length
  tallied : Tallied l.acc (since bs) (since (bs.drop (bs.length / interval * interval)))
  rows : l.rows = (List.range (bs.length / interval)).map fun i =>
    report (since (bs.take ((i + 1) * interval)))
      (since ((bs.take ((i + 1) * interval)).drop (i * interval)))

namespace Ledger.Reports

variable {interval : Nat} {l : Ledger} {bs : List (Batch Shipped)} {b : Batch Shipped}
  {c : BatchAssembler.Call}

theorem start : Ledger.start.Reports interval [] where
  batches := rfl
  tallied := by
    rw [List.drop_nil]
    exact Tallied.reset
  rows := by simp [Ledger.start]

theorem since_concat (bs : List (Batch Shipped)) (b : Batch Shipped) :
    since (bs ++ [b]) = hold (since bs) b := by
  simp [since]

/-- The snapshots of the first batches are not changed by one more. -/
theorem rows_concat (positive : 0 < interval) (bs : List (Batch Shipped)) (b : Batch Shipped) :
    ((List.range (bs.length / interval)).map fun i =>
      report (since ((bs ++ [b]).take ((i + 1) * interval)))
        (since (((bs ++ [b]).take ((i + 1) * interval)).drop (i * interval)))) =
    (List.range (bs.length / interval)).map fun i =>
      report (since (bs.take ((i + 1) * interval)))
        (since ((bs.take ((i + 1) * interval)).drop (i * interval))) := by
  apply List.map_congr_left
  intro i hi
  have inside : (i + 1) * interval ≤ bs.length :=
    (Nat.le_div_iff_mul_le positive).mp (List.mem_range.mp hi)
  rw [List.take_append_of_le_length inside]

theorem tally (reports : l.Reports interval bs) (positive : 0 < interval)
    (tallied : Tallied (cpuAggregate c.out c.batchMeta.nMsgs
        (if c.batchMeta.resetVwap then .reset else l.acc))
      (hold (since bs) b) (hold (since (bs.drop (bs.length / interval * interval))) b)) :
    (l.call interval c).Reports interval (bs ++ [b]) := by
  have start_le : bs.length / interval * interval ≤ bs.length := Nat.div_mul_le_self _ _
  rw [← since_concat, ← since_concat, ← List.drop_append_of_le_length start_le] at tallied
  have divmod : (bs.length + 1) / interval = _ := Nat.succ_div
  simp only [Ledger.call]
  rw [reports.batches]
  by_cases due : (bs.length + 1) % interval = 0
  · have next : (bs.length + 1) / interval = bs.length / interval + 1 := by
      rw [divmod, if_pos (Nat.dvd_of_mod_eq_zero due)]
    have whole_window : (bs.length / interval + 1) * interval = bs.length + 1 := by
      rw [← next]
      exact Nat.div_mul_cancel (Nat.dvd_of_mod_eq_zero due)
    rw [if_pos due]
    refine ⟨by simp [Ledger.snapshot], ?_, ?_⟩
    · rw [List.length_append, List.length_singleton, next, whole_window, List.drop_of_length_le
        (by simp)]
      exact tallied.snapshot
    · rw [List.length_append, List.length_singleton, next, List.range_succ, List.map_append,
        rows_concat positive, ← reports.rows, List.map_singleton, whole_window,
        List.take_of_length_le (by simp)]
      simp only [Ledger.snapshot]
      rw [tallied.rows]
  · have same : (bs.length + 1) / interval = bs.length / interval := by
      rw [divmod, if_neg fun h => due (Nat.mod_eq_zero_of_dvd h), Nat.add_zero]
    rw [if_neg due]
    refine ⟨by simp, ?_, ?_⟩
    · rw [List.length_append, List.length_singleton, same]
      exact tallied
    · rw [List.length_append, List.length_singleton, same, rows_concat positive]
      exact reports.rows

theorem call (reports : l.Reports interval bs) (positive : 0 < interval) (shows : c.Shows b)
    (whole : ∀ m ∈ b.items, m.frame.length ≤ slotBytes) :
    (l.call interval c).Reports interval (bs ++ [b]) :=
  reports.tally positive (reports.tallied.call shows whole)

theorem calls {more : List (Batch Shipped)} {calls : List BatchAssembler.Call}
    (reports : l.Reports interval bs) (positive : 0 < interval)
    (shows : List.Forall₂ BatchAssembler.Call.Shows calls more)
    (whole : ∀ b ∈ more, ∀ m ∈ b.items, m.frame.length ≤ slotBytes) :
    (calls.foldl (Ledger.call interval) l).Reports interval (bs ++ more) := by
  induction shows generalizing l bs with
  | nil => simpa using reports
  | cons first _ ih =>
    have next := reports.call positive first (whole _ List.mem_cons_self)
    have all := ih next fun b hb => whole b (List.mem_cons_of_mem _ hb)
    rwa [List.append_assoc, List.singleton_append] at all

end Ledger.Reports

variable {σ : Type} {source : ByteSource σ} {left : σ → List UInt8} {s : σ} {opt : Options}

/-- The stream of a run: its messages as they are shipped, the market opens, and what
is passed over. -/
def stream (bs : List UInt8) : List (Batching.Item Shipped) :=
  labels OrderHash.mix (start 24) ((frames bs).map Msg.ofFrame)

theorem hands_stream (hsrc : source.Delivers left) (s : σ) :
    (ItchParser.start s ItchParser.defaultBufBytes).Hands source (frames (left s)) :=
  ItchParser.hands_frames hsrc s (by decide) fun _ hf => frames_fit_default hf

theorem runCpu_ofHands {fs : List (List UInt8)}
    (hands : (ItchParser.start s ItchParser.defaultBufBytes).Hands source fs) (opt : Options) :
    ∃ turns r, runCpu source opt turns s = some r := by
  obtain ⟨ms, q, yields, _⟩ := hands
  have loop : ∃ r, CpuRun.loop source OrderHash.mix opt (ms.length + 1) (ms.length + 1)
      (.start 24 (ItchParser.start s ItchParser.defaultBufBytes)) = some r :=
    CpuRun.loop_returns yields (ItchParser.start_bounds _ _) (Nat.lt_succ_self _)
      (Nat.lt_succ_self _)
  obtain ⟨r, result⟩ := loop
  exact ⟨ms.length + 1, r.snapshot, by rw [runCpu, result]; rfl⟩

theorem runCpu_returns (hsrc : source.Delivers left) (s : σ) (opt : Options) :
    ∃ turns r, runCpu source opt turns s = some r :=
  runCpu_ofHands (hands_stream hsrc s) opt

theorem runCpu_batches (hsrc : source.Delivers left)
    (exact_ : ∀ f ∈ frames (left s), ExactLength f) (unlimited : opt.maxMsgs = 0) {turns : Nat}
    {r : CpuRun 24 σ} (result : runCpu source opt turns s = some r) :
    ∃ (calls : List BatchAssembler.Call) (last : BatchAssembler.Call) (bs : List (Batch Shipped))
      (l : Ledger),
      Batches source OrderHash.mix (ItchParser.start s ItchParser.defaultBufBytes) (start 24)
        calls last r.parser r.assembler ∧
      Batching.Placed batchMsgs false (stream (left s)) bs ∧
      List.Forall₂ BatchAssembler.Call.Shows calls bs ∧
      l.Reports opt.snapshotInterval bs ∧ r.ledger = l.snapshot := by
  obtain ⟨r', looped, rfl⟩ := Option.map_eq_some_iff.mp result
  obtain ⟨calls, last, run, ledger⟩ := CpuRun.loop_batches unlimited looped
  obtain ⟨bs, _, placed, shows, _⟩ := run.placed (hands_stream hsrc s) (ItchParser.start_bounds _ _)
    fun f hf => (exact_ f hf).longEnough
  have whole : ∀ b ∈ bs, ∀ m ∈ b.items, m.frame.length ≤ slotBytes := by
    intro b hb m hm
    have mem : m ∈ ships (stream (left s)) := placed.ships ▸ List.mem_flatMap.mpr ⟨b, hb, hm⟩
    obtain ⟨msg, _, shippable, tag, rfl⟩ := mem_ships_labels mem
    exact (length_bytes msg.data msg.len).trans_le (Msg.ships_iff.mp shippable).2
  have reports := Ledger.Reports.start.calls opt.interval_pos shows whole
  rw [List.nil_append] at reports
  refine ⟨calls, last, bs, _, run, placed, shows, reports, ?_⟩
  rw [CpuRun.snapshot_ledger, ledger]
  rfl

theorem total_take {calls : List BatchAssembler.Call} {bs : List (Batch Shipped)}
    (shows : List.Forall₂ BatchAssembler.Call.Shows calls bs) (j : Nat) :
    total (calls.take j) = Batching.shipped bs j :=
  total_shows (List.forall₂_take j shows)

/-- Periodic snapshots report the stream. `M` is the stream up to the last message
of the snapshot's last batch, `T` the messages in it since its last market open and
`W` those of `T` behind the batches of the previous snapshot. -/
theorem runCpu_reports_periodic (hsrc : source.Delivers left)
    (exact_ : ∀ f ∈ frames (left s), ExactLength f) (unlimited : opt.maxMsgs = 0) :
    (∃ turns r, runCpu source opt turns s = some r) ∧
    ∀ turns r, runCpu source opt turns s = some r →
      ∃ calls last,
        Batches source OrderHash.mix (ItchParser.start s ItchParser.defaultBufBytes) (start 24)
          calls last r.parser r.assembler ∧
        ∀ j, 1 ≤ j → j * opt.snapshotInterval ≤ calls.length →
          let before := total (calls.take ((j - 1) * opt.snapshotInterval))
          let M := upto (total (calls.take (j * opt.snapshotInterval))) (stream (left s))
          let T := ships (sinceMark M)
          let W := ships (sinceMark (M.drop (upto before (stream (left s))).length))
          r.printed[j - 1]?.map SnapshotCsv.snap = some (report T W) := by
  refine ⟨runCpu_returns hsrc s opt, fun turns r result => ?_⟩
  obtain ⟨calls, last, bs, l, run, placed, shows, reports, ledger⟩ :=
    runCpu_batches hsrc exact_ unlimited result
  refine ⟨calls, last, run, fun j positive bound => ?_⟩
  intro before M T W
  obtain ⟨i, rfl⟩ : ∃ i, j = i + 1 := ⟨j - 1, by omega⟩
  have length : calls.length = bs.length := shows.length_eq
  have inside : (i + 1) * opt.snapshotInterval ≤ bs.length := length ▸ bound
  have order : i * opt.snapshotInterval ≤ (i + 1) * opt.snapshotInterval :=
    Nat.mul_le_mul_right _ (Nat.le_succ i)
  have day : T = since (bs.take ((i + 1) * opt.snapshotInterval)) := by
    have whole := placed.since_upto (Nat.zero_le _) inside
    simpa [T, M, total_take shows, Batching.shipped, upto] using whole
  have window : W =
      since ((bs.take ((i + 1) * opt.snapshotInterval)).drop (i * opt.snapshotInterval)) := by
    have part := placed.since_upto order inside
    simpa only [W, M, before, total_take shows, Nat.add_sub_cancel] using part
  have taken : i < bs.length / opt.snapshotInterval :=
    (Nat.le_div_iff_mul_le opt.interval_pos).mpr inside
  have row : l.rows[i]? = some (report T W) := by
    rw [reports.rows, List.getElem?_map, List.getElem?_range taken, day, window]
    rfl
  have rows : r.printed.map SnapshotCsv.snap = l.rows ++ [(cpuSnapshot l.acc).1] :=
    congrArg Ledger.rows ledger
  rw [Nat.add_sub_cancel, ← List.getElem?_map, rows,
    List.getElem?_append_left (List.getElem?_eq_some_iff.mp row).1, row]

/-- A trade at 123.4560 that bought 50 shares. -/
def tradeFrame : List UInt8 :=
  [80, 0, 7, 0, 0, 0, 0, 0, 0, 0, 1, 0, 0, 0, 0, 0, 0, 0, 1, 66, 0, 0, 0, 50, 65, 65, 80, 76, 32,
    32, 32, 32, 0, 18, 214, 128, 0, 0, 0, 0, 0, 0, 0, 3]

/-- The market opens, and a trade at 123.5000 sells 20 shares. -/
def opening : List UInt8 :=
  [0, 12, 83, 0, 0, 0, 0, 0, 0, 0, 0, 0, 2, 79, 0, 44, 80, 0, 7, 0, 0, 0, 0, 0, 0, 0, 3, 0, 0, 0, 0,
    0, 0, 0, 2, 83, 0, 0, 0, 20, 65, 65, 80, 76, 32, 32, 32, 32, 0, 18, 216, 56, 0, 0, 0, 0, 0, 0,
    0, 4]

def reopened : List UInt8 := [0, 44] ++ tradeFrame ++ opening

theorem reopened_exact : ∀ f ∈ frames reopened, ExactLength f := by
  decide

theorem reopened_volumes : (runCpu memSource ⟨1, 0, by decide⟩ 8 reopened).map
    (fun r => r.printed.map fun p => (p.snap 7).volume) = some [50, 20, 20] := by
  decide +kernel

/-- The second snapshot has the shares behind the market open alone. -/
theorem runCpu_reports_periodic_reopened :
    ∃ r rows, runCpu memSource ⟨1, 0, by decide⟩ 8 reopened = some r ∧
      r.printed[1]?.map SnapshotCsv.snap = some rows ∧ (rows 7).volume = 20 := by
  let opt : Options := ⟨1, 0, by decide⟩
  obtain ⟨r, result, volumes⟩ := Option.map_eq_some_iff.mp reopened_volumes
  have unlimited : opt.maxMsgs = 0 := rfl
  obtain ⟨_, reports⟩ :=
    runCpu_reports_periodic (s := reopened) memSource_delivers reopened_exact unlimited
  obtain ⟨calls, last, run, rows⟩ := reports 8 r result
  have count : total calls = 2 :=
    (run.total (hands_stream memSource_delivers reopened) (ItchParser.start_bounds _ _)
      fun f hf => (reopened_exact f hf).longEnough).trans (by decide)
  -- as soon as both trades are shipped, a snapshot shows the later one
  have shown : ∀ j, 1 ≤ j → j ≤ calls.length → total (calls.take j) = 2 →
      ∃ rows, r.printed[j - 1]?.map SnapshotCsv.snap = some rows ∧ (rows 7).volume = 20 := by
    intro j positive inside both
    have row := rows j positive ((Nat.mul_one j).trans_le inside)
    have taken : j * opt.snapshotInterval = j := Nat.mul_one j
    simp only [taken, both] at row
    refine ⟨_, row, ?_⟩
    change UInt64.ofNat (sumOf .vwapDen 7 _) = 20
    decide +kernel
  cases calls with
  | nil => simp [total] at count
  | cons c calls =>
    cases calls with
    | nil =>
      obtain ⟨rows, here, volume⟩ := shown 1 (Nat.le_refl 1) (Nat.le_refl 1) count
      obtain ⟨p, first, rfl⟩ := Option.map_eq_some_iff.mp here
      have fifty := congrArg (fun l => l[0]?) volumes
      simp [first, volume] at fifty
    | cons d calls =>
      have first := run.nonempty c (by simp)
      have second := run.nonempty d (by simp)
      have both : total ((c :: d :: calls).take 2) = 2 := by
        simp [total] at count ⊢
        omega
      obtain ⟨rows, here, volume⟩ := shown 2 (by decide) (by simp) both
      exact ⟨r, rows, result, here, volume⟩

/-! The final snapshot. -/

/-- The fields that are cumulative since market open; the quotes are cleared. -/
def Snapshot.cumulative (s : Snapshot) : Snapshot := { s with bid := bidEmpty, ask := askEmpty }

/-- Messages that leave no trace in the cumulative fields of any symbol. -/
def Weightless (ms : List Shipped) : Prop :=
  ∀ sym, (∀ a, 2 ^ 64 ∣ sumOf a sym ms) ∧ ∀ a, 2 ^ 32 ∣ countOf a sym ms

theorem ofNat64_eq_zero {n : Nat} : UInt64.ofNat n = 0 ↔ 2 ^ 64 ∣ n := by
  rw [← UInt64.toNat_inj, UInt64.toNat_ofNat', Nat.dvd_iff_mod_eq_zero]
  rfl

theorem ofNat32_eq_zero {n : Nat} : UInt32.ofNat n = 0 ↔ 2 ^ 32 ∣ n := by
  rw [← UInt32.toNat_inj, UInt32.toNat_ofNat', Nat.dvd_iff_mod_eq_zero]
  rfl

theorem countOf_quote {a : Array32} (quote : a = .winBid ∨ a = .winAsk) (sym : Sym)
    (ms : List Shipped) : countOf a sym ms = 0 := by
  rw [countOf, List.countP_eq_zero]
  intro m _
  rcases quote with rfl | rfl <;> simp [Shipped.counts]

theorem weightless_iff (day window : List Shipped) :
    Weightless day ↔
      ∀ sym, (report day window sym).cumulative = (report [] [] sym).cumulative := by
  have none64 : ∀ a sym, UInt64.ofNat (sumOf a sym []) = 0 := fun _ _ => rfl
  have none32 : ∀ a sym, UInt32.ofNat (countOf a sym []) = 0 := fun _ _ => rfl
  refine forall_congr' fun sym => ?_
  simp only [Snapshot.cumulative, report, none64, none32, Snapshot.mk.injEq, true_and,
    ofNat64_eq_zero, ofNat32_eq_zero]
  constructor
  · rintro ⟨sums, counts⟩
    exact ⟨sums _, sums _, sums _, sums _, sums _, counts _, counts _⟩
  · rintro ⟨num, den, buy, sell, cancel, trades, adds⟩
    refine ⟨fun a => ?_, fun a => ?_⟩
    · cases a with
      | vwapNum => exact num
      | vwapDen => exact den
      | buyVol => exact buy
      | sellVol => exact sell
      | cancelShares => exact cancel
    · cases a with
      | tradeCount => exact trades
      | addCount => exact adds
      | winBid => simp [countOf_quote (Or.inl rfl)]
      | winAsk => simp [countOf_quote (Or.inr rfl)]

theorem runCpu_final (hsrc : source.Delivers left)
    (exact_ : ∀ f ∈ frames (left s), ExactLength f) (unlimited : opt.maxMsgs = 0) {turns : Nat}
    {r : CpuRun 24 σ} (result : runCpu source opt turns s = some r) :
    let all := stream (left s)
    let n := (ships all).length
    ships (behind n all) = [] ∧
      ∃ final window, r.printed.getLast? = some final ∧
        final.snap = report (ships (sinceMark (upto n all))) window := by
  intro all n
  obtain ⟨calls, last, bs, l, run, placed, shows, reports, ledger⟩ :=
    runCpu_batches hsrc exact_ unlimited result
  obtain ⟨held, quiet⟩ := placed.since_last
  have rows : r.printed.map SnapshotCsv.snap = l.rows ++ [(cpuSnapshot l.acc).1] :=
    congrArg Ledger.rows ledger
  have ending : (r.printed.map SnapshotCsv.snap).getLast? = some (cpuSnapshot l.acc).1 := by
    rw [rows, List.getLast?_concat]
  rw [List.getLast?_map, Option.map_eq_some_iff] at ending
  obtain ⟨final, here, snap⟩ := ending
  refine ⟨quiet, final, since (bs.drop (bs.length / opt.snapshotInterval * opt.snapshotInterval)),
    here, ?_⟩
  rw [snap, reports.tallied.rows, ← held]

/-- The final snapshot reports the messages since market open exactly when the market
does not open behind the last shipped message, or nothing shipped since the open
before it leaves a trace. -/
theorem runCpu_final_since_open_iff (hsrc : source.Delivers left)
    (exact_ : ∀ f ∈ frames (left s), ExactLength f) (unlimited : opt.maxMsgs = 0) :
    (∃ turns r, runCpu source opt turns s = some r) ∧
    ∀ turns r, runCpu source opt turns s = some r →
      let all := stream (left s)
      let n := (ships all).length
      ∃ final, r.printed.getLast? = some final ∧
        ((∀ sym, (final.snap sym).cumulative =
            (report (ships (sinceMark all)) [] sym).cumulative) ↔
          .mark ∉ behind n all ∨ Weightless (ships (sinceMark (upto n all)))) := by
  refine ⟨runCpu_returns hsrc s opt, fun turns r result => ?_⟩
  intro all n
  obtain ⟨quiet, final, window, here, snap⟩ := runCpu_final hsrc exact_ unlimited result
  refine ⟨final, here, ?_⟩
  rw [snap]
  have split : all = upto n all ++ behind n all := (Batching.upto_append_behind n all).symm
  by_cases opened : .mark ∈ behind n all
  · have none : ships (sinceMark all) = [] := by
      rw [split, Batching.sinceMark_append_of_mem opened]
      exact Batching.ships_sinceMark_quiet quiet
    rw [none, ← weightless_iff, or_iff_right (not_not_intro opened)]
  · have same : ships (sinceMark all) = ships (sinceMark (upto n all)) := by
      conv_lhs => rw [split, Batching.sinceMark_append_of_notMem opened, Batching.ships_append]
      rw [show ships (behind n all) = [] from quiet, List.append_nil]
    rw [same]
    exact iff_of_true (fun _ => rfl) (Or.inl opened)

/-- A trade behind the market open: the final snapshot has its shares alone. -/
theorem runCpu_final_since_open_reopened :
    ∃ turns r final, runCpu memSource .default turns reopened = some r ∧
      r.printed.getLast? = some final ∧ (final.snap 7).volume = 20 := by
  have unlimited : Options.default.maxMsgs = 0 := rfl
  obtain ⟨⟨turns, r, result⟩, finals⟩ :=
    runCpu_final_since_open_iff (s := reopened) memSource_delivers reopened_exact unlimited
  obtain ⟨final, here, sums⟩ := finals turns r result
  have rows := sums.mpr (Or.inl (by decide +kernel)) 7
  refine ⟨turns, r, final, result, here, (congrArg Snapshot.volume rows).trans ?_⟩
  decide +kernel

/-- A trade and a market open behind it: the final snapshot still shows the shares,
though nothing was shipped since. -/
theorem runCpu_final_before_open :
    let bs : List UInt8 := [0, 44, 80, 0, 7, 0, 0, 0, 0, 0, 0, 0, 1, 0, 0, 0, 0, 0, 0, 0, 1, 66,
      0, 0, 0, 50, 65, 65, 80, 76, 32, 32, 32, 32, 0, 18, 214, 128, 0, 0, 0, 0, 0, 0, 0, 3,
      0, 12, 83, 0, 0, 0, 0, 0, 0, 0, 0, 0, 2, 79]
    (∀ f ∈ frames bs, ExactLength f) ∧ ships (sinceMark (stream bs)) = [] ∧
      ∃ turns r final, runCpu memSource .default turns bs = some r ∧
        r.printed.getLast? = some final ∧ (final.snap 7).volume = 50 ∧
        (report (ships (sinceMark (stream bs))) [] 7).volume = 0 := by
  intro bs
  have exact_ : ∀ f ∈ frames (id bs), ExactLength f := by decide
  have none : ships (sinceMark (stream bs)) = [] := by decide +kernel
  obtain ⟨turns, r, result⟩ := runCpu_returns memSource_delivers bs .default
  obtain ⟨_, final, window, here, snap⟩ := runCpu_final memSource_delivers exact_ rfl result
  refine ⟨exact_, none, turns, r, final, result, here, ?_, ?_⟩
  · rw [snap]
    change UInt64.ofNat (sumOf .vwapDen 7 _) = 50
    decide +kernel
  · rw [none]
    rfl

end ItchAggregator
