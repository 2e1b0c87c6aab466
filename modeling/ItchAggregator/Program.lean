import ItchAggregator.ExitStatus
import ItchAggregator.ParseArgs

/-! The program: what it writes and returns for a command line. Beside the arguments this
depends on what the path opens, and on the clock; the order in which the device works
changes nothing. -/

namespace ItchAggregator

open StreamMachine (Complete)
open BatchAssembler

def usage (argv0 : List UInt8) : List UInt8 :=
  out "Usage: ".toList ++ argv0 ++ out " --file <path.gz> [options]\n".toList ++
  out "  --file PATH            gzipped ITCH 5.0 input (required)\n".toList ++
  out "  --snapshot-interval N  batches between snapshots (default 128)\n".toList ++
  out "  --max-msgs N           stop after N parsed messages (default: all)\n".toList ++
  out "  --stats-json PATH      write run statistics as JSON\n".toList ++
  out "  --cpu-only             use the CPU reference aggregator (no GPU)\n".toList ++
  out "  --no-csv               skip CSV row output (throughput runs)\n".toList

/-- What the clock makes of a run: the seconds and the rate as they are printed, and as they
are written to the file. -/
structure Clock where
  seconds : List Char
  rate : List Char
  wall : List Char
  mps : Nat

def statsLine {k : LogCapacity} {σ : Type} (p : ItchParser σ) (a : BatchAssembler k)
    (rs : RunStats) (clock : Clock) : List UInt8 :=
  out "# parsed=".toList ++ outNat p.total ++ out " shipped=".toList ++ outNat rs.shippedMsgs ++
  out " batches=".toList ++ outNat rs.batches ++ out " snapshots=".toList ++ outNat rs.snapshots ++
  out " wall=".toList ++ out clock.seconds ++ out "s rate=".toList ++ out clock.rate ++
  out "M msg/s unresolved_replaces=".toList ++ outNat a.unresolvedReplaces ++
  out " unknown_cancels=".toList ++ outNat a.unknownCancels ++ out ['\n']

/-- What the program leaves behind; the statistics with the path they are written to. -/
structure Outcome where
  stdout : List UInt8
  stderr : List UInt8
  stats : Option (List UInt8 × List UInt8)
  status : Nat

def Outcome.ofRun {σ : Type} (o : ProgramOptions) (clock : Clock) (rows : List CsvRow)
    (p : ItchParser σ) (a : BatchAssembler 24) (rs : RunStats) : Outcome where
  stdout := if o.noCsv then [] else csvText rows
  stderr := statsLine p a rs clock
  stats :=
    if o.statsJson = [] then none else some (o.statsJson, writeStats p a rs clock.wall clock.mps)
  status := if p.error then 1 else 0

def Outcome.unopened (path : List UInt8) : Outcome where
  stdout := []
  stderr := out "fatal: gzopen failed: ".toList ++ path ++ out ['\n']
  stats := none
  status := 1

/-- `main`, with a device that works in any order its streams and events leave open. -/
inductive Main {σ : Type} (source : ByteSource σ) (gzopen : List UInt8 → Option σ)
    (m : DeviceMemory) (clock : Clock) (argv0 : List UInt8) (args : List (List UInt8)) :
    Outcome → Prop
  | help (parsed : parseArgs args .default = .help) :
      Main source gzopen m clock argv0 args ⟨usage argv0, [], none, 0⟩
  | rejected {text : List UInt8} (parsed : parseArgs args .default = .rejected text) :
      Main source gzopen m clock argv0 args ⟨usage argv0, text, none, 2⟩
  | unopened {o : ProgramOptions} (parsed : parseArgs args .default = .accepted o)
      (failed : gzopen o.file = none) :
      Main source gzopen m clock argv0 args (.unopened o.file)
  | cpu {o : ProgramOptions} {s : σ} {turns : Nat} {r : CpuRun 24 σ}
      (parsed : parseArgs args .default = .accepted o) (opened : gzopen o.file = some s)
      (pipeline : o.cpuOnly = true) (run : runCpu source o.toOptions turns s = some r) :
      Main source gzopen m clock argv0 args (.ofRun o clock r.csv r.parser r.assembler r.rs)
  | gpu {o : ProgramOptions} {s : σ} {turns : Nat} {g : GpuRun 24 σ} {final : StreamMachine.State _}
      (parsed : parseArgs args .default = .accepted o) (opened : gzopen o.file = some s)
      (pipeline : o.cpuOnly = false) (run : runGpu source o.toOptions turns s = some g)
      (done : Complete deviceOps g.commands m final) :
      Main source gzopen m clock argv0 args
        (.ofRun o clock (g.csv final.mem) g.parser g.assembler g.rs)

/-! The turns are a mere bound. -/

section Turns

variable {k : LogCapacity} {σ : Type} {source : ByteSource σ} {hash : UInt64 → UInt64}
  {opt : Options} {turns turns' loops loops' : Nat} {s : σ}

theorem CpuRun.loop_mono {r r' : CpuRun k σ} (le : turns ≤ turns') (le' : loops ≤ loops')
    (result : loop source hash opt turns loops r = some r') :
    loop source hash opt turns' loops' r = some r' := by
  induction loops generalizing loops' r with
  | zero => cases result
  | succ loops ih =>
    obtain ⟨loops', rfl⟩ : ∃ n, loops' = n + 1 := ⟨loops' - 1, by omega⟩
    obtain ⟨p, f, call, turn⟩ := loop_cases result
    have call : fill source hash turns' r.parser r.assembler r.batch = some (p, f) :=
      fillLoop_mono le call
    have parser : ((r.filled p f).onBatch opt f.batchMeta).parser = p := (onBatch_pulls _ _).1
    unfold loop
    rw [call]
    dsimp only
    rcases turn with ⟨empty, rfl⟩ | ⟨some_, turn⟩
    · exact if_pos empty
    · rw [if_neg some_, ← filled, parser]
      rcases turn with ⟨reached, rfl⟩ | ⟨more, later⟩
      · exact if_pos reached
      · rw [if_neg more]
        exact ih (by omega) later

theorem GpuRun.loop_mono {g g' : GpuRun k σ} (le : turns ≤ turns') (le' : loops ≤ loops')
    (result : loop source hash opt turns loops g = some g') :
    loop source hash opt turns' loops' g = some g' := by
  induction loops generalizing loops' g with
  | zero => cases result
  | succ loops ih =>
    obtain ⟨loops', rfl⟩ : ∃ n, loops' = n + 1 := ⟨loops' - 1, by omega⟩
    obtain ⟨p, f, call, turn⟩ := loop_cases result
    have call : fill source hash turns' g.acquire.parser g.acquire.assembler
        (g.acquire.hRaw g.ring.next) = some (p, f) := fillLoop_mono le call
    unfold loop
    dsimp only
    rw [call]
    dsimp only
    rcases turn with ⟨empty, rfl⟩ | ⟨some_, turn⟩
    · exact if_pos empty
    · rw [if_neg some_]
      rcases turn with ⟨reached, rfl⟩ | ⟨more, later⟩
      · exact if_pos reached
      · rw [if_neg more]
        exact ih (by omega) later

theorem runCpu_mono {r : CpuRun 24 σ} (le : turns ≤ turns')
    (result : runCpu source opt turns s = some r) : runCpu source opt turns' s = some r := by
  obtain ⟨r', looped, rfl⟩ := Option.map_eq_some_iff.mp result
  exact Option.map_eq_some_iff.mpr ⟨r', CpuRun.loop_mono le le looped, rfl⟩

theorem runGpu_mono {g : GpuRun 24 σ} (le : turns ≤ turns')
    (result : runGpu source opt turns s = some g) : runGpu source opt turns' s = some g := by
  obtain ⟨g', looped, rfl⟩ := Option.map_eq_some_iff.mp result
  exact Option.map_eq_some_iff.mpr ⟨g', GpuRun.loop_mono le le looped, rfl⟩

end Turns

/-! What is left behind, as a function of the bytes of the file. -/

def counting (ms : List Msg) : ItchParser Unit :=
  { ItchParser.start () ItchParser.defaultBufBytes with
    total := ms.length
    counts := fun t => typeCount t ms }

def Outcome.ofBytes (o : ProgramOptions) (clock : Clock) (bs : List UInt8) : Outcome :=
  let read := readUnder o.maxMsgs ((frames bs).map Msg.ofFrame)
  let ps := snapshotsOf o.snapshotInterval read
  Outcome.ofRun o clock (csvRows (if o.cpuOnly then ps else lagging ps))
    { counting read with error := decide (ReportsCut o.maxMsgs bs) }
    (absorbAll OrderHash.mix (start 24) read) (statsOf o.snapshotInterval read)

theorem Outcome.ofBytes_status (o : ProgramOptions) (clock : Clock) (bs : List UInt8) :
    (Outcome.ofBytes o clock bs).status = if ReportsCut o.maxMsgs bs then 1 else 0 := by
  simp only [Outcome.ofBytes, Outcome.ofRun, decide_eq_true_eq]

/-- The outcome for a command line; `content` is what a path opens to, decompressed. -/
def Outcome.ofArgs (content : List UInt8 → Option (List UInt8)) (clock : Clock)
    (argv0 : List UInt8) (args : List (List UInt8)) : Outcome :=
  match parseArgs args .default with
  | .help => ⟨usage argv0, [], none, 0⟩
  | .rejected text => ⟨usage argv0, text, none, 2⟩
  | .accepted o =>
    match content o.file with
    | none => .unopened o.file
    | some bs => .ofBytes o clock bs

section Congr

variable {k : LogCapacity} {σ σ' : Type} {p : ItchParser σ} {p' : ItchParser σ'}
  {a a' : BatchAssembler k}

theorem statsLine_congr (total : p.total = p'.total)
    (unresolved : a.unresolvedReplaces = a'.unresolvedReplaces)
    (unknown : a.unknownCancels = a'.unknownCancels) (rs : RunStats) (clock : Clock) :
    statsLine p a rs clock = statsLine p' a' rs clock := by
  unfold statsLine
  rw [total, unresolved, unknown]

theorem writeStats_congr (total : p.total = p'.total) (counts : p.counts = p'.counts)
    (unresolved : a.unresolvedReplaces = a'.unresolvedReplaces)
    (unknown : a.unknownCancels = a'.unknownCancels) (rs : RunStats) (wall : List Char) (mps : Nat) :
    writeStats p a rs wall mps = writeStats p' a' rs wall mps := by
  unfold writeStats
  rw [total, counts, unresolved, unknown]

end Congr

theorem Outcome.ofRun_congr {σ σ' : Type} {o : ProgramOptions} {clock : Clock}
    {rows : List CsvRow} {p : ItchParser σ} {p' : ItchParser σ'} {a a' : BatchAssembler 24}
    {rs : RunStats} (total : p.total = p'.total) (counts : p.counts = p'.counts)
    (error : p.error = p'.error) (asm : a.withPending false = a'.withPending false) :
    ofRun o clock rows p a rs = ofRun o clock rows p' a' rs := by
  have unresolved : a.unresolvedReplaces = a'.unresolvedReplaces :=
    (congrArg BatchAssembler.unresolvedReplaces asm : _)
  have unknown : a.unknownCancels = a'.unknownCancels :=
    (congrArg BatchAssembler.unknownCancels asm : _)
  rw [ofRun, ofRun, statsLine_congr total unresolved unknown,
    writeStats_congr total counts unresolved unknown, error]

section Main

variable {σ : Type} {source : ByteSource σ} {left : σ → List UInt8} {s : σ}
  {gzopen : List UInt8 → Option σ} {m : DeviceMemory} {clock : Clock} {argv0 : List UInt8}
  {args : List (List UInt8)} {out : Outcome}

/-- A run of the CPU pipeline leaves `x` behind, with its rows or with the GPU pipeline's. -/
def CpuRun.Leaves (o : ProgramOptions) (clock : Clock) (x : Outcome) (r : CpuRun 24 σ) : Prop :=
  .ofRun o clock (csvRows (if o.cpuOnly then r.printed else lagging r.printed)) r.parser
    r.assembler r.rs = x

theorem CpuRun.csv_printed (r : CpuRun 24 σ) : r.csv = csvRows r.printed := rfl

/-- A command line that is accepted, of a file that opens: the program ends the way the run of
the CPU pipeline does. -/
theorem main_accepted {o : ProgramOptions} {x : Outcome}
    (parsed : parseArgs args .default = .accepted o) (opened : gzopen o.file = some s)
    (returns : ∃ turns r, runCpu source o.toOptions turns s = some r)
    (leaves : ∀ turns r, runCpu source o.toOptions turns s = some r → r.Leaves o clock x) :
    Main source gzopen m clock argv0 args out ↔ out = x := by
  constructor
  · intro ends
    cases ends with
    | help other | rejected other =>
      rw [parsed] at other
      cases other
    | unopened other failed =>
      obtain rfl := Parsed.accepted.inj (parsed.symm.trans other)
      rw [opened] at failed
      cases failed
    | cpu other opened' pipeline run =>
      obtain rfl := Parsed.accepted.inj (parsed.symm.trans other)
      obtain rfl := Option.some_inj.mp (opened.symm.trans opened')
      rw [← leaves _ _ run, if_pos pipeline, CpuRun.csv_printed]
    | @gpu _ _ turns g final other opened' pipeline run done =>
      obtain rfl := Parsed.accepted.inj (parsed.symm.trans other)
      obtain rfl := Option.some_inj.mp (opened.symm.trans opened')
      obtain ⟨turns', r, result⟩ := returns
      have cpu := runCpu_mono (Nat.le_max_right turns turns') result
      obtain ⟨g', gpu, stats, parser, assembler, rows⟩ := runGpu_beside m cpu
      obtain rfl : g = g' := Option.some_inj.mp
        ((runGpu_mono (Nat.le_max_left turns turns') run).symm.trans gpu)
      rw [← leaves _ _ cpu, stats, parser, assembler, rows final done,
        if_neg (by simp [pipeline])]
  · rintro rfl
    obtain ⟨turns, r, result⟩ := returns
    have left_ := leaves turns r result
    cases pipeline : o.cpuOnly with
    | true =>
      rw [CpuRun.Leaves, if_pos pipeline, ← CpuRun.csv_printed] at left_
      exact left_ ▸ .cpu parsed opened pipeline result
    | false =>
      obtain ⟨g, gpu, stats, parser, assembler, rows⟩ := runGpu_beside m result
      obtain ⟨final, done⟩ := StreamMachine.exists_complete deviceOps g.commands m
      rw [CpuRun.Leaves, if_neg (by simp [pipeline]), ← rows final done, ← stats, ← parser,
        ← assembler] at left_
      exact left_ ▸ .gpu parsed opened pipeline gpu done

theorem Tells.leaves {o : ProgramOptions} {bs : List UInt8} {r : CpuRun 24 σ}
    (tells : Tells o.snapshotInterval (readUnder o.maxMsgs ((frames bs).map Msg.ofFrame)) r)
    {x : Outcome}
    (same : x = { Outcome.ofBytes o clock bs with status := if r.parser.error then 1 else 0 }) :
    r.Leaves o clock x := by
  have counted : { Outcome.ofBytes o clock bs with status := if r.parser.error then 1 else 0 } =
      Outcome.ofRun o clock (csvRows (if o.cpuOnly then r.printed else lagging r.printed))
        { counting (readUnder o.maxMsgs ((frames bs).map Msg.ofFrame)) with
          error := r.parser.error }
        (absorbAll OrderHash.mix (start 24) (readUnder o.maxMsgs ((frames bs).map Msg.ofFrame)))
        r.rs := by
    rw [tells.printed, tells.rs]
    rfl
  rw [same, counted]
  refine Outcome.ofRun_congr tells.total (funext tells.counts) rfl ?_
  rw [tells.asm]
  exact absorbAll_withPending (a := start 24) false _

theorem main_ofBytes_iff {o : ProgramOptions} (hsrc : source.Delivers left)
    (parsed : parseArgs args .default = .accepted o) (opened : gzopen o.file = some s)
    (long : ∀ f ∈ frames (left s), LongEnough f) :
    Main source gzopen m clock argv0 args out ↔ out = .ofBytes o clock (left s) := by
  refine main_accepted parsed opened (runCpu_returns hsrc s o.toOptions) fun turns r result => ?_
  refine (runCpu_hands (hands_stream hsrc s) long result).leaves ?_
  have status := Outcome.ofBytes_status o clock (left s)
  simp only [← runCpu_reports hsrc long result] at status
  rw [← status]

def ExactNamed (gzopen : List UInt8 → Option σ) (left : σ → List UInt8) (args : List (List UInt8)) :
    Prop :=
  ∀ o s, parseArgs args .default = .accepted o → gzopen o.file = some s →
    ∀ f ∈ frames (left s), ExactLength f

/-- For any command line and any file the program ends in one way only, whatever order the
device works in. -/
theorem main_iff (hsrc : source.Delivers left)
    (exact_ : ExactNamed gzopen left args) :
    Main source gzopen m clock argv0 args out ↔
      out = .ofArgs (fun path => (gzopen path).map left) clock argv0 args := by
  rw [Outcome.ofArgs]
  cases parsed : parseArgs args .default with
  | help =>
    refine ⟨fun ends => ?_, fun same => same ▸ .help parsed⟩
    cases ends with
    | help => rfl
    | rejected other | unopened other | cpu other | gpu other =>
      rw [parsed] at other
      cases other
  | rejected text =>
    refine ⟨fun ends => ?_, fun same => same ▸ .rejected parsed⟩
    cases ends with
    | rejected other =>
      obtain rfl := Parsed.rejected.inj (parsed.symm.trans other)
      rfl
    | help other | unopened other | cpu other | gpu other =>
      rw [parsed] at other
      cases other
  | accepted o =>
    dsimp only
    cases opened : gzopen o.file with
    | none =>
      refine ⟨fun ends => ?_, fun same => same ▸ .unopened parsed opened⟩
      cases ends with
      | unopened other =>
        obtain rfl := Parsed.accepted.inj (parsed.symm.trans other)
        rfl
      | help other | rejected other =>
        rw [parsed] at other
        cases other
      | cpu other opened' | gpu other opened' =>
        obtain rfl := Parsed.accepted.inj (parsed.symm.trans other)
        rw [opened] at opened'
        cases opened'
    | some s =>
      exact main_ofBytes_iff hsrc parsed opened fun f mem =>
        (exact_ o s parsed opened f mem).longEnough

end Main

/-- The GPU pipeline over two batches, with a snapshot after every batch and a limit. -/
theorem main_iff_reopened :
    ∃ out', Main memSource (fun _ => some reopened) DeviceMemory.zeroed
      ⟨['1'], ['2'], [], 0⟩ [] [fileFlag, [120], snapshotIntervalFlag, [49], maxMsgsFlag, [51]] out' ∧
      out'.status = 0 ∧ out'.stats = none ∧
      out'.stderr = out ("# parsed=3 shipped=2 batches=2 snapshots=3 wall=1s rate=2M msg/s ".toList ++
        "unresolved_replaces=0 unknown_cancels=0\n".toList) := by
  let args : List (List UInt8) := [fileFlag, [120], snapshotIntervalFlag, [49], maxMsgsFlag, [51]]
  let o : ProgramOptions := { ProgramOptions.default with
    file := [120], snapshotInterval := 1, maxMsgs := 3, interval_pos := Nat.one_pos }
  have parsed : parseArgs args .default = .accepted o := rfl
  have exact_ : ExactNamed (fun _ => some reopened) id args := by
    intro _ _ _ opened
    obtain rfl := Option.some_inj.mp opened
    exact reopened_exact
  have ends : Main memSource (fun _ => some reopened) DeviceMemory.zeroed ⟨['1'], ['2'], [], 0⟩ []
      args _ := (main_iff memSource_delivers exact_).mpr rfl
  refine ⟨_, ends, ?_⟩
  rw [Outcome.ofArgs, parsed]
  dsimp only [Option.map_some, id]
  have reports : ¬ReportsCut o.maxMsgs reopened := by decide +kernel
  refine ⟨by rw [Outcome.ofBytes_status, if_neg reports], rfl, ?_⟩
  decide +kernel

end ItchAggregator
