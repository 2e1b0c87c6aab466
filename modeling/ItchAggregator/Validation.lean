import ItchAggregator.CrossCheck
import ItchAggregator.Program

/-! The validation of a run: the Python pass goes over the file that the program has read,
and over the statistics that the program has written. -/

namespace ItchAggregator

open JsonText Utf8

namespace ValidateCounts

theorem Regular.readable {f : List UInt8} (regular : Regular f) : Readable f := by
  refine ⟨fun isR => ⟨?_, regular.ascii isR⟩, fun isP => ?_, fun isQ => ?_⟩
  · rw [regular.exact_.length_eq isR (by decide)]
    decide
  · rw [regular.exact_.length_eq isP (by decide)]
    decide
  · rw [regular.exact_.length_eq isQ (by decide)]
    decide

end ValidateCounts

theorem counting_frames (fs : List (List UInt8)) (t : UInt8) :
    (counting (fs.map Msg.ofFrame)).counts t = fs.countP fun f => f.head? == some t := by
  change typeCount t (fs.map Msg.ofFrame) = _
  rw [typeCount, List.countP_map]
  simp only [Function.comp_def, Msg.bytes_ofFrame]

theorem plain_counting {fs : List (List UInt8)} (plain : ∀ f ∈ fs, PlainType (f.headD 0))
    {t : UInt8} (some_ : (counting (fs.map Msg.ofFrame)).counts t ≠ 0) : PlainType t := by
  rw [counting_frames] at some_
  obtain ⟨f, mem, type⟩ := List.countP_pos_iff.mp (Nat.pos_of_ne_zero some_)
  have head : f.headD 0 = t := by
    cases f with
    | nil => cases type
    | cons b f => simpa using type
  exact head ▸ plain f mem

theorem Outcome.ofBytes_validated {o : ProgramOptions} {clock : Clock} {bs : List UInt8} {w : Json}
    (exact_ : ∀ f ∈ frames bs, ExactLength f) (asked : o.statsJson ≠ []) (unlimited : o.maxMsgs = 0)
    (ascii : ∀ f ∈ frames bs, f.headD 0 = 'R'.toUInt8 → ∀ b ∈ ValidateCounts.slice f 11 19, b < 128)
    (plain : ∀ f ∈ frames bs, PlainType (f.headD 0)) (number : IsNumber clock.wall w) :
    ∃ bytes text stats, (Outcome.ofBytes o clock bs).stats = some (o.statsJson, bytes) ∧
      IsUtf8 bytes text ∧ Loads text stats ∧
      (¬CutOff (leftover bs) → (Outcome.ofBytes o clock bs).status = 0 ∧
        ∃ v, ValidateCounts.main 0 bs = .ok v ∧ v.against stats = some []) ∧
      (CutOff (leftover bs) → ValidateCounts.main 0 bs = .error .truncated ∧
        (Outcome.ofBytes o clock bs).status = if (leftover bs).length = 2 then 0 else 1) := by
  let ms := (frames bs).map Msg.ofFrame
  let p : ItchParser Unit := { counting ms with error := decide (ReportsCut o.maxMsgs bs) }
  let a := BatchAssembler.absorbAll OrderHash.mix (BatchAssembler.start 24) ms
  let rs := statsOf o.snapshotInterval ms
  have read : readUnder o.maxMsgs ms = ms := if_pos unlimited
  have written : (Outcome.ofBytes o clock bs).stats =
      some (o.statsJson, writeStats p a rs clock.wall clock.mps) := by
    simp only [Outcome.ofBytes, Outcome.ofRun, if_neg asked]
    rw [read]
  have status : (Outcome.ofBytes o clock bs).status =
      if CutOff (leftover bs) ∧ (leftover bs).length ≠ 2 then 1 else 0 := by
    rw [Outcome.ofBytes_status]
    simp only [unlimited, reportsCut_zero]
  have plain : ∀ t, p.counts t ≠ 0 → PlainType t := fun t some_ => plain_counting plain some_
  have regular : ∀ f ∈ frames bs, ValidateCounts.Regular f := fun f mem =>
    ⟨exact_ f mem, List.length_pos_iff.mp (frames_length mem).1, ascii f mem⟩
  refine ⟨_, _, _, written, isUtf8_stats p a rs clock.mps number fun t some_ => (plain t some_).2.1,
    loads_stats p a rs clock.mps number plain, ?_⟩
  constructor
  · intro whole
    obtain ⟨v, passed, sums⟩ := ValidateCounts.foldlM_sums regular {}
    obtain ⟨lines, compared, same⟩ := v.against_stats p a rs clock.wall clock.mps w
    have none : lines = [] := by
      refine same.mpr ⟨fun t => ?_, ?_⟩
      · rw [sums.counts]
        exact (Nat.zero_add _).trans (counting_frames _ t).symm
      · rw [sums.total]
        exact (Nat.zero_add _).trans (List.length_map _).symm
    exact ⟨status.trans (if_neg fun h => whole h.1), v,
      (ValidateCounts.main_foldlM whole).trans passed, none ▸ compared⟩
  · intro cut
    refine ⟨(ValidateCounts.main_truncated bs).mpr ⟨cut, fun f mem => (regular f mem).readable⟩, ?_⟩
    rw [status]
    by_cases two : (leftover bs).length = 2 <;> simp [cut, two]

section Main

variable {σ : Type} {source : ByteSource σ} {left : σ → List UInt8} {s : σ}
  {gzopen : List UInt8 → Option σ} {m : DeviceMemory} {clock : Clock} {argv0 : List UInt8}
  {args : List (List UInt8)} {o : ProgramOptions} {w : Json}

/-- The program ends and writes its statistics. Of a whole file it returns 0, and the Python
pass finds its own counters in the statistics; a file that is cut off is reported by both,
but by the program only if more than a prefix is left. -/
theorem main_validated (hsrc : source.Delivers left)
    (parsed : parseArgs args .default = .accepted o) (opened : gzopen o.file = some s)
    (exact_ : ∀ f ∈ frames (left s), ExactLength f)
    (asked : o.statsJson ≠ []) (unlimited : o.maxMsgs = 0)
    (ascii : ∀ f ∈ frames (left s), f.headD 0 = 'R'.toUInt8 →
      ∀ b ∈ ValidateCounts.slice f 11 19, b < 128)
    (plain : ∀ f ∈ frames (left s), PlainType (f.headD 0)) (number : IsNumber clock.wall w) :
    ∃ out, (∀ x, Main source gzopen m clock argv0 args x ↔ x = out) ∧
      ∃ bytes text stats, out.stats = some (o.statsJson, bytes) ∧ IsUtf8 bytes text ∧
        Loads text stats ∧
        (¬CutOff (leftover (left s)) → out.status = 0 ∧
          ∃ v, ValidateCounts.main 0 (left s) = .ok v ∧ v.against stats = some []) ∧
        (CutOff (leftover (left s)) → ValidateCounts.main 0 (left s) = .error .truncated ∧
          out.status = if (leftover (left s)).length = 2 then 0 else 1) :=
  ⟨_, fun _ => main_ofBytes_iff hsrc parsed opened fun f mem => (exact_ f mem).longEnough,
    Outcome.ofBytes_validated exact_ asked unlimited ascii plain number⟩

/-- The statistics of a run over two batches, on the device. -/
theorem main_validated_reopened :
    ∃ out v bytes text stats, Main memSource (fun _ => some reopened)
        DeviceMemory.zeroed ⟨[], [], "0.5".toList, 2⟩ []
        [fileFlag, [120], snapshotIntervalFlag, [49], statsJsonFlag, [121]] out ∧
      out.stats = some ([121], bytes) ∧ IsUtf8 bytes text ∧ Loads text stats ∧
      ValidateCounts.main 0 reopened = .ok v ∧ out.status = 0 ∧ v.total = 3 ∧
      v.against stats = some [] := by
  let o : ProgramOptions := { ProgramOptions.default with
    file := [120], snapshotInterval := 1, statsJson := [121], interval_pos := Nat.one_pos }
  have one : ∀ f ∈ frames reopened, PlainType (f.headD 0) ∧ f.headD 0 ≠ 'R'.toUInt8 := by
    decide +kernel
  have parsed : parseArgs [fileFlag, [120], snapshotIntervalFlag, [49], statsJsonFlag, [121]]
      .default = .accepted o := rfl
  have seconds : IsNumber "0.5".toList (.num 5 (-1)) := ⟨by simp, rfl⟩
  obtain ⟨out, ends, bytes, text, stats, written, utf8, loads, whole, _⟩ :=
    @main_validated _ memSource id reopened (fun _ => some reopened) DeviceMemory.zeroed
      ⟨[], [], "0.5".toList, 2⟩ [] _ o _ memSource_delivers parsed rfl reopened_exact (by decide) rfl
      (fun f mem isR => absurd isR (one f mem).2) (fun f mem => (one f mem).1) seconds
  obtain ⟨status, v, passed, agrees⟩ := whole (by decide +kernel)
  have three : (ValidateCounts.main 0 reopened).toOption.map (·.total) = some 3 := by decide +kernel
  have passed : ValidateCounts.main 0 reopened = .ok v := passed
  rw [passed] at three
  exact ⟨out, v, bytes, text, stats, (ends out).mpr rfl, written, utf8, loads, passed, status,
    Option.some_inj.mp three, agrees⟩

end Main

end ItchAggregator
