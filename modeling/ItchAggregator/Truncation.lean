import ItchAggregator.Reports
import ItchAggregator.ValidateCounts

/-! What is reported of a stream that ends inside a frame, by the parser and by the
Python pass. The parser's flag goes by the bytes left in its buffer, so that a frame cut
off right behind its prefix passes for an end of the stream. -/

namespace ItchAggregator

namespace ItchParser

variable {σ : Type} {source : ByteSource σ} {left : σ → List UInt8} {p q : ItchParser σ}
  {bs : List UInt8} {ms : List Msg}

theorem Live.yields_error (live : Live left p bs) (hsrc : source.Delivers left)
    (room : 2 < p.bufBytes) (fits : ∀ f ∈ frames bs, 2 + f.length ≤ p.bufBytes)
    (yields : Yields source p ms q) :
    q.error = true ↔ CutOff (leftover bs) ∧ (leftover bs).length ≠ 2 := by
  induction bs using frames_induction generalizing p ms with
  | stop bs stop =>
    obtain ⟨r, call, flag⟩ := live.next_stop hsrc room stop
    cases yields with
    | message other _ => simp [call] at other
    | stop same =>
      obtain rfl : r = q := by simpa [call] using same
      rw [flag, leftover_stop stop]
      constructor
      · rintro ⟨hi, lo, rest, rfl, positive, some⟩
        refine ⟨⟨positive, ?_⟩, by simpa using some⟩
        by_contra whole
        rw [frames_frame positive (Nat.le_of_not_lt whole)] at stop
        exact absurd stop (List.cons_ne_nil _ _)
      · rintro ⟨cut, more⟩
        match bs with
        | hi :: lo :: rest => exact ⟨hi, lo, rest, rfl, cut.1, by simpa using more⟩
  | frame hi lo rest positive whole ih =>
    rw [frames_frame positive whole] at fits
    have fit := fits _ List.mem_cons_self
    rw [List.length_take_of_le whole] at fit
    obtain ⟨m, r, call, _, _, liver, size⟩ := live.next_frame hsrc rfl positive whole fit
    cases yields with
    | stop other => simp [call] at other
    | message same later =>
      obtain ⟨rfl, rfl⟩ : m = _ ∧ r = _ := by simpa [call] using same
      rw [leftover_frame positive whole]
      exact ih liver (by omega) (fun f hf => size ▸ fits f (List.mem_cons_of_mem _ hf)) later

end ItchParser

/-! The parser of a finished run. -/

namespace BatchAssembler

variable {k : LogCapacity} {σ : Type} {source : ByteSource σ} {hash : UInt64 → UInt64}
  {p q : ItchParser σ} {f f' : Filling k} {turns : Nat}

theorem onMessage_closes {m : Msg} (closes : (onMessage hash f m).1 = true) :
    (onMessage hash f m).2.batchMeta.nMsgs ≠ 0 := by
  by_cases opens : m.opens = true
  · by_cases empty : f.batchMeta.nMsgs = 0
    · simp [onMessage_opens_empty opens empty] at closes
    · rw [onMessage_opens_break opens empty]
      exact empty
  · by_cases ships : m.ships = true
    · simp [onMessage_ships ships] at closes
    · simp [onMessage_passes (Bool.eq_false_iff.mpr opens) (Bool.eq_false_iff.mpr ships)] at closes

theorem fillLoop_empty (bounds : p.Bounds)
    (result : fillLoop source hash turns p f = some (q, f')) (empty : f'.batchMeta.nMsgs = 0) :
    q.next source = (none, q) := by
  induction turns generalizing p f with
  | zero => cases result
  | succ turns ih =>
    rcases fillLoop_cases result with ⟨full, rfl, rfl⟩ | ⟨_, ⟨call, rfl⟩ | ⟨m, p', call, turn⟩⟩
    · rw [empty] at full
      exact absurd (by decide) full
    · have again := ItchParser.next_none_again bounds (congrArg Prod.fst call)
      rwa [call] at again
    · rcases turn with ⟨closes, rfl, rfl⟩ | ⟨_, later⟩
      · exact absurd empty (onMessage_closes closes)
      · have bounds' : p'.Bounds := by simpa [call] using ItchParser.next_bounds source bounds
        exact ih bounds' later

theorem Batches.final {p' : ItchParser σ} {a a' : BatchAssembler k} {calls : List Call}
    {last : Call} {ms : List Msg} (run : Batches source hash p a calls last p' a')
    (yields : ItchParser.Yields source p ms q) (bounds : p.Bounds) : p' = q := by
  induction run generalizing ms with
  | stop dst turns call empty =>
    obtain ⟨used, rest, drew⟩ := fill_drew yields bounds call
    have again := fillLoop_empty bounds call empty
    cases drew.yields with
    | stop same =>
      rw [again] at same
      exact congrArg Prod.snd same
    | message other _ => simp [again] at other
  | batch dst turns call some later ih =>
    obtain ⟨used, rest, drew⟩ := fill_drew yields bounds call
    exact ih drew.yields drew.bounds

end BatchAssembler

def CpuRun.exitStatus {k : LogCapacity} {σ : Type} (r : CpuRun k σ) : Nat :=
  if r.parser.error then 1 else 0

variable {σ : Type} {source : ByteSource σ} {left : σ → List UInt8} {s : σ}

theorem runCpu_error (hsrc : source.Delivers left) {opt : Options} (unlimited : opt.maxMsgs = 0)
    {turns : Nat} {r : CpuRun 24 σ} (result : runCpu source opt turns s = some r) :
    r.exitStatus = 1 ↔ CutOff (leftover (left s)) ∧ (leftover (left s)).length ≠ 2 := by
  have live := ItchParser.start_live left s ItchParser.defaultBufBytes
  have room : 2 < ItchParser.defaultBufBytes := by decide
  obtain ⟨ms, q, yields, _, _⟩ := live.yields hsrc room fun f hf => frames_fit_default hf
  have flag := live.yields_error hsrc room (fun f hf => frames_fit_default hf) yields
  unfold runCpu at result
  obtain ⟨r', loop, rfl⟩ := Option.map_eq_some_iff.mp result
  obtain ⟨calls, last, run, _⟩ := CpuRun.loop_batches unlimited loop
  have final : r'.snapshot.parser = q := run.final yields live.bounds
  rw [← flag, CpuRun.exitStatus, final]
  cases q.error <;> simp

/-- Truncation is reported exactly when the stream `left s` ends inside a frame: by the
flag after the first `nullptr`, by the Python pass, and by the exit status of a run. -/
structure TruncationReported {σ : Type} (source : ByteSource σ) (left : σ → List UInt8)
    (opt : Options) (s : σ) (p : ItchParser σ) : Prop where
  flag : ∀ ms q, ItchParser.Yields source p ms q →
    (q.error = true ↔ CutOff (leftover (left s)))
  pass : ValidateCounts.main 0 (left s) = .error .truncated ↔ CutOff (leftover (left s))
  exit : ∀ turns r, runCpu source opt turns s = some r →
    (r.exitStatus = 1 ↔ ValidateCounts.main 0 (left s) = .error .truncated)

/-- The reports agree exactly when a frame cut off shows a byte of its payload and the
Python pass gets to it. -/
theorem truncation_reported_iff (hsrc : source.Delivers left) (s : σ) {bufBytes : Nat}
    {p : ItchParser σ} (made : ItchParser.make s bufBytes = .ok p)
    (fits : ∀ f ∈ frames (left s), 2 + f.length ≤ bufBytes) {opt : Options}
    (unlimited : opt.maxMsgs = 0) :
    (∃ ms q, ItchParser.Yields source p ms q) ∧
    (∃ turns r, runCpu source opt turns s = some r) ∧
    (TruncationReported source left opt s p ↔
      (CutOff (leftover (left s)) → (leftover (left s)).length ≠ 2 ∧
        ∀ f ∈ frames (left s), ValidateCounts.Readable f)) := by
  obtain ⟨large, rfl⟩ := ItchParser.make_ok made
  have live := ItchParser.start_live left s bufBytes
  have room : 2 < (ItchParser.start s bufBytes).bufBytes := Nat.lt_of_lt_of_le (by decide) large
  obtain ⟨ms, q, yields, _, _⟩ := live.yields hsrc room fits
  have returns := runCpu_returns hsrc s opt
  refine ⟨⟨ms, q, yields⟩, returns, ?_⟩
  have flagged {ms q} (yields : ItchParser.Yields source (.start s bufBytes) ms q) :=
    live.yields_error hsrc room fits yields
  constructor
  · intro reported cut
    exact ⟨((flagged yields).mp ((reported.flag ms q yields).mpr cut)).2,
      ((ValidateCounts.main_truncated _).mp (reported.pass.mpr cut)).2⟩
  · intro seen
    have pass : ValidateCounts.main 0 (left s) = .error .truncated ↔ CutOff (leftover (left s)) := by
      rw [ValidateCounts.main_truncated]
      exact ⟨And.left, fun cut => ⟨cut, (seen cut).2⟩⟩
    refine ⟨fun ms q yields => ?_, pass, fun turns r result => ?_⟩
    · rw [flagged yields]
      exact ⟨And.left, fun cut => ⟨cut, (seen cut).1⟩⟩
    · rw [runCpu_error hsrc unlimited result, pass]
      exact ⟨And.left, fun cut => ⟨cut, (seen cut).1⟩⟩

/-- A message cut off behind its first byte, behind a trade. -/
theorem truncation_reported_payload :
    let bs : List UInt8 := [0, 44] ++ tradeFrame ++ [0, 5, 88]
    TruncationReported memSource id .default bs (ItchParser.start bs 64) := by
  intro bs
  have readable : ∀ f ∈ frames bs, ValidateCounts.Readable f := by decide +kernel
  exact (truncation_reported_iff memSource_delivers bs (ItchParser.make_eq _ (Nat.le_refl 64))
    (by decide +kernel) rfl).2.2.mpr fun _ => ⟨by decide +kernel, readable⟩

/-- A prefix that promises five bytes and the end of the stream: the Python pass reports
it, the parser does not. -/
theorem truncation_unreported : ¬TruncationReported memSource id .default [0, 5]
    (ItchParser.start [0, 5] 64) := by
  intro reported
  obtain ⟨q, call⟩ : ∃ q, ItchParser.next memSource (.start [0, 5] 64) = (none, q) :=
    ⟨_, Prod.ext (by decide) rfl⟩
  have down : (ItchParser.next memSource (.start [0, 5] 64)).2.error = false := by decide
  have up := (reported.flag [] q (.stop call)).mpr (by decide)
  rw [call] at down
  have clash : false = true := down.symm.trans up
  exact absurd clash (by decide)

end ItchAggregator
