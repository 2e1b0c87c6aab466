import ItchAggregator.GpuOutput
import ItchAggregator.Truncation

/-! What a run returns of a stream that is cut off. The parser notices when it is asked for
a message behind the last one; a run that ends at its limit with a batch that was closed
has not asked. -/

namespace ItchAggregator

open Batching (Closes position)
open BatchAssembler

namespace ItchParser

variable {σ : Type} {source : ByteSource σ} {p q : ItchParser σ}

theorem next_some_error {m : Msg} (bounds : p.Bounds) (call : next source p = (some m, q)) :
    q.error = p.error := by
  have served : ∀ {want : Nat} {p r : ItchParser σ}, p.Bounds →
      ensure source want p = (true, r) → r.Bounds ∧ r.error = p.error := by
    intro want p r bounds result
    have served := ensure_served source want bounds
    rw [result] at served
    exact ⟨served.grown.bounds, (served.met rfl).2.2⟩
  have outcome := next_case source p
  rw [call] at outcome
  cases outcome with
  | message r r' first _ second =>
    obtain ⟨bounds', same⟩ := served bounds first
    exact (served bounds' second).2.trans same

end ItchParser

namespace BatchAssembler

variable {k : LogCapacity} {σ : Type} {source : ByteSource σ} {hash : UInt64 → UInt64}
  {p q : ItchParser σ} {f f' : Filling k} {turns : Nat}

theorem onMessage_open {m : Msg} (goes : (onMessage hash f m).1 = false) :
    (onMessage hash f m).2.asm.pendingReset = f.asm.pendingReset := by
  by_cases opens : m.opens = true
  · by_cases empty : f.batchMeta.nMsgs = 0
    · rw [onMessage_opens_empty opens empty]
    · rw [onMessage_opens_break opens empty] at goes
      cases goes
  · by_cases ships : m.ships = true
    · rw [onMessage_ships ships]
      exact absorb_pendingReset
    · rw [onMessage_passes (Bool.eq_false_iff.mpr opens) (Bool.eq_false_iff.mpr ships)]
      exact absorb_pendingReset

theorem onMessage_flags {m : Msg} (closes : (onMessage hash f m).1 = true) :
    (onMessage hash f m).2.asm.pendingReset = true := by
  by_cases opens : m.opens = true
  · by_cases empty : f.batchMeta.nMsgs = 0
    · simp [onMessage_opens_empty opens empty] at closes
    · rw [onMessage_opens_break opens empty]
  · by_cases ships : m.ships = true
    · simp [onMessage_ships ships] at closes
    · simp [onMessage_passes (Bool.eq_false_iff.mpr opens) (Bool.eq_false_iff.mpr ships)] at closes

def Filling.Closed (f : Filling k) : Prop :=
  batchMsgs ≤ f.batchMeta.nMsgs ∨ f.asm.pendingReset = true

/-- The parser was asked for more than a batch has unless the batch was closed. -/
theorem fillLoop_asked (bounds : p.Bounds) (unflagged : f.asm.pendingReset = false)
    (result : fillLoop source hash turns p f = some (q, f')) :
    f'.Closed ∧ f'.batchMeta.nMsgs ≠ 0 ∧ q.error = p.error ∨
      ¬f'.Closed ∧ q.next source = (none, q) := by
  induction turns generalizing p f with
  | zero => cases result
  | succ turns ih =>
    rcases fillLoop_cases result with ⟨full, rfl, rfl⟩ | ⟨room, ⟨call, rfl⟩ | ⟨m, p', call, turn⟩⟩
    · have le := Nat.le_of_not_lt full
      exact Or.inl ⟨Or.inl le, (Nat.lt_of_lt_of_le (by decide) le).ne', rfl⟩
    · have again := ItchParser.next_none_again bounds (congrArg Prod.fst call)
      rw [call] at again
      refine Or.inr ⟨?_, again⟩
      rintro (full | flagged)
      · exact absurd room full.not_gt
      · rw [unflagged] at flagged
        cases flagged
    · have same := ItchParser.next_some_error bounds call
      rcases turn with ⟨closes, rfl, rfl⟩ | ⟨goes, later⟩
      · exact Or.inl ⟨Or.inr (onMessage_flags closes), onMessage_closes closes, same⟩
      · have bounds' : p'.Bounds := by simpa [call] using ItchParser.next_bounds source bounds
        rw [← same]
        exact ih bounds' ((onMessage_open goes).trans unflagged) later

end BatchAssembler

/-- The run stopped at its limit, with a batch that was closed. -/
def Unasked (limit : Nat) (ms : List Msg) : Prop :=
  limit ≠ 0 ∧ limit ≤ ms.length ∧ Closes batchMsgs (itemsOf ms)

section Turn

variable {σ : Type} {source : ByteSource σ} {opt : Options} {turns loops : Nat} {r r' : CpuRun 24 σ}
  {ms used rest : List Msg} {p q : ItchParser σ} {f : Filling 24} {t : Batching.Taken Shipped}

theorem Filled.asked (filled : Filled source r ms used rest q p f t)
    (told : Told opt.snapshotInterval ms r) (bounds : r.parser.Bounds)
    (call : BatchAssembler.fill source OrderHash.mix turns r.parser r.assembler r.batch =
      some (p, f)) :
    (position batchMsgs 0 (itemsBehind ms used)).2 = true ∧ f.batchMeta.nMsgs ≠ 0 ∧
        p.error = r.parser.error ∨
      (position batchMsgs 0 (itemsBehind ms used)).2 = false ∧ rest = [] ∧ p = q := by
  obtain ⟨read, split, closed⟩ := Batching.take_closed (l := itemsBehind ms (used ++ rest))
    (b := ⟨[], r.assembler.pendingReset⟩) (show 0 < batchMsgs by decide)
  rw [← filled.taken] at split closed
  rw [filled.behind told, itemsBehind_append] at split
  obtain rfl : itemsBehind ms used = read := List.append_cancel_right split
  have closes : (position batchMsgs 0 (itemsBehind ms used)).2 = true ↔ f.Closed := by
    rw [BatchAssembler.Filling.Closed, filled.items, filled.pending]
    exact closed
  rcases BatchAssembler.fillLoop_asked bounds rfl call with ⟨closed, same⟩ | ⟨open_, again⟩
  · exact Or.inl ⟨closes.mpr closed, same⟩
  · refine Or.inr ⟨Bool.eq_false_iff.mpr fun closed => open_ (closes.mp closed), ?_⟩
    have yields := filled.drew.yields
    cases yields with
    | stop same =>
      rw [again] at same
      exact ⟨rfl, congrArg Prod.snd same⟩
    | message other _ => simp [again] at other

/-- Behind a batch that was closed the parser has not been asked; otherwise nothing is left. -/
structure Unflagged (ms rest : List Msg) (p : ItchParser σ) : Prop where
  fresh : rest ≠ [] → (position batchMsgs 0 (itemsOf ms)).1 = 0
  error : rest ≠ [] → p.error = false

theorem closes_append (fresh : (position batchMsgs 0 (itemsOf ms)).1 = 0) (some_ : used ≠ []) :
    Closes batchMsgs (itemsOf (ms ++ used)) ↔
      (position batchMsgs 0 (itemsBehind ms used)).2 = true := by
  have behind : itemsBehind ms used ≠ [] := by
    rw [Ne, ← List.length_eq_zero_iff, itemsBehind, labels_length, List.length_eq_zero_iff]
    exact some_
  rw [Closes, itemsOf_append, Batching.position_append behind, fresh]

theorem not_unasked {limit : Nat} (open_ : ¬(limit ≠ 0 ∧ limit ≤ ms.length))
    (fresh : used ≠ [] → (position batchMsgs 0 (itemsOf ms)).1 = 0)
    (stays : (position batchMsgs 0 (itemsBehind ms used)).2 = false) :
    ¬Unasked limit (ms ++ used) := by
  rintro ⟨limited, reached, closes⟩
  by_cases none : used = []
  · rw [none, List.append_nil] at reached
    exact open_ ⟨limited, reached⟩
  · rw [closes_append (fresh none) none, stays] at closes
    cases closes

theorem Reading.loop_error (reading : Reading source opt ms rest q r)
    (open_ : ¬(opt.maxMsgs ≠ 0 ∧ opt.maxMsgs ≤ ms.length)) (unflagged : Unflagged ms rest r.parser)
    (result : CpuRun.loop source OrderHash.mix opt turns loops r = some r') :
    r'.parser.error = true ↔
      q.error = true ∧ ¬Unasked opt.maxMsgs (readUnder opt.maxMsgs (ms ++ rest)) := by
  induction loops generalizing r ms rest with
  | zero => cases result
  | succ loops ih =>
    obtain ⟨p, f, call, turn⟩ := CpuRun.loop_cases result
    obtain ⟨used, left, t, rfl, filled⟩ := reading.told.filled reading.yields reading.bounds call
    have asked := filled.asked reading.told reading.bounds call
    have fresh : used ≠ [] → (position batchMsgs 0 (itemsOf ms)).1 = 0 := fun some_ =>
      unflagged.fresh (List.append_ne_nil_of_left_ne_nil some_ left)
    rcases turn with ⟨empty, rfl⟩ | ⟨some_, turn⟩
    · obtain ⟨_, read, _⟩ := reading.last filled empty
      rw [read]
      rcases asked with ⟨closed, some_, _⟩ | ⟨stays, _, rfl⟩
      · exact absurd empty some_
      · exact (and_iff_left (not_unasked open_ fresh stays)).symm
    · have batch := reading.batch filled some_
      have parser : ((r.filled p f).onBatch opt f.batchMeta).parser = p :=
        (CpuRun.onBatch_pulls _ _).1
      have total := filled.total reading.told
      rcases asked with ⟨closed, _, same⟩ | ⟨stays, rfl, rfl⟩
      · have used_ : used ≠ [] := by
          rintro rfl
          cases closed
        have clean : p.error = false :=
          same.trans (unflagged.error (List.append_ne_nil_of_left_ne_nil used_ left))
        have closes := (closes_append (fresh used_) used_).mpr closed
        rcases turn with ⟨reached, rfl⟩ | ⟨more, later⟩
        · rw [if_pos reached] at batch
          rw [total] at reached
          have unasked : Unasked opt.maxMsgs (ms ++ used) := ⟨reached.1, reached.2, closes⟩
          rw [parser, clean, batch.1]
          simp [unasked]
        · rw [if_neg more] at batch
          rw [← List.append_assoc]
          rw [total] at more
          refine ih batch more ⟨fun _ => ?_, fun _ => ?_⟩ later
          · exact Batching.position_closed closes
          · rw [parser, clean]
      · have asked := not_unasked open_ fresh stays
        rcases turn with ⟨reached, rfl⟩ | ⟨more, later⟩
        · rw [if_pos reached] at batch
          rw [parser, batch.1]
          exact (and_iff_left asked).symm
        · rw [if_neg more] at batch
          rw [← List.append_assoc]
          rw [total] at more
          exact ih batch more ⟨fun none => absurd rfl none, fun none => absurd rfl none⟩ later

end Turn

def GpuRun.exitStatus {k : LogCapacity} {σ : Type} (g : GpuRun k σ) : Nat :=
  if g.parser.error then 1 else 0

section Run

variable {σ : Type} {source : ByteSource σ} {left : σ → List UInt8} {s : σ} {opt : Options}

theorem unasked_frames {ms : List Msg} (positive : ∀ m ∈ ms, 0 < m.len)
    (long : ∀ m ∈ ms, LongEnough m.bytes) (limit : Nat) :
    Unasked limit (ms.map fun m => Msg.ofFrame m.bytes) ↔ Unasked limit ms := by
  rw [Unasked, itemsOf_frames positive long, List.length_map]
  rfl

/-- The stream ends in a frame that is cut off and shows a byte of its payload, and a run
under the limit asks for that frame. -/
def ReportsCut (limit : Nat) (bs : List UInt8) : Prop :=
  (CutOff (leftover bs) ∧ (leftover bs).length ≠ 2) ∧
    ¬Unasked limit (readUnder limit ((frames bs).map Msg.ofFrame))

instance (limit : Nat) (bs : List UInt8) : Decidable (ReportsCut limit bs) := by
  unfold ReportsCut Unasked
  infer_instance

theorem reportsCut_zero {bs : List UInt8} :
    ReportsCut 0 bs ↔ CutOff (leftover bs) ∧ (leftover bs).length ≠ 2 :=
  and_iff_left fun unasked => unasked.1 rfl

theorem runCpu_flag {ms : List Msg} {q : ItchParser σ}
    (yields : ItchParser.Yields source (.start s ItchParser.defaultBufBytes) ms q) {turns : Nat}
    {r : CpuRun 24 σ} (result : runCpu source opt turns s = some r) :
    r.parser.error = true ↔
      q.error = true ∧ ¬Unasked opt.maxMsgs (readUnder opt.maxMsgs ms) := by
  obtain ⟨r', looped, rfl⟩ := Option.map_eq_some_iff.mp result
  have open_ : ¬(opt.maxMsgs ≠ 0 ∧ opt.maxMsgs ≤ ([] : List Msg).length) := fun both =>
    both.1 (Nat.le_zero.mp both.2)
  have error := (Reading.initial opt yields).loop_error open_
    ⟨fun _ => rfl, fun _ => rfl⟩ looped
  exact error

theorem runCpu_asked {ms : List Msg} {q : ItchParser σ}
    (yields : ItchParser.Yields source (.start s ItchParser.defaultBufBytes) ms q)
    (long : ∀ f ∈ ms.map Msg.bytes, LongEnough f) {turns : Nat} {r : CpuRun 24 σ}
    (result : runCpu source opt turns s = some r) :
    r.parser.error = true ↔ q.error = true ∧
      ¬Unasked opt.maxMsgs (readUnder opt.maxMsgs ((ms.map Msg.bytes).map Msg.ofFrame)) := by
  have long : ∀ m ∈ ms, LongEnough m.bytes := fun m mem => long _ (List.mem_map_of_mem mem)
  rw [List.map_map, Function.comp_def, readUnder_frames yields.positive long,
    unasked_frames (fun m mem => yields.positive m (mem_readUnder mem))
      fun m mem => long m (mem_readUnder mem)]
  exact runCpu_flag yields result

theorem runCpu_reports (hsrc : source.Delivers left) (long : ∀ f ∈ frames (left s), LongEnough f)
    {turns : Nat} {r : CpuRun 24 σ} (result : runCpu source opt turns s = some r) :
    r.parser.error = true ↔ ReportsCut opt.maxMsgs (left s) := by
  have live := ItchParser.start_live left s ItchParser.defaultBufBytes
  have room : 2 < ItchParser.defaultBufBytes := by decide
  obtain ⟨ms, q, yields, same, _⟩ := live.yields hsrc room fun f hf => frames_fit_default hf
  have flag := live.yields_error hsrc room (fun f hf => frames_fit_default hf) yields
  rw [ReportsCut, ← flag, ← same]
  exact runCpu_asked yields (same ▸ long) result

/-- Both pipelines return 1 for a stream that is cut off, under a limit if they ask for the
frame that is, and 0 otherwise. The messages `ms` are those that `next` hands out. -/
theorem run_exitStatus (hsrc : source.Delivers left) :
    ∃ ms q, ItchParser.Yields source (.start s ItchParser.defaultBufBytes) ms q ∧
      ms.map Msg.bytes = frames (left s) ∧
      (∃ turns r, runCpu source opt turns s = some r) ∧
      ∀ turns r, runCpu source opt turns s = some r → ∃ g, runGpu source opt turns s = some g ∧
        g.exitStatus = r.exitStatus ∧ r.exitStatus ≤ 1 ∧
        (r.exitStatus = 1 ↔ (CutOff (leftover (left s)) ∧ (leftover (left s)).length ≠ 2) ∧
          ¬Unasked opt.maxMsgs (readUnder opt.maxMsgs ms)) := by
  have live := ItchParser.start_live left s ItchParser.defaultBufBytes
  have room : 2 < ItchParser.defaultBufBytes := by decide
  obtain ⟨ms, q, yields, same, _⟩ := live.yields hsrc room fun f hf => frames_fit_default hf
  have flag := live.yields_error hsrc room (fun f hf => frames_fit_default hf) yields
  refine ⟨ms, q, yields, same, runCpu_returns hsrc s opt, fun turns r result => ?_⟩
  obtain ⟨g, gpu, _, parser, _⟩ := runGpu_beside DeviceMemory.zeroed result
  refine ⟨g, gpu, by rw [GpuRun.exitStatus, CpuRun.exitStatus, parser], ?_, ?_⟩
  · unfold CpuRun.exitStatus
    split <;> decide
  · rw [← flag, ← runCpu_flag yields result, CpuRun.exitStatus]
    cases r.parser.error <;> simp

/-- Two trades, and a frame of nine bytes cut off behind its first: the limit is reached inside
a batch, and the run asks for that frame. -/
theorem run_exitStatus_cut :
    let bs := reopened ++ [0, 9, 1]
    ∃ r g ms, runCpu memSource ⟨1, 3, by decide⟩ 8 bs = some r ∧
      runGpu memSource ⟨1, 3, by decide⟩ 8 bs = some g ∧ r.parser.total = 3 ∧
      r.exitStatus = 1 ∧ g.exitStatus = 1 ∧ ms.map Msg.bytes = frames bs ∧
      ¬Unasked 3 (readUnder 3 ms) := by
  intro bs
  have ran : (runCpu memSource ⟨1, 3, by decide⟩ 8 bs).map (fun r =>
      (r.parser.total, r.exitStatus)) = some (3, 1) := by decide +kernel
  obtain ⟨r, result, counters⟩ := Option.map_eq_some_iff.mp ran
  obtain ⟨total, one⟩ := Prod.mk.inj counters
  obtain ⟨ms, _, _, same, _, status⟩ :=
    @run_exitStatus _ memSource id bs ⟨1, 3, by decide⟩ memSource_delivers
  obtain ⟨g, gpu, both, _, reports⟩ := status 8 r result
  exact ⟨r, g, ms, result, gpu, total, one, both.trans one, same, (reports.mp one).2⟩

end Run

end ItchAggregator
