import ItchAggregator.Library.BatchEnds
import ItchAggregator.Truncation

/-! The limit on the number of messages. The Python pass stops behind the message that
reaches it; `run_cpu` finishes the batch first, so that it stops there only if that
message happens to close a batch, or the stream has no more messages. -/

namespace ItchAggregator

open Batching (Item Ends Closes position)
open BatchAssembler

def ClosesBatch (fs : List (List UInt8)) : Prop := Closes batchMsgs (fs.map frameItem)

instance (fs : List (List UInt8)) : Decidable (ClosesBatch fs) := by
  unfold ClosesBatch
  infer_instance

namespace BatchAssembler

variable {k : LogCapacity} {σ : Type} {source : ByteSource σ} {hash : UInt64 → UInt64}
  {a : BatchAssembler k} {p q p' : ItchParser σ} {ms : List Msg} {f : Filling k}

theorem labels_frameItem_bytes (positive : ∀ m ∈ ms, 0 < m.len)
    (long : ∀ m ∈ ms, LongEnough m.bytes) :
    (labels hash a ms).map (Item.map Shipped.frame) = (ms.map Msg.bytes).map frameItem := by
  have drawn : (labels hash a ms).map (Item.map Shipped.frame) =
      (labels hash a ((ms.map Msg.bytes).map Msg.ofFrame)).map (Item.map Shipped.frame) := by
    rw [← labels_frames positive long, List.map_map]
    rfl
  rw [drawn, labels_frameItem]

/-- A call of `fill` draws messages up to the first that closes a batch, or all. -/
theorem fill_ends (yields : ItchParser.Yields source p ms q) (bounds : p.Bounds)
    (long : ∀ m ∈ ms, LongEnough m.bytes) {dst : Ptr} {turns : Nat}
    (call : fill source hash turns p a dst = some (p', f)) :
    ∃ used rest, ms = used ++ rest ∧ ItchParser.Yields source p' rest q ∧ p'.Bounds ∧
      (f.batchMeta.nMsgs = 0 → rest = []) ∧
      ItchParser.Counted p (used.map Msg.bytes) p' ∧
      Ends batchMsgs ((ms.map Msg.bytes).map frameItem) 0 ((rest.map Msg.bytes).map frameItem)
        ((used.map Msg.bytes).map frameItem) := by
  obtain ⟨used, rest, drew⟩ := fill_drew yields bounds call
  have room : (⟨[], a.pendingReset⟩ : Batching.Batch Shipped).items.length < batchMsgs :=
    (by decide : 0 < batchMsgs)
  obtain ⟨items, ends⟩ := Batching.take_ends (l := labels hash a ms) room
  have behind := drew.rest
  rw [absorbAll_withPending, labels_withPending] at behind
  obtain rfl : items = labels hash a used := by
    have split := ends.split
    rw [behind, drew.split, labels_append] at split
    exact (List.append_cancel_right split).symm
  have frames := ends.map Shipped.frame
  have positive := yields.positive
  rw [drew.split] at long positive
  rw [behind, labels_frameItem_bytes (fun m hm => drew.yields.positive m hm) fun m hm =>
      long m (List.mem_append_right used hm),
    labels_frameItem_bytes (fun m hm => positive m (List.mem_append_left rest hm)) fun m hm =>
      long m (List.mem_append_left rest hm),
    labels_frameItem_bytes yields.positive (by rwa [← drew.split] at long)] at frames
  refine ⟨used, rest, drew.split, drew.yields, drew.bounds, fun empty => ?_, ?_, frames⟩
  · have none :
        (Batching.take batchMsgs (labels hash a ms) ⟨[], a.pendingReset⟩).batch.items = [] := by
      rw [← List.length_eq_zero_iff, ← drew.holds.count]
      exact empty
    have nil := (Batching.take_none (by decide) _ none).2
    rw [behind] at nil
    exact List.length_eq_zero_iff.mp (by rw [← labels_length rest, nil, List.length_nil])
  · have whole := yields.counted bounds
    have later := drew.yields.counted drew.bounds
    rw [drew.split, List.map_append] at whole
    constructor
    · have totals := whole.total
      rw [later.total, List.length_append] at totals
      omega
    · intro t
      have counts := whole.counts t
      rw [later.counts t, List.countP_append] at counts
      omega

end BatchAssembler

theorem closesBatch_take {pre fs used rest : List (List UInt8)} {n : Nat}
    (fresh : (position batchMsgs 0 (pre.map frameItem)).1 = 0)
    (ends : Ends batchMsgs (fs.map frameItem) 0 (rest.map frameItem) (used.map frameItem))
    (behind : pre.length < n) (upto : n ≤ pre.length + used.length) :
    ClosesBatch ((pre ++ used ++ rest).take n) ↔
      n = pre.length + used.length ∧ position batchMsgs 0 (used.map frameItem) = (0, true) := by
  obtain ⟨i, rfl⟩ := Nat.exists_eq_add_of_lt behind
  have cut : (pre ++ used ++ rest).take (pre.length + i + 1) = pre ++ used.take (i + 1) := by
    rw [List.append_assoc, Nat.add_assoc, List.take_length_add_append,
      List.take_append_of_le_length (by omega)]
  have some : (used.take (i + 1)).map frameItem ≠ [] := by
    rw [Ne, List.map_eq_nil_iff, List.take_eq_nil_iff, ← List.length_eq_zero_iff]
    omega
  have here : ClosesBatch (pre ++ used.take (i + 1)) ↔
      (position batchMsgs 0 ((used.take (i + 1)).map frameItem)).2 = true := by
    rw [ClosesBatch, Closes, List.map_append, Batching.position_append some, fresh]
  rw [cut, here, Nat.add_assoc, Nat.add_left_cancel_iff]
  rcases Nat.lt_or_ge (i + 1) used.length with inside | last
  · have open_ := ends.inner (i + 1) (by simpa using inside)
    rw [← List.map_take] at open_
    rw [open_]
    constructor
    · intro closed
      cases closed
    · rintro ⟨same, _⟩
      omega
  · have same : i + 1 = used.length := by omega
    rw [same, List.take_length]
    rcases ends.last with closed | ⟨_, stays⟩
    · simp [closed]
    · rw [stays]
      constructor
      · intro closed
        cases closed
      · rintro ⟨_, closed⟩
        rw [closed] at stays
        cases stays

namespace CpuRun

variable {k : LogCapacity} {σ : Type} {source : ByteSource σ} {hash : UInt64 → UInt64}
  {opt : Options} {turns loops : Nat} {r r' : CpuRun k σ} {p₀ q : ItchParser σ} {ms : List Msg}
  {pre : List (List UInt8)}

/-- The run ends behind `n` of the frames, which is where it should exactly if there are
no more of them than the limit, or the one that reaches it closes a batch. -/
def StopsAt (opt : Options) (fs : List (List UInt8)) (n : Nat) : Prop :=
  n ≤ fs.length ∧ (n = min opt.maxMsgs fs.length ↔
    fs.length ≤ opt.maxMsgs ∨ ClosesBatch (fs.take opt.maxMsgs))

/-- Where the run ends if it ends behind a call of `fill`. -/
theorem stopsAt {used rest : List (List UInt8)} (below : pre.length < opt.maxMsgs)
    (fresh : (position batchMsgs 0 (pre.map frameItem)).1 = 0 ∨ used = [] ∧ rest = [])
    (ends : Ends batchMsgs ((used ++ rest).map frameItem) 0 (rest.map frameItem)
      (used.map frameItem))
    (ending : opt.maxMsgs ≤ pre.length + used.length ∨ rest = []) :
    StopsAt opt (pre ++ used ++ rest) (pre.length + used.length) := by
  have length : (pre ++ used ++ rest).length = pre.length + used.length + rest.length := by
    rw [List.length_append, List.length_append]
  have none : rest = [] ↔ rest.length = 0 := List.length_eq_zero_iff.symm
  refine ⟨by omega, ?_⟩
  rcases Nat.lt_or_ge opt.maxMsgs (pre ++ used ++ rest).length with more | enough
  · have upto : opt.maxMsgs ≤ pre.length + used.length := by
      rcases ending with le | nil
      · exact le
      · have := none.mp nil
        omega
    have fresh : (position batchMsgs 0 (pre.map frameItem)).1 = 0 := by
      rcases fresh with fresh | ⟨rfl, rfl⟩
      · exact fresh
      · simp only [List.length_nil] at upto
        omega
    rw [closesBatch_take fresh ends below upto, min_eq_left (Nat.le_of_lt more)]
    constructor
    · intro here
      refine Or.inr ⟨here.symm, ends.last.resolve_right ?_⟩
      rintro ⟨nil, _⟩
      have := none.mp (List.map_eq_nil_iff.mp nil)
      omega
    · rintro (le | ⟨here, _⟩)
      · omega
      · exact here.symm
  · refine iff_of_true ?_ (Or.inl enough)
    rw [min_eq_right enough]
    rcases ending with le | nil
    · omega
    · have := none.mp nil
      omega

theorem loop_ends (yields : ItchParser.Yields source r.parser ms q) (bounds : r.parser.Bounds)
    (long : ∀ m ∈ ms, LongEnough m.bytes) (zero : p₀.total = 0)
    (counted : ItchParser.Counted p₀ pre r.parser) (below : pre.length < opt.maxMsgs)
    (fresh : (position batchMsgs 0 (pre.map frameItem)).1 = 0 ∨ ms = [])
    (result : loop source hash opt turns loops r = some r') :
    ∃ n, StopsAt opt (pre ++ ms.map Msg.bytes) n ∧
      ItchParser.Counted p₀ ((pre ++ ms.map Msg.bytes).take n) r'.parser := by
  induction loops generalizing r ms pre with
  | zero => cases result
  | succ loops ih =>
    obtain ⟨p, f, call, turn⟩ := loop_cases result
    obtain ⟨used, rest, rfl, later, bounds', drained, drew, ends⟩ :=
      fill_ends yields bounds long call
    have reached := counted.trans drew
    have total : p.total = pre.length + (used.map Msg.bytes).length := by
      rw [reached.total, zero, Nat.zero_add, List.length_append]
    have pulls : (CpuRun.onBatch opt (r.filled p f) f.batchMeta).parser = p := (onBatch_pulls _ _).1
    rw [List.map_append, ← List.append_assoc]
    rw [List.map_append] at ends
    have spent : used ++ rest = [] → used.map Msg.bytes = [] ∧ rest.map Msg.bytes = [] := by
      intro nil
      obtain ⟨rfl, rfl⟩ := List.append_eq_nil_iff.mp nil
      exact ⟨rfl, rfl⟩
    have stops : opt.maxMsgs ≤ p.total ∨ rest = [] → ∀ r' : CpuRun k σ, r'.parser = p →
        ∃ n, StopsAt opt (pre ++ used.map Msg.bytes ++ rest.map Msg.bytes) n ∧
          ItchParser.Counted p₀
            ((pre ++ used.map Msg.bytes ++ rest.map Msg.bytes).take n) r'.parser := by
      intro ending r' same
      refine ⟨_, stopsAt below (fresh.imp_right spent) ends ?_, ?_⟩
      · exact ending.imp (fun le => total ▸ le) fun nil => by rw [nil, List.map_nil]
      · rw [same, ← List.length_append, List.take_left]
        exact reached
    rcases turn with ⟨empty, rfl⟩ | ⟨_, ⟨enough, rfl⟩ | ⟨more, looped⟩⟩
    · exact stops (Or.inr (drained empty)) _ rfl
    · exact stops (Or.inl enough.2) _ pulls
    · have next : pre.length + (used.map Msg.bytes).length < opt.maxMsgs := by omega
      refine ih (by rwa [pulls]) (by rwa [pulls])
        (fun m hm => long m (List.mem_append_right used hm)) (by rwa [pulls])
        (by rwa [List.length_append]) ?_ looped
      rcases ends.last with closed | ⟨nil, _⟩
      · rcases fresh with fresh | nil
        · left
          have some : (used.map Msg.bytes).map frameItem ≠ [] := by
            intro nil
            rw [nil] at closed
            cases closed
          rw [List.map_append, Batching.position_append some, fresh, closed]
        · exact Or.inr (List.append_eq_nil_iff.mp nil).2
      · exact Or.inr (List.map_eq_nil_iff.mp (List.map_eq_nil_iff.mp nil))

end CpuRun

theorem ValidateCounts.readable_of_exact {f : List UInt8} (exact_ : ExactLength f)
    (ascii : f.headD 0 = MsgType.stockDir.code → ∀ b ∈ slice f 11 19, b < 128) : Readable f := by
  have length : ∀ t : MsgType, f.headD 0 = t.code → f.length = msgLength t.code := by
    intro t type
    rw [← type]
    refine exact_ ?_
    rw [type]
    cases t <;> decide
  refine ⟨fun isR => ⟨?_, ascii isR⟩, fun isP => ?_, fun isQ => ?_⟩
  · rw [length .stockDir isR]
    decide
  · rw [length .trade isP]
    decide
  · rw [length .tradeCross isQ]
    decide

variable {σ : Type} {source : ByteSource σ} {left : σ → List UInt8} {s : σ} {opt : Options}

theorem runCpu_ends (hsrc : source.Delivers left)
    (exact_ : ∀ f ∈ frames (left s), ExactLength f) (limited : 0 < opt.maxMsgs) {turns : Nat}
    {r : CpuRun 24 σ} (result : runCpu source opt turns s = some r) :
    ∃ n, CpuRun.StopsAt opt (frames (left s)) n ∧ ItchParser.Counted
      (ItchParser.start s ItchParser.defaultBufBytes) ((frames (left s)).take n) r.parser := by
  have live := ItchParser.start_live left s ItchParser.defaultBufBytes
  obtain ⟨ms, q, yields, same, _⟩ := live.yields hsrc
    (by decide : 2 < ItchParser.defaultBufBytes) fun f hf => frames_fit_default hf
  obtain ⟨r', loop, rfl⟩ := Option.map_eq_some_iff.mp result
  have long : ∀ m ∈ ms, LongEnough m.bytes := fun m hm =>
    (exact_ _ (same ▸ List.mem_map_of_mem hm)).longEnough
  have none : ItchParser.Counted (ItchParser.start s ItchParser.defaultBufBytes) []
      (ItchParser.start s ItchParser.defaultBufBytes) := .refl _
  have below : ([] : List (List UInt8)).length < opt.maxMsgs := limited
  obtain ⟨n, stops, counted⟩ := CpuRun.loop_ends yields live.bounds long rfl none below
    (Or.inl rfl) loop
  rw [List.nil_append, same] at stops counted
  exact ⟨n, stops, counted⟩

/-- The two programs count the same messages under a limit exactly when the stream has no
more of them than the limit, or the message that reaches it closes a batch. -/
theorem maxMsgs_agrees_iff (hsrc : source.Delivers left)
    (exact_ : ∀ f ∈ frames (left s), ExactLength f)
    (ascii : ∀ f ∈ frames (left s), f.headD 0 = MsgType.stockDir.code →
      ∀ b ∈ ValidateCounts.slice f 11 19, b < 128)
    (whole : ¬CutOff (leftover (left s))) (limited : 0 < opt.maxMsgs) :
    (∃ turns r, runCpu source opt turns s = some r) ∧
    ∃ v, ValidateCounts.main opt.maxMsgs (left s) = .ok v ∧
      v.total = min opt.maxMsgs (frames (left s)).length ∧
      (∀ t, v.counts t =
        ((frames (left s)).take opt.maxMsgs).countP fun f => f.head? == some t) ∧
      ∀ turns r, runCpu source opt turns s = some r →
        ((r.parser.total = v.total ∧ r.parser.counts = v.counts) ↔
          (frames (left s)).length ≤ opt.maxMsgs ∨
            ClosesBatch ((frames (left s)).take opt.maxMsgs)) := by
  obtain ⟨v, result, total, counts⟩ := ValidateCounts.main_counts limited whole fun f hf =>
    ValidateCounts.readable_of_exact (exact_ f hf) (ascii f hf)
  refine ⟨runCpu_returns hsrc s opt, v, result, total, counts, fun turns r run => ?_⟩
  obtain ⟨n, ⟨inside, stops⟩, counted⟩ := runCpu_ends hsrc exact_ limited run
  have all : r.parser.total = n := by
    rw [counted.total, List.length_take_of_le inside]
    exact Nat.zero_add n
  rw [all, total, ← stops, and_iff_left_iff_imp]
  intro here
  funext t
  have upto : (frames (left s)).take n = (frames (left s)).take opt.maxMsgs := by
    rw [here, List.take_eq_take_iff]
    omega
  rw [counts, counted.counts, upto]
  exact Nat.zero_add _

/-- The second of three messages, a market open, closes a batch. -/
theorem maxMsgs_agrees_reopened :
    ∃ turns r v, runCpu memSource ⟨128, 2, by decide⟩ turns reopened = some r ∧
      ValidateCounts.main 2 reopened = .ok v ∧ (frames reopened).length = 3 ∧
      r.parser.total = 2 ∧ v.total = 2 := by
  obtain ⟨⟨turns, r, run⟩, v, passed, total, _, agrees⟩ :=
    @maxMsgs_agrees_iff _ memSource id reopened ⟨128, 2, by decide⟩ memSource_delivers
      reopened_exact (by decide) (by decide +kernel) (by decide)
  have both := (agrees turns r run).mpr (Or.inr (by decide +kernel))
  have two : v.total = 2 := total.trans (by decide +kernel)
  exact ⟨turns, r, v, run, passed, by decide +kernel, both.1.trans two, two⟩

/-- Two deletes and a limit of one message: the Python pass counts one, the run two. -/
theorem maxMsgs_overrun :
    let bs : List UInt8 := [0, 19, 68, 0, 7, 0, 0, 0, 0, 0, 0, 0, 1, 0, 0, 0, 0, 0, 0, 0, 1,
      0, 19, 68, 0, 7, 0, 0, 0, 0, 0, 0, 0, 2, 0, 0, 0, 0, 0, 0, 0, 1]
    (∀ f ∈ frames bs, ExactLength f) ∧ ¬CutOff (leftover bs) ∧
      ∃ turns r v, runCpu memSource ⟨128, 1, by decide⟩ turns bs = some r ∧
        ValidateCounts.main 1 bs = .ok v ∧ v.total = 1 ∧ r.parser.total ≠ 1 := by
  intro bs
  have exact_ : ∀ f ∈ frames (id bs), ExactLength f := by decide
  have whole : ¬CutOff (leftover bs) := by decide +kernel
  obtain ⟨turns, r, run⟩ := runCpu_returns memSource_delivers bs ⟨128, 1, by decide⟩
  obtain ⟨v, result, total, _⟩ := ValidateCounts.main_counts (by decide : 0 < 1) whole
    fun f hf => ValidateCounts.readable_of_exact (exact_ f hf) (by revert f hf; decide)
  obtain ⟨n, ⟨inside, stops⟩, counted⟩ := runCpu_ends memSource_delivers exact_ (by decide) run
  refine ⟨exact_, whole, turns, r, v, run, result, total.trans (by decide), fun one => ?_⟩
  have here : n = 1 := by
    rw [counted.total, List.length_take_of_le inside] at one
    exact (Nat.zero_add n).symm.trans one
  exact absurd (stops.mp (here.trans (by decide))) (by decide)

end ItchAggregator
