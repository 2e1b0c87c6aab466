import ItchAggregator.GpuOrder
import ItchAggregator.KernelRuns
import ItchAggregator.Reports

/-! The GPU pipeline reports what the CPU pipeline does. Its commands order all that
touches the same data, so that every execution ends in the memory of the operations
one after the other; in that memory each stage of the loop body keeps the run in
step with the run of `run_cpu` on the same bytes. -/

namespace ItchAggregator

open BatchAssembler Threads
open StreamMachine (sequential Cmd Complete)

namespace GpuRun

variable {k : LogCapacity} {σ : Type}

def prints (g : GpuRun k σ) (m : DeviceMemory) : List (UInt64 × (Sym → Snapshot)) :=
  g.printed.mapIdx fun n label => (label.1, fun sym => m (.out n sym))

def underway (g : GpuRun k σ) (m : DeviceMemory) : List (UInt64 × (Sym → Snapshot)) :=
  g.pending.toList.map fun b => (g.pendingTs, fun sym => m (.hSnap b sym))

/-- The memory behind the commands issued so far, done one after the other. -/
def mem (g : GpuRun k σ) (m : DeviceMemory) : DeviceMemory := sequential deviceOps g.commands m

variable {g : GpuRun k σ} {m : DeviceMemory}

variable {c : Cmd DeviceOp GpuStream GpuEvent} {op : DeviceOp}

theorem mem_issue (does : c.op? = some op) (g : GpuRun k σ) (m : DeviceMemory) :
    (g.issue c).mem m = runAll op.tasks (g.mem m) := by
  simp only [mem, issue, StreamMachine.sequential_append, StreamMachine.sequential_cons,
    StreamMachine.sequential_nil, StreamMachine.Operations.cmdTasks, does, Option.elim, deviceOps]

theorem mem_idle (none : c.op? = none) (g : GpuRun k σ) (m : DeviceMemory) :
    (g.issue c).mem m = g.mem m := by
  simp only [mem, issue, StreamMachine.sequential_append, StreamMachine.sequential_cons,
    StreamMachine.sequential_nil, StreamMachine.Operations.cmdTasks, none, Option.elim, runAll_nil]

theorem prints_congr {m' : DeviceMemory}
    (same : ∀ n < g.printed.length, ∀ sym, m' (.out n sym) = m (.out n sym)) :
    g.prints m' = g.prints m := by
  refine List.mapIdx_eq_mapIdx_iff.mpr fun n inside => ?_
  simp only [same n inside]

theorem prints_print (g : GpuRun k σ) (b : Fin 2) (ts : UInt64) (m : DeviceMemory) :
    (g.print b ts).prints ((g.print b ts).mem m) =
      g.prints (g.mem m) ++ [(ts, fun sym => g.mem m (.hSnap b sym))] := by
  have step : (g.print b ts).mem m = runAll (DeviceOp.print g.printed.length b).tasks (g.mem m) :=
    mem_issue rfl g m
  have earlier : g.prints ((g.print b ts).mem m) = g.prints (g.mem m) := by
    refine prints_congr fun n inside sym => ?_
    have other : n ≠ g.printed.length := by omega
    rw [step]
    exact runAll_untouched _ _ (Or.inl (by exact if_neg other))
  have row : (fun sym => (g.print b ts).mem m (.out g.printed.length sym)) =
      fun sym => g.mem m (.hSnap b sym) := by
    funext sym
    rw [step]
    exact runAll_print _ _ _ sym
  have all : (g.print b ts).prints ((g.print b ts).mem m) = g.prints ((g.print b ts).mem m) ++
      [(ts, fun sym => (g.print b ts).mem m (.out g.printed.length sym))] := List.mapIdx_concat
  rw [all, earlier, row]

theorem underway_congr {m' : DeviceMemory} (same : ∀ b sym, m' (.hSnap b sym) = m (.hSnap b sym)) :
    g.underway m' = g.underway m := by
  simp only [underway, same]

theorem accOf_untouched (acc : op.mode .acc = .none) (m : DeviceMemory) :
    accOf (runAll op.tasks m) = accOf m :=
  accOf_congr (fun _ _ => runAll_untouched m op (Or.inl acc)) fun _ _ =>
    runAll_untouched m op (Or.inl acc)

theorem runAll_copied (b : Fin 2) (m : DeviceMemory) :
    let m' := runAll (DeviceOp.copyOut b).tasks (runAll DeviceOp.snapshot.tasks m)
    (∀ sym, m' (.hSnap b sym) = (cpuSnapshot (accOf m)).1 sym) ∧
      accOf m' = (cpuSnapshot (accOf m)).2 ∧ ∀ n sym, m' (.out n sym) = m (.out n sym) := by
  obtain ⟨rows, acc⟩ := runAll_snapshot m
  refine ⟨fun sym => (runAll_copyOut _ b sym).trans (rows sym), (accOf_untouched rfl _).trans acc,
    fun n sym => ?_⟩
  exact (runAll_untouched _ _ (Or.inl rfl)).trans (runAll_untouched _ _ (Or.inl rfl))

/-- The run `g` of `run_gpu` is in step with the run `r` of `run_cpu`. -/
structure Twin (m : DeviceMemory) (g : GpuRun k σ) (r : CpuRun k σ) : Prop where
  parser : g.parser = r.parser
  assembler : g.assembler = r.assembler
  rs : g.rs = r.rs
  lastTs : g.lastTs = r.lastTs
  acc : accOf (g.mem m) = r.acc
  rows : g.prints (g.mem m) ++ g.underway (g.mem m) = r.printed.map fun p => (p.ts, p.snap)

def Loaded (m : DeviceMemory) (g : GpuRun k σ) (slot n : Nat) (batch : Ptr) : Prop :=
  ∀ i < n * slotBytes, g.mem m (.hRaw slot i) = batch i

theorem loaded_filled (g : GpuRun k σ) (m : DeviceMemory) (slot : Nat) (p : ItchParser σ)
    (f : Filling k) : Loaded m (g.filled slot p f) slot f.batchMeta.nMsgs f.dst := by
  intro i hi
  have step := mem_issue (c := .host (.fill slot f.dst f.batchMeta.nMsgs)) rfl g m
  exact (congrFun step _).trans (runAll_fill _ f.dst hi)

theorem Loaded.decoded {slot n : Nat} {batch : Ptr} (loaded : Loaded m g slot n batch)
    (s : GpuStream) : ∀ idx < n,
      Holds (((g.issue (.launch s (.copyIn slot n))).issue (.launch s (.decode slot n))).mem m) slot
        idx (decodeSlot (shift batch (idx * slotBytes))) := by
  intro idx inside
  have raw : ∀ i < n * slotBytes,
      (g.issue (.launch s (.copyIn slot n))).mem m (.dRaw slot i) = batch i := by
    intro i hi
    rw [mem_issue rfl]
    exact (runAll_copyIn _ hi).trans (loaded i hi)
  have mem : decodeTask slot idx ∈ (DeviceOp.decode slot n).tasks :=
    List.mem_map_of_mem (List.mem_range.mpr inside)
  rw [mem_issue rfl]
  exact runAll_decode_batch _ (DeviceOp.apart _) mem inside raw

theorem Loaded.waitBarrier {slot n : Nat} {batch : Ptr} (loaded : Loaded m g slot n batch)
    (s : GpuStream) : Loaded m (g.waitBarrier s) slot n batch := by
  unfold GpuRun.waitBarrier
  split
  · intro i hi
    rw [mem_idle rfl]
    exact loaded i hi
  · exact loaded

theorem Loaded.reset {slot n : Nat} {batch : Ptr} (loaded : Loaded m g slot n batch)
    (s : GpuStream) : Loaded m (g.reset s) slot n batch := by
  intro i hi
  have waited : (g.waitOther s).mem m = g.mem m := by
    unfold GpuRun.waitOther
    split
    · exact mem_idle rfl g m
    · rfl
  have launched := mem_issue (c := .launch s .reset) rfl (g.waitOther s) m
  have recorded := mem_idle (c := .record s .barrier) rfl ((g.waitOther s).issue (.launch s .reset)) m
  change (((g.waitOther s).issue (.launch s .reset)).issue (.record s .barrier)).mem m _ = _
  rw [recorded, launched, waited]
  exact (runAll_untouched _ _ (Or.inl rfl)).trans (loaded i hi)

/-- The loops of the two pipelines make the same calls of `fill`; what holds between the
runs through a turn holds of their ends. -/
theorem loop_paired {R : GpuRun k σ → CpuRun k σ → Prop} {source : ByteSource σ}
    {hash : UInt64 → UInt64} {opt : Options} {turns loops : Nat} {r r' : CpuRun k σ}
    (pulls : ∀ {g r}, R g r → g.parser = r.parser ∧ g.assembler = r.assembler)
    (turn : ∀ {g r}, R g r → ∀ {f f' : Filling k}, SameBatch f f' → ∀ p : ItchParser σ,
      R (g.acquire.filled g.ring.next p f') (r.filled p f) ∧
        R ((g.acquire.filled g.ring.next p f').onBatch opt g.ring.next f.batchMeta)
          ((r.filled p f).onBatch opt f.batchMeta))
    (start : R g r) (cpu : CpuRun.loop source hash opt turns loops r = some r') :
    ∃ g', GpuRun.loop source hash opt turns loops g = some g' ∧ R g' r' := by
  induction loops generalizing g r with
  | zero => cases cpu
  | succ loops ih =>
    obtain ⟨p, f, call, next⟩ := CpuRun.loop_cases cpu
    obtain ⟨f', call', same⟩ := fill_sameBatch call (g.acquire.hRaw g.ring.next)
    obtain ⟨filled, done⟩ := turn start same p
    have drawn : g.acquire.parser = r.parser ∧ g.acquire.assembler = r.assembler :=
      (pulls start :)
    have parser : ((r.filled p f).onBatch opt f.batchMeta).parser = p :=
      (CpuRun.onBatch_pulls _ _).1
    unfold GpuRun.loop
    dsimp only
    rw [drawn.1, drawn.2, call']
    dsimp only
    rw [same.batchMeta, (pulls done).1, parser]
    rcases next with ⟨empty, rfl⟩ | ⟨some_, ⟨reached, rfl⟩ | ⟨more, looped⟩⟩
    · rw [if_pos empty]
      exact ⟨_, rfl, filled⟩
    · rw [if_neg some_, if_pos reached]
      exact ⟨_, rfl, done⟩
    · rw [if_neg some_, if_neg more]
      exact ih done looped

namespace Twin

variable {r : CpuRun k σ} {s : GpuStream} {slot : Nat}

theorem start (m : DeviceMemory) (p : ItchParser σ) (nSlots : Nat) :
    Twin m (.start k nSlots p) (.start k p) where
  parser := rfl
  assembler := rfl
  rs := rfl
  lastTs := rfl
  acc := by
    have empty : ∀ e : GpuRun k σ, e.commands = [] → e.mem m = m := by
      intro e none
      rw [mem, none, StreamMachine.sequential_nil]
    let e : GpuRun k σ := { GpuRun.start k nSlots p with commands := [] }
    have first : (GpuRun.start k nSlots p).mem m = runAll DeviceOp.reset.tasks m := by
      have launched := mem_issue (c := .launch 0 .reset) rfl e m
      rw [empty e rfl] at launched
      exact (mem_idle (c := .streamSync 0) rfl (e.issue (.launch 0 .reset)) m).trans launched
    rw [first]
    exact runAll_reset m
  rows := by simp [prints, underway, GpuRun.start, CpuRun.start]

theorem idle (twin : Twin m g r) (none : c.op? = none) : Twin m (g.issue c) r := by
  have same := mem_idle none g m
  exact ⟨twin.parser, twin.assembler, twin.rs, twin.lastTs, same ▸ twin.acc, same ▸ twin.rows⟩

theorem operation (twin : Twin m g r) {acc : HostAccum} (does : c.op? = some op)
    (out : ∀ n, op.mode (.out n) = .none)
    (hSnap : ∀ b, op.mode (.hSnap b) = .none) (after : accOf (runAll op.tasks (g.mem m)) = acc) :
    Twin m (g.issue c) { r with acc := acc } := by
  have step := mem_issue does g m
  refine ⟨twin.parser, twin.assembler, twin.rs, twin.lastTs, step ▸ after, ?_⟩
  rw [step]
  refine Eq.trans ?_ twin.rows
  exact congrArg₂ (· ++ ·) (prints_congr fun n _ _ => runAll_untouched _ op (Or.inl (out n)))
    (underway_congr fun b _ => runAll_untouched _ op (Or.inl (hSnap b)))

theorem acquire (twin : Twin m g r) : Twin m g.acquire r := by
  have waited := twin.idle (c := .eventSync (.done g.ring.next)) rfl
  exact ⟨waited.parser, waited.assembler, waited.rs, waited.lastTs, waited.acc, waited.rows⟩

theorem filled (twin : Twin m g r) {f f' : Filling k} (same : SameBatch f f') (p : ItchParser σ) :
    Twin m (g.filled slot p f') { r with parser := p, assembler := f.asm, batch := f.dst } ∧
      Loaded m (g.filled slot p f') slot f.batchMeta.nMsgs f.dst := by
  have host := twin.operation (c := .host (.fill slot f'.dst f'.batchMeta.nMsgs)) rfl (fun _ => rfl)
    (fun _ => rfl) ((accOf_untouched rfl _).trans twin.acc)
  refine ⟨⟨rfl, same.asm, host.rs, host.lastTs, host.acc, host.rows⟩, fun i hi => ?_⟩
  have written : (g.filled slot p f').mem m (.hRaw slot i) = f'.dst i :=
    loaded_filled g m slot p f' i (by rwa [same.batchMeta])
  rw [written, same.slots i hi]

theorem waitBarrier (twin : Twin m g r) (s : GpuStream) : Twin m (g.waitBarrier s) r := by
  unfold GpuRun.waitBarrier
  split
  · exact twin.idle rfl
  · exact twin

theorem waitOther (twin : Twin m g r) (s : GpuStream) : Twin m (g.waitOther s) r := by
  unfold GpuRun.waitOther
  split
  · exact twin.idle rfl
  · exact twin

theorem reset (twin : Twin m g r) (s : GpuStream) :
    Twin m (g.reset s) { r with acc := .reset } := by
  have launched := (twin.waitOther s).operation (c := .launch s .reset) rfl (fun _ => rfl) (fun _ => rfl)
    (runAll_reset _)
  have recorded := launched.idle (c := .record s .barrier) rfl
  exact ⟨recorded.parser, recorded.assembler, recorded.rs, recorded.lastTs, recorded.acc,
    recorded.rows⟩

/-- The kernels leave in the accumulators what the reference makes of the batch. -/
theorem aggregate (twin : Twin m g r) (s : GpuStream) (b : BatchMeta)
    (loaded : Loaded m g slot b.nMsgs r.batch) :
    Twin m (g.aggregate s slot b)
      { r with
        acc := cpuAggregate r.batch b.nMsgs r.acc
        lastTs := b.lastTs
        rs :=
          { r.rs with
            shippedMsgs := r.rs.shippedMsgs + b.nMsgs
            batches := r.rs.batches + 1 } } := by
  have copied := twin.operation (c := .launch s (.copyIn slot b.nMsgs)) rfl (fun _ => rfl) (fun _ => rfl)
    ((accOf_untouched rfl _).trans twin.acc)
  have decoded := copied.operation (c := .launch s (.decode slot b.nMsgs)) rfl (fun _ => rfl)
    (fun _ => rfl) ((accOf_untouched rfl _).trans copied.acc)
  have aggregated := decoded.operation (c := .launch s (.aggregate slot b.nMsgs)) rfl (fun _ => rfl)
    (fun _ => rfl) ((runAll_aggregate _ (loaded.decoded s)).trans (congrArg _ decoded.acc))
  have recorded := aggregated.idle (c := .record s (.done slot)) rfl
  refine ⟨recorded.parser, recorded.assembler, ?_, rfl, recorded.acc, recorded.rows⟩
  simp only [GpuRun.aggregate, issue, twin.rs]

theorem print (twin : Twin m g r) {b : Fin 2} (pending : g.pending = some b) :
    Twin m { g.print b g.pendingTs with pending := none } r := by
  have step : (g.print b g.pendingTs).mem m =
      runAll (DeviceOp.print g.printed.length b).tasks (g.mem m) := mem_issue rfl g m
  have acc : accOf ((g.print b g.pendingTs).mem m) = r.acc := by
    rw [step, accOf_untouched rfl]
    exact twin.acc
  refine ⟨twin.parser, twin.assembler, twin.rs, twin.lastTs, acc, ?_⟩
  change (g.print b g.pendingTs).prints ((g.print b g.pendingTs).mem m) ++ [] = _
  rw [List.append_nil, prints_print, ← twin.rows]
  simp [underway, pending]

theorem drain (twin : Twin m g r) : Twin m { g.drain with pending := none } r := by
  unfold GpuRun.drain
  cases pending : g.pending with
  | none =>
    have same : ({ g with pending := none } : GpuRun k σ) = g := by rw [← pending]
    exact same ▸ twin
  | some b => exact (twin.idle (c := .eventSync (.snapDone b)) rfl).print pending

theorem printed (twin : Twin m { g with pending := none } r) :
    g.prints (g.mem m) = r.printed.map fun p => (p.ts, p.snap) := by
  have rows := twin.rows
  change g.prints (g.mem m) ++ [] = _ at rows
  rwa [List.append_nil] at rows

theorem snapshot (twin : Twin m g r) (s : GpuStream) : Twin m (g.snapshot s) r.snapshot := by
  have drained := (twin.waitOther s).drain
  unfold GpuRun.snapshot
  dsimp only
  generalize (if (g.waitOther s).pending = some 0 then 1 else 0 : Fin 2) = bi
  generalize (g.waitOther s).drain = q at drained ⊢
  let q₁ := q.issue (.launch s .snapshot)
  let q₂ := q₁.issue (.record s .barrier)
  let q₃ := q₂.issue (.launch s (.copyOut bi))
  let q₄ := q₃.issue (.record s (.snapDone bi))
  have memory : q₄.mem m = runAll (DeviceOp.copyOut bi).tasks
      (runAll DeviceOp.snapshot.tasks (q.mem m)) := by
    have copied : q₃.mem m = runAll (DeviceOp.copyOut bi).tasks (q₂.mem m) := mem_issue rfl q₂ m
    have taken : q₁.mem m = runAll DeviceOp.snapshot.tasks (q.mem m) := mem_issue rfl q m
    have first : q₂.mem m = q₁.mem m := mem_idle rfl q₁ m
    have second : q₄.mem m = q₃.mem m := mem_idle rfl q₃ m
    rw [second, copied, first, taken]
  have before : accOf (q.mem m) = r.acc := drained.acc
  obtain ⟨rows, acc, out⟩ := runAll_copied bi (q.mem m)
  rw [← memory, before] at rows acc
  rw [← memory] at out
  refine ⟨drained.parser, drained.assembler, ?_, drained.lastTs, acc, ?_⟩
  · have rs : q.rs = r.rs := drained.rs
    simp only [issue, CpuRun.snapshot, rs]
  · have printed : q.prints (q₄.mem m) = r.printed.map fun p => (p.ts, p.snap) := by
      rw [prints_congr fun n _ sym => out n sym]
      exact drained.printed
    have row : (fun sym => q₄.mem m (.hSnap bi sym)) = (cpuSnapshot r.acc).1 := funext rows
    have ts : q.lastTs = r.lastTs := drained.lastTs
    change q.prints (q₄.mem m) ++ [(q.lastTs, fun sym => q₄.mem m (.hSnap bi sym))] = _
    rw [printed, row, ts]
    simp [CpuRun.snapshot]

theorem onBatch (twin : Twin m g r) (opt : Options) (b : BatchMeta)
    (loaded : Loaded m g slot b.nMsgs r.batch) : Twin m (g.onBatch opt slot b) (r.onBatch opt b) := by
  have waited := twin.waitBarrier g.stream
  have ready : Twin m (if b.resetVwap then (g.waitBarrier g.stream).reset g.stream
        else g.waitBarrier g.stream) { r with acc := if b.resetVwap then .reset else r.acc } ∧
      Loaded m (if b.resetVwap then (g.waitBarrier g.stream).reset g.stream
        else g.waitBarrier g.stream) slot b.nMsgs r.batch := by
    have still := loaded.waitBarrier g.stream
    split
    · exact ⟨waited.reset g.stream, still.reset g.stream⟩
    · exact ⟨waited, still⟩
  have aggregated := ready.1.aggregate g.stream b ready.2
  unfold GpuRun.onBatch CpuRun.onBatch
  dsimp only
  change Twin m _ (r.aggregate b) at aggregated
  rw [aggregated.rs]
  split
  · exact aggregated.snapshot g.stream
  · exact aggregated

variable {source : ByteSource σ} {hash : UInt64 → UInt64} {opt : Options} {turns loops : Nat}
  {r' : CpuRun k σ}

theorem turn (twin : Twin m g r) {f f' : Filling k} (same : SameBatch f f') (p : ItchParser σ) :
    Twin m (g.acquire.filled g.ring.next p f') (r.filled p f) ∧
      Twin m ((g.acquire.filled g.ring.next p f').onBatch opt g.ring.next f.batchMeta)
        ((r.filled p f).onBatch opt f.batchMeta) := by
  obtain ⟨filled, loaded⟩ : Twin m (g.acquire.filled g.ring.next p f') (r.filled p f) ∧
    Loaded m (g.acquire.filled g.ring.next p f') g.ring.next _ _ := twin.acquire.filled same p
  exact ⟨filled, filled.onBatch opt f.batchMeta loaded⟩

theorem loop (twin : Twin m g r) (cpu : CpuRun.loop source hash opt turns loops r = some r') :
    ∃ g', GpuRun.loop source hash opt turns loops g = some g' ∧ Twin m g' r' :=
  loop_paired (fun twin => ⟨twin.parser, twin.assembler⟩) turn twin cpu

theorem finish (twin : Twin m g r) :
    g.finish.rs = r.snapshot.rs ∧
      g.finish.prints (g.finish.mem m) = r.snapshot.printed.map fun p => (p.ts, p.snap) := by
  have drained : Twin m g.drained r := (twin.idle (c := .streamSync 0) rfl).idle
    (c := .streamSync 1) rfl
  have pending : Twin m { g.drained.printPending with pending := none } r := by
    unfold GpuRun.printPending
    cases pending : g.drained.pending with
    | none =>
      have same : ({ g.drained with pending := none } : GpuRun k σ) = g.drained := by rw [← pending]
      exact same ▸ drained
    | some b => exact drained.print pending
  unfold GpuRun.finish
  generalize g.drained.printPending = q at pending ⊢
  let q₁ := q.issue (.launch 0 .snapshot)
  let q₂ := q₁.issue (.launch 0 (.copyOut 0))
  let q₃ := q₂.issue (.streamSync 0)
  have memory : q₃.mem m = runAll (DeviceOp.copyOut 0).tasks
      (runAll DeviceOp.snapshot.tasks (q.mem m)) := by
    have copied : q₂.mem m = runAll (DeviceOp.copyOut 0).tasks (q₁.mem m) := mem_issue rfl q₁ m
    have taken : q₁.mem m = runAll DeviceOp.snapshot.tasks (q.mem m) := mem_issue rfl q m
    have synced : q₃.mem m = q₂.mem m := mem_idle rfl q₂ m
    rw [synced, copied, taken]
  have before : accOf (q.mem m) = r.acc := pending.acc
  obtain ⟨rows, _, out⟩ := runAll_copied 0 (q.mem m)
  rw [← memory, before] at rows
  rw [← memory] at out
  have rs : q.rs = r.rs := pending.rs
  have ts : q.lastTs = r.lastTs := pending.lastTs
  refine ⟨by simp [finalSnapshot, GpuRun.print, issue, CpuRun.snapshot, rs], ?_⟩
  have earlier : q₃.prints (q₃.mem m) = q.prints (q.mem m) := prints_congr fun n _ sym => out n sym
  have row : (fun sym => q₃.mem m (.hSnap 0 sym)) = (cpuSnapshot r.acc).1 := funext rows
  have all : q.finalSnapshot.prints (q.finalSnapshot.mem m) =
      q₃.prints (q₃.mem m) ++ [(q.lastTs, fun sym => q₃.mem m (.hSnap 0 sym))] :=
    prints_print { q₃ with rs := _ } 0 q.lastTs m
  rw [all, earlier, row, pending.printed, ts]
  simp [CpuRun.snapshot]

end Twin

end GpuRun

variable {σ : Type} {source : ByteSource σ} {left : σ → List UInt8} {s : σ} {opt : Options}

/-- The two pipelines print the same snapshots: whatever order the streams and events
of `run_gpu` leave open, its host prints with the timestamps of `run_cpu` the rows
that `run_cpu` prints. -/
theorem runGpu_prints (hsrc : source.Delivers left) (m : DeviceMemory) :
    (∃ turns r, runCpu source opt turns s = some r) ∧
    ∀ turns r, runCpu source opt turns s = some r →
      ∃ g, runGpu source opt turns s = some g ∧ g.rs = r.rs ∧
        (∃ final, Complete deviceOps g.commands m final) ∧
        ∀ final, Complete deviceOps g.commands m final →
          g.prints final.mem = r.printed.map fun p => (p.ts, p.snap) := by
  refine ⟨runCpu_returns hsrc s opt, fun turns r result => ?_⟩
  obtain ⟨r', looped, rfl⟩ := Option.map_eq_some_iff.mp result
  obtain ⟨g', looped', twin⟩ := (GpuRun.Twin.start m _ 4).loop looped
  have gpu : runGpu source opt turns s = some g'.finish := by
    rw [runGpu, looped']
    rfl
  obtain ⟨rs, prints⟩ := twin.finish
  refine ⟨g'.finish, gpu, rs, StreamMachine.exists_complete _ _ m, fun final run => ?_⟩
  rw [run.memory (GpuRun.runGpu_synced gpu)]
  exact prints

/-- A snapshot after every batch, with a market open between the two: the device has reset
its sums. -/
theorem runGpu_prints_reopened :
    ∃ g final, runGpu memSource ⟨1, 0, by decide⟩ 8 reopened = some g ∧
      Complete deviceOps g.commands DeviceMemory.zeroed final ∧
      (g.prints final.mem).map (fun row => (row.2 7).volume) = [50, 20, 20] := by
  obtain ⟨r, result, volumes⟩ := Option.map_eq_some_iff.mp reopened_volumes
  obtain ⟨_, twins⟩ := @runGpu_prints _ memSource id reopened ⟨1, 0, by decide⟩
    memSource_delivers DeviceMemory.zeroed
  obtain ⟨g, gpu, _, ⟨final, complete⟩, same⟩ := twins 8 r result
  refine ⟨g, final, gpu, complete, ?_⟩
  rw [same final complete, List.map_map]
  exact volumes

end ItchAggregator
