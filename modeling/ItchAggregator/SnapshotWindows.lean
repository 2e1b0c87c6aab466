import ItchAggregator.Reports
import ItchAggregator.TradeSums

/-! Runs of the CPU pipeline that differ in the snapshot interval. A run is the
events it makes of its accumulators: resets, batches and snapshots. The interval places
the snapshots among the resets and batches and moves none of these, and the snapshots
since a reset cut the messages since it into windows, whatever their places. -/

namespace ItchAggregator

open BatchAssembler

/-- What `run_cpu` does with its accumulators. -/
inductive CpuEvent
  | reset
  | batch (slots : SlotBatch)
  | snapshot (rows : Sym → Snapshot)

namespace CpuEvent

def isSnapshot : CpuEvent → Bool
  | .snapshot _ => true
  | _ => false

def skeleton (t : List CpuEvent) : List CpuEvent := t.filter fun e => !e.isSnapshot

def messages (t : List CpuEvent) : List Shipped :=
  t.flatMap fun
    | .batch b => b.messages
    | _ => []

def snapshots (t : List CpuEvent) : List (Sym → Snapshot) :=
  t.filterMap fun
    | .snapshot rows => some rows
    | _ => none

/-- The events since the last reset, after one more. -/
def step (since : List CpuEvent) : CpuEvent → List CpuEvent
  | .reset => []
  | e => since ++ [e]

def sinceReset (t : List CpuEvent) : List CpuEvent := t.foldl step []

@[simp] theorem messages_append (l r : List CpuEvent) :
    messages (l ++ r) = messages l ++ messages r := List.flatMap_append

@[simp] theorem snapshots_append (l r : List CpuEvent) :
    snapshots (l ++ r) = snapshots l ++ snapshots r := List.filterMap_append

@[simp] theorem step_batch (since : List CpuEvent) (b : SlotBatch) :
    step since (.batch b) = since ++ [.batch b] := rfl

@[simp] theorem step_snapshot (since : List CpuEvent) (rows : Sym → Snapshot) :
    step since (.snapshot rows) = since ++ [.snapshot rows] := rfl

@[simp] theorem messages_batch (b : SlotBatch) : messages [.batch b] = b.messages :=
  List.append_nil _

@[simp] theorem messages_snapshot (rows : Sym → Snapshot) : messages [.snapshot rows] = [] := rfl

@[simp] theorem snapshots_batch (b : SlotBatch) : snapshots [.batch b] = [] := rfl

@[simp] theorem snapshots_snapshot (rows : Sym → Snapshot) :
    snapshots [.snapshot rows] = [rows] := rfl

theorem skeleton_append (l r : List CpuEvent) : skeleton (l ++ r) = skeleton l ++ skeleton r :=
  List.filter_append l r

theorem messages_skeleton {since since' : List CpuEvent} (same : messages since = messages since')
    (t : List CpuEvent) :
    messages (t.foldl step since) = messages ((skeleton t).foldl step since') := by
  induction t generalizing since since' with
  | nil => exact same
  | cons e t ih =>
    cases e with
    | reset => exact ih rfl
    | batch b => exact ih (by rw [step_batch, step_batch, messages_append, messages_append, same])
    | snapshot rows => exact ih (by simpa using same)

/-- The accumulators from `acc` on: the events leave `acc'`, and every snapshot among
them is that of the accumulators in front of it. -/
inductive Runs : HostAccum → List CpuEvent → HostAccum → Prop
  | nil (acc : HostAccum) : Runs acc [] acc
  | reset {acc acc' : HostAccum} {t : List CpuEvent} (later : Runs .reset t acc') :
      Runs acc (.reset :: t) acc'
  | batch {acc acc' : HostAccum} {t : List CpuEvent} (b : SlotBatch)
      (later : Runs (cpuAggregate b.raw b.nMsgs acc) t acc') : Runs acc (.batch b :: t) acc'
  | snapshot {acc acc' : HostAccum} {t : List CpuEvent} (later : Runs (cpuSnapshot acc).2 t acc') :
      Runs acc (.snapshot (cpuSnapshot acc).1 :: t) acc'

theorem Runs.append {acc acc' acc'' : HostAccum} {t u : List CpuEvent} (first : Runs acc t acc')
    (later : Runs acc' u acc'') : Runs acc (t ++ u) acc'' := by
  induction first with
  | nil => exact later
  | reset _ ih => exact .reset (ih later)
  | batch b _ ih => exact .batch b (ih later)
  | snapshot _ ih => exact .snapshot (ih later)

end CpuEvent

/-! Windows. -/

def ShowsQuotes (rows : Sym → Snapshot) (window : List Shipped) : Prop :=
  ∀ sym, (rows sym).bid.toNat = bestBid sym window ∧ (rows sym).ask.toNat = bestAsk sym window

def bidsOf (sym : Sym) (snapshots : List (Sym → Snapshot)) : List Nat :=
  snapshots.map fun rows => (rows sym).bid.toNat

def asksOf (sym : Sym) (snapshots : List (Sym → Snapshot)) : List Nat :=
  snapshots.map fun rows => (rows sym).ask.toNat

/-- The messages are cut into one window for each snapshot. -/
def Windows (snapshots : List (Sym → Snapshot)) (ms : List Shipped) : Prop :=
  ∃ ws : List (List Shipped), ws.flatten = ms ∧ List.Forall₂ ShowsQuotes snapshots ws

theorem foldl_sup_append {α : Type*} [SemilatticeSup α] (b : α) (l r : List α) :
    (l ++ r).foldl (· ⊔ ·) b = l.foldl (· ⊔ ·) b ⊔ r.foldl (· ⊔ ·) b := by
  have fold : ∀ (c : α) (l : List α), l.foldl (· ⊔ ·) (c ⊔ b) = c ⊔ l.foldl (· ⊔ ·) b :=
    fun _ _ => List.foldl_assoc
  have above : l.foldl (· ⊔ ·) b ⊔ b = l.foldl (· ⊔ ·) b := by
    rw [sup_comm, ← fold, sup_idem]
  rw [List.foldl_append, ← fold, above]

theorem quotesOf_append (side : UInt8) (sym : Sym) (l r : List Shipped) :
    quotesOf side sym (l ++ r) = quotesOf side sym l ++ quotesOf side sym r := by
  simp [quotesOf]

theorem bestBid_append (sym : Sym) (l r : List Shipped) :
    bestBid sym (l ++ r) = max (bestBid sym l) (bestBid sym r) := by
  rw [bestBid, quotesOf_append]
  exact foldl_sup_append _ _ _

theorem bestAsk_append (sym : Sym) (l r : List Shipped) :
    bestAsk sym (l ++ r) = min (bestAsk sym l) (bestAsk sym r) := by
  rw [bestAsk, quotesOf_append]
  exact @foldl_sup_append Natᵒᵈ _ _ _ _

theorem foldl_bids {snapshots : List (Sym → Snapshot)} {ws : List (List Shipped)}
    (shown : List.Forall₂ ShowsQuotes snapshots ws) (sym : Sym) :
    (bidsOf sym snapshots).foldl max 0 = bestBid sym ws.flatten := by
  induction shown with
  | nil => rfl
  | @cons rows w snapshots ws first _ ih =>
    have one : [(rows sym).bid.toNat].foldl max 0 = bestBid sym w := by
      simp [(first sym).1]
    rw [List.flatten_cons, bestBid_append, ← ih, ← one]
    exact foldl_sup_append 0 [(rows sym).bid.toNat] _

theorem foldl_asks {snapshots : List (Sym → Snapshot)} {ws : List (List Shipped)}
    (shown : List.Forall₂ ShowsQuotes snapshots ws) (sym : Sym) :
    (asksOf sym snapshots).foldl min askEmpty.toNat =
      bestAsk sym ws.flatten := by
  induction shown with
  | nil => rfl
  | @cons rows w snapshots ws first _ ih =>
    have below : (rows sym).ask.toNat ≤ askEmpty.toNat :=
      Nat.le_of_lt_succ (UInt32.toNat_lt (rows sym).ask)
    have one : [(rows sym).ask.toNat].foldl min askEmpty.toNat = bestAsk sym w := by
      rw [List.foldl_cons, List.foldl_nil, min_eq_right below, (first sym).2]
    rw [List.flatten_cons, bestAsk_append, ← ih, ← one]
    exact @foldl_sup_append Natᵒᵈ _ askEmpty.toNat [(rows sym).ask.toNat] _

namespace Windows

variable {snapshots : List (Sym → Snapshot)} {ms : List Shipped}

theorem max_bid (windows : Windows snapshots ms) (some_ : snapshots ≠ []) (sym : Sym) :
    (bidsOf sym snapshots).max? = some (bestBid sym ms) := by
  obtain ⟨ws, rfl, shown⟩ := windows
  rw [← foldl_bids shown sym]
  cases snapshots with
  | nil => exact absurd rfl some_
  | cons rows snapshots =>
    rw [bidsOf, List.map_cons, List.max?_cons', List.foldl_cons, Nat.zero_max]

theorem min_ask (windows : Windows snapshots ms) (some_ : snapshots ≠ []) (sym : Sym) :
    (asksOf sym snapshots).min? = some (bestAsk sym ms) := by
  obtain ⟨ws, rfl, shown⟩ := windows
  rw [← foldl_asks shown sym]
  cases snapshots with
  | nil => exact absurd rfl some_
  | cons rows snapshots =>
    have below : (rows sym).ask.toNat ≤ askEmpty.toNat :=
      Nat.le_of_lt_succ (UInt32.toNat_lt (rows sym).ask)
    rw [asksOf, List.map_cons, List.min?_cons', List.foldl_cons, min_eq_right below]

end Windows

/-- The accumulators show the messages since the reset, and the snapshots since then the
windows `ws` of them; `window` is the open one. -/
structure Windowed (acc : HostAccum) (since : List CpuEvent) (ws : List (List Shipped))
    (window : List Shipped) : Prop where
  tallied : Tallied acc (CpuEvent.messages since) window
  whole : ws.flatten ++ window = CpuEvent.messages since
  shown : List.Forall₂ ShowsQuotes (CpuEvent.snapshots since) ws

namespace Windowed

open CpuEvent

variable {acc acc' : HostAccum} {since : List CpuEvent} {ws : List (List Shipped)}
  {window : List Shipped}

theorem reset : Windowed .reset [] [] [] := ⟨.reset, rfl, .nil⟩

theorem batch (windowed : Windowed acc since ws window) (b : SlotBatch) :
    Windowed (cpuAggregate b.raw b.nMsgs acc) (step since (.batch b)) ws
      (window ++ b.messages) where
  tallied := by
    rw [step_batch, messages_append, messages_batch]
    exact windowed.tallied.slotBatch b
  whole := by
    rw [step_batch, messages_append, messages_batch, ← windowed.whole, List.append_assoc]
  shown := by
    rw [step_batch, snapshots_append, snapshots_batch, List.append_nil]
    exact windowed.shown

theorem snapshot (windowed : Windowed acc since ws window) :
    Windowed (cpuSnapshot acc).2 (step since (.snapshot (cpuSnapshot acc).1))
      (ws ++ [window]) [] where
  tallied := by
    rw [step_snapshot, messages_append, messages_snapshot, List.append_nil]
    exact windowed.tallied.snapshot
  whole := by
    rw [step_snapshot, messages_append, messages_snapshot, ← windowed.whole, List.flatten_append]
    simp
  shown := by
    have quotes : ShowsQuotes (cpuSnapshot acc).1 window :=
      fun sym => ⟨windowed.tallied.bid sym, windowed.tallied.ask sym⟩
    rw [step_snapshot, snapshots_append, snapshots_snapshot]
    exact List.rel_append windowed.shown (.cons quotes .nil)

theorem runs {t : List CpuEvent} (runs : Runs acc t acc')
    (windowed : Windowed acc since ws window) :
    ∃ ws' window', Windowed acc' (t.foldl step since) ws' window' := by
  induction runs generalizing since ws window with
  | nil => exact ⟨ws, window, windowed⟩
  | reset _ ih => exact ih .reset
  | batch b _ ih => exact ih (windowed.batch b)
  | snapshot _ ih => exact ih windowed.snapshot

end Windowed

/-! The events of a run. -/

namespace CpuRun

open CpuEvent

variable {k : LogCapacity} {σ : Type} {source : ByteSource σ} {hash : UInt64 → UInt64}
  {opt opt' : Options} {turns turns' : Nat} {r r' : CpuRun k σ}

def aggregateEvents (r : CpuRun k σ) (b : BatchMeta) : List CpuEvent :=
  (if b.resetVwap then [.reset] else []) ++ [.batch ⟨r.batch, b.nMsgs⟩]

def batchEvents (opt : Options) (r : CpuRun k σ) (b : BatchMeta) : List CpuEvent :=
  r.aggregateEvents b ++
    if (r.aggregate b).rs.batches % opt.snapshotInterval = 0 then
      [.snapshot (cpuSnapshot (r.aggregate b).acc).1]
    else []

def loopEvents (source : ByteSource σ) (hash : UInt64 → UInt64) (opt : Options) (turns : Nat) :
    Nat → CpuRun k σ → List CpuEvent
  | 0, _ => []
  | loops + 1, r =>
    match fill source hash turns r.parser r.assembler r.batch with
    | none => []
    | some (p, f) =>
      let r := { r with parser := p, assembler := f.asm, batch := f.dst }
      if f.batchMeta.nMsgs = 0 then []
      else
        let events := r.batchEvents opt f.batchMeta
        let r := r.onBatch opt f.batchMeta
        if opt.maxMsgs ≠ 0 ∧ opt.maxMsgs ≤ r.parser.total then events
        else events ++ loopEvents source hash opt turns loops r

theorem loopEvents_succ {loops : Nat} {p : ItchParser σ} {f : Filling k}
    (call : fill source hash turns r.parser r.assembler r.batch = some (p, f)) :
    loopEvents source hash opt turns (loops + 1) r =
      if f.batchMeta.nMsgs = 0 then []
      else if opt.maxMsgs ≠ 0 ∧ opt.maxMsgs ≤ p.total then
        (r.filled p f).batchEvents opt f.batchMeta
      else (r.filled p f).batchEvents opt f.batchMeta ++
        loopEvents source hash opt turns loops ((r.filled p f).onBatch opt f.batchMeta) := by
  have parser : ((r.filled p f).onBatch opt f.batchMeta).parser = p := (onBatch_pulls _ _).1
  rw [loopEvents, call]
  change (if _ then _ else if opt.maxMsgs ≠ 0 ∧
    opt.maxMsgs ≤ ((r.filled p f).onBatch opt f.batchMeta).parser.total then _ else _) = _
  rw [parser]
  rfl

theorem aggregate_runs (r : CpuRun k σ) (b : BatchMeta) :
    Runs r.acc (r.aggregateEvents b) (r.aggregate b).acc := by
  simp only [aggregateEvents, aggregate]
  split
  · exact .reset (.batch _ (.nil _))
  · exact .batch _ (.nil _)

theorem onBatch_runs (opt : Options) (r : CpuRun k σ) (b : BatchMeta) :
    Runs r.acc (r.batchEvents opt b) (r.onBatch opt b).acc := by
  refine (r.aggregate_runs b).append ?_
  simp only [onBatch]
  split
  · exact .snapshot (.nil _)
  · exact .nil _

theorem onBatch_printed (opt : Options) (r : CpuRun k σ) (b : BatchMeta) :
    (r.onBatch opt b).printed.map SnapshotCsv.snap =
      r.printed.map SnapshotCsv.snap ++ snapshots (r.batchEvents opt b) := by
  have none : snapshots (r.aggregateEvents b) = [] := by
    unfold aggregateEvents
    split <;> rfl
  rw [batchEvents, snapshots_append, none, List.nil_append]
  simp only [onBatch]
  split
  · exact List.map_append
  · exact (List.append_nil _).symm

theorem batchEvents_skeleton (r : CpuRun k σ) (b : BatchMeta) :
    skeleton (r.batchEvents opt b) = r.aggregateEvents b := by
  have kept : skeleton (r.aggregateEvents b) = r.aggregateEvents b := by
    unfold aggregateEvents
    split <;> rfl
  rw [batchEvents, skeleton_append, kept]
  split
  · exact List.append_nil _
  · exact List.append_nil _

theorem loop_events {loops : Nat} (result : loop source hash opt turns loops r = some r') :
    Runs r.acc (loopEvents source hash opt turns loops r) r'.acc ∧
      r'.printed.map SnapshotCsv.snap =
        r.printed.map SnapshotCsv.snap ++ snapshots (loopEvents source hash opt turns loops r) := by
  induction loops generalizing r with
  | zero => cases result
  | succ loops ih =>
    obtain ⟨p, f, call, turn⟩ := loop_cases result
    rw [loopEvents_succ call]
    have runs := onBatch_runs opt (r.filled p f) f.batchMeta
    have printed := onBatch_printed opt (r.filled p f) f.batchMeta
    rcases turn with ⟨empty, rfl⟩ | ⟨some_, ⟨reached, rfl⟩ | ⟨more, looped⟩⟩
    · rw [if_pos empty]
      exact ⟨.nil _, (List.append_nil _).symm⟩
    · rw [if_neg some_, if_pos reached]
      exact ⟨runs, printed⟩
    · obtain ⟨later, rows⟩ := ih looped
      rw [if_neg some_, if_neg more, snapshots_append, ← List.append_assoc]
      refine ⟨runs.append later, ?_⟩
      rw [rows, printed]
      rfl

theorem onBatch_batch (r : CpuRun k σ) (b : BatchMeta) : (r.onBatch opt b).batch = r.batch := by
  simp only [onBatch]
  split <;> rfl

/-- Two loops of any intervals over the same parser make the same batches. -/
theorem loop_skeleton {loops loops' : Nat} {q q' : CpuRun k σ}
    (unlimited : opt.maxMsgs = 0) (unlimited' : opt'.maxMsgs = 0)
    (parser : r.parser = q.parser) (assembler : r.assembler = q.assembler)
    (batch : r.batch = q.batch)
    (result : loop source hash opt turns loops r = some r')
    (result' : loop source hash opt' turns' loops' q = some q') :
    skeleton (loopEvents source hash opt turns loops r) =
      skeleton (loopEvents source hash opt' turns' loops' q) := by
  induction loops generalizing loops' r q with
  | zero => cases result
  | succ loops ih =>
    cases loops' with
    | zero => cases result'
    | succ loops' =>
      obtain ⟨p, f, call, turn⟩ := loop_cases result
      obtain ⟨p', f', call', turn'⟩ := loop_cases result'
      obtain ⟨rfl, rfl⟩ : p = p' ∧ f = f' := by
        have more := fillLoop_mono (Nat.le_max_left turns turns') call
        have more' := fillLoop_mono (Nat.le_max_right turns turns') call'
        rw [← parser, ← assembler, ← batch] at more'
        exact Prod.mk.inj (Option.some.inj (more.symm.trans more'))
      rw [loopEvents_succ call, loopEvents_succ call']
      -- both loops stop at the same empty batch, and neither at a limit
      rcases turn with ⟨empty, _⟩ | ⟨some_, ⟨reached, _⟩ | ⟨more, looped⟩⟩
      · rw [if_pos empty, if_pos empty]
      · exact absurd unlimited reached.1
      · rcases turn' with ⟨empty, _⟩ | ⟨_, ⟨reached', _⟩ | ⟨more', looped'⟩⟩
        · exact absurd empty some_
        · exact absurd unlimited' reached'.1
        · rw [if_neg some_, if_neg some_, if_neg more, if_neg more', skeleton_append,
            skeleton_append, batchEvents_skeleton, batchEvents_skeleton, ih ?_ ?_ ?_ looped looped']
          · rfl
          · rw [(onBatch_pulls _ _).1, (onBatch_pulls _ _).1]
            rfl
          · rw [(onBatch_pulls _ _).2, (onBatch_pulls _ _).2]
            rfl
          · rw [onBatch_batch, onBatch_batch]
            rfl

end CpuRun

def runCpuEvents {σ : Type} (source : ByteSource σ) (opt : Options) (turns : Nat) (s : σ) :
    List CpuEvent :=
  let r := CpuRun.start 24 (ItchParser.start s ItchParser.defaultBufBytes)
  CpuRun.loopEvents source OrderHash.mix opt turns turns r ++
    match CpuRun.loop source OrderHash.mix opt turns turns r with
    | none => []
    | some r => [.snapshot (cpuSnapshot r.acc).1]

section Runs

open CpuEvent

variable {σ : Type} {source : ByteSource σ} {left : σ → List UInt8} {s : σ} {opt : Options}
  {turns : Nat} {r : CpuRun 24 σ}

theorem runCpu_events (result : runCpu source opt turns s = some r) :
    ∃ t acc, Runs .reset t acc ∧
      runCpuEvents source opt turns s = t ++ [.snapshot (cpuSnapshot acc).1] ∧
      skeleton (runCpuEvents source opt turns s) =
        skeleton (CpuRun.loopEvents source OrderHash.mix opt turns turns
          (.start 24 (ItchParser.start s ItchParser.defaultBufBytes))) ∧
      r.printed.map SnapshotCsv.snap = snapshots t ++ [(cpuSnapshot acc).1] := by
  obtain ⟨r', looped, rfl⟩ := Option.map_eq_some_iff.mp result
  obtain ⟨runs, printed⟩ := CpuRun.loop_events looped
  have events : runCpuEvents source opt turns s = CpuRun.loopEvents source OrderHash.mix opt turns
      turns (.start 24 (ItchParser.start s ItchParser.defaultBufBytes)) ++
      [.snapshot (cpuSnapshot r'.acc).1] := by
    simp only [runCpuEvents, looped]
  refine ⟨_, r'.acc, runs, events, ?_, ?_⟩
  · rw [events, skeleton_append]
    exact List.append_nil _
  · refine List.map_append.trans ?_
    rw [printed]
    rfl

theorem runCpu_printed (result : runCpu source opt turns s = some r) :
    r.printed.map SnapshotCsv.snap = snapshots (runCpuEvents source opt turns s) := by
  obtain ⟨t, acc, _, events, _, printed⟩ := runCpu_events result
  rw [printed, events, snapshots_append, snapshots_snapshot]

/-- The snapshots since the last reset report the quotes since then, each in its
window, and the final one all that is cumulative. -/
theorem runCpu_windows (result : runCpu source opt turns s = some r) :
    let t := sinceReset (runCpuEvents source opt turns s)
    Windows (snapshots t) (messages t) ∧ snapshots t ≠ [] ∧
      ∃ final window, r.printed.getLast? = some final ∧
        final.snap = report (messages t) window := by
  obtain ⟨t, acc, runs, events, _, printed⟩ := runCpu_events result
  obtain ⟨ws, window, windowed⟩ := Windowed.reset.runs runs
  have since : sinceReset (runCpuEvents source opt turns s) =
      sinceReset t ++ [.snapshot (cpuSnapshot acc).1] := by
    rw [events, sinceReset, List.foldl_append]
    rfl
  have closed := windowed.snapshot
  rw [step_snapshot] at closed
  dsimp only
  rw [since]
  refine ⟨⟨ws ++ [window], ?_, closed.shown⟩, ?_, ?_⟩
  · exact (List.append_nil _).symm.trans closed.whole
  · rw [snapshots_append, snapshots_snapshot]
    exact List.append_ne_nil_of_right_ne_nil _ (List.cons_ne_nil _ _)
  · have ending : (r.printed.map SnapshotCsv.snap).getLast? = some (cpuSnapshot acc).1 := by
      rw [printed, List.getLast?_concat]
    rw [List.getLast?_map, Option.map_eq_some_iff] at ending
    obtain ⟨final, here, snap⟩ := ending
    refine ⟨final, window, here, ?_⟩
    rw [snap, windowed.tallied.rows, messages_append, messages_snapshot, List.append_nil]
    rfl

theorem messages_sinceReset {opt₁ opt₂ : Options} (unlimited₁ : opt₁.maxMsgs = 0)
    (unlimited₂ : opt₂.maxMsgs = 0) {turns₁ turns₂ : Nat} {r₁ r₂ : CpuRun 24 σ}
    (result₁ : runCpu source opt₁ turns₁ s = some r₁)
    (result₂ : runCpu source opt₂ turns₂ s = some r₂) :
    messages (sinceReset (runCpuEvents source opt₁ turns₁ s)) =
      messages (sinceReset (runCpuEvents source opt₂ turns₂ s)) := by
  obtain ⟨_, _, _, _, events₁, _⟩ := runCpu_events result₁
  obtain ⟨_, _, _, _, events₂, _⟩ := runCpu_events result₂
  obtain ⟨_, looped₁, _⟩ := Option.map_eq_some_iff.mp result₁
  obtain ⟨_, looped₂, _⟩ := Option.map_eq_some_iff.mp result₂
  have same := CpuRun.loop_skeleton unlimited₁ unlimited₂ rfl rfl rfl looped₁ looped₂
  rw [sinceReset, sinceReset, messages_skeleton rfl, events₁, same, ← events₂,
    ← messages_skeleton rfl]

/-- The snapshot interval of a run of the CPU pipeline shows in its periodic snapshots
alone: two runs end with the same cumulative fields, and the snapshots since the last
reset share the quotes since then among them, so that the best of all is the same. -/
theorem runCpu_interval_free (hsrc : source.Delivers left) {opt₁ opt₂ : Options}
    (unlimited₁ : opt₁.maxMsgs = 0) (unlimited₂ : opt₂.maxMsgs = 0) :
    (∃ turns r, runCpu source opt₁ turns s = some r) ∧
    (∃ turns r, runCpu source opt₂ turns s = some r) ∧
    ∀ turns₁ turns₂ r₁ r₂, runCpu source opt₁ turns₁ s = some r₁ →
      runCpu source opt₂ turns₂ s = some r₂ →
      let t₁ := sinceReset (runCpuEvents source opt₁ turns₁ s)
      let t₂ := sinceReset (runCpuEvents source opt₂ turns₂ s)
      (∃ final₁ final₂, r₁.printed.getLast? = some final₁ ∧ r₂.printed.getLast? = some final₂ ∧
        ∀ sym, (final₁.snap sym).cumulative = (final₂.snap sym).cumulative) ∧
      (∀ sym, ∃ hi lo,
        (bidsOf sym (snapshots t₁)).max? = some hi ∧ (bidsOf sym (snapshots t₂)).max? = some hi ∧
        (asksOf sym (snapshots t₁)).min? = some lo ∧ (asksOf sym (snapshots t₂)).min? = some lo) ∧
      messages t₁ = messages t₂ ∧
      Windows (snapshots t₁) (messages t₁) ∧ Windows (snapshots t₂) (messages t₂) := by
  refine ⟨runCpu_returns hsrc s opt₁, runCpu_returns hsrc s opt₂, ?_⟩
  intro turns₁ turns₂ r₁ r₂ result₁ result₂ t₁ t₂
  have same : messages t₁ = messages t₂ := messages_sinceReset unlimited₁ unlimited₂ result₁ result₂
  obtain ⟨windows₁, some₁, final₁, w₁, here₁, rows₁⟩ := runCpu_windows result₁
  obtain ⟨windows₂, some₂, final₂, w₂, here₂, rows₂⟩ := runCpu_windows result₂
  refine ⟨⟨final₁, final₂, here₁, here₂, fun sym => ?_⟩, fun sym => ?_, same, windows₁, windows₂⟩
  · change messages (sinceReset (runCpuEvents source opt₁ turns₁ s)) =
      messages (sinceReset (runCpuEvents source opt₂ turns₂ s)) at same
    rw [rows₁, rows₂, same]
    rfl
  · refine ⟨bestBid sym (messages t₁), bestAsk sym (messages t₁), windows₁.max_bid some₁ sym, ?_,
      windows₁.min_ask some₁ sym, ?_⟩
    · rw [same]
      exact windows₂.max_bid some₂ sym
    · rw [same]
      exact windows₂.min_ask some₂ sym

/-- With a snapshot after every batch and with the default interval, the final ones have
the shares behind the market open. -/
theorem runCpu_interval_free_reopened :
    ∃ r₁ turns₂ r₂ final₁ final₂, runCpu memSource ⟨1, 0, by decide⟩ 8 reopened = some r₁ ∧
      runCpu memSource .default turns₂ reopened = some r₂ ∧ r₁.printed.length = 3 ∧
      r₁.printed.getLast? = some final₁ ∧ r₂.printed.getLast? = some final₂ ∧
      (final₁.snap 7).volume = 20 ∧ (final₂.snap 7).volume = 20 := by
  let opt₁ : Options := ⟨1, 0, by decide⟩
  obtain ⟨r₁, result₁, volumes⟩ := Option.map_eq_some_iff.mp reopened_volumes
  obtain ⟨_, ⟨turns₂, r₂, result₂⟩, free⟩ :=
    @runCpu_interval_free _ memSource id reopened memSource_delivers opt₁ .default rfl rfl
  obtain ⟨⟨final₁, final₂, here₁, here₂, rows⟩, _⟩ := free 8 turns₂ r₁ r₂ result₁ result₂
  have last : (r₁.printed.map fun p => (p.snap 7).volume).getLast? = some 20 := by
    rw [volumes]
    rfl
  rw [List.getLast?_map, here₁] at last
  have volume : (final₁.snap 7).volume = 20 := Option.some_inj.mp last
  have same : (final₁.snap 7).volume = (final₂.snap 7).volume :=
    (congrArg Snapshot.volume (rows 7) : _)
  refine ⟨r₁, turns₂, r₂, final₁, final₂, result₁, result₂, ?_, here₁, here₂, volume,
    same.symm.trans volume⟩
  simpa using congrArg List.length volumes

end Runs

end ItchAggregator
