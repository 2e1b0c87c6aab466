import ItchAggregator.Library.StreamWatch
import ItchAggregator.RunGpu

/-! What the pipeline's records and waits order. For each kind of operation there is
someone who knows that those issued so far are done: for the uses of a ring slot its
`done` event, for resets and snapshots the barrier event, for a stream's aggregates
the event last recorded behind them, for the copies to the host the event of the
snapshot in flight. Every operation is issued where all it clashes with is known. -/

namespace ItchAggregator

open BatchAssembler
open StreamMachine Threads

namespace DeviceOp

def onHost : DeviceOp → Bool
  | fill .. | print .. => true
  | _ => false

def usesSlot (slot : Nat) : DeviceOp → Prop
  | copyIn j _ | decode j _ | aggregate j _ => j = slot
  | _ => False

def whole : DeviceOp → Prop
  | reset | snapshot => True
  | _ => False

def aggregates : DeviceOp → Prop
  | aggregate .. => True
  | _ => False

def copiesOut : DeviceOp → Prop
  | copyOut _ => True
  | _ => False

def rivals : DeviceOp → DeviceOp → Prop
  | fill slot .. | copyIn slot _ => fun a => a.usesSlot slot ∨ a.onHost = true
  | decode slot _ => usesSlot slot
  | aggregate slot _ => fun a => a.usesSlot slot ∨ a.whole
  | reset => fun a => a.aggregates ∨ a.whole
  | snapshot => fun a => (a.aggregates ∨ a.whole) ∨ a.copiesOut
  | copyOut _ => fun a => (a.whole ∨ a.copiesOut) ∨ a.onHost = true
  | print .. => fun a => a.copiesOut ∨ a.onHost = true

theorem rivals_of_clash {a b : DeviceOp} (clash : deviceOps.Clash a b) : b.rivals a := by
  obtain ⟨r, shared⟩ := clash_resource clash
  -- the resource is one that `b` uses
  cases b <;> cases r <;> simp [mode] at shared <;>
    cases a <;> simp_all [rivals, usesSlot, whole, aggregates, copiesOut, onHost]

  all_goals exact shared.2.1.symm.trans shared.1

end DeviceOp

abbrev GpuCmd := Cmd DeviceOp GpuStream GpuEvent
abbrev GpuProgram := Program DeviceOp GpuStream GpuEvent
abbrev GpuWatch := Watch GpuStream GpuEvent

/-- Who knows of the operations of each kind: the uses of each slot, those on all
accumulators, the aggregates of each stream and the copies to the host. -/
structure Watches where
  slots : Nat → GpuWatch
  whole : GpuWatch
  aggregates : GpuStream → GpuWatch
  copies : GpuWatch

namespace Watches

def serving (w : Watches) (slot : Nat) (s : GpuStream) : Watches :=
  { w with
    slots := Function.update w.slots slot (.stream s)
    aggregates := Function.update w.aggregates s (.stream s) }

variable {w : Watches} {slot j : Nat} {s t : GpuStream}

theorem serving_slot : (w.serving slot s).slots slot = .stream s := Function.update_self _ _ _

theorem serving_slot_ne (other : j ≠ slot) : (w.serving slot s).slots j = w.slots j :=
  Function.update_of_ne other _ _

theorem serving_stream : (w.serving slot s).aggregates s = .stream s := Function.update_self _ _ _

theorem serving_stream_ne (other : t ≠ s) : (w.serving slot s).aggregates t = w.aggregates t :=
  Function.update_of_ne other _ _

end Watches

def AggregatesIn (s : GpuStream) (c : GpuCmd) : Prop :=
  c.lane? = some s ∧ Does DeviceOp.aggregates c

theorem AggregatesIn.op {s : GpuStream} {c : GpuCmd} (here : AggregatesIn s c) :
    ∃ a, c.op? = some a := here.2.op

structure Standing (prog : GpuProgram) (w : Watches) : Prop where
  synced : Synced deviceOps prog
  sides : ∀ c ∈ prog, ∀ a, c.op? = some a → c.onHost = a.onHost
  slots : ∀ slot, Known prog (w.slots slot) (Does (DeviceOp.usesSlot slot))
  whole : Known prog w.whole (Does DeviceOp.whole)
  aggregates : ∀ s, Known prog (w.aggregates s) (AggregatesIn s)
  copies : Known prog w.copies (Does DeviceOp.copiesOut)

namespace Standing

variable {prog : GpuProgram} {w w' : Watches} {c : GpuCmd} {s : GpuStream} {op : DeviceOp}

theorem onHost (standing : Standing prog w) : Known prog .host (Does fun a => a.onHost = true) := by
  refine (Known.onHost prog).mono fun c mem => ?_
  rintro ⟨a, op, host⟩
  rw [standing.sides c mem a op, host]

theorem inStream (standing : Standing prog w) (mem : c ∈ prog) {a : DeviceOp}
    (does : c.op? = some a) (device : a.onHost = false) : ∃ s, c.lane? = some s := by
  have side := standing.sides c mem a does
  rw [device] at side
  cases c with
  | launch s _ => exact ⟨s, rfl⟩
  | host _ => cases side
  | _ => cases does

theorem allAggregates (standing : Standing prog w)
    (other : Known prog (.stream s) (AggregatesIn (1 - s))) :
    Known prog (.stream s) (Does DeviceOp.aggregates) := by
  refine ((Known.lane prog s).or other).mono fun c mem => ?_
  rintro ⟨a, does, aggregates⟩
  have device : a.onHost = false := by
    cases a <;> first | rfl | cases aggregates
  obtain ⟨t, lane⟩ := standing.inStream mem does device
  have two : ∀ s t : GpuStream, t = s ∨ t = 1 - s := by decide
  rcases two s t with rfl | rfl
  · exact Or.inl lane
  · exact Or.inr ⟨lane, a, does, aggregates⟩

theorem quiet (standing : Standing prog w) (none : c.op? = none)
    (slots : ∀ slot, Known (prog ++ [c]) (w'.slots slot) (Does (DeviceOp.usesSlot slot)))
    (whole : Known (prog ++ [c]) w'.whole (Does DeviceOp.whole))
    (aggregates : ∀ s, Known (prog ++ [c]) (w'.aggregates s) (AggregatesIn s))
    (copies : Known (prog ++ [c]) w'.copies (Does DeviceOp.copiesOut)) :
    Standing (prog ++ [c]) w' where
  synced := standing.synced.concat_none none
  sides := by
    intro d mem a does
    rcases List.mem_append.mp mem with earlier | last
    · exact standing.sides d earlier a does
    · rw [List.mem_singleton.mp last, none] at does
      cases does
  slots := slots
  whole := whole
  aggregates := aggregates
  copies := copies

/-- An operation is issued to a stream that knows of its rivals. Whoever is to know
of it is in that stream. -/
theorem launch (standing : Standing prog w) (device : op.onHost = false)
    (rivals : Known prog (.stream s) (Does op.rivals))
    (slots : ∀ slot, op.usesSlot slot → w.slots slot = .stream s)
    (whole : op.whole → w.whole = .stream s)
    (aggregates : op.aggregates → w.aggregates s = .stream s)
    (copies : op.copiesOut → w.copies = .stream s) :
    Standing (prog ++ [.launch s op]) w := by
  have own : ∀ {p : DeviceOp → Prop} {v : GpuWatch}, (p op → v = .stream s) → Known prog v (Does p) →
      Known (prog ++ [.launch s op]) v (Does p) := by
    intro p v here known
    refine known.keep rfl ?_
    rintro ⟨a, does, pa⟩
    obtain rfl := Option.some.inj does
    exact Or.inr ⟨s, here pa, rfl⟩
  refine ⟨standing.synced.launch rivals fun a clash => DeviceOp.rivals_of_clash clash, ?_,
    fun slot => own (slots slot) (standing.slots slot), own whole standing.whole, fun t => ?_,
    own copies standing.copies⟩
  · intro d mem a does
    rcases List.mem_append.mp mem with earlier | last
    · exact standing.sides d earlier a does
    · obtain rfl := List.mem_singleton.mp last
      obtain rfl := Option.some.inj does
      exact device.symm
  · refine (standing.aggregates t).keep rfl ?_
    rintro ⟨lane, a, does, pa⟩
    obtain rfl := Option.some.inj does
    obtain rfl := Option.some.inj lane
    exact Or.inr ⟨s, aggregates pa, rfl⟩

/-- The host does an operation whose rivals are known to be done. -/
theorem host (standing : Standing prog w) (host : op.onHost = true)
    (rivals : Known prog .host (Does op.rivals)) : Standing (prog ++ [.host op]) w := by
  have own : ∀ {P : GpuCmd → Prop} {v : GpuWatch}, Known prog v P →
      Known (prog ++ [.host op]) v P := fun known =>
    known.keep rfl fun _ => Or.inl rfl
  refine ⟨standing.synced.host rivals fun a clash => DeviceOp.rivals_of_clash clash, ?_,
    fun slot => own (standing.slots slot), own standing.whole, fun t => own (standing.aggregates t),
    own standing.copies⟩
  intro d mem a does
  rcases List.mem_append.mp mem with earlier | last
  · exact standing.sides d earlier a does
  · obtain rfl := List.mem_singleton.mp last
    obtain rfl := Option.some.inj does
    exact host.symm

theorem pass (standing : Standing prog w) (silent : c.records? = none) (none : c.op? = none) :
    Standing (prog ++ [c]) w :=
  standing.quiet none (fun slot => (standing.slots slot).pass silent none fun _ => Does.op)
    (standing.whole.pass silent none fun _ => Does.op)
    (fun s => (standing.aggregates s).pass silent none fun _ => AggregatesIn.op)
    (standing.copies.pass silent none fun _ => Does.op)

theorem serving (standing : Standing prog w) {slot : Nat}
    (free : Known prog .host (Does (DeviceOp.usesSlot slot))) (s : GpuStream) :
    Standing prog (w.serving slot s) := by
  refine ⟨standing.synced, standing.sides, fun j => ?_, standing.whole, fun t => ?_,
    standing.copies⟩
  · by_cases same : j = slot
    · rw [same, Watches.serving_slot]
      exact free.ofHost
    · rw [Watches.serving_slot_ne same]
      exact standing.slots j
  · by_cases same : t = s
    · rw [same, Watches.serving_stream]
      exact (Known.lane prog s).mono fun c _ here => here.1
    · rw [Watches.serving_stream_ne same]
      exact standing.aggregates t

theorem batch {slot : Nat} (standing : Standing prog (w.serving slot s))
    (near : Known prog (.stream s) (Does DeviceOp.whole)) (n : Nat) :
    let issued : GpuProgram := prog ++ [.launch s (.copyIn slot n)] ++ [.launch s (.decode slot n)] ++
      [.launch s (.aggregate slot n)]
    Standing issued (w.serving slot s) ∧ Known issued (.stream s) (Does DeviceOp.whole) := by
  have own : ∀ j, slot = j → (w.serving slot s).slots j = .stream s := by
    rintro j rfl
    exact Watches.serving_slot
  have uses : ∀ {prog : GpuProgram}, Standing prog (w.serving slot s) →
      Known prog (.stream s) (Does (DeviceOp.usesSlot slot)) := by
    intro prog standing
    have known := standing.slots slot
    rwa [Watches.serving_slot] at known
  have copied : Standing (prog ++ [.launch s (.copyIn slot n)]) (w.serving slot s) :=
    standing.launch rfl ((uses standing).doesOr standing.onHost.ofHost) own False.elim False.elim
      False.elim
  have near := near.stay (c := .launch s (.copyIn slot n)) (Or.inr rfl)
  have decoded : Standing (prog ++ [.launch s (.copyIn slot n)] ++ [.launch s (.decode slot n)])
      (w.serving slot s) :=
    copied.launch rfl (uses copied) own False.elim False.elim False.elim
  have near := near.stay (c := .launch s (.decode slot n)) (Or.inr rfl)
  exact ⟨decoded.launch rfl ((uses decoded).doesOr near) own False.elim
    (fun _ => Watches.serving_stream) False.elim, near.stay (Or.inr rfl)⟩

end Standing

namespace GpuRun

variable {k : LogCapacity} {σ : Type} {r : GpuRun k σ} {s : GpuStream} {slot : Nat}
  {waited : Option GpuEvent}

/-- The events behind which the run finds its operations; `waited` is the one the host
has just waited for. -/
def watches (r : GpuRun k σ) (waited : Option GpuEvent) : Watches where
  slots := fun slot => .behind waited (some (.done slot))
  whole := .behind waited (if r.barrierSet then some .barrier else none)
  aggregates := fun s => .behind waited (r.lastAgg s)
  copies := .behind waited (r.pending.map .snapDone)

structure Kept (r : GpuRun k σ) (waited : Option GpuEvent) : Prop where
  standing : Standing r.commands (r.watches waited)
  lastAgg : ∀ s e, r.lastAgg s = some e → ∃ slot, e = .done slot

def Near (r : GpuRun k σ) (s : GpuStream) : Prop :=
  Known r.commands (.stream s) (Does DeviceOp.whole)

theorem start_kept (k : LogCapacity) (nSlots : Nat) (p : ItchParser σ) :
    (start k nSlots p).Kept none := by
  have empty : Standing [] ⟨fun _ => .host, .stream 0, fun _ => .host, .host⟩ :=
    ⟨.nil, by simp, fun _ => .nil, .nil, fun _ => .nil, .nil⟩
  have launched : Standing [.launch 0 .reset] ⟨fun _ => .host, .stream 0, fun _ => .host, .host⟩ :=
    empty.launch rfl .nil (fun _ => False.elim) (fun _ => rfl) False.elim False.elim
  have synced := launched.pass (c := .streamSync 0) rfl rfl
  refine ⟨⟨synced.synced, synced.sides, fun slot => (synced.slots slot).ofHost, ?_,
    fun s => (synced.aggregates s).ofHost, synced.copies.ofHost⟩, fun _ _ none => nomatch none⟩
  exact launched.whole.streamSync fun _ => Does.op

theorem Kept.slots (kept : r.Kept waited) (slot : Nat) :
    Known r.commands (.behind waited (some (.done slot))) (Does (DeviceOp.usesSlot slot)) :=
  kept.standing.slots slot

theorem Kept.acquire (kept : r.Kept none) : r.acquire.Kept (some (.done r.ring.next)) where
  standing :=
    kept.standing.quiet rfl (fun slot => (kept.slots slot).behind_eventSync fun _ => Does.op)
      (kept.standing.whole.behind_eventSync fun _ => Does.op)
      (fun s => (kept.standing.aggregates s).behind_eventSync fun _ => AggregatesIn.op)
      (kept.standing.copies.behind_eventSync fun _ => Does.op)
  lastAgg := kept.lastAgg

theorem Kept.settle (kept : r.Kept waited) : r.Kept none where
  standing :=
    { synced := kept.standing.synced
      sides := kept.standing.sides
      slots := fun slot => (kept.slots slot).settle
      whole := kept.standing.whole.settle
      aggregates := fun s => (kept.standing.aggregates s).settle
      copies := kept.standing.copies.settle }
  lastAgg := kept.lastAgg

theorem Kept.free (kept : r.Kept (some (.done slot))) :
    Known r.commands .host (Does (DeviceOp.usesSlot slot)) := by
  have known := kept.slots slot
  rwa [Watch.behind_waited] at known

theorem Kept.filled (kept : r.Kept (some (.done slot))) (p : ItchParser σ) (f : Filling k) :
    (r.filled slot p f).Kept (some (.done slot)) where
  standing := kept.standing.host rfl (kept.free.doesOr kept.standing.onHost)
  lastAgg := kept.lastAgg

theorem Kept.waitBarrier (kept : r.Kept waited) (s : GpuStream) :
    (r.waitBarrier s).Kept waited ∧ (r.waitBarrier s).Near s := by
  unfold GpuRun.waitBarrier
  have whole := kept.standing.whole.settle
  split
  · rename_i set
    rw [set, if_pos rfl] at whole
    exact ⟨⟨kept.standing.pass rfl rfl, kept.lastAgg⟩, whole.wait fun _ => Does.op⟩
  · rename_i unset
    rw [if_neg unset] at whole
    exact ⟨kept, whole.ofHost⟩

theorem Kept.waitOther (kept : r.Kept waited) (near : r.Near s) :
    (r.waitOther s).Kept waited ∧ (r.waitOther s).Near s ∧
      Known (r.waitOther s).commands (.stream s) (Does DeviceOp.aggregates) := by
  unfold GpuRun.waitOther
  have other := (kept.standing.aggregates (1 - s)).settle
  cases last : r.lastAgg (1 - s) with
  | none =>
    rw [last] at other
    exact ⟨kept, near, kept.standing.allAggregates other.ofHost⟩
  | some e =>
    rw [last] at other
    have standing : Standing (r.commands ++ [.wait s e]) (r.watches waited) :=
      kept.standing.pass rfl rfl
    exact ⟨⟨standing, kept.lastAgg⟩, near.stay (Or.inr rfl),
      standing.allAggregates (other.wait fun _ => AggregatesIn.op)⟩

theorem Kept.barrier (kept : r.Kept waited) {prog : GpuProgram} {whole : GpuWatch}
    (standing : Standing prog { r.watches waited with whole := whole })
    (near : Known prog (.stream s) (Does DeviceOp.whole)) :
    Standing (prog ++ [.record s .barrier]) { r.watches waited with whole := .event .barrier } := by
  refine standing.quiet rfl (fun slot => ?_) (near.record fun _ => Does.op) (fun t => ?_) ?_
  · have other : (.behind waited (some (.done slot)) : GpuWatch) ≠ .event .barrier :=
      Watch.behind_ne (by simp)
    exact (standing.slots slot).recordOther other fun _ => Does.op
  · refine (standing.aggregates t).recordOther (Watch.behind_ne fun last => ?_) fun _ =>
      AggregatesIn.op
    obtain ⟨slot, done⟩ := kept.lastAgg t _ last
    cases done
  · refine standing.copies.recordOther (Watch.behind_ne ?_) fun _ => Does.op
    cases r.pending <;> simp

theorem Kept.reset (kept : r.Kept (some (.done slot))) (near : r.Near s) :
    (r.reset s).Kept (some (.done slot)) ∧ (r.reset s).Near s := by
  obtain ⟨kept, near, aggregates⟩ := kept.waitOther near
  have standing := kept.standing
  have here : Standing (r.waitOther s).commands
      { (r.waitOther s).watches (some (.done slot)) with whole := .stream s } :=
    { standing with whole := near }
  have launched : Standing ((r.waitOther s).commands ++ [.launch s .reset])
      { (r.waitOther s).watches (some (.done slot)) with whole := .stream s } :=
    here.launch rfl (aggregates.doesOr near) (fun _ => False.elim) (fun _ => rfl) False.elim
      False.elim
  have recorded := kept.barrier launched launched.whole
  have again := launched.whole.stay (c := .record s .barrier) (Or.inr rfl)
  refine ⟨⟨⟨recorded.synced, recorded.sides, recorded.slots, ?_, recorded.aggregates,
    recorded.copies⟩, kept.lastAgg⟩, again⟩
  exact recorded.whole

theorem Kept.aggregate (kept : r.Kept (some (.done slot))) (near : r.Near s) (b : BatchMeta) :
    (r.aggregate s slot b).Kept none ∧ (r.aggregate s slot b).Near s := by
  obtain ⟨issued, near⟩ := (kept.standing.serving kept.free s).batch near b.nMsgs
  refine ⟨⟨issued.quiet rfl (fun j => ?_) (Known.behind_record issued.whole fun _ => Does.op)
    (fun t => ?_) (Known.behind_record issued.copies fun _ => Does.op), fun t e last => ?_⟩,
    near.stay (Or.inr rfl)⟩
  -- the slot and the stream served hand over to the event recorded
  · have known := issued.slots j
    by_cases same : j = slot
    · rw [same, Watches.serving_slot] at known
      rw [same]
      exact known.record fun _ => Does.op
    · have event : (r.watches (some (.done slot))).slots j = .event (.done j) := by
        simp [watches, Watch.behind_event, Ne.symm same]
      rw [Watches.serving_slot_ne same, event] at known
      exact known.recordOther (by simpa using same) fun _ => Does.op
  · have known := issued.aggregates t
    by_cases same : t = s
    · rw [same, Watches.serving_stream] at known
      rw [same]
      simpa [GpuRun.aggregate, issue, watches, Watch.behind] using
        known.record fun _ => AggregatesIn.op
    · rw [Watches.serving_stream_ne same] at known
      simpa [GpuRun.aggregate, issue, watches, same] using
        known.behind_record fun _ => AggregatesIn.op
  · by_cases same : t = s
    · refine ⟨slot, ?_⟩
      simpa [GpuRun.aggregate, issue, same] using last.symm
    · refine kept.lastAgg t e ?_
      simpa [GpuRun.aggregate, issue, same] using last

theorem Kept.print (kept : r.Kept waited) (copies : Known r.commands .host (Does DeviceOp.copiesOut))
    (b : Fin 2) (ts : UInt64) : (r.print b ts).Kept waited where
  standing := kept.standing.host rfl (copies.doesOr kept.standing.onHost)
  lastAgg := kept.lastAgg

theorem Kept.drain (kept : r.Kept none) {P : GpuCmd → Prop} (known : Known r.commands (.stream s) P) :
    r.drain.Kept none ∧ Known r.drain.commands (.stream s) P ∧
      Known r.drain.commands .host (Does DeviceOp.copiesOut) := by
  have copies := kept.standing.copies
  unfold GpuRun.drain
  cases pending : r.pending with
  | none =>
    simp only [watches, pending, Option.map_none, Watch.behind_none] at copies
    exact ⟨kept, known, copies⟩
  | some b =>
    simp only [watches, pending, Option.map_some] at copies
    rw [Watch.behind_event (by simp)] at copies
    have synced := copies.eventSync fun _ => Does.op
    have waiting : (r.issue (.eventSync (.snapDone b))).Kept none :=
      ⟨kept.standing.pass rfl rfl, kept.lastAgg⟩
    exact ⟨waiting.print synced b r.pendingTs,
      (known.stay (Or.inl rfl)).stay (Or.inl rfl), synced.keep rfl fun _ => Or.inl rfl⟩

theorem Kept.copyOut (kept : r.Kept none) (near : r.Near s)
    (copies : Known r.commands .host (Does DeviceOp.copiesOut)) (b : Fin 2) :
    Standing (r.commands ++ [.launch s (.copyOut b)] ++ [.record s (.snapDone b)])
      { r.watches none with copies := .event (.snapDone b) } := by
  have here : Standing r.commands { r.watches none with copies := .stream s } :=
    { kept.standing with copies := copies.ofHost }
  have copied : Standing (r.commands ++ [.launch s (.copyOut b)])
      { r.watches none with copies := .stream s } :=
    here.launch rfl ((near.doesOr copies.ofHost).doesOr here.onHost.ofHost) (fun _ => False.elim)
      False.elim False.elim fun _ => rfl
  refine copied.quiet rfl (fun slot => ?_) ?_ (fun t => ?_) (copied.copies.record fun _ => Does.op)
  · have other : (.behind none (some (.done slot)) : GpuWatch) ≠ .event (.snapDone b) :=
      Watch.behind_ne (by simp)
    exact (copied.slots slot).recordOther other fun _ => Does.op
  · refine copied.whole.recordOther (Watch.behind_ne ?_) fun _ => Does.op
    cases r.barrierSet <;> simp
  · refine (copied.aggregates t).recordOther (Watch.behind_ne fun last => ?_) fun _ =>
      AggregatesIn.op
    obtain ⟨slot, done⟩ := kept.lastAgg t _ last
    cases done

theorem Kept.snapshot (kept : r.Kept none) (near : r.Near s) : (r.snapshot s).Kept none := by
  obtain ⟨kept, near, aggregates⟩ := kept.waitOther near
  obtain ⟨kept, known, copies⟩ := kept.drain (aggregates.doesOr near)
  have near : (r.waitOther s).drain.Near s := known.mono fun c _ does => does.imp fun a both =>
    ⟨both.1, Or.inr both.2⟩
  unfold GpuRun.snapshot
  dsimp only
  generalize (if (r.waitOther s).pending = some 0 then 1 else 0 : Fin 2) = bi
  generalize (r.waitOther s).drain = q at kept known copies near ⊢
  have here : Standing q.commands { q.watches none with whole := .stream s } :=
    { kept.standing with whole := near }
  have taken : Standing (q.commands ++ [.launch s .snapshot])
      { q.watches none with whole := .stream s } :=
    here.launch rfl (known.doesOr copies.ofHost) (fun _ => False.elim) (fun _ => rfl) False.elim
      False.elim
  let q' : GpuRun k σ :=
    { (q.issue (.launch s .snapshot)).issue (.record s .barrier) with barrierSet := true }
  have kept' : q'.Kept none := ⟨kept.barrier taken taken.whole, kept.lastAgg⟩
  have near' : q'.Near s := taken.whole.stay (Or.inr rfl)
  have copies' : Known q'.commands .host (Does DeviceOp.copiesOut) := by
    have launched : Known (q.commands ++ [.launch s .snapshot]) .host (Does DeviceOp.copiesOut) := by
      refine copies.keep rfl ?_
      rintro ⟨a, does, copy⟩
      obtain rfl := Option.some.inj does
      cases copy
    exact launched.recordOther (by simp) fun _ => Does.op
  exact ⟨kept'.copyOut near' copies' bi, kept.lastAgg⟩

theorem Kept.onBatch (kept : r.Kept (some (.done slot))) (opt : Options) (b : BatchMeta) :
    (r.onBatch opt slot b).Kept none := by
  unfold GpuRun.onBatch
  dsimp only
  obtain ⟨kept, near⟩ := kept.waitBarrier r.stream
  have reset : (if b.resetVwap then (r.waitBarrier r.stream).reset r.stream
      else r.waitBarrier r.stream).Kept (some (.done slot)) ∧
      (if b.resetVwap then (r.waitBarrier r.stream).reset r.stream
      else r.waitBarrier r.stream).Near r.stream := by
    split
    · exact kept.reset near
    · exact ⟨kept, near⟩
  generalize (if b.resetVwap then (r.waitBarrier r.stream).reset r.stream
    else r.waitBarrier r.stream) = q at reset ⊢
  obtain ⟨kept, near⟩ := reset.1.aggregate reset.2 b
  split
  · exact kept.snapshot near
  · exact kept

theorem Kept.loop {source : ByteSource σ} {hash : UInt64 → UInt64} {opt : Options}
    {turns loops : Nat} {r' : GpuRun k σ} (kept : r.Kept none)
    (result : loop source hash opt turns loops r = some r') : r'.Kept none := by
  induction loops generalizing r with
  | zero => cases result
  | succ loops ih =>
    obtain ⟨p, f, _, ⟨_, rfl⟩ | ⟨_, ⟨_, rfl⟩ | ⟨_, later⟩⟩⟩ := loop_cases result
    · exact (kept.acquire.filled p f).settle
    · exact (kept.acquire.filled p f).onBatch opt f.batchMeta
    · exact ih ((kept.acquire.filled p f).onBatch opt f.batchMeta) later

theorem Kept.drained (kept : r.Kept none) :
    Standing r.drained.commands ⟨fun _ => .host, .host, fun _ => .host, .host⟩ := by
  have first : Standing (r.commands ++ [.streamSync 0]) (r.watches none) :=
    kept.standing.pass rfl rfl
  have second : Standing r.drained.commands (r.watches none) := first.pass rfl rfl
  have lane₀ : Known (r.commands ++ [.streamSync 0]) .host fun c =>
      c.lane? = some 0 ∧ ∃ a, c.op? = some a :=
    ((Known.lane r.commands 0).mono fun c _ both => both.1).streamSync fun _ => And.right
  have lane₁ : Known r.drained.commands .host fun c => c.lane? = some 1 ∧ ∃ a, c.op? = some a :=
    ((Known.lane _ 1).mono fun c _ both => both.1).streamSync fun _ => And.right
  have all : ∀ {P : GpuCmd → Prop}, (∀ c, P c → ∃ a, c.op? = some a ∧ a.onHost = false) →
      Known r.drained.commands .host P := by
    intro P device
    refine ((lane₀.pass rfl rfl fun _ => And.right).or lane₁).mono fun c mem counts => ?_
    obtain ⟨a, does, side⟩ := device c counts
    obtain ⟨s, lane⟩ := second.inStream mem does side
    have two : ∀ s : GpuStream, s = 0 ∨ s = 1 := by decide
    rcases two s with rfl | rfl
    · exact Or.inl ⟨lane, a, does⟩
    · exact Or.inr ⟨lane, a, does⟩
  refine ⟨second.synced, second.sides, fun slot => all ?_, all ?_, fun s => all ?_, all ?_⟩
  · rintro c ⟨a, does, uses⟩
    exact ⟨a, does, by cases a <;> first | rfl | cases uses⟩
  · rintro c ⟨a, does, whole⟩
    exact ⟨a, does, by cases a <;> first | rfl | cases whole⟩
  · rintro c ⟨_, a, does, aggregates⟩
    exact ⟨a, does, by cases a <;> first | rfl | cases aggregates⟩
  · rintro c ⟨a, does, copies⟩
    exact ⟨a, does, by cases a <;> first | rfl | cases copies⟩

theorem Kept.finish (kept : r.Kept none) : Synced deviceOps r.finish.commands := by
  have drained := kept.drained
  have printed : Standing r.drained.printPending.commands
      ⟨fun _ => .host, .host, fun _ => .host, .host⟩ := by
    unfold GpuRun.printPending
    split
    · exact drained.host rfl (drained.copies.doesOr drained.onHost)
    · exact drained
  unfold GpuRun.finish
  generalize r.drained.printPending = q at printed ⊢
  have aggregates : Known q.commands (.stream 0) (Does DeviceOp.aggregates) :=
    printed.allAggregates (printed.aggregates 1).ofHost
  have here : Standing q.commands ⟨fun _ => .host, .stream 0, fun _ => .host, .stream 0⟩ :=
    { printed with whole := printed.whole.ofHost, copies := printed.copies.ofHost }
  have taken : Standing (q.commands ++ [.launch 0 .snapshot])
      ⟨fun _ => .host, .stream 0, fun _ => .host, .stream 0⟩ :=
    here.launch rfl ((aggregates.doesOr here.whole).doesOr here.copies) (fun _ => False.elim)
      (fun _ => rfl) False.elim False.elim
  have copied : Standing (q.commands ++ [.launch 0 .snapshot] ++ [.launch 0 (.copyOut 0)])
      ⟨fun _ => .host, .stream 0, fun _ => .host, .stream 0⟩ :=
    taken.launch rfl ((taken.whole.doesOr taken.copies).doesOr taken.onHost.ofHost)
      (fun _ => False.elim) False.elim False.elim fun _ => rfl
  have synced := copied.pass (c := .streamSync 0) rfl rfl
  have arrived := copied.copies.streamSync fun _ => Does.op
  have last : Standing q.finalSnapshot.commands
      ⟨fun _ => .host, .stream 0, fun _ => .host, .stream 0⟩ :=
    synced.host rfl (arrived.doesOr synced.onHost)
  exact last.synced

/-- The commands of a run order all operations that touch the same data. -/
theorem runGpu_synced {source : ByteSource σ} {opt : Options} {turns : Nat} {init : σ}
    {r : GpuRun 24 σ} (result : runGpu source opt turns init = some r) :
    Synced deviceOps r.commands := by
  obtain ⟨r', looped, rfl⟩ := Option.map_eq_some_iff.mp result
  exact ((start_kept _ _ _).loop looped).finish

end GpuRun

end ItchAggregator
