import ItchAggregator.GpuReports
import ItchAggregator.Library.StreamReads

/-! How the slots of the ring are reused. A slot comes back after as many batches as the
ring has slots; by then the host has waited for everything the slot was used for, and
the kernels of a batch find in it what `fill` wrote for that batch. -/

namespace ItchAggregator

open BatchAssembler Threads
open StreamMachine

/-- A batch's use of a slot: what `fill` wrote, and the positions of the commands. -/
structure SlotUse where
  slot : Nat
  stream : GpuStream
  batch : Ptr
  nMsgs : Nat
  fill : Nat
  copyIn : Nat

namespace SlotUse

def decode (u : SlotUse) : Nat := u.copyIn + 1

def aggregate (u : SlotUse) : Nat := u.copyIn + 2

structure At (prog : GpuProgram) (u : SlotUse) : Prop where
  fill : prog[u.fill]? = some (.host (.fill u.slot u.batch u.nMsgs))
  copyIn : prog[u.copyIn]? = some (.launch u.stream (.copyIn u.slot u.nMsgs))
  decode : prog[u.decode]? = some (.launch u.stream (.decode u.slot u.nMsgs))
  aggregate : prog[u.aggregate]? = some (.launch u.stream (.aggregate u.slot u.nMsgs))
  order : u.fill < u.copyIn

/-- The slot is free when `fill` writes it, and holds the batch when it is aggregated. -/
structure Served (prog : GpuProgram) (u : SlotUse) : Prop where
  place : u.At prog
  free : ∀ i < u.fill, ∀ c, prog[i]? = some c → Does (DeviceOp.usesSlot u.slot) c →
    Before prog i u.fill
  holds : ∀ m, ∀ idx < u.nMsgs, Holds (sequential deviceOps (prog.take u.aggregate) m) u.slot idx
    (decodeSlot (shift u.batch (idx * slotBytes)))

variable {prog : GpuProgram} {u : SlotUse}

theorem At.append (place : u.At prog) (more : GpuProgram) : u.At (prog ++ more) := by
  have inside : ∀ {i : Nat} {c : GpuCmd}, prog[i]? = some c → (prog ++ more)[i]? = some c :=
    fun here => by rw [List.getElem?_append_left (List.getElem?_eq_some_iff.mp here).1, here]
  exact ⟨inside place.fill, inside place.copyIn, inside place.decode, inside place.aggregate,
    place.order⟩

theorem At.aggregate_lt (place : u.At prog) : u.aggregate < prog.length :=
  (List.getElem?_eq_some_iff.mp place.aggregate).1

theorem Served.append (served : u.Served prog) (more : GpuProgram) : u.Served (prog ++ more) where
  place := served.place.append more
  free := by
    intro i before c here uses
    have bound := served.place.aggregate_lt
    have order := served.place.order
    rw [List.getElem?_append_left (by unfold aggregate at bound; omega)] at here
    exact (served.free i before c here uses).append more
  holds := by
    intro m idx inside
    rw [List.take_append_of_le_length (Nat.le_of_lt served.place.aggregate_lt)]
    exact served.holds m idx inside

theorem At.aggregate_eq (place : u.At prog) {i slot n : Nat} {s : GpuStream}
    (here : prog[i]? = some (.launch s (.aggregate slot n)))
    (own : i = u.copyIn ∨ i = u.decode ∨ i = u.aggregate) : i = u.aggregate := by
  rcases own with copy | decode | aggregate
  · rw [copy, place.copyIn] at here
    cases here
  · rw [decode, place.decode] at here
    cases here
  · exact aggregate

/-- A later use of the same slot is ordered behind an earlier one, each of its commands. -/
theorem Served.ordered {v : SlotUse} (first : u.Served prog) (second : v.Served prog)
    (same : u.slot = v.slot) (before : u.aggregate < v.fill) :
    Before prog u.copyIn v.fill ∧ Before prog u.aggregate v.copyIn ∧
      Before prog u.aggregate v.decode := by
  have copied : Before prog u.copyIn v.fill :=
    second.free _ (by unfold aggregate at before; omega) _ first.place.copyIn ⟨_, rfl, same⟩
  have aggregated : Before prog u.aggregate v.fill :=
    second.free _ before _ first.place.aggregate ⟨_, rfl, same⟩
  have copy : Before prog u.aggregate v.copyIn :=
    aggregated.tail (.issued second.place.fill second.place.copyIn second.place.order rfl)
  have decode : Before prog u.aggregate v.decode :=
    aggregated.tail (.issued second.place.fill second.place.decode
      (Nat.lt_succ_of_lt second.place.order) rfl)
  exact ⟨copied, copy, decode⟩

/-- While a use's aggregate is at work, it finds the decoded batch. -/
theorem Served.reads (served : u.Served prog) (synced : Synced deviceOps prog) {m : DeviceMemory}
    {s : State atomics} (steps : Relation.ReflTransGen (Step prog) (.start deviceOps prog m) s)
    (enabled : Enabled prog s.fin u.aggregate) (unfinished : u.aggregate ∉ s.fin) {idx : Nat}
    (inside : idx < u.nMsgs) :
    Holds s.mem u.slot idx (decodeSlot (shift u.batch (idx * slotBytes))) := by
  have mem : aggregateTask u.slot idx ∈ deviceOps.tasks (.aggregate u.slot u.nMsgs) :=
    List.mem_map_of_mem (List.mem_range.mpr inside)
  have finds : ∀ f, s.mem (.soa f u.slot idx) =
      sequential deviceOps (prog.take u.aggregate) m (.soa f u.slot idx) := fun f =>
    reads_sequential synced steps enabled unfinished
      (by rw [served.place.aggregate]; rfl) mem (by exact if_pos ⟨rfl, rfl⟩)
  have holds := served.holds m idx inside
  exact ⟨(finds _).trans holds.type, (finds _).trans holds.side, (finds _).trans holds.locate,
    (finds _).trans holds.price, (finds _).trans holds.qty, (finds _).trans holds.ts⟩

end SlotUse

namespace GpuRun

variable {k : LogCapacity} {σ : Type} {r r' q : GpuRun k σ} {s : GpuStream}

/-- Commands have been issued that use no slot, and nothing has been acquired. -/
structure Continues (r r' : GpuRun k σ) : Prop where
  commands : ∃ more, r'.commands = r.commands ++ more ∧
    ∀ c ∈ more, ∀ slot, ¬Does (DeviceOp.usesSlot slot) c
  ring : r'.ring = r.ring
  batches : r'.rs.batches = r.rs.batches

namespace Continues

theorem refl (r : GpuRun k σ) : Continues r r := ⟨⟨[], by simp⟩, rfl, rfl⟩

theorem trans (first : Continues r q) (second : Continues q r') : Continues r r' := by
  obtain ⟨more, commands, quiet⟩ := first.commands
  obtain ⟨more', commands', quiet'⟩ := second.commands
  refine ⟨⟨more ++ more', by rw [commands', commands, List.append_assoc], fun c hc => ?_⟩,
    second.ring.trans first.ring, second.batches.trans first.batches⟩
  exact (List.mem_append.mp hc).elim (quiet c) (quiet' c)

theorem issue {c : GpuCmd} (quiet : ∀ slot, ¬Does (DeviceOp.usesSlot slot) c) (r : GpuRun k σ) :
    Continues r (r.issue c) :=
  ⟨⟨[c], rfl, by simpa using quiet⟩, rfl, rfl⟩

theorem idle {c : GpuCmd} (none : c.op? = none) (r : GpuRun k σ) : Continues r (r.issue c) := by
  refine issue (fun slot => ?_) r
  rintro ⟨a, does, _⟩
  simp [none] at does

theorem operation {c : GpuCmd} {op : DeviceOp} (does : c.op? = some op)
    (quiet : ∀ slot, ¬op.usesSlot slot) (r : GpuRun k σ) : Continues r (r.issue c) := by
  refine issue (fun slot => ?_) r
  rintro ⟨a, same, uses⟩
  obtain rfl := Option.some.inj (same.symm.trans does)
  exact quiet slot uses

theorem waitBarrier (r : GpuRun k σ) (s : GpuStream) : Continues r (r.waitBarrier s) := by
  unfold GpuRun.waitBarrier
  split
  · exact idle rfl r
  · exact refl r

theorem waitOther (r : GpuRun k σ) (s : GpuStream) : Continues r (r.waitOther s) := by
  unfold GpuRun.waitOther
  split
  · exact idle rfl r
  · exact refl r

theorem reset (r : GpuRun k σ) (s : GpuStream) : Continues r (r.reset s) := by
  have waited := waitOther r s
  have launched := waited.trans (operation (c := .launch s .reset) rfl (fun _ => id) _)
  have recorded := launched.trans (idle (c := .record s .barrier) rfl _)
  exact ⟨recorded.commands, recorded.ring, recorded.batches⟩

theorem print (r : GpuRun k σ) (b : Fin 2) (ts : UInt64) : Continues r (r.print b ts) := by
  have issued := operation (c := .host (.print r.printed.length b)) rfl (fun _ => id) r
  exact ⟨issued.commands, issued.ring, issued.batches⟩

theorem drain (r : GpuRun k σ) : Continues r r.drain := by
  unfold GpuRun.drain
  split
  · exact (idle rfl r).trans (print _ _ _)
  · exact refl r

theorem snapshot (r : GpuRun k σ) (s : GpuStream) : Continues r (r.snapshot s) := by
  have drained := (waitOther r s).trans (drain _)
  have taken := drained.trans (operation (c := .launch s .snapshot) rfl (fun _ => id) _)
  have barrier := taken.trans (idle (c := .record s .barrier) rfl _)
  have copied := barrier.trans (operation (c := .launch s (.copyOut
    (if (r.waitOther s).pending = some 0 then 1 else 0))) rfl (fun _ => id) _)
  have recorded := copied.trans (idle (c := .record s (.snapDone
    (if (r.waitOther s).pending = some 0 then 1 else 0))) rfl _)
  exact ⟨recorded.commands, recorded.ring, recorded.batches⟩

theorem finish (r : GpuRun k σ) : Continues r r.finish := by
  have drained := (idle (c := .streamSync 0) rfl r).trans (idle (c := .streamSync 1) rfl _)
  have printed : Continues r r.drained.printPending := by
    unfold printPending
    split
    · exact drained.trans (print _ _ _)
    · exact drained
  have taken := printed.trans (operation (c := .launch 0 .snapshot) rfl (fun _ => id) _)
  have copied := taken.trans (operation (c := .launch 0 (.copyOut 0)) rfl (fun _ => id) _)
  have synced := copied.trans (idle (c := .streamSync 0) rfl _)
  have shown : Continues _ r.finish := print _ 0 _
  exact synced.trans ⟨shown.commands, shown.ring, shown.batches⟩

end Continues

/-! One round of the loop. -/

variable {source : ByteSource σ} {hash : UInt64 → UInt64} {opt : Options} {p : ItchParser σ}
  {f : Filling k}

def ready (r : GpuRun k σ) (b : BatchMeta) : GpuRun k σ :=
  if b.resetVwap then (r.waitBarrier r.stream).reset r.stream else r.waitBarrier r.stream

def round (opt : Options) (r : GpuRun k σ) (p : ItchParser σ) (f : Filling k) : GpuRun k σ :=
  (r.acquire.filled r.ring.next p f).onBatch opt r.ring.next f.batchMeta

def use (r : GpuRun k σ) (p : ItchParser σ) (f : Filling k) : SlotUse where
  slot := r.ring.next
  stream := r.stream
  batch := f.dst
  nMsgs := f.batchMeta.nMsgs
  fill := r.acquire.commands.length
  copyIn := ((r.acquire.filled r.ring.next p f).ready f.batchMeta).commands.length

theorem ready_continues (r : GpuRun k σ) (b : BatchMeta) : Continues r (r.ready b) := by
  unfold ready
  split
  · exact (Continues.waitBarrier r _).trans (.reset _ _)
  · exact .waitBarrier r _

theorem ready_loaded {m : DeviceMemory} {slot n : Nat} {batch : Ptr}
    (loaded : Loaded m r slot n batch) (b : BatchMeta) : Loaded m (r.ready b) slot n batch := by
  unfold ready
  split
  · exact (loaded.waitBarrier _).reset _
  · exact loaded.waitBarrier _

theorem onBatch_continues (opt : Options) (r : GpuRun k σ) (slot : Nat) (b : BatchMeta) :
    Continues ((r.ready b).aggregate r.stream slot b) (r.onBatch opt slot b) := by
  have body : r.onBatch opt slot b =
      if ((r.ready b).aggregate r.stream slot b).rs.batches % opt.snapshotInterval = 0 then
        ((r.ready b).aggregate r.stream slot b).snapshot r.stream
      else (r.ready b).aggregate r.stream slot b := rfl
  rw [body]
  split
  · exact .snapshot _ _
  · exact .refl _

theorem round_commands (opt : Options) (r : GpuRun k σ) (p : ItchParser σ) (f : Filling k) :
    ∃ more, (r.round opt p f).commands =
      ((r.acquire.filled r.ring.next p f).ready f.batchMeta).commands ++
        [.launch r.stream (.copyIn r.ring.next f.batchMeta.nMsgs),
          .launch r.stream (.decode r.ring.next f.batchMeta.nMsgs),
          .launch r.stream (.aggregate r.ring.next f.batchMeta.nMsgs),
          .record r.stream (.done r.ring.next)] ++ more ∧
      ∀ c ∈ more, ∀ slot, ¬Does (DeviceOp.usesSlot slot) c := by
  obtain ⟨more, commands, quiet⟩ :=
    (onBatch_continues opt (r.acquire.filled r.ring.next p f) r.ring.next f.batchMeta).commands
  refine ⟨more, ?_, quiet⟩
  rw [round, commands]
  simp [GpuRun.aggregate, issue, List.append_assoc]
  rfl

theorem round_ring (opt : Options) (r : GpuRun k σ) (p : ItchParser σ) (f : Filling k) :
    (r.round opt p f).ring = { r.ring with next := (r.ring.next + 1) % r.ring.nSlots } ∧
      (r.round opt p f).rs.batches = r.rs.batches + 1 := by
  have behind := onBatch_continues opt (r.acquire.filled r.ring.next p f) r.ring.next f.batchMeta
  have before := ready_continues (r.acquire.filled r.ring.next p f) f.batchMeta
  exact ⟨behind.ring.trans before.ring, behind.batches.trans (congrArg (· + 1) before.batches)⟩

/-- The batch of a round finds its slot free, and its kernel finds the batch in it. -/
theorem Kept.served (kept : r.Kept none) (opt : Options) (p : ItchParser σ) (f : Filling k) :
    (r.use p f).Served (r.round opt p f).commands := by
  let q := r.acquire.filled r.ring.next p f
  let w := q.ready f.batchMeta
  obtain ⟨more, commands, _⟩ := round_commands opt r p f
  obtain ⟨between, ready, _⟩ := (ready_continues q f.batchMeta).commands
  have filled : q.commands = r.acquire.commands ++
      [.host (.fill r.ring.next f.dst f.batchMeta.nMsgs)] := rfl
  have whole : (r.round opt p f).commands = r.acquire.commands ++
      [.host (.fill r.ring.next f.dst f.batchMeta.nMsgs)] ++ (between ++
        [.launch r.stream (.copyIn r.ring.next f.batchMeta.nMsgs),
          .launch r.stream (.decode r.ring.next f.batchMeta.nMsgs),
          .launch r.stream (.aggregate r.ring.next f.batchMeta.nMsgs),
          .record r.stream (.done r.ring.next)] ++ more) := by
    rw [commands, ready, filled]
    simp only [List.append_assoc]
  have order : r.acquire.commands.length < w.commands.length := by
    change _ < (q.ready f.batchMeta).commands.length
    rw [ready, filled]
    simp only [List.length_append, List.length_singleton]
    omega
  refine ⟨⟨?_, ?_, ?_, ?_, order⟩, ?_, ?_⟩
  · rw [whole, List.getElem?_append_left (by simp [use])]
    exact List.getElem?_concat_length
  · rw [commands, List.append_assoc, List.getElem?_append_right (by simp [use])]
    simp [use]
  · rw [commands, List.append_assoc, List.getElem?_append_right (by simp [use, SlotUse.decode])]
    simp [use, SlotUse.decode]
  · rw [commands, List.append_assoc, List.getElem?_append_right (by simp [use, SlotUse.aggregate])]
    simp [use, SlotUse.aggregate]
  · intro i before c here uses
    rw [whole, List.append_assoc, List.getElem?_append_left before] at here
    rw [whole]
    exact (kept.acquire.free.before_host here uses).append _
  · intro m idx inside
    have loaded : Loaded m w r.ring.next f.batchMeta.nMsgs f.dst :=
      ready_loaded (loaded_filled r.acquire m r.ring.next p f) f.batchMeta
    have upto : (r.round opt p f).commands.take (r.use p f).aggregate =
        ((w.issue (.launch r.stream (.copyIn r.ring.next f.batchMeta.nMsgs))).issue
          (.launch r.stream (.decode r.ring.next f.batchMeta.nMsgs))).commands := by
      rw [commands, List.append_assoc, SlotUse.aggregate, use, List.take_append]
      simp [issue, w, q]
    rw [upto]
    exact loaded.decoded r.stream idx inside

theorem Kept.round (kept : r.Kept none) (opt : Options) (p : ItchParser σ) (f : Filling k) :
    (r.round opt p f).Kept none := (kept.acquire.filled p f).onBatch opt f.batchMeta

/-! Any number of rounds. -/

inductive Rounds (source : ByteSource σ) (hash : UInt64 → UInt64) (opt : Options) :
    GpuRun k σ → List SlotUse → GpuRun k σ → Prop
  | stop (r : GpuRun k σ) : Rounds source hash opt r [] r
  | batch {r r' : GpuRun k σ} {us : List SlotUse} {p : ItchParser σ} {f : Filling k} (turns : Nat)
      (call : fill source hash turns r.acquire.parser r.acquire.assembler
        (r.acquire.hRaw r.ring.next) = some (p, f))
      (some : f.batchMeta.nMsgs ≠ 0) (later : Rounds source hash opt (r.round opt p f) us r') :
      Rounds source hash opt r (r.use p f :: us) r'

/-- The loop is a number of rounds, behind which a slot may have been acquired for an
empty batch. -/
theorem loop_rounds {turns loops : Nat} (result : loop source hash opt turns loops r = some r') :
    ∃ us q, Rounds source hash opt r us q ∧
      (r' = q ∨ ∃ p f, f.batchMeta.nMsgs = 0 ∧ r' = q.acquire.filled q.ring.next p f) := by
  induction loops generalizing r with
  | zero => cases result
  | succ loops ih =>
    obtain ⟨p, f, call, ⟨empty, rfl⟩ | ⟨some, ⟨_, rfl⟩ | ⟨_, looped⟩⟩⟩ := loop_cases result
    · exact ⟨[], r, .stop r, Or.inr ⟨p, f, empty, rfl⟩⟩
    · exact ⟨_, _, .batch turns call some (.stop _), Or.inl rfl⟩
    · obtain ⟨us, q, later, last⟩ := ih looped
      exact ⟨_, q, .batch turns call some later, last⟩

variable {us : List SlotUse}

theorem Rounds.batches (rounds : Rounds source hash opt r us r') :
    r'.rs.batches = r.rs.batches + us.length := by
  induction rounds with
  | stop r => rfl
  | @batch r r' us p f turns call some later ih =>
    rw [ih, (round_ring opt r p f).2, List.length_cons, Nat.add_right_comm, Nat.add_assoc]

theorem Rounds.commands (rounds : Rounds source hash opt r us r') :
    ∃ more, r'.commands = r.commands ++ more := by
  induction rounds with
  | stop r => exact ⟨[], by simp⟩
  | @batch r r' us p f turns call some later ih =>
    obtain ⟨more, commands⟩ := ih
    obtain ⟨behind, round, _⟩ := round_commands opt r p f
    obtain ⟨between, ready, _⟩ :=
      (ready_continues (r.acquire.filled r.ring.next p f) f.batchMeta).commands
    rw [round, ready] at commands
    rw [commands]
    simp only [acquire, filled, issue, List.append_assoc]
    exact ⟨_, rfl⟩

theorem Rounds.served (rounds : Rounds source hash opt r us r') (kept : r.Kept none) :
    (∀ u ∈ us, u.Served r'.commands ∧ r.commands.length < u.fill) ∧
      us.Pairwise fun u v => u.aggregate < v.fill := by
  induction rounds with
  | stop r => exact ⟨by simp, .nil⟩
  | @batch r r' us p f turns call some later ih =>
    obtain ⟨served, ordered⟩ := ih (kept.round opt p f)
    obtain ⟨more, commands⟩ := later.commands
    have here := kept.served opt p f
    have first : r.commands.length < (r.use p f).fill := by simp [use, acquire, issue]
    have bound := here.place.aggregate_lt
    have behind : ∀ v ∈ us, (r.use p f).aggregate < v.fill := fun v hv =>
      bound.trans (served v hv).2
    refine ⟨fun u hu => ?_, .cons behind ordered⟩
    rcases List.mem_cons.mp hu with rfl | hu
    · rw [commands]
      exact ⟨here.append more, first⟩
    · refine ⟨(served u hu).1, first.trans ?_⟩
      have order := here.place.order
      have between := behind u hu
      unfold SlotUse.aggregate at between
      omega

theorem Rounds.slots (rounds : Rounds source hash opt r us r')
    (inside : r.ring.next < r.ring.nSlots) :
    ∀ j u, us[j]? = some u → u.slot = (r.ring.next + j) % r.ring.nSlots ∧
      u.stream = Fin.ofNat 2 (r.rs.batches + j) := by
  induction rounds with
  | stop r => simp
  | @batch r r' us p f turns call some later ih =>
    obtain ⟨ring, batches⟩ := round_ring opt r p f
    have positive : 0 < r.ring.nSlots := Nat.zero_lt_of_lt inside
    intro j u here
    cases j with
    | zero =>
      obtain rfl := Option.some.inj here
      exact ⟨(Nat.mod_eq_of_lt inside).symm, rfl⟩
    | succ j =>
      obtain ⟨slot, stream⟩ := ih (by rw [ring]; exact Nat.mod_lt _ positive) j u (by simpa using here)
      rw [ring] at slot
      rw [batches] at stream
      refine ⟨?_, by rw [stream, Nat.add_right_comm, Nat.add_assoc]⟩
      simp only [slot, Nat.mod_add_mod]
      congr 1
      omega

theorem Rounds.only (rounds : Rounds source hash opt r us r') {i : Nat} {c : GpuCmd} {slot : Nat}
    (behind : r.commands.length ≤ i) (here : r'.commands[i]? = some c)
    (uses : Does (DeviceOp.usesSlot slot) c) :
    ∃ u ∈ us, i = u.copyIn ∨ i = u.decode ∨ i = u.aggregate := by
  induction rounds with
  | stop r =>
    have := (List.getElem?_eq_some_iff.mp here).1
    omega
  | @batch r r' us p f turns call some later ih =>
    rcases Nat.lt_or_ge i (r.round opt p f).commands.length with now | then_
    · refine ⟨_, List.mem_cons_self, ?_⟩
      obtain ⟨more, commands⟩ := later.commands
      obtain ⟨after, round, quiet⟩ := round_commands opt r p f
      obtain ⟨between, ready, silent⟩ :=
        (ready_continues (r.acquire.filled r.ring.next p f) f.batchMeta).commands
      have filled : (r.acquire.filled r.ring.next p f).commands = r.commands ++
          [.eventSync (.done r.ring.next), .host (.fill r.ring.next f.dst f.batchMeta.nMsgs)] := by
        simp [acquire, GpuRun.filled, issue]
      rw [commands, List.getElem?_append_left now, round, List.append_assoc] at here
      rcases Nat.lt_or_ge i (r.use p f).copyIn with front | back
      · -- the slot is acquired and filled, and the stream waits
        rw [List.getElem?_append_left front, ready, filled, List.append_assoc,
          List.getElem?_append_right behind] at here
        rcases List.mem_append.mp (List.mem_of_getElem? here) with own | wait
        · obtain ⟨a, does, usesSlot⟩ := uses
          rcases List.mem_pair.mp own with rfl | rfl
          · cases does
          · obtain rfl := Option.some.inj does
            exact usesSlot.elim
        · exact absurd uses (silent c wait slot)
      · rw [List.getElem?_append_right back] at here
        obtain ⟨j, rfl⟩ := Nat.exists_eq_add_of_le back
        have at_j : ((r.acquire.filled r.ring.next p f).ready f.batchMeta).commands.length =
            (r.use p f).copyIn := rfl
        rw [at_j, Nat.add_sub_cancel_left] at here
        rcases j with _ | _ | _ | _ | j
        · exact Or.inl rfl
        · exact Or.inr (Or.inl rfl)
        · exact Or.inr (Or.inr rfl)
        · obtain rfl := Option.some.inj here
          obtain ⟨a, does, _⟩ := uses
          cases does
        · exact absurd uses (quiet c (List.mem_of_getElem? here) slot)
    · obtain ⟨u, hu, place⟩ := ih then_ here
      exact ⟨u, List.mem_cons_of_mem _ hu, place⟩

theorem tail_commands (last : r' = q ∨ ∃ p f, f.batchMeta.nMsgs = 0 ∧
      r' = q.acquire.filled q.ring.next p f) :
    ∃ more, r'.finish.commands = q.commands ++ more ∧
      ∀ c ∈ more, ∀ slot, ¬Does (DeviceOp.usesSlot slot) c := by
  obtain ⟨more, commands, quiet⟩ := (Continues.finish r').commands
  rcases last with rfl | ⟨p, f, _, rfl⟩
  · exact ⟨more, commands, quiet⟩
  · have acquired := Continues.idle (c := .eventSync (.done q.ring.next)) rfl q
    obtain ⟨between, filled, silent⟩ := (acquired.trans (.operation
      (c := .host (.fill q.ring.next f.dst f.batchMeta.nMsgs)) rfl (fun _ => id) _)).commands
    refine ⟨between ++ more, ?_, fun c hc => (List.mem_append.mp hc).elim (silent c) (quiet c)⟩
    rw [commands, ← List.append_assoc, ← filled]
    rfl

end GpuRun

theorem GpuRun.Rounds.uses {k : LogCapacity} {σ : Type} {source : ByteSource σ}
    {hash : UInt64 → UInt64} {opt : Options} {nSlots : Nat} {p : ItchParser σ} {q : GpuRun k σ}
    {us : List SlotUse} (rounds : Rounds source hash opt (.start k nSlots p) us q)
    {more : GpuProgram} (quiet : ∀ c ∈ more, ∀ slot, ¬Does (DeviceOp.usesSlot slot) c) {i slot : Nat}
    {c : GpuCmd} (here : (q.commands ++ more)[i]? = some c)
    (uses : Does (DeviceOp.usesSlot slot) c) :
    ∃ u ∈ us, i = u.copyIn ∨ i = u.decode ∨ i = u.aggregate := by
  have inside : i < q.commands.length := by
    by_contra outside
    rw [List.getElem?_append_right (Nat.le_of_not_lt outside)] at here
    exact quiet _ (List.mem_of_getElem? here) slot uses
  rw [List.getElem?_append_left inside] at here
  -- the reset and its synchronization, in front of the first round, use no slot
  have behind : (GpuRun.start k nSlots p).commands.length ≤ i := by
    by_contra early
    obtain ⟨between, first⟩ := rounds.commands
    rw [first, List.getElem?_append_left (Nat.lt_of_not_le early)] at here
    obtain ⟨a, does, usesSlot⟩ := uses
    rcases List.mem_pair.mp (List.mem_of_getElem? here) with rfl | rfl
    · obtain rfl := Option.some.inj does
      exact usesSlot.elim
    · cases does
  exact rounds.only behind here uses

/-- The slots of the ring are not overwritten while they are in use. In every execution,
`fill` starts on a slot when the copy out of it for the batch one round before is done,
copy and decode when the aggregate kernel of that batch is; and an aggregate kernel finds
in the slot, as long as it runs, the messages that `fill` wrote for its batch. -/
theorem slots_exclusive {k : LogCapacity} {σ : Type} {source : ByteSource σ}
    {hash : UInt64 → UInt64} {opt : Options} {turns loops nSlots : Nat} (positive : 0 < nSlots)
    {p : ItchParser σ} {g : GpuRun k σ}
    (result : GpuRun.loop source hash opt turns loops (.start k nSlots p) = some g)
    (m : DeviceMemory) :
    ∃ us,
      (∃ q, GpuRun.Rounds source hash opt (.start k nSlots p) us q ∧
        (g = q ∨ ∃ p f, f.batchMeta.nMsgs = 0 ∧ g = q.acquire.filled q.ring.next p f)) ∧
      (∀ j u, us[j]? = some u → u.slot = j % nSlots ∧ u.stream = Fin.ofNat 2 j ∧
        u.At g.finish.commands) ∧
      (∀ i s slot n, g.finish.commands[i]? = some (.launch s (.aggregate slot n)) →
        ∃ u ∈ us, i = u.aggregate) ∧
      ∀ s, Relation.ReflTransGen (Step g.finish.commands)
          (.start deviceOps g.finish.commands m) s →
        (∀ j u v, us[j]? = some u → us[j + nSlots]? = some v →
          (Enabled g.finish.commands s.fin v.fill → u.copyIn ∈ s.fin) ∧
          (Enabled g.finish.commands s.fin v.copyIn → u.aggregate ∈ s.fin) ∧
          (Enabled g.finish.commands s.fin v.decode → u.aggregate ∈ s.fin)) ∧
        ∀ u ∈ us, Enabled g.finish.commands s.fin u.aggregate → u.aggregate ∉ s.fin →
          ∀ idx < u.nMsgs,
            Holds s.mem u.slot idx (decodeSlot (shift u.batch (idx * slotBytes))) := by
  have start := GpuRun.start_kept k nSlots p
  have synced := (start.loop result).finish
  obtain ⟨us, q, rounds, last⟩ := GpuRun.loop_rounds result
  obtain ⟨more, commands, quiet⟩ := GpuRun.tail_commands last
  obtain ⟨served, ordered⟩ := rounds.served start
  have slots := rounds.slots positive
  have serves : ∀ u ∈ us, u.Served g.finish.commands := fun u hu => by
    rw [commands]
    exact (served u hu).1.append more
  refine ⟨us, ⟨q, rounds, last⟩, fun j u here => ?_, fun i s slot n here => ?_, fun s steps => ?_⟩
  · obtain ⟨slot, stream⟩ := slots j u here
    refine ⟨by simpa [GpuRun.start] using slot, by simpa [GpuRun.start] using stream, ?_⟩
    exact (serves u (List.mem_of_getElem? here)).place
  · have whole := here
    rw [commands] at here
    obtain ⟨u, hu, place⟩ := rounds.uses quiet here ⟨_, rfl, rfl⟩
    exact ⟨u, hu, (serves u hu).place.aggregate_eq whole place⟩
  · refine ⟨fun j u v here there => ?_, fun u hu enabled unfinished idx inside =>
      (serves u hu).reads synced steps enabled unfinished inside⟩
    have same : u.slot = v.slot := by
      rw [(slots j u here).1, (slots _ v there).1]
      simp [GpuRun.start]
    have before : u.aggregate < v.fill := by
      obtain ⟨inside_u, rfl⟩ := List.getElem?_eq_some_iff.mp here
      obtain ⟨inside_v, rfl⟩ := List.getElem?_eq_some_iff.mp there
      exact List.pairwise_iff_getElem.mp ordered _ _ inside_u inside_v (by omega)
    obtain ⟨copied, copy, decode⟩ := (serves u (List.mem_of_getElem? here)).ordered
      (serves v (List.mem_of_getElem? there)) same before
    have closed := (Sound.steps synced steps).closed
    exact ⟨fun enabled => done_before closed enabled copied,
      fun enabled => done_before closed enabled copy,
      fun enabled => done_before closed enabled decode⟩

/-- Two batches through a ring of a single slot: the second waits for the first. -/
theorem slots_exclusive_reopened :
    ∃ g, ∃ u v : SlotUse, GpuRun.loop memSource OrderHash.mix .default 8 8
        (.start 24 1 (.start reopened ItchParser.defaultBufBytes)) = some g ∧
      (∀ w ∈ [u, v], w.slot = 0 ∧ w.At g.finish.commands) ∧
      ∀ s, Relation.ReflTransGen (Step g.finish.commands)
          (.start deviceOps g.finish.commands DeviceMemory.zeroed) s →
        (Enabled g.finish.commands s.fin v.fill → u.copyIn ∈ s.fin) ∧
        (Enabled g.finish.commands s.fin v.copyIn → u.aggregate ∈ s.fin) ∧
        ∀ w ∈ [u, v], Enabled g.finish.commands s.fin w.aggregate → w.aggregate ∉ s.fin →
          ∀ idx < w.nMsgs,
            Holds s.mem w.slot idx (decodeSlot (shift w.batch (idx * slotBytes))) := by
  have ran : (GpuRun.loop memSource OrderHash.mix .default 8 8
      (.start 24 1 (.start reopened ItchParser.defaultBufBytes))).map (fun g => g.rs.batches) =
        some 2 := by decide +kernel
  obtain ⟨g, gpu, count⟩ := Option.map_eq_some_iff.mp ran
  obtain ⟨us, ⟨q, rounds, last⟩, places, _, exclusive⟩ :=
    slots_exclusive (by decide : 0 < 1) gpu DeviceMemory.zeroed
  have same : g.rs = q.rs := by
    rcases last with rfl | ⟨p, f, _, rfl⟩ <;> rfl
  have two : us.length = 2 := by
    rw [same, rounds.batches] at count
    exact (Nat.zero_add _).symm.trans count
  obtain ⟨u, v, rfl⟩ := List.length_eq_two.mp two
  refine ⟨g, u, v, gpu, fun w mem => ?_, fun s steps => ?_⟩
  · obtain ⟨j, here⟩ := List.getElem?_of_mem mem
    obtain ⟨slot, _, place⟩ := places j w here
    exact ⟨slot.trans (Nat.mod_one j), place⟩
  · obtain ⟨waits, reads⟩ := exclusive s steps
    obtain ⟨copied, aggregated, _⟩ := waits 0 u v rfl rfl
    exact ⟨copied, aggregated, reads⟩

end ItchAggregator
