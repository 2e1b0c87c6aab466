import ItchAggregator.GpuReports

/-! What no execution of the GPU pipeline does, whatever its streams leave open: two
threads that can both go on do not race, no thread leaves the buffers that have been
allocated, and the host never waits for what cannot come. -/

namespace ItchAggregator

open BatchAssembler Threads
open StreamMachine (Step Complete Active Sound Cmd)

/-- The locations inside the buffers of `nSlots` ring slots and the arrays of all
symbols; what the host prints is not memory of the pipeline. -/
def allocated (nSlots : Nat) : Set Loc := fun l =>
  match l with
  | .hRaw slot i | .dRaw slot i => slot < nSlots ∧ i < batchMsgs * slotBytes
  | .soa _ slot idx => slot < nSlots ∧ idx < batchMsgs
  | .acc64 _ _ | .acc32 _ _ | .dSnap _ | .hSnap _ _ | .out _ _ => True

/-! The threads of an operation on a slot of the ring stay in the slot's buffers. -/

theorem loadRaw_stays {A : Set Loc} {slot base : Nat} {next : Ptr → ThreadCode}
    (rest : ∀ raw, (next raw).Stays A) :
    ∀ (n : Nat) (raw : Ptr), (∀ i < n, Loc.dRaw slot (base + i) ∈ A) →
      (loadRaw slot base n raw next).Stays A := by
  intro n
  induction n with
  | zero => exact fun raw _ => rest raw
  | succ n ih =>
    intro raw inside
    exact ⟨inside n (Nat.lt_succ_self n),
      fun b => ih _ fun i hi => inside i (Nat.lt_succ_of_lt hi)⟩

variable {nSlots slot idx n : Nat}

theorem decodeKernel_stays (ring : slot < nSlots) (inside : idx < batchMsgs) :
    (decodeKernel slot idx).Stays (allocated nSlots) := by
  refine loadRaw_stays (fun raw => ?_) _ _ fun i hi => ⟨ring, ?_⟩
  · have row : ∀ f, Loc.soa f slot idx ∈ allocated nSlots := fun _ => ⟨ring, inside⟩
    exact ⟨row _, row _, row _, row _, row _, row _, trivial⟩
  · have whole : (idx + 1) * slotBytes ≤ batchMsgs * slotBytes := Nat.mul_le_mul_right _ inside
    rw [Nat.succ_mul] at whole
    omega

theorem aggregateSwitch_stays (sym : Sym) (type side : UInt8) (price : UInt32) (qty : UInt64) :
    (aggregateSwitch sym type side price qty).Stays (allocated nSlots) := by
  unfold aggregateSwitch
  split
  all_goals repeat' split
  all_goals repeat' first | exact trivial | constructor

theorem aggregateKernel_stays (ring : slot < nSlots) (inside : idx < batchMsgs) :
    (aggregateKernel slot idx).Stays (allocated nSlots) := by
  have row : ∀ f, Loc.soa f slot idx ∈ allocated nSlots := fun _ => ⟨ring, inside⟩
  refine ⟨row _, fun type => ⟨row _, fun side => ⟨row _, fun locate => ⟨row _, fun price =>
    ⟨row _, fun qty => ?_⟩⟩⟩⟩⟩
  dsimp only
  split
  · exact aggregateSwitch_stays _ type side price qty
  · exact trivial

namespace DeviceOp

def Fits (nSlots : Nat) : DeviceOp → Prop
  | fill slot _ n | copyIn slot n | decode slot n | aggregate slot n =>
    slot < nSlots ∧ n ≤ batchMsgs
  | _ => True

theorem stays {op : DeviceOp} (fits : op.Fits nSlots) :
    ∀ t ∈ op.tasks, t.code.Stays (allocated nSlots) := by
  have byte {i n : Nat} (mem : i ∈ List.range (n * slotBytes)) (le : n ≤ batchMsgs) :
      i < batchMsgs * slotBytes :=
    (List.mem_range.mp mem).trans_le (Nat.mul_le_mul_right _ le)
  have message {i n : Nat} (mem : i ∈ List.range n) (le : n ≤ batchMsgs) : i < batchMsgs :=
    (List.mem_range.mp mem).trans_le le
  intro t ht
  cases op with
  | fill slot batch n =>
    obtain ⟨i, mem, rfl⟩ := List.mem_map.mp ht
    exact ⟨⟨fits.1, byte mem fits.2⟩, trivial⟩
  | copyIn slot n =>
    obtain ⟨i, mem, rfl⟩ := List.mem_map.mp ht
    exact ⟨⟨fits.1, byte mem fits.2⟩, fun _ => ⟨⟨fits.1, byte mem fits.2⟩, trivial⟩⟩
  | decode slot n =>
    obtain ⟨i, mem, rfl⟩ := List.mem_map.mp ht
    exact decodeKernel_stays fits.1 (message mem fits.2)
  | aggregate slot n =>
    obtain ⟨i, mem, rfl⟩ := List.mem_map.mp ht
    exact aggregateKernel_stays fits.1 (message mem fits.2)
  | reset | snapshot | copyOut | print =>
    obtain ⟨sym, _, rfl⟩ := List.mem_map.mp ht
    repeat' first | exact trivial | intro _ | constructor

end DeviceOp

/-! The commands of a run. -/

namespace BatchAssembler

variable {k : LogCapacity} {σ : Type} {source : ByteSource σ} {hash : UInt64 → UInt64}

theorem onMessage_nMsgs (f : Filling k) (m : Msg) :
    (onMessage hash f m).2.batchMeta.nMsgs ≤ f.batchMeta.nMsgs + 1 := by
  by_cases opens : m.opens = true
  · by_cases empty : f.batchMeta.nMsgs = 0
    · simp [onMessage_opens_empty opens empty]
    · simp [onMessage_opens_break opens empty]
  · by_cases ships : m.ships = true
    · simp [onMessage_ships ships, Filling.ship]
    · simp [onMessage_passes (Bool.eq_false_iff.mpr opens) (Bool.eq_false_iff.mpr ships)]

theorem fillLoop_nMsgs {turns : Nat} {p q : ItchParser σ} {f f' : Filling k}
    (le : f.batchMeta.nMsgs ≤ batchMsgs)
    (result : fillLoop source hash turns p f = some (q, f')) : f'.batchMeta.nMsgs ≤ batchMsgs := by
  induction turns generalizing p f with
  | zero => cases result
  | succ turns ih =>
    rcases fillLoop_cases result with ⟨_, _, rfl⟩ | ⟨room, ⟨_, rfl⟩ | ⟨m, p', _, turn⟩⟩
    · exact le
    · exact le
    · have more : (onMessage hash f m).2.batchMeta.nMsgs ≤ batchMsgs :=
        (onMessage_nMsgs f m).trans room
      rcases turn with ⟨_, _, rfl⟩ | ⟨_, later⟩
      · exact more
      · exact ih more later

end BatchAssembler

namespace GpuRun

variable {k : LogCapacity} {σ : Type} {r : GpuRun k σ} {s : GpuStream}

structure Within (nSlots : Nat) (r : GpuRun k σ) : Prop where
  ring : r.ring.nSlots = nSlots
  next : r.ring.next < nSlots
  commands : ∀ c ∈ r.commands, ∀ op, c.op? = some op → op.Fits nSlots

namespace Within

theorem start (positive : 0 < nSlots) (p : ItchParser σ) : (start k nSlots p).Within nSlots where
  ring := rfl
  next := positive
  commands := by
    intro c mem op does
    simp only [GpuRun.start, List.mem_cons, List.not_mem_nil, or_false] at mem
    rcases mem with rfl | rfl
    · obtain rfl := Option.some.inj does
      exact trivial
    · cases does

variable (within : r.Within nSlots)
include within

theorem issue {c : GpuCmd} (fits : ∀ op, c.op? = some op → op.Fits nSlots) :
    (r.issue c).Within nSlots where
  ring := within.ring
  next := within.next
  commands := by
    intro d mem
    rcases List.mem_append.mp mem with before | last
    · exact within.commands d before
    · rw [List.mem_singleton.mp last]
      exact fits

theorem idle {c : GpuCmd} (none : c.op? = none) : (r.issue c).Within nSlots :=
  within.issue fun op does => by simp [none] at does

theorem operation {c : GpuCmd} {op : DeviceOp} (does : c.op? = some op) (fits : op.Fits nSlots) :
    (r.issue c).Within nSlots :=
  within.issue fun _ same => Option.some.inj (does.symm.trans same) ▸ fits

theorem congr {q : GpuRun k σ} (ring : q.ring = r.ring) (commands : q.commands = r.commands) :
    q.Within nSlots where
  ring := ring ▸ within.ring
  next := ring ▸ within.next
  commands := commands ▸ within.commands

theorem acquire : r.acquire.Within nSlots where
  ring := within.ring
  next := by
    have positive : 0 < r.ring.nSlots := within.ring ▸ Nat.zero_lt_of_lt within.next
    exact (Nat.mod_lt (r.ring.next + 1) positive).trans_eq within.ring
  commands := (within.idle (c := .eventSync (.done r.ring.next)) rfl).commands

theorem filled {slot : Nat} (ring : slot < nSlots) (p : ItchParser σ) {f : Filling k}
    (le : f.batchMeta.nMsgs ≤ batchMsgs) : (r.filled slot p f).Within nSlots :=
  (within.operation (c := .host (.fill slot f.dst f.batchMeta.nMsgs)) rfl ⟨ring, le⟩).congr rfl rfl

theorem waitBarrier (s : GpuStream) : (r.waitBarrier s).Within nSlots := by
  unfold GpuRun.waitBarrier
  split
  · exact within.idle rfl
  · exact within

theorem waitOther (s : GpuStream) : (r.waitOther s).Within nSlots := by
  unfold GpuRun.waitOther
  split
  · exact within.idle rfl
  · exact within

theorem reset (s : GpuStream) : (r.reset s).Within nSlots :=
  (((within.waitOther s).operation (c := .launch s .reset) rfl trivial).idle
    (c := .record s .barrier) rfl).congr rfl rfl

theorem aggregate {slot : Nat} (ring : slot < nSlots) {b : BatchMeta} (le : b.nMsgs ≤ batchMsgs)
    (s : GpuStream) : (r.aggregate s slot b).Within nSlots := by
  have copied := within.operation (c := .launch s (.copyIn slot b.nMsgs)) rfl ⟨ring, le⟩
  have decoded := copied.operation (c := .launch s (.decode slot b.nMsgs)) rfl ⟨ring, le⟩
  have added := decoded.operation (c := .launch s (.aggregate slot b.nMsgs)) rfl ⟨ring, le⟩
  exact (added.idle (c := .record s (.done slot)) rfl).congr rfl rfl

theorem print (b : Fin 2) (ts : UInt64) : (r.print b ts).Within nSlots :=
  (within.operation (c := .host (.print r.printed.length b)) rfl trivial).congr rfl rfl

theorem drain : r.drain.Within nSlots := by
  unfold GpuRun.drain
  split
  · exact (within.idle rfl).print _ _
  · exact within

theorem snapshot (s : GpuStream) : (r.snapshot s).Within nSlots := by
  have drained := (within.waitOther s).drain
  have taken := drained.operation (c := .launch s .snapshot) rfl trivial
  have barred := taken.idle (c := .record s .barrier) rfl
  have copied := barred.operation
    (c := .launch s (.copyOut (if (r.waitOther s).pending = some 0 then 1 else 0))) rfl trivial
  exact (copied.idle rfl).congr rfl rfl

theorem onBatch (opt : Options) {slot : Nat} (ring : slot < nSlots) {b : BatchMeta}
    (le : b.nMsgs ≤ batchMsgs) : (r.onBatch opt slot b).Within nSlots := by
  unfold GpuRun.onBatch
  have behind := within.waitBarrier r.stream
  have fresh : (if b.resetVwap then (r.waitBarrier r.stream).reset r.stream
      else r.waitBarrier r.stream).Within nSlots := by
    split
    · exact behind.reset r.stream
    · exact behind
  dsimp only
  generalize (if b.resetVwap then (r.waitBarrier r.stream).reset r.stream
    else r.waitBarrier r.stream) = q at fresh ⊢
  have added := fresh.aggregate ring le r.stream
  split
  · exact added.snapshot r.stream
  · exact added

theorem loop {source : ByteSource σ} {hash : UInt64 → UInt64} {opt : Options} {turns loops : Nat}
    {r' : GpuRun k σ} (result : loop source hash opt turns loops r = some r') :
    r'.Within nSlots := by
  induction loops generalizing r with
  | zero => cases result
  | succ loops ih =>
    obtain ⟨p, f, call, turn⟩ := loop_cases result
    have le := fillLoop_nMsgs (Nat.zero_le batchMsgs) call
    have filled := within.acquire.filled within.next p le
    rcases turn with ⟨_, rfl⟩ | ⟨_, ⟨_, rfl⟩ | ⟨_, later⟩⟩
    · exact filled
    · exact filled.onBatch opt within.next le
    · exact ih (filled.onBatch opt within.next le) later

theorem finish : r.finish.Within nSlots := by
  have drained : r.drained.Within nSlots := (within.idle rfl).idle rfl
  have printed : r.drained.printPending.Within nSlots := by
    unfold GpuRun.printPending
    split
    · exact drained.print _ _
    · exact drained
  unfold GpuRun.finish
  generalize r.drained.printPending = q at printed ⊢
  have taken := printed.operation (c := .launch 0 .snapshot) rfl trivial
  have copied := taken.operation (c := .launch 0 (.copyOut 0)) rfl trivial
  have counted := (copied.idle (c := .streamSync 0) rfl).congr
    (q := { ((q.issue (.launch 0 .snapshot)).issue (.launch 0 (.copyOut 0))).issue (.streamSync 0) with
      rs := { q.rs with snapshots := q.rs.snapshots + 1 } }) rfl rfl
  exact counted.print 0 q.lastTs

end Within

theorem runGpu_within {source : ByteSource σ} {opt : Options} {turns : Nat} {init : σ}
    {g : GpuRun 24 σ} (result : runGpu source opt turns init = some g) : g.Within 4 := by
  obtain ⟨r, looped, rfl⟩ := Option.map_eq_some_iff.mp result
  exact ((Within.start (by decide) _).loop looped).finish

end GpuRun

variable {σ : Type} {source : ByteSource σ} {left : σ → List UInt8}

/-- What holds of the states that an execution of the commands `prog` goes through: no
two threads that can go on race, none of them stays outside what is allocated, and the
execution can be brought to its end. -/
structure Safe (prog : GpuProgram) (nSlots : Nat) (m : DeviceMemory)
    (s : StreamMachine.State atomics) : Prop where
  raceFree : s.pool.Pairwise fun x y => Active prog s x → Active prog s y →
    ¬Code.Race atomics x.2.code y.2.code
  inside : ∀ x ∈ s.pool, x.2.code.Stays (allocated nSlots)
  ends : ∃ final, Relation.ReflTransGen (Step prog) s final ∧ Complete deviceOps prog m final

/-- Every state that an execution of `run_gpu` can be in is safe, with the ring of four
slots that is allocated. -/
theorem runGpu_safe (hsrc : source.Delivers left) (opt : Options) (s : σ) (m : DeviceMemory) :
    (∃ turns g, runGpu source opt turns s = some g) ∧
    ∀ turns g, runGpu source opt turns s = some g → ∀ state,
      Relation.ReflTransGen (Step g.commands) (.start deviceOps g.commands m) state →
        Safe g.commands 4 m state := by
  constructor
  · obtain ⟨turns, r, result⟩ := runCpu_returns hsrc s opt
    obtain ⟨r', looped, _⟩ := Option.map_eq_some_iff.mp result
    obtain ⟨g, gpu, _⟩ := (GpuRun.Twin.start m _ 4).loop looped
    exact ⟨turns, g.finish, Option.map_eq_some_iff.mpr ⟨g, gpu, rfl⟩⟩
  · intro turns g result state steps
    have within := GpuRun.runGpu_within result
    have sound := Sound.steps (GpuRun.runGpu_synced result) steps
    refine ⟨sound.race_free, StreamMachine.steps_stays (fun c mem t ht => ?_) steps,
      StreamMachine.exists_complete_from steps⟩
    cases op : c.op? with
    | none => simp [StreamMachine.Operations.cmdTasks, op] at ht
    | some a =>
      rw [StreamMachine.Operations.cmdTasks, op] at ht
      exact DeviceOp.stays (within.commands c mem a op) t ht

/-- Two batches, a market open between them and three snapshots. -/
theorem runGpu_safe_reopened :
    ∃ g, runGpu memSource ⟨1, 0, by decide⟩ 8 reopened = some g ∧ g.rs = ⟨2, 2, 3⟩ ∧ ∀ state,
      Relation.ReflTransGen (Step g.commands)
          (.start deviceOps g.commands DeviceMemory.zeroed) state →
        Safe g.commands 4 DeviceMemory.zeroed state := by
  have ran : (runGpu memSource ⟨1, 0, by decide⟩ 8 reopened).map (fun g =>
      (g.rs.batches, g.rs.shippedMsgs, g.rs.snapshots)) = some (2, 2, 3) := by decide +kernel
  obtain ⟨g, result, counters⟩ := Option.map_eq_some_iff.mp ran
  obtain ⟨_, safe⟩ :=
    runGpu_safe memSource_delivers ⟨1, 0, by decide⟩ reopened DeviceMemory.zeroed
  have fields : g.rs = ⟨g.rs.batches, g.rs.shippedMsgs, g.rs.snapshots⟩ := rfl
  simp only [Prod.mk.injEq] at counters
  rw [counters.1, counters.2.1, counters.2.2] at fields
  exact ⟨g, result, fields, safe 8 g result⟩

end ItchAggregator
