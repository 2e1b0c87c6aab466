import ItchAggregator.DeviceOps
import ItchAggregator.Tally

/-! What each kernel thread does when it runs by itself: decode writes the fields of
its slot, aggregate does to the accumulators what the CPU reference does, reset and
snapshot do it to one symbol. -/

namespace ItchAggregator

open Threads

def accOf (m : DeviceMemory) : HostAccum where
  u64 := fun a sym => m (.acc64 a sym)
  u32 := fun a sym => m (.acc32 a sym)

@[simp] theorem accOf_u64 (m : DeviceMemory) (a : Array64) (sym : Sym) :
    (accOf m).u64 a sym = m (.acc64 a sym) := rfl

@[simp] theorem accOf_u32 (m : DeviceMemory) (a : Array32) (sym : Sym) :
    (accOf m).u32 a sym = m (.acc32 a sym) := rfl

section Updates

variable (m : DeviceMemory)

@[simp] theorem accOf_acc64 (a : Array64) (sym : Sym) (v : UInt64) :
    accOf (Function.update m (.acc64 a sym) v) = (accOf m).set64 a sym v := by
  apply HostAccum.ext
  · funext b s
    rw [HostAccum.set64_u64]
    by_cases here : b = a ∧ s = sym
    · obtain ⟨rfl, rfl⟩ := here
      simp [accOf]
    · rw [if_neg here]
      have other : Loc.acc64 b s ≠ Loc.acc64 a sym := by
        rintro ⟨⟩
        exact here ⟨rfl, rfl⟩
      exact Function.update_of_ne other _ _
  · rfl

@[simp] theorem accOf_acc32 (a : Array32) (sym : Sym) (v : UInt32) :
    accOf (Function.update m (.acc32 a sym) v) = (accOf m).set32 a sym v := by
  apply HostAccum.ext
  · rfl
  · funext b s
    rw [HostAccum.set32_u32]
    by_cases here : b = a ∧ s = sym
    · obtain ⟨rfl, rfl⟩ := here
      simp [accOf]
    · rw [if_neg here]
      have other : Loc.acc32 b s ≠ Loc.acc32 a sym := by
        rintro ⟨⟩
        exact here ⟨rfl, rfl⟩
      exact Function.update_of_ne other _ _

theorem accOf_congr {m m' : DeviceMemory} (u64 : ∀ a sym, m (.acc64 a sym) = m' (.acc64 a sym))
    (u32 : ∀ a sym, m (.acc32 a sym) = m' (.acc32 a sym)) : accOf m = accOf m' := by
  simp only [accOf, u64, u32]

end Updates

/-! Aggregation. -/

theorem HostAccum.set32_self (acc : HostAccum) (a : Array32) (sym : Sym) :
    acc.set32 a sym (acc.u32 a sym) = acc := by
  ext b s
  · rfl
  · rw [set32_u32]
    split
    · rename_i both
      rw [both.1, both.2]
    · rfl

theorem HostAccum.set32_atomicMax (acc : HostAccum) (sym : Sym) (v : UInt32) :
    acc.set32 .winBid sym (atomicMax v (acc.u32 .winBid sym)) =
      if acc.u32 .winBid sym < v then acc.set32 .winBid sym v else acc := by
  unfold atomicMax
  split
  · rfl
  · exact acc.set32_self .winBid sym

theorem HostAccum.set32_atomicMin (acc : HostAccum) (sym : Sym) (v : UInt32) :
    acc.set32 .winAsk sym (atomicMin v (acc.u32 .winAsk sym)) =
      if v < acc.u32 .winAsk sym then acc.set32 .winAsk sym v else acc := by
  unfold atomicMin
  split
  · rfl
  · exact acc.set32_self .winAsk sym

theorem run_atomAdd64 (a : Array64) (sym : Sym) (v : UInt64) (next : ThreadCode) (m : DeviceMemory) :
    ∃ m', (atomAdd64 a sym v next).run m = next.run m' ∧ accOf m' = (accOf m).add64 a sym v :=
  ⟨_, rfl, accOf_acc64 m a sym _⟩

theorem run_atomicAdd (a : Array32) (sym : Sym) (next : ThreadCode) (m : DeviceMemory) :
    ∃ m', (atomicAdd a sym 1 next).run m = next.run m' ∧ accOf m' = (accOf m).count a sym :=
  ⟨_, rfl, accOf_acc32 m a sym _⟩

theorem run_traded (sym : Sym) (price : UInt32) (qty : UInt64) (next : ThreadCode)
    (m : DeviceMemory) :
    ∃ m', (atomAdd64 .vwapNum sym (price.toUInt64 * qty) <| atomAdd64 .vwapDen sym qty <|
        atomicAdd .tradeCount sym 1 next).run m = next.run m' ∧
      accOf m' = (((accOf m).add64 .vwapNum sym (price.toUInt64 * qty)).add64 .vwapDen sym
        qty).count .tradeCount sym := by
  obtain ⟨m₁, run₁, acc₁⟩ := run_atomAdd64 .vwapNum sym (price.toUInt64 * qty)
    (atomAdd64 .vwapDen sym qty <| atomicAdd .tradeCount sym 1 next) m
  obtain ⟨m₂, run₂, acc₂⟩ := run_atomAdd64 .vwapDen sym qty (atomicAdd .tradeCount sym 1 next) m₁
  obtain ⟨m₃, run₃, acc₃⟩ := run_atomicAdd .tradeCount sym next m₂
  exact ⟨m₃, run₁.trans (run₂.trans run₃), by rw [acc₃, acc₂, acc₁]⟩

theorem run_quote (sym : Sym) (side : UInt8) (price : UInt32) (m : DeviceMemory) :
    accOf ((atomicAdd .addCount sym 1 <|
      if side = 'B'.toUInt8 then .update (.acc32 .winBid sym) (atomicMax price) .done
      else if side = 'S'.toUInt8 then .update (.acc32 .winAsk sym) (atomicMin price) .done
      else .done : ThreadCode).run m) = (accOf m).quote sym side price := by
  obtain ⟨m', run, counted⟩ := run_atomicAdd .addCount sym
    (if side = 'B'.toUInt8 then .update (.acc32 .winBid sym) (atomicMax price) .done
      else if side = 'S'.toUInt8 then .update (.acc32 .winAsk sym) (atomicMin price) .done
      else .done) m
  rw [run, HostAccum.quote, ← counted]
  by_cases bid : side = 'B'.toUInt8
  · rw [if_pos bid, if_pos bid, ← HostAccum.set32_atomicMax]
    exact accOf_acc32 m' .winBid sym _
  · rw [if_neg bid, if_neg bid]
    by_cases ask : side = 'S'.toUInt8
    · rw [if_pos ask, if_pos ask, ← HostAccum.set32_atomicMin]
      exact accOf_acc32 m' .winAsk sym _
    · rw [if_neg ask, if_neg ask]
      rfl

/-- The kernel's switch on decoded fields is the reference's on the slot. -/
theorem run_aggregateSwitch (slot : Ptr) (m : DeviceMemory)
    (h : (decodeSlot slot).locate.toNat < maxSymbols) :
    accOf ((aggregateSwitch ⟨_, h⟩ (decodeSlot slot).type (decodeSlot slot).side
      (decodeSlot slot).price (decodeSlot slot).qty).run m) = cpuAggregateSlot slot (accOf m) := by
  have inside : (loadBe16 (shift slot Ofs.locate)).toNat < maxSymbols := h
  simp only [cpuAggregateSlot, dif_pos inside, aggregateSwitch, decodeSlot]
  generalize (⟨_, inside⟩ : Sym) = sym
  cases kind : msgType? (slot Ofs.type) with
  | none => rfl
  | some t =>
    cases t with
    | systemEvent | stockDir | orderDelete => rfl
    | addOrder | addOrderMpid | orderReplace =>
      simp only [decodeSwitch, kind]
      exact run_quote sym _ _ m
    | orderCancel =>
      simp only [decodeSwitch, kind]
      exact accOf_acc64 m .cancelShares sym _
    | trade =>
      simp only [decodeSwitch, kind]
      by_cases zero : (loadBe32 (shift slot Ofs.tradeShares)).toUInt64 = 0
      · rw [if_pos zero, if_pos zero]
        rfl
      · rw [if_neg zero, if_neg zero]
        obtain ⟨m', run, traded⟩ := run_traded sym (loadBe32 (shift slot Ofs.tradePrice))
          (loadBe32 (shift slot Ofs.tradeShares)).toUInt64 _ m
        rw [run, ← traded]
        split
        · exact accOf_acc64 m' .buyVol sym _
        · split
          · exact accOf_acc64 m' .sellVol sym _
          · rfl
    | tradeCross =>
      simp only [decodeSwitch, kind]
      by_cases zero : loadBe64 (shift slot Ofs.crossShares64) = 0
      · rw [if_pos zero, if_pos zero]
        rfl
      · rw [if_neg zero, if_neg zero]
        obtain ⟨m', run, traded⟩ := run_traded sym (loadBe32 (shift slot Ofs.crossPrice))
          (loadBe64 (shift slot Ofs.crossShares64)) .done m
        rw [run, ← traded]
        rfl

structure Holds (m : DeviceMemory) (slot idx : Nat) (d : Decoded) : Prop where
  type : m (.soa .type slot idx) = d.type
  side : m (.soa .side slot idx) = d.side
  locate : m (.soa .locate slot idx) = d.locate
  price : m (.soa .price slot idx) = d.price
  qty : m (.soa .qty slot idx) = d.qty
  ts : m (.soa .ts slot idx) = d.ts

theorem run_aggregateKernel {m : DeviceMemory} {slot idx : Nat} {raw : Ptr}
    (holds : Holds m slot idx (decodeSlot raw)) :
    accOf ((aggregateKernel slot idx).run m) = cpuAggregateSlot raw (accOf m) := by
  simp only [aggregateKernel, Code.run, holds.type, holds.side, holds.locate, holds.price, holds.qty]
  by_cases h : (decodeSlot raw).locate.toNat < maxSymbols
  · rw [dif_pos h]
    exact run_aggregateSwitch raw m h
  · have outside : ¬(loadBe16 (shift raw Ofs.locate)).toNat < maxSymbols := h
    rw [dif_neg h, cpuAggregateSlot]
    simp only [dif_neg outside]
    rfl

theorem decodeSlot_congr {p q : Ptr} (same : ∀ i < slotBytes, p i = q i) :
    decodeSlot p = decodeSlot q := by
  have byte : ∀ i, i < slotBytes → p i = q i := same
  have load16 : ∀ a, a + 2 ≤ slotBytes → loadBe16 (shift p a) = loadBe16 (shift q a) :=
    fun a inside => loadBe16_congr fun i hi => same (a + i) (by omega)
  have load32 : ∀ a, a + 4 ≤ slotBytes → loadBe32 (shift p a) = loadBe32 (shift q a) :=
    fun a inside => loadBe32_congr fun i hi => same (a + i) (by omega)
  have load48 : ∀ a, a + 6 ≤ slotBytes → loadBe48 (shift p a) = loadBe48 (shift q a) :=
    fun a inside => loadBe48_congr fun i hi => same (a + i) (by omega)
  have load64 : ∀ a, a + 8 ≤ slotBytes → loadBe64 (shift p a) = loadBe64 (shift q a) :=
    fun a inside => loadBe64_congr fun i hi => same (a + i) (by omega)
  have switch : decodeSwitch p = decodeSwitch q := by
    simp only [decodeSwitch, byte Ofs.type (by decide), byte Ofs.addSide (by decide),
      byte slotSideTag (by decide), load32 Ofs.addPrice (by decide),
      load32 Ofs.addShares (by decide), load32 Ofs.replacePrice (by decide),
      load32 Ofs.replaceShares (by decide), load32 Ofs.cancelCanceled (by decide),
      load64 Ofs.crossShares64 (by decide)]
  simp only [decodeSlot, switch, byte Ofs.type (by decide), load16 Ofs.locate (by decide),
    load48 Ofs.timestamp (by decide)]

theorem run_loadRaw (slot base n : Nat) (raw : Ptr) (next : Ptr → ThreadCode) (m : DeviceMemory) :
    (loadRaw slot base n raw next).run m =
      (next fun i => if i < n then m (.dRaw slot (base + i)) else raw i).run m := by
  induction n generalizing raw with
  | zero => simp [loadRaw]
  | succ n ih =>
    rw [loadRaw, Code.run, ih]
    congr 2
    funext i
    rw [store_apply]
    by_cases last : i = n
    · subst last
      simp
    · have step : i < n + 1 ↔ i < n := by omega
      rw [if_neg last]
      simp only [step]

theorem run_decodeKernel (slot idx : Nat) (m : DeviceMemory) :
    Holds ((decodeKernel slot idx).run m) slot idx
      (decodeSlot fun i => m (.dRaw slot (idx * slotBytes + i))) := by
  rw [decodeKernel, run_loadRaw]
  have same : (decodeSlot fun i => m (.dRaw slot (idx * slotBytes + i))) =
      decodeSlot fun i => if i < slotBytes then m (.dRaw slot (idx * slotBytes + i)) else 0 :=
    decodeSlot_congr fun i hi => (if_pos hi).symm
  rw [same]
  constructor <;> simp [Code.store, Code.run]

/-! Whole operations. -/

variable (m : DeviceMemory)

/-- In a pool of tasks that go together, decode still leaves its fields. -/
theorem runAll_decode {pool : List DeviceTask} (apart : Apart pool) {slot idx : Nat}
    (mem : decodeTask slot idx ∈ pool) :
    Holds (runAll pool m) slot idx (decodeSlot fun i => m (.dRaw slot (idx * slotBytes + i))) := by
  have alone : ∀ f : SoaField, runAll pool m (.soa f slot idx) =
      (decodeKernel slot idx).run m (.soa f slot idx) := fun f =>
    runAll_own apart mem (by exact if_pos ⟨rfl, rfl⟩) m
  have own := run_decodeKernel slot idx m
  exact ⟨(alone _).trans own.type, (alone _).trans own.side, (alone _).trans own.locate,
    (alone _).trans own.price, (alone _).trans own.qty, (alone _).trans own.ts⟩

theorem runAll_decode_batch {pool : List DeviceTask} (apart : Apart pool) {slot idx n : Nat}
    (mem : decodeTask slot idx ∈ pool) (inside : idx < n) {batch : Ptr}
    (raw : ∀ i < n * slotBytes, m (.dRaw slot i) = batch i) :
    Holds (runAll pool m) slot idx (decodeSlot (shift batch (idx * slotBytes))) := by
  have fields := runAll_decode m apart mem
  have bytes : (decodeSlot fun i => m (.dRaw slot (idx * slotBytes + i))) =
      decodeSlot (shift batch (idx * slotBytes)) := by
    refine decodeSlot_congr fun i hi => raw _ ?_
    have next : (idx + 1) * slotBytes ≤ n * slotBytes := Nat.mul_le_mul_right _ inside
    rw [Nat.succ_mul] at next
    omega
  rwa [bytes] at fields

/-- Aggregation of a decoded batch is the reference on its slots. -/
theorem runAll_aggregate {slot n : Nat} {raw : Ptr}
    (holds : ∀ idx < n, Holds m slot idx (decodeSlot (shift raw (idx * slotBytes)))) :
    accOf (runAll (DeviceOp.aggregate slot n).tasks m) = cpuAggregate raw n (accOf m) := by
  suffices prefixes : ∀ k ≤ n, accOf (runAll ((List.range k).map (aggregateTask slot)) m) =
      cpuAggregate raw k (accOf m) from prefixes n (Nat.le_refl n)
  intro k
  induction k with
  | zero => exact fun _ => rfl
  | succ k ih =>
    intro le
    have still : ∀ f, runAll ((List.range k).map (aggregateTask slot)) m (.soa f slot k) =
        m (.soa f slot k) := by
      intro f
      refine runAll_frame (fun t ht => ?_) m
      obtain ⟨i, _, rfl⟩ := List.mem_map.mp ht
      exact (ite_mode _ _).imp id id
    have here := holds k le
    have later : Holds (runAll ((List.range k).map (aggregateTask slot)) m) slot k
        (decodeSlot (shift raw (k * slotBytes))) :=
      ⟨(still _).trans here.type, (still _).trans here.side, (still _).trans here.locate,
        (still _).trans here.price, (still _).trans here.qty, (still _).trans here.ts⟩
    rw [List.range_succ, List.map_append, runAll_append, List.map_singleton, runAll_cons, runAll_nil]
    have step := run_aggregateKernel later
    rw [ih (Nat.le_of_succ_le le)] at step
    rw [cpuAggregate, List.range_succ, List.foldl_append]
    exact step

theorem runAll_reset : accOf (runAll DeviceOp.reset.tasks m) = .reset := by
  have mem : ∀ sym, resetTask sym ∈ DeviceOp.reset.tasks := fun sym =>
    List.mem_map_of_mem (List.mem_finRange sym)
  apply HostAccum.ext
  · funext a sym
    have alone : runAll DeviceOp.reset.tasks m (.acc64 a sym) =
        (resetKernel sym).run m (.acc64 a sym) :=
      runAll_own (DeviceOp.apart _) (mem sym) (by exact if_pos rfl) m
    rw [accOf_u64, alone]
    cases a <;> simp [resetKernel, Code.store, Code.run, HostAccum.reset]
  · funext a sym
    have alone : runAll DeviceOp.reset.tasks m (.acc32 a sym) =
        (resetKernel sym).run m (.acc32 a sym) :=
      runAll_own (DeviceOp.apart _) (mem sym) (by exact if_pos rfl) m
    rw [accOf_u32, alone]
    cases a <;> simp [resetKernel, Code.store, Code.run, HostAccum.reset, Array32.initial]

theorem runAll_snapshot :
    (∀ sym, runAll DeviceOp.snapshot.tasks m (.dSnap sym) = (cpuSnapshot (accOf m)).1 sym) ∧
      accOf (runAll DeviceOp.snapshot.tasks m) = (cpuSnapshot (accOf m)).2 := by
  have mem : ∀ sym, snapshotTask sym ∈ DeviceOp.snapshot.tasks := fun sym =>
    List.mem_map_of_mem (List.mem_finRange sym)
  refine ⟨fun sym => ?_, ?_⟩
  · have alone : runAll DeviceOp.snapshot.tasks m (.dSnap sym) =
        (snapshotKernel sym).run m (.dSnap sym) :=
      runAll_own (DeviceOp.apart _) (mem sym) (by exact if_pos rfl) m
    refine alone.trans ?_
    simp [snapshotKernel, Code.store, Code.run, cpuSnapshot, HostAccum.row, accOf]
  · apply HostAccum.ext
    · funext a sym
      have alone : runAll DeviceOp.snapshot.tasks m (.acc64 a sym) =
          (snapshotKernel sym).run m (.acc64 a sym) :=
        runAll_own (DeviceOp.apart _) (mem sym) (by exact if_pos rfl) m
      rw [accOf_u64, alone]
      simp [snapshotKernel, Code.store, Code.run, cpuSnapshot, accOf]
    · funext a sym
      have alone : runAll DeviceOp.snapshot.tasks m (.acc32 a sym) =
          (snapshotKernel sym).run m (.acc32 a sym) :=
        runAll_own (DeviceOp.apart _) (mem sym) (by exact if_pos rfl) m
      rw [accOf_u32, alone]
      cases a <;> simp [snapshotKernel, Code.store, Code.run, cpuSnapshot, accOf]

theorem runAll_fill {slot n i : Nat} (batch : Ptr) (inside : i < n * slotBytes) :
    runAll (DeviceOp.fill slot batch n).tasks m (.hRaw slot i) = batch i := by
  have mem : fillTask slot i (batch i) ∈ (DeviceOp.fill slot batch n).tasks :=
    List.mem_map.mpr ⟨i, List.mem_range.mpr inside, rfl⟩
  refine (runAll_own (DeviceOp.apart _) mem (by exact if_pos ⟨rfl, rfl⟩) m).trans ?_
  exact Function.update_self _ _ _

theorem runAll_copyIn {slot n i : Nat} (inside : i < n * slotBytes) :
    runAll (DeviceOp.copyIn slot n).tasks m (.dRaw slot i) = m (.hRaw slot i) := by
  have mem : copyInTask slot i ∈ (DeviceOp.copyIn slot n).tasks :=
    List.mem_map_of_mem (List.mem_range.mpr inside)
  refine (runAll_own (DeviceOp.apart _) mem (by exact if_pos ⟨rfl, rfl⟩) m).trans ?_
  exact Function.update_self _ _ _

theorem runAll_copyOut (b : Fin 2) (sym : Sym) :
    runAll (DeviceOp.copyOut b).tasks m (.hSnap b sym) = m (.dSnap sym) := by
  have mem : copyOutTask b sym ∈ (DeviceOp.copyOut b).tasks :=
    List.mem_map_of_mem (List.mem_finRange sym)
  refine (runAll_own (DeviceOp.apart _) mem (by exact if_pos ⟨rfl, rfl⟩) m).trans ?_
  exact Function.update_self _ _ _

theorem runAll_print (n : Nat) (b : Fin 2) (sym : Sym) :
    runAll (DeviceOp.print n b).tasks m (.out n sym) = m (.hSnap b sym) := by
  have mem : printTask n b sym ∈ (DeviceOp.print n b).tasks :=
    List.mem_map_of_mem (List.mem_finRange sym)
  refine (runAll_own (DeviceOp.apart _) mem (by exact if_pos ⟨rfl, rfl⟩) m).trans ?_
  exact Function.update_self _ _ _

theorem runAll_untouched (op : DeviceOp) {l : Loc}
    (readonly : op.mode l.resource = .none ∨ op.mode l.resource = .read) :
    runAll op.tasks m l = m l := by
  refine runAll_frame (fun t ht => ?_) m
  rcases DeviceOp.policy_mode ht l with none | same
  · exact Or.inl none
  · rw [same]
    exact readonly

end ItchAggregator
