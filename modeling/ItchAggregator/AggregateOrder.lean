import ItchAggregator.KernelRuns

/-! Decode and aggregate over many batches at once: whatever the order of the single
operations of all threads, the accumulators end as the CPU reference leaves them
after the batches in turn. -/

namespace ItchAggregator

open Threads

structure SlotBatch where
  raw : Ptr
  nMsgs : Nat

/-- The threads of one kernel launched over every batch, each batch in buffers of its
own, from number `n` on. -/
def launches (kernel : Nat → Nat → DeviceOp) : Nat → List SlotBatch → List DeviceTask
  | _, [] => []
  | n, b :: bs => (kernel n b.nMsgs).tasks ++ launches kernel (n + 1) bs

theorem mem_launches {kernel : Nat → Nat → DeviceOp} {n : Nat} {bs : List SlotBatch}
    {t : DeviceTask} :
    t ∈ launches kernel n bs ↔ ∃ j b, bs[j]? = some b ∧ t ∈ (kernel (n + j) b.nMsgs).tasks := by
  induction bs generalizing n with
  | nil => simp [launches]
  | cons b bs ih =>
    rw [launches, List.mem_append, ih]
    constructor
    · rintro (first | ⟨j, c, here, mem⟩)
      · exact ⟨0, b, rfl, first⟩
      · exact ⟨j + 1, c, here, by rwa [← Nat.add_assoc, Nat.add_right_comm]⟩
    · rintro ⟨j, c, here, mem⟩
      cases j with
      | zero =>
        obtain rfl := Option.some.inj here
        exact Or.inl mem
      | succ j => exact Or.inr ⟨j, c, here, by rwa [← Nat.add_assoc, Nat.add_right_comm] at mem⟩

theorem apart_launches {kernel : Nat → Nat → DeviceOp}
    (together : ∀ i j m n, i < j → ∀ r, ((kernel i m).mode r).compatible ((kernel j n).mode r) = true)
    (n : Nat) (bs : List SlotBatch) : Apart (launches kernel n bs) := by
  induction bs generalizing n with
  | nil => exact .nil
  | cons b bs ih =>
    refine List.pairwise_append.mpr ⟨DeviceOp.apart _, ih (n + 1), fun t ht u hu => ?_⟩
    obtain ⟨j, c, _, mem⟩ := mem_launches.mp hu
    exact DeviceOp.compatible_tasks (together n (n + 1 + j) _ _ (by omega)) ht mem

theorem apart_decode (n : Nat) (bs : List SlotBatch) : Apart (launches .decode n bs) := by
  refine apart_launches (fun i j _ _ lt r => ?_) n bs
  cases r with
  | dRaw _ => exact Mode.compatible_ite fun _ _ => rfl
  | soa _ => exact Mode.compatible_ite fun left right => absurd (left.symm.trans right) (by omega)
  | _ => rfl

theorem apart_aggregate (n : Nat) (bs : List SlotBatch) : Apart (launches .aggregate n bs) := by
  refine apart_launches (fun i j _ _ _ r => ?_) n bs
  cases r with
  | soa _ => exact Mode.compatible_ite fun _ _ => rfl
  | _ => rfl

theorem runAll_launches {n : Nat} {bs : List SlotBatch} {m : DeviceMemory}
    (holds : ∀ j b, bs[j]? = some b → ∀ idx < b.nMsgs,
      Holds m (n + j) idx (decodeSlot (shift b.raw (idx * slotBytes)))) :
    accOf (runAll (launches .aggregate n bs) m) =
      bs.foldl (fun acc b => cpuAggregate b.raw b.nMsgs acc) (accOf m) := by
  induction bs generalizing n m with
  | nil => rfl
  | cons b bs ih =>
    have first := runAll_aggregate m (holds 0 b rfl)
    rw [launches, runAll_append, List.foldl_cons, ← first]
    refine ih fun j c here idx inside => ?_
    have later := holds (j + 1) c here idx inside
    rw [← Nat.add_assoc, Nat.add_right_comm] at later
    have still : ∀ f, runAll (DeviceOp.aggregate n b.nMsgs).tasks m (.soa f (n + 1 + j) idx) =
        m (.soa f (n + 1 + j) idx) := fun f =>
      runAll_untouched m _ (by exact (ite_mode _ _).imp id id)
    exact ⟨(still _).trans later.type, (still _).trans later.side, (still _).trans later.locate,
      (still _).trans later.price, (still _).trans later.qty, (still _).trans later.ts⟩

theorem accOf_decode (n : Nat) (bs : List SlotBatch) (m : DeviceMemory) :
    accOf (runAll (launches .decode n bs) m) = accOf m := by
  have untouched : ∀ l : Loc, l.resource = .acc → runAll (launches .decode n bs) m l = m l := by
    intro l acc
    refine runAll_frame (fun t ht => Or.inl ?_) m
    obtain ⟨j, b, _, mem⟩ := mem_launches.mp ht
    have mode := DeviceOp.policy_mode mem l
    rw [acc] at mode
    exact mode.elim id id
  exact accOf_congr (fun _ _ => untouched _ rfl) fun _ _ => untouched _ rfl

/-- Decode and aggregate threads, each kind in any order, from buffer `n` on. -/
theorem accOf_interleaved {n : Nat} {bs : List SlotBatch} {m m₁ m₂ : DeviceMemory}
    {decoded aggregated : List DeviceTask}
    (raw : ∀ j b, bs[j]? = some b → ∀ i < b.nMsgs * slotBytes, m (.dRaw (n + j) i) = b.raw i)
    (decode : Interleaved (launches .decode n bs) m decoded m₁)
    (aggregate : Interleaved (launches .aggregate n bs) m₁ aggregated m₂) :
    accOf m₂ = bs.foldl (fun acc b => cpuAggregate b.raw b.nMsgs acc) (accOf m) := by
  have after := decode.memory (apart_decode n bs)
  rw [aggregate.memory (apart_aggregate n bs), ← accOf_decode n bs m, ← after]
  refine runAll_launches fun j b here idx inside => ?_
  have mem : decodeTask (n + j) idx ∈ launches .decode n bs :=
    mem_launches.mpr ⟨j, b, here, List.mem_map_of_mem (List.mem_range.mpr inside)⟩
  rw [after]
  exact runAll_decode_batch m (apart_decode n bs) mem inside (raw j b here)

/-- Decode and aggregate agree with the CPU reference under every interleaving. The
slots lie in the raw buffers; decode threads have run to their end in some order,
and then all aggregate threads of all batches, operation by operation, in any
order. -/
theorem aggregate_interleaved (batches : List SlotBatch) (m : DeviceMemory)
    (raw : ∀ j b, batches[j]? = some b → ∀ i < b.nMsgs * slotBytes, m (.dRaw j i) = b.raw i)
    {decoded aggregated : List DeviceTask} {m₁ m₂ : DeviceMemory}
    (decode : Interleaved (launches .decode 0 batches) m decoded m₁)
    (aggregate : Interleaved (launches .aggregate 0 batches) m₁ aggregated m₂) :
    accOf m₂ = batches.foldl (fun acc b => cpuAggregate b.raw b.nMsgs acc) (accOf m) := by
  refine accOf_interleaved (fun j b here => ?_) decode aggregate
  rw [Nat.zero_add]
  exact raw j b here

/-- Two trades of a symbol in two batches. -/
theorem aggregate_interleaved_trades :
    let trade : List UInt8 := [80, 0, 7, 0, 0, 0, 0, 0, 0, 0, 1, 0, 0, 0, 0, 0, 0, 0, 1, 66,
      0, 0, 0, 50, 65, 65, 80, 76, 32, 32, 32, 32, 0, 18, 214, 128, 0, 0, 0, 0, 0, 0, 0, 3]
    let batch : SlotBatch := ⟨ptrOf trade, 1⟩
    ∃ (m m₁ m₂ : DeviceMemory) (decoded aggregated : List DeviceTask),
      Interleaved (launches .decode 0 [batch, batch]) m decoded m₁ ∧
      Interleaved (launches .aggregate 0 [batch, batch]) m₁ aggregated m₂ ∧
      (accOf m₂).u64 .vwapDen 7 = (accOf m).u64 .vwapDen 7 + 100 := by
  intro trade batch
  let m : DeviceMemory := fun l =>
    match l with
    | .dRaw _ i => ptrOf trade i
    | l => DeviceMemory.zeroed l
  have raw : ∀ j b, [batch, batch][j]? = some b → ∀ i < b.nMsgs * slotBytes,
      m (.dRaw j i) = b.raw i := by
    intro j b here i _
    have same : b = batch := by
      have mem := List.mem_of_getElem? here
      simpa using mem
    rw [same]
  obtain ⟨decoded, m₁, decode⟩ := exists_interleaved (launches .decode 0 [batch, batch]) m
  obtain ⟨aggregated, m₂, aggregate⟩ := exists_interleaved (launches .aggregate 0 [batch, batch]) m₁
  refine ⟨m, m₁, m₂, decoded, aggregated, decode, aggregate, ?_⟩
  rw [aggregate_interleaved [batch, batch] m raw decode aggregate]
  decide +kernel

end ItchAggregator
