import ItchAggregator.TradeSums

/-! The imbalance of a symbol. As long as a run has fewer than 2^31 trades the shares
on a side stay below 2^63, so that no sum wraps, the casts to signed numbers are
exact, and the quotient is that of the shares. -/

namespace ItchAggregator

open Threads

def sharesOn (side : UInt8) (s : Sym) (ms : List Shipped) : Nat :=
  ((ms.filter fun m => m.locatedAt s && m.kind == some .trade && m.side == side).map
    Shipped.qty).sum

theorem sumOf_side {a : Array64} {side : UInt8}
    (flow : ∀ m : Shipped, m.flow a =
      if (m.kind == some .trade && m.side == side) = true then m.qty else 0)
    (s : Sym) (ms : List Shipped) : sumOf a s ms = sharesOn side s ms := by
  unfold sumOf sharesOn
  induction ms with
  | nil => rfl
  | cons m ms ih =>
    rw [List.filter_cons, List.filter_cons, Bool.and_assoc]
    by_cases located : m.locatedAt s = true
    · rw [if_pos located, List.map_cons, List.sum_cons, ih, flow, located, Bool.true_and]
      split
      · rfl
      · exact Nat.zero_add _
    · rw [if_neg located, ih, if_neg (by simp [located])]

theorem sumOf_buyVol (s : Sym) (ms : List Shipped) :
    sumOf .buyVol s ms = sharesOn 'B'.toUInt8 s ms := by
  refine sumOf_side (fun m => ?_) s ms
  unfold Shipped.flow
  cases kind : m.kind with
  | none => rfl
  | some t => cases t <;> simp

theorem sumOf_sellVol (s : Sym) (ms : List Shipped) :
    sumOf .sellVol s ms = sharesOn 'S'.toUInt8 s ms := by
  refine sumOf_side (fun m => ?_) s ms
  unfold Shipped.flow
  cases kind : m.kind with
  | none => rfl
  | some t => cases t <;> simp

theorem Shipped.qty_lt {m : Shipped} (trade : m.kind = some .trade) : m.qty < 2 ^ 32 := by
  unfold qty
  rw [trade]
  exact UInt32.toNat_lt _

theorem sharesOn_le (side : UInt8) (s : Sym) (ms : List Shipped) :
    sharesOn side s ms ≤ ms.countP (fun m => m.kind = some .trade) * (2 ^ 32 - 1) := by
  unfold sharesOn
  induction ms with
  | nil => exact Nat.zero_le _
  | cons m ms ih =>
    rw [List.filter_cons, List.countP_cons]
    split
    · rename_i here
      have trade : m.kind = some .trade := by simp_all
      have qty := Shipped.qty_lt trade
      rw [List.map_cons, List.sum_cons, if_pos (decide_eq_true trade), Nat.add_mul]
      omega
    · exact ih.trans (Nat.mul_le_mul_right _ (Nat.le_add_right _ _))

/-- The two volumes of a symbol are `B` and `S`, also as signed numbers, and their sum
does not wrap. -/
structure SidesExact (acc : HostAccum) (s : Sym) (B S : Nat) : Prop where
  buy : (acc.u64 .buyVol s).toNat = B
  sell : (acc.u64 .sellVol s).toNat = S
  sum : (acc.u64 .buyVol s + acc.u64 .sellVol s).toNat = B + S
  buySigned : (acc.u64 .buyVol s).toInt64.toInt = B
  sellSigned : (acc.u64 .sellVol s).toInt64.toInt = S

def sharesImbalance (B S : Nat) : ℚ := if B + S = 0 then 0 else ((B : ℚ) - S) / (B + S)

theorem sharesImbalance_ge (B S : Nat) : -1 ≤ sharesImbalance B S := by
  unfold sharesImbalance
  split
  · norm_num
  · rename_i some
    have positive : (0 : ℚ) < B + S := by exact_mod_cast Nat.pos_of_ne_zero some
    rw [le_div_iff₀ positive]
    have : (0 : ℚ) ≤ B := Nat.cast_nonneg B
    linarith

theorem sharesImbalance_le (B S : Nat) : sharesImbalance B S ≤ 1 := by
  unfold sharesImbalance
  split
  · norm_num
  · rename_i some
    have positive : (0 : ℚ) < B + S := by exact_mod_cast Nat.pos_of_ne_zero some
    rw [div_le_iff₀ positive]
    have : (0 : ℚ) ≤ S := Nat.cast_nonneg S
    linarith

namespace SidesExact

variable {acc : HostAccum} {s : Sym} {B S : Nat}

theorem of_lt (buy : acc.u64 .buyVol s = UInt64.ofNat B)
    (sell : acc.u64 .sellVol s = UInt64.ofNat S) (hB : B < 2 ^ 63) (hS : S < 2 ^ 63) :
    SidesExact acc s B S where
  buy := by rw [buy, UInt64.toNat_ofNat_of_lt' (hB.trans (by decide))]
  sell := by rw [sell, UInt64.toNat_ofNat_of_lt' (hS.trans (by decide))]
  sum := by
    have fits : B + S < 2 ^ 64 := by omega
    rw [buy, sell, ← UInt64.ofNat_add, UInt64.toNat_ofNat_of_lt' fits]
  buySigned := by rw [buy, UInt64.toInt64_ofNat', Int64.toInt_ofNat_of_lt hB]
  sellSigned := by rw [sell, UInt64.toInt64_ofNat', Int64.toInt_ofNat_of_lt hS]

theorem imbalance (exact_ : SidesExact acc s B S) (hB : B < 2 ^ 63) (hS : S < 2 ^ 63) :
    (acc.row s).imbalance = sharesImbalance B S := by
  have zero : acc.u64 .buyVol s + acc.u64 .sellVol s = 0 ↔ B + S = 0 := by
    rw [← exact_.sum, ← UInt64.toNat_inj]
    rfl
  have signed :
      ((acc.u64 .buyVol s).toInt64 - (acc.u64 .sellVol s).toInt64).toInt = (B : Int) - S := by
    rw [Int64.toInt_sub, exact_.buySigned, exact_.sellSigned]
    exact Int.bmod_eq_of_le (by omega) (by omega)
  simp only [Snapshot.imbalance, HostAccum.row, sharesImbalance, zero, signed, exact_.sum]
  push_cast
  rfl

end SidesExact

/-- With fewer than 2^31 trades in the batches the volumes of every symbol are the shares
traded on its sides, and both snapshots divide their difference by their sum, a
quotient from -1 to 1. -/
theorem imbalance_exact (batches : List SlotBatch)
    (few : (slotMessages batches).countP (fun m => m.kind = some .trade) < 2 ^ 31) (s : Sym) :
    let B := sharesOn 'B'.toUInt8 s (slotMessages batches)
    let S := sharesOn 'S'.toUInt8 s (slotMessages batches)
    SidesExact (aggregated batches) s B S ∧
      ((cpuSnapshot (aggregated batches)).1 s).imbalance = sharesImbalance B S ∧
      (∀ (m m₁ m₂ m₃ : DeviceMemory) (decoded added taken : List DeviceTask),
        accOf m = .reset →
        (∀ j b, batches[j]? = some b → ∀ i < b.nMsgs * slotBytes, m (.dRaw j i) = b.raw i) →
        Interleaved (launches .decode 0 batches) m decoded m₁ →
        Interleaved (launches .aggregate 0 batches) m₁ added m₂ →
        Interleaved DeviceOp.snapshot.tasks m₂ taken m₃ →
        Snapshot.imbalance (m₃ (.dSnap s)) = sharesImbalance B S) ∧
      -1 ≤ sharesImbalance B S ∧ sharesImbalance B S ≤ 1 := by
  intro B S
  have bound : ∀ side, sharesOn side s (slotMessages batches) < 2 ^ 63 := by
    intro side
    have shares := sharesOn_le side s (slotMessages batches)
    omega
  have sums := fun a => (aggregated_tallied batches).u64 a s
  have exact_ : SidesExact (aggregated batches) s B S :=
    .of_lt ((sums .buyVol).trans (congrArg _ (sumOf_buyVol s _)))
      ((sums .sellVol).trans (congrArg _ (sumOf_sellVol s _))) (bound _) (bound _)
  have quotient := exact_.imbalance (bound _) (bound _)
  refine ⟨exact_, quotient, ?_, sharesImbalance_ge B S, sharesImbalance_le B S⟩
  intro m m₁ m₂ m₃ decoded added taken reset raw decode aggregate snapshot
  have after : accOf m₂ = aggregated batches := by
    rw [aggregated, ← reset]
    refine accOf_interleaved (fun j b here => ?_) decode aggregate
    rw [Nat.zero_add]
    exact raw j b here
  have row : m₃ (.dSnap s) = (aggregated batches).row s := by
    rw [snapshot.memory (DeviceOp.apart _), (runAll_snapshot m₂).1 s, after]
    rfl
  rw [row]
  exact quotient

/-- Fifty shares bought and twenty-five sold. -/
theorem imbalance_exact_trades :
    let trade (side shares : UInt8) : List UInt8 := [80, 0, 7, 0, 0, 0, 0, 0, 0, 0, 1, 0, 0, 0, 0,
      0, 0, 0, 1, side, 0, 0, 0, shares, 65, 65, 80, 76, 32, 32, 32, 32, 0, 18, 214, 128, 0, 0, 0, 0,
      0, 0, 0, 3]
    let batches : List SlotBatch := [⟨ptrOf (trade 66 50), 1⟩, ⟨ptrOf (trade 83 25), 1⟩]
    ((cpuSnapshot (aggregated batches)).1 7).imbalance = 1 / 3 := by
  intro trade batches
  obtain ⟨_, quotient, _⟩ := imbalance_exact batches (by decide +kernel) 7
  have bought : sharesOn 'B'.toUInt8 7 (slotMessages batches) = 50 := by decide +kernel
  have sold : sharesOn 'S'.toUInt8 7 (slotMessages batches) = 25 := by decide +kernel
  rw [quotient, bought, sold]
  norm_num [sharesImbalance]

end ItchAggregator
