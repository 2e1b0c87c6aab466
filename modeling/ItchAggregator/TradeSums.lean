import ItchAggregator.AggregateOrder
import ItchAggregator.Tally

/-! What the trades of a run add up to. Batches of slots with any content are
aggregated from a reset; the sums over the trades of a symbol, in numbers without a
width, are set against the accumulators. The price sum and the share sum lie
where a weighted average has them; the accumulators do as long as their wraps
balance. -/

namespace ItchAggregator

open HostAccum

def Shipped.ofSlot (slot : Ptr) : Shipped :=
  ⟨bytes slot slotBytes, slot slotSideTag, 0⟩

theorem ShowsSlot.ofSlot (slot : Ptr) : ShowsSlot slot (.ofSlot slot) := by
  have own : ∀ i < slotBytes, (Shipped.ofSlot slot).data i = slot i :=
    fun i hi => ptrOf_bytes slot hi
  refine ⟨⟨own _ (by decide), fun i hi => own i ?_⟩, fun _ => rfl⟩
  exact hi.trans_le ((msgLength_le _).trans (by decide))

namespace SlotBatch

def messages (b : SlotBatch) : List Shipped :=
  (List.range b.nMsgs).map fun i => .ofSlot (shift b.raw (i * slotBytes))

end SlotBatch

def aggregated (batches : List SlotBatch) : HostAccum :=
  batches.foldl (fun acc b => cpuAggregate b.raw b.nMsgs acc) .reset

def slotMessages (batches : List SlotBatch) : List Shipped :=
  batches.flatMap SlotBatch.messages

namespace Tallied

variable {acc : HostAccum} {day window : List Shipped}

theorem slotBatch (tallied : Tallied acc day window) (b : SlotBatch) :
    Tallied (cpuAggregate b.raw b.nMsgs acc) (day ++ b.messages) (window ++ b.messages) := by
  have count : b.messages.length = b.nMsgs := by simp [SlotBatch.messages]
  have shows : ∀ i m, b.messages[i]? = some m → ShowsSlot (shift b.raw (i * slotBytes)) m := by
    intro i m here
    obtain ⟨inside, rfl⟩ := List.getElem?_eq_some_iff.mp here
    simpa [SlotBatch.messages] using ShowsSlot.ofSlot (shift b.raw (i * slotBytes))
  have slots := tallied.slots shows
  rwa [count] at slots

theorem slotBatches (tallied : Tallied acc day window) (batches : List SlotBatch) :
    Tallied (batches.foldl (fun acc b => cpuAggregate b.raw b.nMsgs acc) acc)
      (day ++ slotMessages batches) (window ++ slotMessages batches) := by
  induction batches generalizing acc day window with
  | nil => simpa [slotMessages] using tallied
  | cons b batches ih =>
    have rest := ih (tallied.slotBatch b)
    simpa [slotMessages] using rest

end Tallied

theorem aggregated_tallied (batches : List SlotBatch) :
    Tallied (aggregated batches) (slotMessages batches) (slotMessages batches) := by
  have tallied := Tallied.reset.slotBatches batches
  rwa [List.nil_append] at tallied

/-! The trades of a symbol. -/

def tradesOf (s : Sym) (ms : List Shipped) : List Shipped :=
  (ms.filter (Shipped.locatedAt s)).filter (Shipped.counts .tradeCount)

def tradePrices (s : Sym) (ms : List Shipped) : List Nat := (tradesOf s ms).map Shipped.price

namespace Shipped

variable {m : Shipped}

/-- The shares of no side: those of a cross, and of a trade with neither tag. -/
def unsided (m : Shipped) : Nat := m.qty - (m.flow .buyVol + m.flow .sellVol)

theorem flow_zero {a : Array64} (trade : a ≠ .cancelShares) (none : m.counts .tradeCount = false) :
    m.flow a = 0 := by
  unfold counts at none
  unfold flow
  cases kind : m.kind with
  | none => cases a <;> rfl
  | some t =>
    rw [kind] at none
    cases t with
    | trade | tradeCross =>
      have zero : m.qty = 0 := Nat.eq_zero_of_not_pos (of_decide_eq_false none)
      cases a <;> simp_all
    | _ => cases a <;> first | rfl | exact absurd rfl trade

theorem flow_num (counts : m.counts .tradeCount = true) : m.flow .vwapNum = m.price * m.qty := by
  unfold Shipped.counts at counts
  unfold flow
  cases kind : m.kind with
  | none => simp [kind] at counts
  | some t => cases t <;> simp_all

theorem flow_den (counts : m.counts .tradeCount = true) : m.flow .vwapDen = m.qty := by
  unfold Shipped.counts at counts
  unfold flow
  cases kind : m.kind with
  | none => simp [kind] at counts
  | some t => cases t <;> simp_all

/-- No share is counted on two sides. -/
theorem flow_sides (m : Shipped) : m.flow .buyVol + m.flow .sellVol ≤ m.qty := by
  unfold flow
  cases kind : m.kind with
  | none => exact Nat.zero_le _
  | some t =>
    cases t with
    | trade =>
      dsimp only
      by_cases buy : m.side = 'B'.toUInt8
      · have sell : m.side ≠ 'S'.toUInt8 := by
          rw [buy]
          decide
        rw [if_pos buy, if_neg sell, Nat.add_zero]
      · rw [if_neg buy, Nat.zero_add]
        split
        · exact Nat.le_refl _
        · exact Nat.zero_le _
    | _ => exact Nat.zero_le _

end Shipped

theorem sumOf_trades {a : Array64} (trade : a ≠ .cancelShares) (s : Sym) (ms : List Shipped) :
    sumOf a s ms = ((tradesOf s ms).map (Shipped.flow a)).sum := by
  rw [sumOf, tradesOf]
  induction ms.filter (Shipped.locatedAt s) with
  | nil => rfl
  | cons m ms ih =>
    rw [List.map_cons, List.sum_cons, ih, List.filter_cons]
    split
    · rfl
    · rename_i none
      rw [Shipped.flow_zero trade (Bool.eq_false_of_not_eq_true none), Nat.zero_add]

theorem mem_tradesOf {s : Sym} {ms : List Shipped} {m : Shipped} (mem : m ∈ tradesOf s ms) :
    m.counts .tradeCount = true := (List.mem_filter.mp mem).2

theorem sumOf_num (s : Sym) (ms : List Shipped) :
    sumOf .vwapNum s ms = ((tradesOf s ms).map fun m => m.price * m.qty).sum := by
  rw [sumOf_trades (by decide)]
  exact congrArg List.sum (List.map_congr_left fun m hm => Shipped.flow_num (mem_tradesOf hm))

theorem sumOf_den (s : Sym) (ms : List Shipped) :
    sumOf .vwapDen s ms = ((tradesOf s ms).map Shipped.qty).sum := by
  rw [sumOf_trades (by decide)]
  exact congrArg List.sum (List.map_congr_left fun m hm => Shipped.flow_den (mem_tradesOf hm))

/-- What the trades pay above a price. -/
def paidAbove (lo : Nat) (s : Sym) (ms : List Shipped) : Nat :=
  ((tradesOf s ms).map fun m => (m.price - lo) * m.qty).sum

/-- What the trades stay below a price. -/
def paidBelow (hi : Nat) (s : Sym) (ms : List Shipped) : Nat :=
  ((tradesOf s ms).map fun m => (hi - m.price) * m.qty).sum

def sharesUnsided (s : Sym) (ms : List Shipped) : Nat :=
  ((tradesOf s ms).map Shipped.unsided).sum

section Sums

variable {s : Sym} {ms : List Shipped} {lo hi : Nat}

theorem sumOf_above (least : ∀ x ∈ tradePrices s ms, lo ≤ x) :
    paidAbove lo s ms + lo * sumOf .vwapDen s ms = sumOf .vwapNum s ms := by
  rw [sumOf_num, sumOf_den, paidAbove, ← List.sum_map_mul_left, ← List.sum_map_add]
  refine congrArg List.sum (List.map_congr_left fun m hm => ?_)
  rw [← Nat.add_mul, Nat.sub_add_cancel (least _ (List.mem_map_of_mem hm))]

theorem sumOf_below (greatest : ∀ x ∈ tradePrices s ms, x ≤ hi) :
    paidBelow hi s ms + sumOf .vwapNum s ms = hi * sumOf .vwapDen s ms := by
  rw [sumOf_num, sumOf_den, paidBelow, ← List.sum_map_mul_left, ← List.sum_map_add]
  refine congrArg List.sum (List.map_congr_left fun m hm => ?_)
  rw [← Nat.add_mul, Nat.sub_add_cancel (greatest _ (List.mem_map_of_mem hm))]

theorem sumOf_sides (s : Sym) (ms : List Shipped) :
    sharesUnsided s ms + (sumOf .buyVol s ms + sumOf .sellVol s ms) = sumOf .vwapDen s ms := by
  rw [sumOf_den, sumOf_trades (by decide), sumOf_trades (by decide), sharesUnsided,
    ← List.sum_map_add, ← List.sum_map_add]
  refine congrArg List.sum (List.map_congr_left fun m _ => ?_)
  exact Nat.sub_add_cancel m.flow_sides

theorem sumOf_den_pos {x : Nat} (traded : x ∈ tradePrices s ms) : 0 < sumOf .vwapDen s ms := by
  obtain ⟨m, mem, _⟩ := List.mem_map.mp traded
  have counts := mem_tradesOf mem
  have qty : 0 < m.qty := by
    unfold Shipped.counts at counts
    cases kind : m.kind with
    | none => simp [kind] at counts
    | some t => cases t <;> simp_all
  rw [sumOf_den]
  exact qty.trans_le (List.le_sum_of_mem (List.mem_map_of_mem mem))

end Sums

/-! The range of the prices. -/

/-- What the reduction to 64 bits takes from a number. -/
def lost (n : Nat) : Nat := n / 2 ^ 64 * 2 ^ 64

theorem lost_add (n : Nat) : lost n + (UInt64.ofNat n).toNat = n := by
  rw [lost, UInt64.toNat_ofNat', Nat.div_add_mod']

theorem lost_of_lt {n : Nat} (fits : n < 2 ^ 64) : lost n = 0 := by
  rw [lost, Nat.div_eq_of_lt fits, Nat.zero_mul]

/-- The accumulators of a symbol have shares, an average price from `lo` to `hi`, and
no more shares on the two sides than in all. -/
structure VwapInRange (acc : HostAccum) (s : Sym) (lo hi : Nat) : Prop where
  positive : 0 < (acc.u64 .vwapDen s).toNat
  low : lo * (acc.u64 .vwapDen s).toNat ≤ (acc.u64 .vwapNum s).toNat
  high : (acc.u64 .vwapNum s).toNat ≤ hi * (acc.u64 .vwapDen s).toNat
  sides : (acc.u64 .buyVol s).toNat + (acc.u64 .sellVol s).toNat ≤ (acc.u64 .vwapDen s).toNat

/-- The wraps of the sums balance: the shares do not wrap to none; what wrapping takes
from the price sum is covered by what is paid above the lowest price and by the
shares it takes, these at the highest price by what stays below that and by the
price sum it takes, and these by the shares of no side and those it takes from a side. -/
structure Balanced (s : Sym) (ms : List Shipped) (lo hi : Nat) : Prop where
  positive : ¬2 ^ 64 ∣ sumOf .vwapDen s ms
  low : lost (sumOf .vwapNum s ms) ≤ paidAbove lo s ms + lo * lost (sumOf .vwapDen s ms)
  high : hi * lost (sumOf .vwapDen s ms) ≤ paidBelow hi s ms + lost (sumOf .vwapNum s ms)
  sides : lost (sumOf .vwapDen s ms) ≤
    sharesUnsided s ms + (lost (sumOf .buyVol s ms) + lost (sumOf .sellVol s ms))

namespace Balanced

variable {s : Sym} {ms : List Shipped} {lo hi x : Nat}

/-- As long as the shares fit, the price sum may wrap for what is paid above the lowest
price. -/
theorem of_shares (traded : x ∈ tradePrices s ms) (shares : sumOf .vwapDen s ms < 2 ^ 64) :
    Balanced s ms lo hi ↔ lost (sumOf .vwapNum s ms) ≤ paidAbove lo s ms := by
  have none := lost_of_lt shares
  constructor
  · intro balanced
    have low := balanced.low
    rwa [none, Nat.mul_zero, Nat.add_zero] at low
  · intro low
    refine ⟨Nat.not_dvd_of_pos_of_lt (sumOf_den_pos traded) shares, ?_, ?_, ?_⟩
    · rwa [none, Nat.mul_zero, Nat.add_zero]
    · rw [none, Nat.mul_zero]
      exact Nat.zero_le _
    · rw [none]
      exact Nat.zero_le _

/-- Sums that fit lose nothing. -/
theorem of_fits (traded : x ∈ tradePrices s ms) (shares : sumOf .vwapDen s ms < 2 ^ 64)
    (paid : sumOf .vwapNum s ms < 2 ^ 64) : Balanced s ms lo hi :=
  (of_shares traded shares).mpr (by simp [lost_of_lt paid])

end Balanced

/-- After any batches the average price of a symbol lies from its lowest to its
highest trade price exactly when the wraps of its sums balance. -/
theorem vwapInRange_iff (batches : List SlotBatch) (s : Sym) {lo hi : Nat}
    (least : IsLeast {x | x ∈ tradePrices s (slotMessages batches)} lo)
    (greatest : IsGreatest {x | x ∈ tradePrices s (slotMessages batches)} hi) :
    VwapInRange (aggregated batches) s lo hi ↔ Balanced s (slotMessages batches) lo hi := by
  have above := sumOf_above fun x hx => least.2 hx
  have below := sumOf_below fun x hx => greatest.2 hx
  have sides := sumOf_sides s (slotMessages batches)
  have sums := fun a => (aggregated_tallied batches).u64 a s
  have num := lost_add (sumOf .vwapNum s (slotMessages batches))
  have den := lost_add (sumOf .vwapDen s (slotMessages batches))
  have buy := lost_add (sumOf .buyVol s (slotMessages batches))
  have sell := lost_add (sumOf .sellVol s (slotMessages batches))
  have shares : (UInt64.ofNat (sumOf .vwapDen s (slotMessages batches))).toNat =
      sumOf .vwapDen s (slotMessages batches) % 2 ^ 64 := UInt64.toNat_ofNat'
  have none := Nat.dvd_iff_mod_eq_zero (m := 2 ^ 64) (n := sumOf .vwapDen s (slotMessages batches))
  have lowDen : lo * sumOf .vwapDen s (slotMessages batches) = lo * lost _ + lo * _ :=
    (congrArg (lo * ·) den.symm).trans (Nat.mul_add _ _ _)
  have highDen : hi * sumOf .vwapDen s (slotMessages batches) = hi * lost _ + hi * _ :=
    (congrArg (hi * ·) den.symm).trans (Nat.mul_add _ _ _)
  constructor
  · rintro ⟨positive, low, high, sided⟩
    simp only [sums] at positive low high sided
    refine ⟨?_, ?_, ?_, ?_⟩ <;> omega
  · rintro ⟨positive, low, high, sided⟩
    refine ⟨?_, ?_, ?_, ?_⟩ <;> simp only [sums] <;> omega

/-- 50 shares at 123.4560 and 20 at 123.5000. -/
theorem vwapInRange_trades :
    let trade (shares low high : UInt8) : List UInt8 := [80, 0, 7, 0, 0, 0, 0, 0, 0, 0, 1, 0, 0, 0,
      0, 0, 0, 0, 1, 66, 0, 0, 0, shares, 65, 65, 80, 76, 32, 32, 32, 32, 0, 18, high, low, 0, 0, 0,
      0, 0, 0, 0, 3]
    VwapInRange (aggregated [⟨ptrOf (trade 50 128 214), 1⟩, ⟨ptrOf (trade 20 56 216), 1⟩]) 7
      1234560 1235000 := by
  intro trade
  let batches : List SlotBatch := [⟨ptrOf (trade 50 128 214), 1⟩, ⟨ptrOf (trade 20 56 216), 1⟩]
  have prices : tradePrices 7 (slotMessages batches) = [1234560, 1235000] := by decide +kernel
  refine (vwapInRange_iff batches 7 ?_ ?_).mpr ?_
  · simp [prices, IsLeast, lowerBounds]
  · simp [prices, IsGreatest, upperBounds]
  · exact .of_fits (prices ▸ List.mem_cons_self) (by decide +kernel) (by decide +kernel)

/-- A cross of 2^63 shares at the price 2: the price sum wraps to 0. -/
theorem vwap_wraps :
    let cross : List UInt8 := [81, 0, 7, 0, 0, 0, 0, 0, 0, 0, 1, 128, 0, 0, 0, 0, 0, 0, 0,
      65, 65, 80, 76, 32, 32, 32, 32, 0, 0, 0, 2, 0, 0, 0, 0, 0, 0, 0, 3, 79]
    let batches : List SlotBatch := [⟨ptrOf cross, 1⟩]
    IsLeast {x | x ∈ tradePrices 7 (slotMessages batches)} 2 ∧
      IsGreatest {x | x ∈ tradePrices 7 (slotMessages batches)} 2 ∧
      ¬VwapInRange (aggregated batches) 7 2 2 := by
  intro cross batches
  have prices : tradePrices 7 (slotMessages batches) = [2] := by decide +kernel
  refine ⟨by simp [prices], by simp [prices], fun range => ?_⟩
  have low := range.low
  revert low
  decide +kernel

end ItchAggregator
