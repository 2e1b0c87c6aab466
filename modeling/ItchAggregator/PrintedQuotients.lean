import ItchAggregator.Imbalance
import ItchAggregator.RunOutput

/-! The two quotients as they are printed. A double of the average price is off by less
than a part in 2^50, far less than half of the last place that is printed, so that the
column lies where the prices do; the imbalance keeps its sign and its range. -/

namespace ItchAggregator

open FixedPoint Rounding
open Batching (Batch since)

namespace Snapshot

variable {s : Snapshot}

theorem volume_pos (traded : s.volume ≠ 0) : (0 : ℚ) < s.volume.toNat :=
  Nat.cast_pos.mpr (Nat.pos_of_ne_zero fun zero => traded (UInt64.toNat_inj.mp zero))

/-- Two conversions, two divisions, and a conversion that changes nothing. -/
theorem near_vwapDouble (traded : s.volume ≠ 0) : Near (1 / 2 ^ 50) s.vwap s.vwapDouble := by
  have quotient := near_quotient 52 (a := (s.vwapNum.toNat : ℚ)) (by decide)
    (volume_pos traded).ne'
  have rounded := quotient.trans (near_toPrecision 52 _) (by positivity)
  have dollars := (rounded.div_const 10000).trans (near_toPrecision 52 _) (by positivity)
  rw [vwap, vwapDouble, if_neg traded, if_neg traded]
  exact dollars.mono (by norm_num)

theorem abs_units_vwap_sub_le (traded : s.volume ≠ 0) :
    |(units 4 s.vwapDouble : ℚ) - s.vwap * 10 ^ 4| ≤ 1 / 2 + s.vwap * 10 ^ 4 / 2 ^ 50 := by
  have nonneg : 0 ≤ s.vwap := by
    rw [vwap, if_neg traded]
    positivity
  have near := near_vwapDouble traded
  rw [Near, abs_of_nonneg nonneg] at near
  have rounding := abs_units_sub_le 4 s.vwapDouble
  have scaled : |s.vwapDouble * 10 ^ 4 - s.vwap * 10 ^ 4| ≤ s.vwap * 10 ^ 4 / 2 ^ 50 := by
    rw [← sub_mul, abs_mul, abs_of_pos (show (0 : ℚ) < 10 ^ 4 by norm_num)]
    linarith
  have split := abs_add_le ((units 4 s.vwapDouble : ℚ) - s.vwapDouble * 10 ^ 4)
    (s.vwapDouble * 10 ^ 4 - s.vwap * 10 ^ 4)
  rw [sub_add_sub_cancel] at split
  exact split.trans (add_le_add rounding scaled)

/-- The printed average lies where the average does. -/
theorem units_vwap_between {lo hi : Nat} (traded : s.volume ≠ 0)
    (low : lo * s.volume.toNat ≤ s.vwapNum.toNat) (high : s.vwapNum.toNat ≤ hi * s.volume.toNat)
    (short : hi < 2 ^ 32) : lo ≤ units 4 s.vwapDouble ∧ units 4 s.vwapDouble ≤ hi := by
  have volume := volume_pos traded
  have exact_ : s.vwap * 10 ^ 4 = s.vwapNum.toNat / s.volume.toNat := by
    rw [vwap, if_neg traded]
    ring
  have least : (lo : ℚ) ≤ s.vwap * 10 ^ 4 := by
    rw [exact_, le_div_iff₀ volume]
    exact_mod_cast low
  have greatest : s.vwap * 10 ^ 4 ≤ hi := by
    rw [exact_, div_le_iff₀ volume]
    exact_mod_cast high
  have bound : (hi : ℚ) < 2 ^ 32 := by exact_mod_cast short
  have near := near_vwapDouble traded
  have nonneg : 0 ≤ s.vwap * 10 ^ 4 := (Nat.cast_nonneg lo).trans least
  have nonneg' : 0 ≤ s.vwap := nonneg_of_mul_nonneg_left nonneg (by norm_num)
  rw [Near, abs_of_nonneg nonneg'] at near
  obtain ⟨below, above⟩ := abs_le.mp near
  have error : s.vwap * 10 ^ 4 / 2 ^ 50 < 1 / 2 := by
    rw [div_lt_iff₀ (by norm_num)]
    linarith
  have between : (lo : ℤ) ≤ units 4 s.vwapDouble ∧ units 4 s.vwapDouble ≤ (hi : ℤ) :=
    units_between (by push_cast; linarith) (by push_cast; linarith)
  exact_mod_cast between

/-! The imbalance. -/

theorem sum_pos (some_ : s.buyVol + s.sellVol ≠ 0) : (0 : ℚ) < (s.buyVol + s.sellVol).toNat :=
  Nat.cast_pos.mpr (Nat.pos_of_ne_zero fun zero => some_ (UInt64.toNat_inj.mp zero))

theorem near_imbalanceFloat (s : Snapshot) : Near (1 / 2 ^ 23) s.imbalance s.imbalanceFloat := by
  rw [imbalance, imbalanceFloat]
  split
  · simp [Near]
  · rename_i some_
    have quotient := near_quotient 52 (a := ((s.buyVol.toInt64 - s.sellVol.toInt64).toInt : ℚ))
      (by decide) (sum_pos some_).ne'
    exact (quotient.trans (near_toPrecision 23 _) (by positivity)).mono (by norm_num)

theorem imbalanceFloat_neg_iff : s.imbalanceFloat < 0 ↔ s.imbalance < 0 := by
  rw [imbalance, imbalanceFloat]
  split
  · exact Iff.rfl
  · rename_i some_
    exact toPrecision_neg_iff.trans (quotient_neg_iff (sum_pos some_))

theorem abs_imbalanceFloat_le (le : |s.imbalance| ≤ 1) : |s.imbalanceFloat| ≤ 1 := by
  rw [imbalance] at le
  rw [imbalanceFloat]
  split at le <;> rename_i some_
  · rw [if_pos some_]
    norm_num
  · rw [if_neg some_]
    exact abs_toPrecision_le_one (abs_quotient_le_one (sum_pos some_) le)

theorem imbalanceFloat_one (one : s.imbalance = 1) : s.imbalanceFloat = 1 := by
  rw [imbalance] at one
  rw [imbalanceFloat]
  split at one <;> rename_i some_
  · norm_num at one
  · have same := (div_eq_one_iff_eq (sum_pos some_).ne').mp one
    rw [if_neg some_, same]
    exact (congrArg toFloat (quotient_self (sum_pos some_))).trans toPrecision_one

theorem imbalanceFloat_neg_one (one : s.imbalance = -1) : s.imbalanceFloat = -1 := by
  rw [imbalance] at one
  rw [imbalanceFloat]
  split at one <;> rename_i some_
  · norm_num at one
  · have same := (div_eq_iff (sum_pos some_).ne').mp one
    rw [neg_one_mul] at same
    rw [if_neg some_, same]
    have quotient_ := (quotient_neg (p := 52) _ _).trans
      (congrArg Neg.neg (quotient_self (p := 52) (sum_pos some_)))
    refine (congrArg toFloat quotient_).trans ((toPrecision_neg 1).trans ?_)
    rw [toPrecision_one]

end Snapshot

/-! The columns of a row. -/

/-- What a row prints of the trades of its symbol, prices in units of 1/10000. -/
structure PrintsVwap (r : CsvRecord) (sym : Sym) (day : List Shipped) : Prop where
  volume : r.volume = sumOf .vwapDen sym day
  near : |(r.vwap : ℚ) - (sumOf .vwapNum sym day : ℚ) / sumOf .vwapDen sym day| ≤
    1 / 2 + (sumOf .vwapNum sym day : ℚ) / sumOf .vwapDen sym day / 2 ^ 50
  least : ∀ lo : Nat, (∀ x ∈ tradePrices sym day, lo ≤ x) → lo ≤ r.vwap
  greatest : ∀ hi : Nat, (∀ x ∈ tradePrices sym day, x ≤ hi) → r.vwap ≤ hi

theorem PrintsVwap.of_report {sym : Sym} {day window : List Shipped} (ts : UInt64)
    (symbol : List UInt8) (traded : tradePrices sym day ≠ [])
    (shares : sumOf .vwapDen sym day < 2 ^ 64) (paid : sumOf .vwapNum sym day < 2 ^ 64) :
    PrintsVwap (CsvRow.ofSnapshot ts symbol (report day window sym)).record sym day := by
  obtain ⟨x, traded⟩ := List.exists_mem_of_ne_nil _ traded
  have positive := sumOf_den_pos traded
  let s := report day window sym
  have volume : s.volume.toNat = sumOf .vwapDen sym day := UInt64.toNat_ofNat_of_lt' shares
  have num : s.vwapNum.toNat = sumOf .vwapNum sym day := UInt64.toNat_ofNat_of_lt' paid
  have some_ : s.volume ≠ 0 := by
    intro zero
    rw [zero] at volume
    exact positive.ne volume
  have top : ∀ y ∈ tradePrices sym day, y ≤ 2 ^ 32 - 1 := by
    intro y mem
    obtain ⟨m, -, rfl⟩ := List.mem_map.mp mem
    exact Nat.le_sub_one_of_lt (ShowsSlot.price_lt m)
  have between {lo hi : Nat} (low : ∀ y ∈ tradePrices sym day, lo ≤ y)
      (high : ∀ y ∈ tradePrices sym day, y ≤ hi) (short : hi < 2 ^ 32) :
      lo ≤ units 4 s.vwapDouble ∧ units 4 s.vwapDouble ≤ hi := by
    have above := sumOf_above low
    have below := sumOf_below high
    exact Snapshot.units_vwap_between some_ (by rw [volume, num]; omega)
      (by rw [volume, num]; omega) short
  refine ⟨volume, ?_, fun lo low => (between low top (by decide)).1, fun hi high => ?_⟩
  · have exact_ : s.vwap * 10 ^ 4 = (sumOf .vwapNum sym day : ℚ) / sumOf .vwapDen sym day := by
      rw [Snapshot.vwap, if_neg some_, volume, num]
      ring
    have near := Snapshot.abs_units_vwap_sub_le some_
    rwa [exact_] at near
  · have capped := @between 0 (min hi (2 ^ 32 - 1)) (fun _ _ => Nat.zero_le _)
      (fun y mem => le_min (high y mem) (top y mem)) (by omega)
    exact capped.2.trans (by exact_mod_cast min_le_left _ _)

/-- What a row prints of `B` shares bought and `S` sold, in millionths. -/
structure PrintsImbalance (r : CsvRow) (B S : Nat) : Prop where
  near : |(r.record.imbalance : ℚ) - sharesImbalance B S * 10 ^ 6| ≤ 1 / 2 + 1 / 8
  range : |r.record.imbalance| ≤ 10 ^ 6
  sign : (text 6 r.snap.imbalanceFloat).head? = some '-' ↔ B < S
  balanced : B = S → r.record.imbalance = 0
  bought : S = 0 → 0 < B → r.record.imbalance = 10 ^ 6
  sold : B = 0 → 0 < S → r.record.imbalance = -10 ^ 6

theorem imbalance_report {sym : Sym} {day window : List Shipped}
    (few : day.countP (fun m => m.kind = some .trade) < 2 ^ 31) :
    (report day window sym).imbalance =
      sharesImbalance (sharesOn 'B'.toUInt8 sym day) (sharesOn 'S'.toUInt8 sym day) := by
  have bound : ∀ side, sharesOn side sym day < 2 ^ 63 := by
    intro side
    have shares := sharesOn_le side sym day
    omega
  let acc : HostAccum := ⟨fun a s => UInt64.ofNat (sumOf a s day), fun a _ => a.initial⟩
  have exact_ : SidesExact acc sym _ _ :=
    .of_lt (congrArg UInt64.ofNat (sumOf_buyVol sym day))
      (congrArg UInt64.ofNat (sumOf_sellVol sym day)) (bound _) (bound _)
  exact exact_.imbalance (bound _) (bound _)

theorem sharesImbalance_neg_iff (B S : Nat) : sharesImbalance B S < 0 ↔ B < S := by
  rw [sharesImbalance]
  split
  · simp
    omega
  · rename_i some_
    have positive : (0 : ℚ) < B + S := by exact_mod_cast Nat.pos_of_ne_zero some_
    rw [div_lt_iff₀ positive, zero_mul, sub_neg, Nat.cast_lt]

theorem PrintsImbalance.of_exact {r : CsvRow} {B S : Nat}
    (exact_ : r.snap.imbalance = sharesImbalance B S) : PrintsImbalance r B S := by
  have range : |r.snap.imbalance| ≤ 1 := by
    rw [exact_]
    exact abs_le.mpr ⟨sharesImbalance_ge B S, sharesImbalance_le B S⟩
  have printed := abs_units_sub_le 6 r.snap.imbalanceFloat
  refine ⟨?_, ?_, ?_, ?_, ?_, ?_⟩
  · have near := Snapshot.near_imbalanceFloat r.snap
    have scaled : |r.snap.imbalanceFloat * 10 ^ 6 - r.snap.imbalance * 10 ^ 6| ≤ 1 / 8 := by
      rw [← sub_mul, abs_mul, abs_of_pos (show (0 : ℚ) < 10 ^ 6 by norm_num)]
      rw [Near] at near
      linarith
    have split := abs_add_le ((units 6 r.snap.imbalanceFloat : ℚ) - r.snap.imbalanceFloat * 10 ^ 6)
      (r.snap.imbalanceFloat * 10 ^ 6 - r.snap.imbalance * 10 ^ 6)
    rw [sub_add_sub_cancel, exact_] at split
    rw [exact_] at scaled
    exact split.trans (add_le_add printed scaled)
  · obtain ⟨low, high⟩ := abs_le.mp (Snapshot.abs_imbalanceFloat_le range)
    have between : -10 ^ 6 ≤ units 6 r.snap.imbalanceFloat ∧
        units 6 r.snap.imbalanceFloat ≤ 10 ^ 6 :=
      units_between (by push_cast; linarith) (by push_cast; linarith)
    exact abs_le.mpr between
  · rw [← sharesImbalance_neg_iff, ← exact_, ← Snapshot.imbalanceFloat_neg_iff, text]
    split
    · rename_i negative
      simp [negative]
    · rename_i nonneg
      have first : '-' ∉ decimal 6 (units 6 r.snap.imbalanceFloat).natAbs := dash_notMem_decimal
      simp only [List.nil_append, nonneg, iff_false]
      exact fun head => first (List.mem_of_mem_head? head)
  · rintro rfl
    have none_ : r.snap.imbalance = 0 := by
      rw [exact_, sharesImbalance]
      simp
    have near := Snapshot.near_imbalanceFloat r.snap
    rw [Near, none_, sub_zero, abs_zero, mul_zero, abs_nonpos_iff] at near
    change units 6 r.snap.imbalanceFloat = 0
    rw [near, units, zero_mul, roundEven_zero]
  · rintro rfl positive
    have one : r.snap.imbalance = 1 := by
      rw [exact_, sharesImbalance, if_neg (by omega), Nat.cast_zero, sub_zero, add_zero]
      exact div_self (by exact_mod_cast positive.ne')
    change units 6 r.snap.imbalanceFloat = 10 ^ 6
    rw [Snapshot.imbalanceFloat_one one]
    exact units_eq (by norm_num)
  · rintro rfl positive
    have one : r.snap.imbalance = -1 := by
      rw [exact_, sharesImbalance, if_neg (by omega), Nat.cast_zero, zero_sub, zero_add, neg_div]
      exact congrArg Neg.neg (div_self (by exact_mod_cast positive.ne'))
    change units 6 r.snap.imbalanceFloat = -10 ^ 6
    rw [Snapshot.imbalanceFloat_neg_one one]
    exact units_eq (by norm_num)

/-! The columns of a run. -/

/-- What the snapshot `i` reports: the messages shipped since the last market open. -/
def dayOf (interval : Nat) (ms : List Msg) (i : Nat) : List Shipped :=
  since ((batchesOf ms).take ((i + 1) * interval))

theorem snapshotsOf_day {interval i : Nat} {ms : List Msg} {p : SnapshotCsv}
    (positive : 0 < interval) (here : (snapshotsOf interval ms)[i]? = some p) :
    ∃ window, p.snap = report (dayOf interval ms i) window := by
  have count : (periodicSnapshots interval ms).length = (batchesOf ms).length / interval := by
    rw [periodicSnapshots, List.length_map, List.length_range]
  rw [snapshotsOf] at here
  rcases Nat.lt_trichotomy i (periodicSnapshots interval ms).length with periodic | final | beyond
  · rw [List.getElem?_append_left periodic, periodicSnapshots, List.getElem?_map,
      List.getElem?_range (count ▸ periodic)] at here
    exact ⟨_, congrArg SnapshotCsv.snap (Option.some_inj.mp here).symm⟩
  · rw [final, List.getElem?_concat_length] at here
    have all : (batchesOf ms).take ((i + 1) * interval) = batchesOf ms := by
      apply List.take_of_length_le
      rw [final, count]
      exact (Nat.lt_mul_of_div_lt (Nat.lt_succ_self _) positive).le
    rw [dayOf, all]
    exact ⟨_, congrArg SnapshotCsv.snap (Option.some_inj.mp here).symm⟩
  · rw [List.getElem?_eq_none (by simpa using beyond)] at here
    cases here

section Run

variable {σ : Type} {source : ByteSource σ} {s : σ} {opt : Options} {turns : Nat}
  {r : CpuRun 24 σ} {ms : List Msg} {q : ItchParser σ}

theorem runCpu_row (yields : ItchParser.Yields source (.start s ItchParser.defaultBufBytes) ms q)
    (result : runCpu source opt turns s = some r) {i : Nat} {p : SnapshotCsv}
    (here : r.printed[i]? = some p) :
    ∃ window, p.snap =
      report (dayOf opt.snapshotInterval (readUnder opt.maxMsgs ms) i) window := by
  rw [(runCpu_told yields result).printed] at here
  exact snapshotsOf_day opt.interval_pos here

/-- In every row of a run the average price lies between the prices traded since market
open and is theirs up to half of the last place and a part in 2^50, as long as their sums fit
in 64 bits. -/
theorem runCpu_prints_vwap
    (yields : ItchParser.Yields source (.start s ItchParser.defaultBufBytes) ms q)
    (result : runCpu source opt turns s = some r) :
    ∀ i p, r.printed[i]? = some p → ∀ sym,
      let day := dayOf opt.snapshotInterval (readUnder opt.maxMsgs ms) i
      tradePrices sym day ≠ [] → sumOf .vwapDen sym day < 2 ^ 64 →
      sumOf .vwapNum sym day < 2 ^ 64 →
      PrintsVwap (CsvRow.ofSnapshot p.ts (p.symbols.name sym.val) (p.snap sym)).record sym day := by
  intro i p here sym day traded shares paid
  obtain ⟨window, snap⟩ := runCpu_row yields result here
  rw [snap]
  exact .of_report _ _ traded shares paid

theorem dayOf_frames (positive : ∀ m ∈ ms, 0 < m.len) (long : ∀ m ∈ ms, LongEnough m.bytes)
    (interval i : Nat) :
    dayOf interval (ms.map fun m => Msg.ofFrame m.bytes) i = dayOf interval ms i := by
  rw [dayOf, dayOf, batchesOf, batchesOf, itemsOf_frames positive long]

theorem runCpu_reopened :
    ∃ r ms q p, runCpu memSource ⟨1, 0, by decide⟩ 8 reopened = some r ∧
      ItchParser.Yields memSource (.start reopened ItchParser.defaultBufBytes) ms q ∧
      r.printed[1]? = some p ∧ dayOf 1 (readUnder 0 ms) 1 =
        dayOf 1 ((frames reopened).map Msg.ofFrame) 1 := by
  obtain ⟨r, result, volumes⟩ := Option.map_eq_some_iff.mp reopened_volumes
  obtain ⟨ms, q, yields, same⟩ := hands_stream memSource_delivers reopened
  have long : ∀ m ∈ ms, LongEnough m.bytes := fun m mem =>
    (reopened_exact _ (same ▸ List.mem_map_of_mem mem)).longEnough
  have days := dayOf_frames yields.positive long 1 1
  have three : r.printed.length = 3 := by simpa using congrArg List.length volumes
  have inside : 1 < r.printed.length := by omega
  refine ⟨r, ms, q, _, result, yields, List.getElem?_eq_getElem inside, ?_⟩
  rw [← show _ = frames reopened from same, List.map_map, Function.comp_def, days]
  rfl

/-- The one price behind the market open is printed. -/
theorem runCpu_prints_vwap_reopened :
    ∃ r p, runCpu memSource ⟨1, 0, by decide⟩ 8 reopened = some r ∧ r.printed[1]? = some p ∧
      (CsvRow.ofSnapshot p.ts (p.symbols.name (7 : Sym).val) (p.snap 7)).record.vwap = 1235000 := by
  obtain ⟨r, ms, q, p, result, yields, here, day⟩ := runCpu_reopened
  have columns := runCpu_prints_vwap yields result 1 p here 7
  have prices : tradePrices 7 (dayOf 1 (readUnder 0 ms) 1) = [1235000] := by
    rw [day]
    decide +kernel
  have prints := columns (prices ▸ List.cons_ne_nil _ _) (by rw [day]; decide +kernel)
    (by rw [day]; decide +kernel)
  have low := prints.least 1235000 (by rw [prices]; simp)
  have high := prints.greatest 1235000 (by rw [prices]; simp)
  exact ⟨r, p, result, here, le_antisymm high low⟩

/-- In every row of a run with fewer than 2^31 trades since market open the imbalance is
that of the shares on the two sides, from -1 to 1 and with its sign. -/
theorem runCpu_prints_imbalance
    (yields : ItchParser.Yields source (.start s ItchParser.defaultBufBytes) ms q)
    (result : runCpu source opt turns s = some r) :
    ∀ i p, r.printed[i]? = some p → ∀ sym,
      let day := dayOf opt.snapshotInterval (readUnder opt.maxMsgs ms) i
      day.countP (fun m => m.kind = some .trade) < 2 ^ 31 →
      PrintsImbalance (CsvRow.ofSnapshot p.ts (p.symbols.name sym.val) (p.snap sym))
        (sharesOn 'B'.toUInt8 sym day) (sharesOn 'S'.toUInt8 sym day) := by
  intro i p here sym day few
  obtain ⟨window, snap⟩ := runCpu_row yields result here
  exact .of_exact ((congrArg (fun snap => (snap sym).imbalance) snap).trans (imbalance_report few))

/-- All shares behind the market open are sold. -/
theorem runCpu_prints_imbalance_reopened :
    ∃ r p, runCpu memSource ⟨1, 0, by decide⟩ 8 reopened = some r ∧ r.printed[1]? = some p ∧
      (CsvRow.ofSnapshot p.ts (p.symbols.name (7 : Sym).val) (p.snap 7)).record.imbalance =
        -10 ^ 6 := by
  obtain ⟨r, ms, q, p, result, yields, here, day⟩ := runCpu_reopened
  have columns := runCpu_prints_imbalance yields result 1 p here 7
  have prints := columns (by rw [day]; decide +kernel)
  exact ⟨r, p, result, here, prints.sold (by rw [day]; decide +kernel) (by rw [day]; decide +kernel)⟩

end Run

end ItchAggregator
