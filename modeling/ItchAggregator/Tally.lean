import ItchAggregator.Batches
import ItchAggregator.CpuReference

/-! What the shipped messages of a symbol add up to, in numbers without a width, and
the accumulators as these sums reduced to theirs. A message contributes to each
array by its fields alone, so the arrays after a stretch of messages are the arrays
before it and the sums over the stretch. -/

namespace ItchAggregator

namespace HostAccum

variable (acc : HostAccum)

@[simp] theorem set64_u64 (a b : Array64) (sym s : Sym) (v : UInt64) :
    (acc.set64 a sym v).u64 b s = if b = a ∧ s = sym then v else acc.u64 b s := by
  by_cases hb : b = a
  · subst hb
    by_cases hs : s = sym <;> simp [set64, hs]
  · simp [set64, hb]

@[simp] theorem set64_u32 (a : Array64) (sym : Sym) (v : UInt64) :
    (acc.set64 a sym v).u32 = acc.u32 := rfl

@[simp] theorem set32_u32 (a b : Array32) (sym s : Sym) (v : UInt32) :
    (acc.set32 a sym v).u32 b s = if b = a ∧ s = sym then v else acc.u32 b s := by
  by_cases hb : b = a
  · subst hb
    by_cases hs : s = sym <;> simp [set32, hs]
  · simp [set32, hb]

@[simp] theorem set32_u64 (a : Array32) (sym : Sym) (v : UInt32) :
    (acc.set32 a sym v).u64 = acc.u64 := rfl

@[simp] theorem add64_u64 (a b : Array64) (sym s : Sym) (v : UInt64) :
    (acc.add64 a sym v).u64 b s = acc.u64 b s + if b = a ∧ s = sym then v else 0 := by
  unfold add64
  rw [set64_u64]
  split
  · rename_i both
    rw [both.1, both.2]
  · rw [add_zero]

@[simp] theorem add64_u32 (a : Array64) (sym : Sym) (v : UInt64) :
    (acc.add64 a sym v).u32 = acc.u32 := rfl

@[simp] theorem count_u32 (a b : Array32) (sym s : Sym) :
    (acc.count a sym).u32 b s = acc.u32 b s + if b = a ∧ s = sym then 1 else 0 := by
  unfold count
  rw [set32_u32]
  split
  · rename_i both
    rw [both.1, both.2]
  · rw [add_zero]

@[simp] theorem count_u64 (a : Array32) (sym : Sym) : (acc.count a sym).u64 = acc.u64 := rfl

@[simp] theorem quote_u64 (sym : Sym) (side : UInt8) (price : UInt32) :
    (acc.quote sym side price).u64 = acc.u64 := by
  simp only [quote]
  split
  · split <;> rfl
  · split
    · split <;> rfl
    · rfl

theorem quote_count {a : Array32} (sym s : Sym) (side : UInt8) (price : UInt32)
    (bid : a ≠ .winBid) (ask : a ≠ .winAsk) :
    (acc.quote sym side price).u32 a s =
      acc.u32 a s + if a = .addCount ∧ s = sym then 1 else 0 := by
  have counted := acc.count_u32 .addCount a sym s
  rw [← counted]
  simp only [quote]
  split
  · split
    · rw [set32_u32, if_neg fun both => bid both.1]
    · rfl
  · split
    · split
      · rw [set32_u32, if_neg fun both => ask both.1]
      · rfl
    · rfl

theorem quote_winBid (sym s : Sym) (side : UInt8) (price : UInt32) :
    ((acc.quote sym side price).u32 .winBid s).toNat =
      if s = sym ∧ side = 'B'.toUInt8 then max (acc.u32 .winBid s).toNat price.toNat
      else (acc.u32 .winBid s).toNat := by
  simp only [quote, count_u32, reduceCtorEq, false_and, if_false, add_zero]
  by_cases bid : side = 'B'.toUInt8
  · by_cases hs : s = sym
    · subst hs
      have better := UInt32.lt_iff_toNat_lt (a := acc.u32 .winBid s) (b := price)
      simp only [bid, if_true, and_self]
      split
      · rename_i raised
        have := better.mp raised
        simp
        omega
      · rename_i kept
        have := mt better.mpr kept
        simp
        omega
    · simp only [bid, if_true, hs, false_and, if_false]
      split <;> simp [hs]
  · simp only [bid, if_false, and_false]
    split
    · split <;> simp
    · simp

theorem quote_winAsk (sym s : Sym) (side : UInt8) (price : UInt32) :
    ((acc.quote sym side price).u32 .winAsk s).toNat =
      if s = sym ∧ side = 'S'.toUInt8 then min (acc.u32 .winAsk s).toNat price.toNat
      else (acc.u32 .winAsk s).toNat := by
  simp only [quote, count_u32, reduceCtorEq, false_and, if_false, add_zero]
  by_cases bid : side = 'B'.toUInt8
  · have ask : ¬(s = sym ∧ side = 'S'.toUInt8) := by
      rintro ⟨_, ask⟩
      rw [bid] at ask
      exact absurd ask (by decide)
    rw [if_pos bid, if_neg ask]
    split <;> simp
  · rw [if_neg bid]
    by_cases ask : side = 'S'.toUInt8
    · by_cases hs : s = sym
      · subst hs
        have better := UInt32.lt_iff_toNat_lt (a := price) (b := acc.u32 .winAsk s)
        simp only [ask, if_true, and_self]
        split
        · rename_i lowered
          have := better.mp lowered
          simp
          omega
        · rename_i kept
          have := mt better.mpr kept
          simp
          omega
      · simp only [ask, if_true, hs, false_and, if_false]
        split <;> simp [hs]
    · simp [ask]

end HostAccum

namespace Shipped

/-! The fields of a shipped message that are counted, from the frame's bytes. -/

def data (m : Shipped) : Ptr := ptrOf m.frame

def kind (m : Shipped) : Option MsgType := msgType? m.type

def locatedAt (s : Sym) (m : Shipped) : Bool :=
  (loadBe16 (shift m.data Ofs.locate)).toNat == s.val

def price (m : Shipped) : Nat :=
  match m.kind with
  | some .addOrder | some .addOrderMpid => (loadBe32 (shift m.data Ofs.addPrice)).toNat
  | some .orderReplace => (loadBe32 (shift m.data Ofs.replacePrice)).toNat
  | some .trade => (loadBe32 (shift m.data Ofs.tradePrice)).toNat
  | some .tradeCross => (loadBe32 (shift m.data Ofs.crossPrice)).toNat
  | _ => 0

def qty (m : Shipped) : Nat :=
  match m.kind with
  | some .trade => (loadBe32 (shift m.data Ofs.tradeShares)).toNat
  | some .tradeCross => (loadBe64 (shift m.data Ofs.crossShares64)).toNat
  | some .orderCancel => (loadBe32 (shift m.data Ofs.cancelCanceled)).toNat
  | _ => 0

def side (m : Shipped) : UInt8 :=
  match m.kind with
  | some .addOrder | some .addOrderMpid => m.data Ofs.addSide
  | some .orderReplace => m.sideTag
  | some .trade => m.data Ofs.tradeSide
  | _ => 0

/-- What the message adds to a 64-bit array. -/
def flow (a : Array64) (m : Shipped) : Nat :=
  match a, m.kind with
  | .vwapNum, some .trade | .vwapNum, some .tradeCross => m.price * m.qty
  | .vwapDen, some .trade | .vwapDen, some .tradeCross => m.qty
  | .buyVol, some .trade => if m.side = 'B'.toUInt8 then m.qty else 0
  | .sellVol, some .trade => if m.side = 'S'.toUInt8 then m.qty else 0
  | .cancelShares, some .orderCancel => m.qty
  | _, _ => 0

/-- Does the message count in a 32-bit counter? -/
def counts (a : Array32) (m : Shipped) : Bool :=
  match a, m.kind with
  | .tradeCount, some .trade | .tradeCount, some .tradeCross => decide (0 < m.qty)
  | .addCount, some .addOrder | .addCount, some .addOrderMpid | .addCount, some .orderReplace => true
  | _, _ => false

def quoteOn (side : UInt8) (m : Shipped) : Option Nat :=
  match m.kind with
  | some .addOrder | some .addOrderMpid | some .orderReplace =>
    if m.side = side then some m.price else none
  | _ => none

end Shipped

/-- A slot in memory that shows the shipped message `m`. -/
structure ShowsSlot (slot : Ptr) (m : Shipped) : Prop where
  same : SameMessage m.data slot
  tag : m.kind = some .orderReplace → slot slotSideTag = m.sideTag

namespace ShowsSlot

variable {slot : Ptr} {m : Shipped} (shows : ShowsSlot slot m) (acc : HostAccum)

include shows

theorem type_eq : slot Ofs.type = m.type := by
  rw [← shows.same.type, Shipped.type, Shipped.data]
  cases m.frame <;> rfl

theorem kind_eq : msgType? (slot Ofs.type) = m.kind := by rw [shows.type_eq, Shipped.kind]

theorem length_eq {t : MsgType} (kind : m.kind = some t) :
    msgLength (m.data Ofs.type) = msgLength t.code := by
  rw [shows.same.type, shows.type_eq, msgType?_eq_some.mp kind]

/-- The aggregation of a slot, by the fields of its message. -/
theorem aggregate_eq : cpuAggregateSlot slot acc =
    if h : (loadBe16 (shift m.data Ofs.locate)).toNat < maxSymbols then
      let sym : Sym := ⟨_, h⟩
      match m.kind with
      | some .addOrder | some .addOrderMpid | some .orderReplace =>
        acc.quote sym m.side (UInt32.ofNat m.price)
      | some .orderCancel => acc.add64 .cancelShares sym (UInt64.ofNat m.qty)
      | some .trade =>
        if m.qty = 0 then acc
        else
          let acc := acc.add64 .vwapNum sym (UInt64.ofNat (m.price * m.qty))
          let acc := (acc.add64 .vwapDen sym (UInt64.ofNat m.qty)).count .tradeCount sym
          if m.side = 'B'.toUInt8 then acc.add64 .buyVol sym (UInt64.ofNat m.qty)
          else if m.side = 'S'.toUInt8 then acc.add64 .sellVol sym (UInt64.ofNat m.qty)
          else acc
      | some .tradeCross =>
        if m.qty = 0 then acc
        else
          let acc := acc.add64 .vwapNum sym (UInt64.ofNat (m.price * m.qty))
          (acc.add64 .vwapDen sym (UInt64.ofNat m.qty)).count .tradeCount sym
      | _ => acc
    else acc := by
  cases kind : m.kind with
  | none => simp [cpuAggregateSlot, shows.kind_eq, kind]
  | some t =>
    have length := shows.length_eq kind
    have locate := shows.same.load16 (a := Ofs.locate)
      (by rw [length]; cases t <;> decide)
    cases t with
    | systemEvent | stockDir | orderDelete => simp [cpuAggregateSlot, shows.kind_eq, kind]
    | addOrder | addOrderMpid =>
      have side := shows.same.fields Ofs.addSide (by rw [length]; decide)
      have price := shows.same.load32 (a := Ofs.addPrice) (by rw [length]; decide)
      simp only [cpuAggregateSlot, shows.kind_eq, kind, ← locate, ← side, ← price, Shipped.side,
        Shipped.price, UInt32.ofNat_toNat]
    | orderReplace =>
      have price := shows.same.load32 (a := Ofs.replacePrice) (by rw [length]; decide)
      simp only [cpuAggregateSlot, shows.kind_eq, kind, ← locate, shows.tag kind, ← price,
        Shipped.side, Shipped.price, UInt32.ofNat_toNat]
    | orderCancel =>
      have qty := shows.same.load32 (a := Ofs.cancelCanceled) (by rw [length]; decide)
      simp only [cpuAggregateSlot, shows.kind_eq, kind, ← locate, ← qty, Shipped.qty,
        UInt64.ofNat_uInt32ToNat]
    | trade =>
      have side := shows.same.fields Ofs.tradeSide (by rw [length]; decide)
      have price := shows.same.load32 (a := Ofs.tradePrice) (by rw [length]; decide)
      have qty := shows.same.load32 (a := Ofs.tradeShares) (by rw [length]; decide)
      have zero : (loadBe32 (shift m.data Ofs.tradeShares)).toUInt64 = 0 ↔
          (loadBe32 (shift m.data Ofs.tradeShares)).toNat = 0 := by
        rw [← UInt64.toNat_inj, UInt32.toNat_toUInt64]
        rfl
      simp only [cpuAggregateSlot, shows.kind_eq, kind, ← locate, ← side, ← price, ← qty, Shipped.qty,
        Shipped.side, Shipped.price, UInt64.ofNat_mul, UInt64.ofNat_uInt32ToNat, zero]
    | tradeCross =>
      have price := shows.same.load32 (a := Ofs.crossPrice) (by rw [length]; decide)
      have qty := shows.same.load64 (a := Ofs.crossShares64) (by rw [length]; decide)
      have zero : loadBe64 (shift m.data Ofs.crossShares64) = 0 ↔
          (loadBe64 (shift m.data Ofs.crossShares64)).toNat = 0 := by
        rw [← UInt64.toNat_inj]
        rfl
      simp only [cpuAggregateSlot, shows.kind_eq, kind, ← locate, ← price, ← qty, Shipped.qty,
        Shipped.price, UInt64.ofNat_mul, UInt64.ofNat_uInt32ToNat, UInt64.ofNat_toNat, zero]

omit shows in
theorem locatedAt_iff {h : (loadBe16 (shift m.data Ofs.locate)).toNat < maxSymbols} (s : Sym) :
    m.locatedAt s = true ↔ s = ⟨_, h⟩ := by
  simp only [Shipped.locatedAt, beq_iff_eq, Fin.ext_iff]
  exact eq_comm

omit shows in
theorem not_locatedAt (outside : ¬(loadBe16 (shift m.data Ofs.locate)).toNat < maxSymbols) (s : Sym) :
    m.locatedAt s = false := by
  have hs := s.isLt
  simp only [Shipped.locatedAt, beq_eq_false_iff_ne]
  omega

theorem aggregate_u64 (a : Array64) (s : Sym) :
    (cpuAggregateSlot slot acc).u64 a s =
      acc.u64 a s + UInt64.ofNat (if m.locatedAt s then m.flow a else 0) := by
  rw [shows.aggregate_eq]
  by_cases h : (loadBe16 (shift m.data Ofs.locate)).toNat < maxSymbols
  · rw [dif_pos h]
    have here := locatedAt_iff (m := m) (h := h) s
    generalize (⟨_, h⟩ : Sym) = sym at here ⊢
    simp only [here]
    cases kind : m.kind with
    | none => simp [Shipped.flow, kind]
    | some t =>
      cases t with
      | systemEvent | stockDir | orderDelete | addOrder | addOrderMpid | orderReplace =>
        simp [Shipped.flow, kind]
      | orderCancel => cases a <;> simp [Shipped.flow, kind, apply_ite UInt64.ofNat]
      | trade =>
        by_cases zero : m.qty = 0
        · cases a <;> simp [Shipped.flow, kind, zero]
        · simp only [zero, if_false]
          have sell : m.side = 'B'.toUInt8 → m.side ≠ 'S'.toUInt8 := by
            rintro bid
            rw [bid]
            decide
          by_cases buy : m.side = 'B'.toUInt8
          · have := sell buy
            cases a <;> simp_all [Shipped.flow, apply_ite UInt64.ofNat]
          · by_cases ask : m.side = 'S'.toUInt8 <;>
              cases a <;> simp_all [Shipped.flow, apply_ite UInt64.ofNat]
      | tradeCross =>
        by_cases zero : m.qty = 0
        · cases a <;> simp [Shipped.flow, kind, zero]
        · cases a <;> simp [Shipped.flow, kind, zero, apply_ite UInt64.ofNat]
  · rw [dif_neg h, if_neg (by simp [not_locatedAt h s])]
    simp

theorem aggregate_count {a : Array32} (bid : a ≠ .winBid) (ask : a ≠ .winAsk) (s : Sym) :
    (cpuAggregateSlot slot acc).u32 a s =
      acc.u32 a s + UInt32.ofNat (if m.locatedAt s && m.counts a then 1 else 0) := by
  rw [shows.aggregate_eq]
  by_cases h : (loadBe16 (shift m.data Ofs.locate)).toNat < maxSymbols
  · rw [dif_pos h]
    have here := locatedAt_iff (m := m) (h := h) s
    generalize (⟨_, h⟩ : Sym) = sym at here ⊢
    simp only [Bool.and_eq_true, here]
    cases kind : m.kind with
    | none => simp [Shipped.counts, kind]
    | some t =>
      cases t with
      | systemEvent | stockDir | orderDelete | orderCancel => simp [Shipped.counts, kind]
      | addOrder | addOrderMpid | orderReplace =>
        simp only [HostAccum.quote_count _ _ _ _ _ bid ask]
        cases a <;> simp_all [Shipped.counts, apply_ite UInt32.ofNat]
      | trade =>
        by_cases zero : m.qty = 0
        · cases a <;> simp [Shipped.counts, kind, zero]
        · have positive := Nat.pos_of_ne_zero zero
          simp only [zero, if_false]
          split
          · cases a <;> simp_all [Shipped.counts, apply_ite UInt32.ofNat]
          · split <;> cases a <;> simp_all [Shipped.counts, apply_ite UInt32.ofNat]
      | tradeCross =>
        by_cases zero : m.qty = 0
        · cases a <;> simp [Shipped.counts, kind, zero]
        · have positive := Nat.pos_of_ne_zero zero
          cases a <;> simp_all [Shipped.counts, apply_ite UInt32.ofNat]
  · rw [dif_neg h, if_neg (by simp [not_locatedAt h s])]
    simp

omit shows in
theorem price_lt (m : Shipped) : m.price < 2 ^ 32 := by
  unfold Shipped.price
  split <;> first | exact UInt32.toNat_lt _ | decide

theorem aggregate_window {a : Array32} {side : UInt8} {better : Nat → Nat → Nat}
    (window : a ≠ .tradeCount)
    (quote : ∀ (acc : HostAccum) (sym s : Sym) (tag : UInt8) (price : UInt32),
      ((acc.quote sym tag price).u32 a s).toNat =
        if s = sym ∧ tag = side then better (acc.u32 a s).toNat price.toNat
        else (acc.u32 a s).toNat) (s : Sym) :
    ((cpuAggregateSlot slot acc).u32 a s).toNat =
      (if m.locatedAt s then (m.quoteOn side).toList else []).foldl better (acc.u32 a s).toNat := by
  rw [shows.aggregate_eq]
  by_cases h : (loadBe16 (shift m.data Ofs.locate)).toNat < maxSymbols
  · rw [dif_pos h]
    have here := locatedAt_iff (m := m) (h := h) s
    generalize (⟨_, h⟩ : Sym) = sym at here ⊢
    simp only [here]
    cases kind : m.kind with
    | none => simp [Shipped.quoteOn, kind]
    | some t =>
      cases t with
      | systemEvent | stockDir | orderDelete | orderCancel => simp [Shipped.quoteOn, kind]
      | addOrder | addOrderMpid | orderReplace =>
        have price : (UInt32.ofNat m.price).toNat = m.price := UInt32.toNat_ofNat_of_lt' (price_lt m)
        simp only [quote, price, Shipped.quoteOn, kind]
        by_cases hs : s = sym <;> by_cases tagged : m.side = side <;> simp [hs, tagged]
      | trade | tradeCross =>
        simp only [Shipped.quoteOn, kind]
        split <;> (try split) <;> (try split) <;> simp [window]
  · rw [dif_neg h, if_neg (by simp [not_locatedAt h s])]
    rfl

theorem aggregate_winBid (s : Sym) :
    ((cpuAggregateSlot slot acc).u32 .winBid s).toNat =
      (if m.locatedAt s then (m.quoteOn 'B'.toUInt8).toList else []).foldl max
        (acc.u32 .winBid s).toNat :=
  shows.aggregate_window acc (by decide) HostAccum.quote_winBid s

theorem aggregate_winAsk (s : Sym) :
    ((cpuAggregateSlot slot acc).u32 .winAsk s).toNat =
      (if m.locatedAt s then (m.quoteOn 'S'.toUInt8).toList else []).foldl min
        (acc.u32 .winAsk s).toNat :=
  shows.aggregate_window acc (by decide) HostAccum.quote_winAsk s

end ShowsSlot

theorem msgLength_le (type : UInt8) : msgLength type ≤ slotSideTag := by
  unfold msgLength
  cases msgType? type with
  | none => decide
  | some t => cases t <;> decide

theorem Shipped.slot_getD (m : Shipped) {i : Nat} (before : i < slotSideTag) :
    m.slot.getD i 0 = m.data i := by
  have padded : (m.frame ++ List.replicate (slotBytes - m.frame.length) 0).getD i 0 = m.data i := by
    by_cases own : i < m.frame.length
    · rw [List.getD_append _ _ _ _ own]
      rfl
    · rw [List.getD_append_right _ _ _ _ (Nat.le_of_not_lt own), Shipped.data, ptrOf,
        List.getD_eq_default m.frame 0 (Nat.le_of_not_lt own)]
      simp [List.getD, List.getElem?_replicate]
      split <;> rfl
  rw [← padded, Shipped.slot]
  split
  · simp [List.getD, List.getElem?_set_ne (Nat.ne_of_gt before)]
  · rfl

theorem ShowsSlot.of_slot {slot : Ptr} {m : Shipped} (fits : m.frame.length ≤ slotBytes)
    (packed : bytes slot slotBytes = m.slot) : ShowsSlot slot m where
  same := by
    have own : ∀ i < slotSideTag, m.data i = slot i := by
      intro i hi
      rw [← m.slot_getD hi, ← packed]
      exact getD_bytes slot (hi.trans (by decide))
    exact ⟨own _ (by decide), fun i hi => own i (hi.trans_le (msgLength_le _))⟩
  tag := by
    intro kind
    have type : m.type = MsgType.orderReplace.code := msgType?_eq_some.mp kind
    rw [← m.slot_tag fits type, ← packed]
    exact (getD_bytes slot (by decide)).symm

/-! Stretches of shipped messages. -/

/-- What the messages of a symbol add up to in a 64-bit array. -/
def sumOf (a : Array64) (s : Sym) (ms : List Shipped) : Nat :=
  ((ms.filter (Shipped.locatedAt s)).map (Shipped.flow a)).sum

def countOf (a : Array32) (s : Sym) (ms : List Shipped) : Nat :=
  (ms.filter (Shipped.locatedAt s)).countP (Shipped.counts a)

def quotesOf (side : UInt8) (s : Sym) (ms : List Shipped) : List Nat :=
  (ms.filter (Shipped.locatedAt s)).filterMap (Shipped.quoteOn side)

/-- The highest bid, the sentinel without one. -/
def bestBid (s : Sym) (ms : List Shipped) : Nat :=
  (quotesOf 'B'.toUInt8 s ms).foldl max bidEmpty.toNat

def bestAsk (s : Sym) (ms : List Shipped) : Nat :=
  (quotesOf 'S'.toUInt8 s ms).foldl min askEmpty.toNat

/-- The accumulators show the messages `day`, and those of `window` in the quotes. -/
structure Tallied (acc : HostAccum) (day window : List Shipped) : Prop where
  u64 : ∀ a s, acc.u64 a s = UInt64.ofNat (sumOf a s day)
  counts : ∀ a s, a ≠ .winBid → a ≠ .winAsk → acc.u32 a s = UInt32.ofNat (countOf a s day)
  bid : ∀ s, (acc.u32 .winBid s).toNat = bestBid s window
  ask : ∀ s, (acc.u32 .winAsk s).toNat = bestAsk s window

namespace Tallied

variable {acc : HostAccum} {day window : List Shipped}

theorem reset : Tallied .reset [] [] where
  u64 := fun _ _ => rfl
  counts := by
    intro a s bid ask
    cases a with
    | winBid => exact absurd rfl bid
    | winAsk => exact absurd rfl ask
    | tradeCount | addCount => rfl
  bid := fun _ => rfl
  ask := fun _ => rfl

theorem slot {slot : Ptr} {m : Shipped} (tallied : Tallied acc day window)
    (shows : ShowsSlot slot m) :
    Tallied (cpuAggregateSlot slot acc) (day ++ [m]) (window ++ [m]) where
  u64 := by
    intro a s
    rw [shows.aggregate_u64, tallied.u64, ← UInt64.ofNat_add]
    by_cases located : m.locatedAt s = true <;> simp [sumOf, located]
  counts := by
    intro a s bid ask
    rw [shows.aggregate_count acc bid ask, tallied.counts a s bid ask, ← UInt32.ofNat_add]
    by_cases located : m.locatedAt s = true <;> by_cases counts : m.counts a = true <;>
      simp [countOf, located, counts]
  bid := by
    intro s
    rw [shows.aggregate_winBid, tallied.bid, bestBid, bestBid, ← List.foldl_append]
    by_cases located : m.locatedAt s = true <;>
      cases quote : m.quoteOn 'B'.toUInt8 <;> simp [quotesOf, located, quote]
  ask := by
    intro s
    rw [shows.aggregate_winAsk, tallied.ask, bestAsk, bestAsk, ← List.foldl_append]
    by_cases located : m.locatedAt s = true <;>
      cases quote : m.quoteOn 'S'.toUInt8 <;> simp [quotesOf, located, quote]

theorem slots {slots : Ptr} {items : List Shipped} (tallied : Tallied acc day window)
    (shows : ∀ i m, items[i]? = some m → ShowsSlot (shift slots (i * slotBytes)) m) :
    Tallied (cpuAggregate slots items.length acc) (day ++ items) (window ++ items) := by
  induction items using List.reverseRecOn with
  | nil => simpa [cpuAggregate] using tallied
  | append_singleton items m ih =>
    have before := ih fun i n here => shows i n (by
      rw [List.getElem?_append_left (List.getElem?_eq_some_iff.mp here).1, here])
    have last := shows items.length m List.getElem?_concat_length
    have step := before.slot last
    rw [List.append_assoc, List.append_assoc] at step
    rw [cpuAggregate, List.length_append, List.length_singleton, List.range_succ, List.foldl_append]
    exact step

theorem batch {dst : Ptr} {items : List Shipped} (tallied : Tallied acc day window)
    (packed : bytes dst (items.length * slotBytes) = items.flatMap Shipped.slot)
    (whole : ∀ m ∈ items, m.frame.length ≤ slotBytes) :
    Tallied (cpuAggregate dst items.length acc) (day ++ items) (window ++ items) := by
  refine tallied.slots fun i m here => ?_
  have length : ∀ n ∈ items, n.slot.length = slotBytes := by
    intro n hn
    have fits := whole n hn
    unfold Shipped.slot
    split <;> simp <;> omega
  exact .of_slot (whole m (List.mem_of_getElem? here)) (BatchAssembler.slot_at packed length here)

end Tallied

/-- The row of a symbol after the messages `day`, with the quotes of `window`. -/
def report (day window : List Shipped) (s : Sym) : Snapshot where
  vwapNum := UInt64.ofNat (sumOf .vwapNum s day)
  volume := UInt64.ofNat (sumOf .vwapDen s day)
  buyVol := UInt64.ofNat (sumOf .buyVol s day)
  sellVol := UInt64.ofNat (sumOf .sellVol s day)
  cancelShares := UInt64.ofNat (sumOf .cancelShares s day)
  bid := UInt32.ofNat (bestBid s window)
  ask := UInt32.ofNat (bestAsk s window)
  trades := UInt32.ofNat (countOf .tradeCount s day)
  adds := UInt32.ofNat (countOf .addCount s day)

namespace Tallied

variable {acc : HostAccum} {day window : List Shipped} (tallied : Tallied acc day window)

include tallied

theorem rows : (cpuSnapshot acc).1 = report day window := by
  funext s
  have bid : acc.u32 .winBid s = UInt32.ofNat (bestBid s window) := by
    rw [← tallied.bid s, UInt32.ofNat_toNat]
  have ask : acc.u32 .winAsk s = UInt32.ofNat (bestAsk s window) := by
    rw [← tallied.ask s, UInt32.ofNat_toNat]
  simp only [cpuSnapshot, HostAccum.row, report, tallied.u64, bid, ask,
    tallied.counts .tradeCount s (by decide) (by decide),
    tallied.counts .addCount s (by decide) (by decide)]

theorem snapshot : Tallied (cpuSnapshot acc).2 day [] where
  u64 := tallied.u64
  counts := by
    intro a s bid ask
    rw [← tallied.counts a s bid ask]
    cases a with
    | winBid => exact absurd rfl bid
    | winAsk => exact absurd rfl ask
    | tradeCount | addCount => rfl
  bid := fun _ => rfl
  ask := fun _ => rfl

end Tallied

end ItchAggregator
