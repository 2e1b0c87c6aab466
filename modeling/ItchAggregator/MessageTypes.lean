import ItchAggregator.ByteMemory

/-! Wire layout of the ITCH 5.0 messages: the type bytes, the field offsets and
the big-endian loads and stores shared by parser, assembler and kernels.
Every field is big-endian and packed. -/

namespace ItchAggregator

/-! Message types. -/

inductive MsgType
  | systemEvent
  | stockDir
  | addOrder
  | addOrderMpid
  | orderCancel
  | orderDelete
  | orderReplace
  | trade
  | tradeCross
  deriving DecidableEq, Repr

/-- The enumerator's value, the first byte of the message. -/
def MsgType.code : MsgType → UInt8
  | .systemEvent => 'S'.toUInt8
  | .stockDir => 'R'.toUInt8
  | .addOrder => 'A'.toUInt8
  | .addOrderMpid => 'F'.toUInt8
  | .orderCancel => 'X'.toUInt8
  | .orderDelete => 'D'.toUInt8
  | .orderReplace => 'U'.toUInt8
  | .trade => 'P'.toUInt8
  | .tradeCross => 'Q'.toUInt8

def msgTypes : List MsgType :=
  [.systemEvent, .stockDir, .addOrder, .addOrderMpid, .orderCancel, .orderDelete,
    .orderReplace, .trade, .tradeCross]

/-- The enumerator a `switch` on the raw type byte selects; `none` is `default`. -/
def msgType? (type : UInt8) : Option MsgType := msgTypes.find? fun t => t.code == type

theorem code_injective : Function.Injective MsgType.code := by
  intro a b h
  cases a <;> cases b <;> first | rfl | exact absurd h (by decide)

@[simp] theorem msgType?_code (t : MsgType) : msgType? t.code = some t := by
  cases t <;> decide

theorem msgType?_eq_some {type : UInt8} {t : MsgType} :
    msgType? type = some t ↔ type = t.code := by
  constructor
  · intro h
    have found := List.find?_some h
    exact (beq_iff_eq.mp found).symm
  · rintro rfl
    exact msgType?_code t

/-- Message length including the type byte; 0 for a type out of scope. -/
def msgLength (type : UInt8) : Nat :=
  match msgType? type with
  | some .systemEvent => 12
  | some .stockDir => 39
  | some .addOrder => 36
  | some .addOrderMpid => 40
  | some .orderCancel => 23
  | some .orderDelete => 19
  | some .orderReplace => 35
  | some .trade => 44
  | some .tradeCross => 40
  | none => 0

def gpuRelevant (type : UInt8) : Bool :=
  match msgType? type with
  | some .addOrder | some .addOrderMpid | some .orderCancel | some .orderDelete
  | some .orderReplace | some .trade | some .tradeCross => true
  | _ => false

/-! Field offsets, in bytes from the type byte. -/

namespace Ofs

@[simp] abbrev type : Nat := 0
@[simp] abbrev locate : Nat := 1
@[simp] abbrev tracking : Nat := 3
@[simp] abbrev timestamp : Nat := 5

@[simp] abbrev addRef : Nat := 11
@[simp] abbrev addSide : Nat := 19
@[simp] abbrev addShares : Nat := 20
@[simp] abbrev addStock : Nat := 24
@[simp] abbrev addPrice : Nat := 32

@[simp] abbrev cancelRef : Nat := 11
@[simp] abbrev cancelCanceled : Nat := 19

@[simp] abbrev delRef : Nat := 11

@[simp] abbrev replaceOrigRef : Nat := 11
@[simp] abbrev replaceNewRef : Nat := 19
@[simp] abbrev replaceShares : Nat := 27
@[simp] abbrev replacePrice : Nat := 31

@[simp] abbrev tradeRef : Nat := 11
@[simp] abbrev tradeSide : Nat := 19
@[simp] abbrev tradeShares : Nat := 20
@[simp] abbrev tradeStock : Nat := 24
@[simp] abbrev tradePrice : Nat := 32
@[simp] abbrev tradeMatch : Nat := 36

@[simp] abbrev crossShares64 : Nat := 11
@[simp] abbrev crossStock : Nat := 19
@[simp] abbrev crossPrice : Nat := 27
@[simp] abbrev crossMatch : Nat := 31
@[simp] abbrev crossType : Nat := 39

@[simp] abbrev sysEvent : Nat := 11

@[simp] abbrev dirStock : Nat := 11

end Ofs

/-! Slot layout and capacities. -/

def slotBytes : Nat := 48
def slotSideTag : Nat := 44
def batchMsgs : Nat := 8192
def maxSymbols : Nat := 16384

/-! Big-endian loads. -/

def loadBe16 (p : Ptr) : UInt16 :=
  ((p 0).toUInt32 <<< 8 ||| (p 1).toUInt32).toUInt16

def loadBe32 (p : Ptr) : UInt32 :=
  (p 0).toUInt32 <<< 24 ||| (p 1).toUInt32 <<< 16 ||| (p 2).toUInt32 <<< 8 ||| (p 3).toUInt32

def loadBe48 (p : Ptr) : UInt64 :=
  (p 0).toUInt64 <<< 40 ||| (p 1).toUInt64 <<< 32 ||| (p 2).toUInt64 <<< 24 |||
    (p 3).toUInt64 <<< 16 ||| (p 4).toUInt64 <<< 8 ||| (p 5).toUInt64

def loadBe64 (p : Ptr) : UInt64 :=
  (loadBe32 p).toUInt64 <<< 32 ||| (loadBe32 (shift p 4)).toUInt64

private theorem or_eq_add {x y : Nat} (i : Nat) (hx : 2 ^ i ∣ x) (hy : y < 2 ^ i) :
    x ||| y = x + y := by
  obtain ⟨q, rfl⟩ := hx
  rw [Nat.mul_comm, ← Nat.shiftLeft_eq, Nat.shiftLeft_add_eq_or_of_lt hy]

private theorem shl32_toNat (b : UInt8) (i : Nat) {s : UInt32} (hs : s.toNat = i) (hi : i ≤ 24) :
    (b.toUInt32 <<< s).toNat = b.toNat * 2 ^ i := by
  have hb := b.toNat_lt
  have hp : 2 ^ i ≤ 2 ^ 24 := Nat.pow_le_pow_right (by decide) hi
  have bound : b.toNat * 2 ^ i < 2 ^ 32 := by
    calc b.toNat * 2 ^ i < 2 ^ 8 * 2 ^ 24 := by nlinarith
      _ = 2 ^ 32 := by norm_num
  rw [UInt32.toNat_shiftLeft, UInt8.toNat_toUInt32, hs, Nat.mod_eq_of_lt (by omega : i < 32),
    Nat.shiftLeft_eq, Nat.mod_eq_of_lt bound]

theorem loadBe32_toNat (p : Ptr) :
    (loadBe32 p).toNat =
      (p 0).toNat * 2 ^ 24 + (p 1).toNat * 2 ^ 16 + (p 2).toNat * 2 ^ 8 + (p 3).toNat := by
  have h0 := (p 0).toNat_lt
  have h1 := (p 1).toNat_lt
  have h2 := (p 2).toNat_lt
  have h3 := (p 3).toNat_lt
  have s0 : (p 0).toNat * 2 ^ 24 ||| (p 1).toNat * 2 ^ 16 =
      (p 0).toNat * 2 ^ 24 + (p 1).toNat * 2 ^ 16 := or_eq_add 24 (by omega) (by omega)
  have s1 : (p 0).toNat * 2 ^ 24 + (p 1).toNat * 2 ^ 16 ||| (p 2).toNat * 2 ^ 8 = _ :=
    or_eq_add 16 (by omega) (by omega)
  rw [loadBe32, UInt32.toNat_or, UInt32.toNat_or, UInt32.toNat_or, UInt8.toNat_toUInt32,
    shl32_toNat (p 0) 24 rfl (by decide), shl32_toNat (p 1) 16 rfl (by decide),
    shl32_toNat (p 2) 8 rfl (by decide),
    s0, s1, or_eq_add 8 (by omega) (by omega)]

theorem loadBe16_toNat (p : Ptr) :
    (loadBe16 p).toNat = (p 0).toNat * 2 ^ 8 + (p 1).toNat := by
  have h0 := (p 0).toNat_lt
  have h1 := (p 1).toNat_lt
  rw [loadBe16, UInt32.toNat_toUInt16, UInt32.toNat_or, UInt8.toNat_toUInt32,
    shl32_toNat (p 0) 8 rfl (by decide), or_eq_add 8 (by omega) (by omega)]
  omega

private theorem shl64_toNat (b : UInt8) (i : Nat) {s : UInt64} (hs : s.toNat = i) (hi : i ≤ 56) :
    (b.toUInt64 <<< s).toNat = b.toNat * 2 ^ i := by
  have hb := b.toNat_lt
  have hp : 2 ^ i ≤ 2 ^ 56 := Nat.pow_le_pow_right (by decide) hi
  have bound : b.toNat * 2 ^ i < 2 ^ 64 := by
    calc b.toNat * 2 ^ i < 2 ^ 8 * 2 ^ 56 := by nlinarith
      _ = 2 ^ 64 := by norm_num
  rw [UInt64.toNat_shiftLeft, UInt8.toNat_toUInt64, hs, Nat.mod_eq_of_lt (by omega : i < 64),
    Nat.shiftLeft_eq, Nat.mod_eq_of_lt bound]

theorem loadBe48_toNat (p : Ptr) :
    (loadBe48 p).toNat =
      (p 0).toNat * 2 ^ 40 + (p 1).toNat * 2 ^ 32 + (p 2).toNat * 2 ^ 24 +
        (p 3).toNat * 2 ^ 16 + (p 4).toNat * 2 ^ 8 + (p 5).toNat := by
  have h0 := (p 0).toNat_lt
  have h1 := (p 1).toNat_lt
  have h2 := (p 2).toNat_lt
  have h3 := (p 3).toNat_lt
  have h4 := (p 4).toNat_lt
  have h5 := (p 5).toNat_lt
  have s0 : (p 0).toNat * 2 ^ 40 ||| (p 1).toNat * 2 ^ 32 =
      (p 0).toNat * 2 ^ 40 + (p 1).toNat * 2 ^ 32 := or_eq_add 40 (by omega) (by omega)
  have s1 : (p 0).toNat * 2 ^ 40 + (p 1).toNat * 2 ^ 32 ||| (p 2).toNat * 2 ^ 24 = _ :=
    or_eq_add 32 (by omega) (by omega)
  have s2 : (p 0).toNat * 2 ^ 40 + (p 1).toNat * 2 ^ 32 + (p 2).toNat * 2 ^ 24 |||
      (p 3).toNat * 2 ^ 16 = _ := or_eq_add 24 (by omega) (by omega)
  have s3 : (p 0).toNat * 2 ^ 40 + (p 1).toNat * 2 ^ 32 + (p 2).toNat * 2 ^ 24 +
      (p 3).toNat * 2 ^ 16 ||| (p 4).toNat * 2 ^ 8 = _ := or_eq_add 16 (by omega) (by omega)
  rw [loadBe48, UInt64.toNat_or, UInt64.toNat_or, UInt64.toNat_or, UInt64.toNat_or,
    UInt64.toNat_or, UInt8.toNat_toUInt64,
    shl64_toNat (p 0) 40 rfl (by decide), shl64_toNat (p 1) 32 rfl (by decide),
    shl64_toNat (p 2) 24 rfl (by decide), shl64_toNat (p 3) 16 rfl (by decide),
    shl64_toNat (p 4) 8 rfl (by decide),
    s0, s1, s2, s3, or_eq_add 8 (by omega) (by omega)]

theorem loadBe64_toNat (p : Ptr) :
    (loadBe64 p).toNat = (loadBe32 p).toNat * 2 ^ 32 + (loadBe32 (shift p 4)).toNat := by
  have h0 := (loadBe32 p).toNat_lt
  have h1 := (loadBe32 (shift p 4)).toNat_lt
  have hs : (32 : UInt64).toNat = 32 := rfl
  rw [loadBe64, UInt64.toNat_or, UInt64.toNat_shiftLeft, UInt32.toNat_toUInt64,
    UInt32.toNat_toUInt64, hs, Nat.shiftLeft_eq, Nat.mod_eq_of_lt (by omega : 32 < 64),
    Nat.mod_eq_of_lt (by omega), or_eq_add 32 (by omega) (by omega)]

theorem loadBe16_congr {p q : Ptr} (h : ∀ i < 2, p i = q i) : loadBe16 p = loadBe16 q := by
  simp only [loadBe16, h 0 (by decide), h 1 (by decide)]

theorem loadBe32_congr {p q : Ptr} (h : ∀ i < 4, p i = q i) : loadBe32 p = loadBe32 q := by
  simp only [loadBe32, h 0 (by decide), h 1 (by decide), h 2 (by decide), h 3 (by decide)]

theorem loadBe48_congr {p q : Ptr} (h : ∀ i < 6, p i = q i) : loadBe48 p = loadBe48 q := by
  simp only [loadBe48, h 0 (by decide), h 1 (by decide), h 2 (by decide), h 3 (by decide),
    h 4 (by decide), h 5 (by decide)]

theorem loadBe64_congr {p q : Ptr} (h : ∀ i < 8, p i = q i) : loadBe64 p = loadBe64 q := by
  have low : loadBe32 (shift p 4) = loadBe32 (shift q 4) :=
    loadBe32_congr fun i hi => h (4 + i) (by omega)
  rw [loadBe64, loadBe64, loadBe32_congr fun i hi => h i (by omega), low]

/-! Big-endian stores, at distance `a` from the pointer. -/

def putBe16 (m : Ptr) (a : Nat) (v : UInt16) : Ptr :=
  store (store m a (v >>> 8).toUInt8) (a + 1) v.toUInt8

def putBe32 (m : Ptr) (a : Nat) (v : UInt32) : Ptr :=
  store (store (store (store m a (v >>> 24).toUInt8) (a + 1) (v >>> 16).toUInt8)
    (a + 2) (v >>> 8).toUInt8) (a + 3) v.toUInt8

def putBe48 (m : Ptr) (a : Nat) (v : UInt64) : Ptr :=
  store (store (store (store (store (store m a (v >>> 40).toUInt8) (a + 1) (v >>> 32).toUInt8)
    (a + 2) (v >>> 24).toUInt8) (a + 3) (v >>> 16).toUInt8) (a + 4) (v >>> 8).toUInt8)
    (a + 5) v.toUInt8

def putBe64 (m : Ptr) (a : Nat) (v : UInt64) : Ptr :=
  putBe32 (putBe32 m a (v >>> 32).toUInt32) (a + 4) v.toUInt32

theorem loadBe16_putBe16 (m : Ptr) (a : Nat) (v : UInt16) :
    loadBe16 (shift (putBe16 m a v) a) = v := by
  have hv := v.toNat_lt
  apply UInt16.toNat_inj.mp
  simp [loadBe16_toNat, putBe16, store_apply, Nat.shiftRight_eq_div_pow]
  omega

theorem loadBe32_putBe32 (m : Ptr) (a : Nat) (v : UInt32) :
    loadBe32 (shift (putBe32 m a v) a) = v := by
  have hv := v.toNat_lt
  apply UInt32.toNat_inj.mp
  simp [loadBe32_toNat, putBe32, store_apply, Nat.shiftRight_eq_div_pow]
  omega

theorem loadBe48_putBe48 (m : Ptr) (a : Nat) {v : UInt64} (hv : v.toNat < 2 ^ 48) :
    loadBe48 (shift (putBe48 m a v) a) = v := by
  apply UInt64.toNat_inj.mp
  simp [loadBe48_toNat, putBe48, store_apply, Nat.shiftRight_eq_div_pow]
  omega

theorem putBe32_frame (m : Ptr) (a : Nat) (v : UInt32) {i : Nat} (h : i < a ∨ a + 4 ≤ i) :
    putBe32 m a v i = m i := by
  simp only [putBe32, store_apply]
  rw [if_neg (by omega), if_neg (by omega), if_neg (by omega), if_neg (by omega)]

theorem loadBe64_putBe64 (m : Ptr) (a : Nat) (v : UInt64) :
    loadBe64 (shift (putBe64 m a v) a) = v := by
  have hv := v.toNat_lt
  have high : loadBe32 (shift (putBe64 m a v) a) = (v >>> 32).toUInt32 := by
    rw [← loadBe32_putBe32 m a (v >>> 32).toUInt32]
    apply loadBe32_congr
    intro i hi
    exact putBe32_frame _ _ _ (Or.inl (by omega))
  have low : loadBe32 (shift (shift (putBe64 m a v) a) 4) = v.toUInt32 := by
    rw [shift_shift, putBe64, loadBe32_putBe32]
  apply UInt64.toNat_inj.mp
  rw [loadBe64_toNat, high, low]
  simp [Nat.shiftRight_eq_div_pow]
  omega

end ItchAggregator
