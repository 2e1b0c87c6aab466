import Mathlib

/-! Rounding to the nearest, ties to even: to an integer, and to the numbers with `p`
binary digits behind the leading one, the exponent unbounded. -/

namespace ItchAggregator.Rounding

variable {α : Type*} [Field α] [LinearOrder α] [IsStrictOrderedRing α]

/-! Relative errors. -/

/-- `y` is `x` up to a relative error. -/
def Near (ε x y : α) : Prop := |y - x| ≤ ε * |x|

namespace Near

variable {ε δ x y z a a' b b' : α}

theorem mono (near : Near ε x y) (le : ε ≤ δ) : Near δ x y :=
  near.trans (mul_le_mul_of_nonneg_right le (abs_nonneg x))

theorem abs_le (near : Near ε x y) : |y| ≤ (1 + ε) * |x| := by
  have split := abs_add_le (y - x) x
  rw [sub_add_cancel] at split
  rw [Near] at near
  linarith

theorem le_abs (near : Near ε x y) : (1 - ε) * |x| ≤ |y| := by
  have split := abs_sub_abs_le_abs_sub x y
  rw [abs_sub_comm] at split
  rw [Near] at near
  linarith

theorem trans (first : Near ε x y) (second : Near δ y z) (nonneg : 0 ≤ δ) :
    Near (ε + δ + ε * δ) x z := by
  have split := abs_add_le (z - y) (y - x)
  rw [sub_add_sub_cancel] at split
  have scaled := mul_le_mul_of_nonneg_left first.abs_le nonneg
  rw [Near] at first second ⊢
  calc |z - x| ≤ |z - y| + |y - x| := split
    _ ≤ δ * ((1 + ε) * |x|) + ε * |x| := add_le_add (second.trans scaled) first
    _ = (ε + δ + ε * δ) * |x| := by ring

theorem div_const (near : Near ε x y) (c : α) : Near ε (x / c) (y / c) := by
  rw [Near, ← sub_div, abs_div, abs_div, ← mul_div_assoc]
  exact div_le_div_of_nonneg_right near (abs_nonneg c)

theorem div (num : Near ε a a') (den : Near δ b b') (small : δ < 1) (nonzero : b ≠ 0) :
    Near ((ε + δ) / (1 - δ)) (a / b) (a' / b') := by
  have size : 0 < |b| := abs_pos.mpr nonzero
  have room : 0 < 1 - δ := sub_pos.mpr small
  have size' : 0 < |b'| := (mul_pos room size).trans_le den.le_abs
  have cross : a' / b' - a / b = ((a' - a) * b - a * (b' - b)) / (b * b') := by
    have := abs_pos.mp size'
    field_simp
    ring
  have error : |(a' - a) * b - a * (b' - b)| ≤ (ε + δ) * |a| * |b| := by
    have split := abs_sub ((a' - a) * b) (a * (b' - b))
    rw [abs_mul, abs_mul] at split
    have left := mul_le_mul_of_nonneg_right num size.le
    have right := mul_le_mul_of_nonneg_left den (abs_nonneg a)
    calc _ ≤ |a' - a| * |b| + |a| * |b' - b| := split
      _ ≤ ε * |a| * |b| + |a| * (δ * |b|) := add_le_add left right
      _ = (ε + δ) * |a| * |b| := by ring
  rw [Near, cross, abs_div, abs_mul, abs_div, div_le_iff₀ (mul_pos size size')]
  have grown : (ε + δ) * |a| * ((1 - δ) * |b|) ≤ (ε + δ) * |a| * |b'| := by
    refine mul_le_mul_of_nonneg_left den.le_abs ?_
    have := (abs_nonneg _).trans error
    exact nonneg_of_mul_nonneg_left this size
  calc |(a' - a) * b - a * (b' - b)| ≤ (ε + δ) * |a| * |b| := error
    _ = (ε + δ) * |a| * ((1 - δ) * |b|) / (1 - δ) := by field_simp
    _ ≤ (ε + δ) * |a| * |b'| / (1 - δ) := div_le_div_of_nonneg_right grown room.le
    _ = (ε + δ) / (1 - δ) * (|a| / |b|) * (|b| * |b'|) := by field_simp

end Near

variable [FloorRing α]

/-! Integers. -/

def roundEven (x : α) : ℤ :=
  if Int.fract x < 1 / 2 ∨ Int.fract x = 1 / 2 ∧ Even ⌊x⌋ then ⌊x⌋ else ⌊x⌋ + 1

theorem abs_roundEven_sub_le (x : α) : |(roundEven x : α) - x| ≤ 1 / 2 := by
  have low := Int.fract_nonneg x
  have high := Int.fract_lt_one x
  have split := Int.floor_add_fract x
  unfold roundEven
  rw [abs_le]
  split_ifs with down
  · have half : Int.fract x ≤ 1 / 2 := down.elim le_of_lt fun tie => tie.1.le
    constructor <;> linarith
  · have half : 1 / 2 ≤ Int.fract x := not_lt.mp fun less => down (Or.inl less)
    push_cast
    constructor <;> linarith

@[simp] theorem roundEven_intCast (n : ℤ) : roundEven (n : α) = n := by
  simp [roundEven]

@[simp] theorem roundEven_zero : roundEven (0 : α) = 0 := by
  simpa using roundEven_intCast (α := α) 0

theorem roundEven_eq {x : α} {n : ℤ} (near : |x - n| < 1 / 2) : roundEven x = n := by
  have error := abs_le.mp (abs_roundEven_sub_le x)
  have close := abs_lt.mp near
  have above : (roundEven x : α) < n + 1 := by linarith [error.2, close.2]
  have below : (n : α) < roundEven x + 1 := by linarith [error.1, close.1]
  have upper : roundEven x < n + 1 := by exact_mod_cast above
  have lower : n < roundEven x + 1 := by exact_mod_cast below
  omega

theorem roundEven_mono : Monotone (roundEven : α → ℤ) := by
  intro x y le
  rcases (Int.floor_mono le).lt_or_eq with less | same
  · have first : roundEven x ≤ ⌊x⌋ + 1 := by
      unfold roundEven
      split <;> omega
    have second : ⌊y⌋ ≤ roundEven y := by
      unfold roundEven
      split <;> omega
    omega
  · have fract : Int.fract x ≤ Int.fract y := by
      rw [Int.fract, Int.fract, same]
      linarith
    unfold roundEven
    rw [same]
    split_ifs with down up up
    · exact le_rfl
    · omega
    · exfalso
      rcases up with less | ⟨tie, even⟩
      · exact down (Or.inl (fract.trans_lt less))
      · rcases fract.lt_or_eq with less | same
        · exact down (Or.inl (less.trans_eq tie))
        · exact down (Or.inr ⟨same.trans tie, even⟩)
    · exact le_rfl

theorem roundEven_neg (x : α) : roundEven (-x) = -roundEven x := by
  by_cases whole : Int.fract x = 0
  · obtain ⟨n, rfl⟩ : ∃ n : ℤ, x = n := ⟨⌊x⌋, by linarith [Int.floor_add_fract x]⟩
    rw [← Int.cast_neg, roundEven_intCast, roundEven_intCast]
  · have fract : Int.fract (-x) = 1 - Int.fract x := Int.fract_neg whole
    have floor : ⌊-x⌋ = -⌊x⌋ - 1 := by
      have below := Int.floor_add_fract x
      have above := Int.floor_add_fract (-x)
      have same : ((⌊-x⌋ : ℤ) : α) = ((-⌊x⌋ - 1 : ℤ) : α) := by
        push_cast
        linarith
      exact_mod_cast same
    have parity : Even (-⌊x⌋ - 1) ↔ ¬Even ⌊x⌋ := by grind
    unfold roundEven
    rw [fract, floor]
    simp only [parity]
    rcases lt_trichotomy (Int.fract x) (1 / 2) with less | tie | more
    · rw [if_pos (Or.inl less), if_neg]
      · ring
      · rintro (low | ⟨tie, _⟩) <;> linarith
    · have half : (1 : α) - 1 / 2 = 1 / 2 := by norm_num
      rw [tie, half]
      by_cases even : Even ⌊x⌋
      · simp [even]
      · simp only [even, not_false_iff, and_true, lt_self_iff_false, or_true, and_false, or_false,
          if_true, if_false]
        ring
    · rw [if_pos (Or.inl (by linarith)), if_neg]
      · ring
      · rintro (low | ⟨tie, _⟩) <;> linarith

/-! Binary digits. -/

def lastPlace (p : ℕ) (x : α) : ℤ := Int.log 2 |x| - p

def toPrecision (p : ℕ) (x : α) : α := roundEven (x / 2 ^ lastPlace p x) * 2 ^ lastPlace p x

variable {p : ℕ} {x y : α}

theorem two_zpow_pos (n : ℤ) : (0 : α) < 2 ^ n := zpow_pos two_pos n

@[simp] theorem toPrecision_zero : toPrecision p (0 : α) = 0 := by
  simp [toPrecision]

theorem toPrecision_neg (x : α) : toPrecision p (-x) = -toPrecision p x := by
  rw [toPrecision, lastPlace, abs_neg, neg_div, roundEven_neg, Int.cast_neg, neg_mul]
  rfl

theorem toPrecision_of_places {n : ℤ} (whole : x / 2 ^ lastPlace p x = n) :
    toPrecision p x = x := by
  rw [toPrecision, whole, roundEven_intCast, ← whole, div_mul_cancel₀ _ (two_zpow_pos _).ne']

theorem abs_toPrecision_sub_le (p : ℕ) (x : α) :
    |toPrecision p x - x| ≤ |x| / 2 ^ (p + 1) := by
  rcases eq_or_ne x 0 with rfl | nonzero
  · simp
  have unit := two_zpow_pos (α := α) (lastPlace p x)
  have leading : (2 : α) ^ Int.log 2 |x| ≤ |x| := by
    simpa using Int.zpow_log_le_self (R := α) (b := 2) (by decide) (abs_pos.mpr nonzero)
  have place : (2 : α) ^ lastPlace p x * 2 ^ p = 2 ^ Int.log 2 |x| := by
    rw [lastPlace, ← zpow_natCast, ← zpow_add₀ two_ne_zero, sub_add_cancel]
  have error : |toPrecision p x - x| ≤ 1 / 2 * 2 ^ lastPlace p x := by
    have factor : toPrecision p x - x =
        (roundEven (x / 2 ^ lastPlace p x) - x / 2 ^ lastPlace p x) * 2 ^ lastPlace p x := by
      rw [toPrecision, sub_mul, div_mul_cancel₀ _ unit.ne']
    rw [factor, abs_mul, abs_of_pos unit]
    exact mul_le_mul_of_nonneg_right (abs_roundEven_sub_le _) unit.le
  refine error.trans ?_
  rw [le_div_iff₀ (by positivity), pow_succ]
  calc 1 / 2 * (2 : α) ^ lastPlace p x * (2 ^ p * 2) = 2 ^ lastPlace p x * 2 ^ p := by ring
    _ ≤ |x| := place.trans_le leading

theorem toPrecision_le (positive : 0 < x) : toPrecision p x ≤ 2 ^ (Int.log 2 x + 1) := by
  have unit := two_zpow_pos (α := α) (lastPlace p x)
  have top : (2 : α) ^ (Int.log 2 x + 1) = (2 ^ (p + 1) : ℤ) * 2 ^ lastPlace p x := by
    rw [lastPlace, abs_of_pos positive]
    push_cast
    rw [← zpow_natCast, ← zpow_add₀ two_ne_zero]
    congr 1
    push_cast
    ring
  have below : x / 2 ^ lastPlace p x ≤ (2 ^ (p + 1) : ℤ) := by
    rw [div_le_iff₀ unit, ← top]
    simpa using (Int.lt_zpow_succ_log_self (b := 2) (by decide) x).le
  rw [top, toPrecision]
  refine mul_le_mul_of_nonneg_right ?_ unit.le
  exact_mod_cast (roundEven_mono below).trans_eq (roundEven_intCast _)

theorem le_toPrecision (positive : 0 < x) : 2 ^ Int.log 2 x ≤ toPrecision p x := by
  have unit := two_zpow_pos (α := α) (lastPlace p x)
  have bottom : (2 : α) ^ Int.log 2 x = (2 ^ p : ℤ) * 2 ^ lastPlace p x := by
    rw [lastPlace, abs_of_pos positive]
    push_cast
    rw [← zpow_natCast, ← zpow_add₀ two_ne_zero, add_sub_cancel]
  have above : ((2 ^ p : ℤ) : α) ≤ x / 2 ^ lastPlace p x := by
    rw [le_div_iff₀ unit, ← bottom]
    simpa using Int.zpow_log_le_self (R := α) (b := 2) (by decide) positive
  rw [bottom, toPrecision]
  refine mul_le_mul_of_nonneg_right ?_ unit.le
  exact_mod_cast (roundEven_intCast _).symm.trans_le (roundEven_mono above)

theorem toPrecision_pos (positive : 0 < x) : 0 < toPrecision p x :=
  (two_zpow_pos _).trans_le (le_toPrecision positive)

theorem toPrecision_nonneg (nonneg : 0 ≤ x) : 0 ≤ toPrecision p x := by
  rcases nonneg.eq_or_lt with rfl | positive
  · simp
  · exact (toPrecision_pos positive).le

theorem toPrecision_neg_iff : toPrecision p x < 0 ↔ x < 0 := by
  refine ⟨fun neg => ?_, fun neg => ?_⟩
  · by_contra nonneg
    exact neg.not_ge (toPrecision_nonneg (not_lt.mp nonneg))
  · have positive := toPrecision_pos (p := p) (neg_pos.mpr neg)
    rw [toPrecision_neg] at positive
    linarith

/-- In one binade rounding is that of integers; between two, a power of two keeps the
results apart. -/
theorem toPrecision_mono_pos (positive : 0 < x) (le : x ≤ y) :
    toPrecision p x ≤ toPrecision p y := by
  have positive' := positive.trans_le le
  rcases (Int.log_mono_right (b := 2) positive le).eq_or_lt with same | less
  · have place : lastPlace p x = lastPlace p y := by
      rw [lastPlace, lastPlace, abs_of_pos positive, abs_of_pos positive', same]
    have unit := two_zpow_pos (α := α) (lastPlace p y)
    rw [toPrecision, toPrecision, place]
    refine mul_le_mul_of_nonneg_right ?_ unit.le
    exact_mod_cast roundEven_mono (div_le_div_of_nonneg_right le unit.le)
  · calc toPrecision p x ≤ 2 ^ (Int.log 2 x + 1) := toPrecision_le positive
      _ ≤ 2 ^ Int.log 2 y := zpow_le_zpow_right₀ one_le_two less
      _ ≤ toPrecision p y := le_toPrecision positive'

theorem toPrecision_mono : Monotone (toPrecision p : α → α) := by
  intro x y le
  rcases lt_trichotomy 0 x with positive | rfl | negative
  · exact toPrecision_mono_pos positive le
  · rw [toPrecision_zero]
    exact toPrecision_nonneg le
  · rcases lt_or_ge y 0 with below | above
    · have flipped := toPrecision_mono_pos (p := p) (neg_pos.mpr below) (neg_le_neg le)
      rw [toPrecision_neg, toPrecision_neg] at flipped
      linarith
    · exact (toPrecision_neg_iff.mpr negative).le.trans (toPrecision_nonneg above)

theorem toPrecision_intCast {n : ℤ} (short : |n| < 2 ^ (p + 1)) :
    toPrecision p (n : α) = n := by
  rcases eq_or_ne n 0 with rfl | nonzero
  · simp
  have positive : (0 : α) < |(n : α)| := abs_pos.mpr (by exact_mod_cast nonzero)
  have digits : Int.log 2 |(n : α)| < (p + 1 : ℕ) := by
    rw [← Int.lt_zpow_iff_log_lt (by decide) positive]
    push_cast
    exact_mod_cast short
  obtain ⟨k, place⟩ : ∃ k : ℕ, lastPlace p (n : α) = -k :=
    ⟨(p - Int.log 2 |(n : α)|).toNat, by rw [lastPlace]; omega⟩
  have whole : (n : α) / 2 ^ lastPlace p (n : α) = ((n * 2 ^ k : ℤ) : α) := by
    rw [place, zpow_neg, div_inv_eq_mul, zpow_natCast]
    push_cast
    rfl
  exact toPrecision_of_places whole

theorem toPrecision_natCast {n : ℕ} (short : n < 2 ^ (p + 1)) :
    toPrecision p (n : α) = n := by
  have same := toPrecision_intCast (α := α) (p := p) (n := n) (by
    rw [Nat.abs_cast]
    exact_mod_cast short)
  exact_mod_cast same

theorem toPrecision_toPrecision (x : α) : toPrecision p (toPrecision p x) = toPrecision p x := by
  have pos : ∀ y : α, 0 < y → toPrecision p (toPrecision p y) = toPrecision p y := by
    intro y positive
    have after := toPrecision_pos (p := p) positive
    rcases (toPrecision_le (p := p) positive).lt_or_eq with below | top
    · -- The exponent stays, and with it the last place.
      have log : Int.log 2 (toPrecision p y) = Int.log 2 y := by
        refine le_antisymm (Int.lt_add_one_iff.mp ?_) ?_
        · rw [← Int.lt_zpow_iff_log_lt (by decide) after]
          exact_mod_cast below
        · rw [← Int.zpow_le_iff_le_log (by decide) after]
          exact_mod_cast le_toPrecision positive
      have place : lastPlace p (toPrecision p y) = lastPlace p y := by
        rw [lastPlace, lastPlace, abs_of_pos after, abs_of_pos positive, log]
      refine toPrecision_of_places (n := roundEven (y / 2 ^ lastPlace p y)) ?_
      rw [place]
      exact mul_div_cancel_right₀ _ (two_zpow_pos _).ne'
    · -- The next power of two.
      have log : Int.log 2 (toPrecision p y) = Int.log 2 y + 1 := by
        rw [top]
        exact_mod_cast Int.log_zpow (R := α) (b := 2) (by decide) (Int.log 2 y + 1)
      have place : lastPlace p (toPrecision p y) = Int.log 2 y + 1 - p := by
        rw [lastPlace, abs_of_pos after, log]
      refine toPrecision_of_places (n := 2 ^ p) ?_
      rw [place, top, ← zpow_sub₀ two_ne_zero, sub_sub_cancel, zpow_natCast]
      push_cast
      rfl
  rcases lt_trichotomy x 0 with negative | rfl | positive
  · rw [← neg_neg x, toPrecision_neg, toPrecision_neg, pos _ (neg_pos.mpr negative)]
  · simp
  · exact pos x positive

theorem toPrecision_one : toPrecision p (1 : α) = 1 := by
  have same := toPrecision_natCast (α := α) (p := p) (n := 1)
    (Nat.one_lt_two_pow (Nat.succ_ne_zero p))
  exact_mod_cast same

theorem abs_toPrecision_le_one (le : |x| ≤ 1) : |toPrecision p x| ≤ 1 := by
  obtain ⟨low, high⟩ := abs_le.mp le
  have above := toPrecision_mono (p := p) high
  have below := toPrecision_mono (p := p) low
  rw [toPrecision_neg, toPrecision_one] at below
  rw [toPrecision_one] at above
  exact abs_le.mpr ⟨below, above⟩

/-! The error of rounding. -/

theorem near_toPrecision (p : ℕ) (x : α) : Near (1 / 2 ^ (p + 1)) x (toPrecision p x) := by
  rw [Near, one_div_mul_eq_div]
  exact abs_toPrecision_sub_le p x

/-! Quotients. -/

def quotient (p : ℕ) (a b : α) : α := toPrecision p (toPrecision p a / toPrecision p b)

variable {a b : α}

theorem near_quotient (p : ℕ) (digits : 2 ≤ p) (nonzero : b ≠ 0) :
    Near (4 / 2 ^ (p + 1)) (a / b) (quotient p a b) := by
  obtain ⟨u, unit⟩ : ∃ u : α, u = 1 / 2 ^ (p + 1) := ⟨_, rfl⟩
  have positive : 0 < u := by
    rw [unit]
    positivity
  have small : u ≤ 1 / 8 := by
    rw [unit]
    have : (2 : α) ^ 3 ≤ 2 ^ (p + 1) := pow_le_pow_right₀ one_le_two (by omega)
    exact one_div_le_one_div_of_le (by norm_num) (by linarith)
  have parts := (near_toPrecision p a).div (near_toPrecision p b) (by rw [← unit]; linarith) nonzero
  have whole := parts.trans (near_toPrecision p _) (by positivity)
  rw [← unit] at whole
  refine whole.mono ?_
  have first : (u + u) / (1 - u) ≤ 5 / 2 * u := by
    rw [div_le_iff₀ (by linarith)]
    nlinarith
  calc (u + u) / (1 - u) + u + (u + u) / (1 - u) * u ≤ 5 / 2 * u + u + 5 / 2 * u * (1 / 8) := by
        gcongr
    _ ≤ 4 * u := by linarith
    _ = 4 / 2 ^ (p + 1) := by rw [unit]; ring

theorem quotient_neg_iff (positive : 0 < b) : quotient p a b < 0 ↔ a / b < 0 := by
  have positive' : 0 < toPrecision p b := toPrecision_pos positive
  rw [quotient, toPrecision_neg_iff, div_lt_iff₀ positive', div_lt_iff₀ positive, zero_mul,
    zero_mul, toPrecision_neg_iff]

theorem abs_quotient_le_one (positive : 0 < b) (le : |a / b| ≤ 1) : |quotient p a b| ≤ 1 := by
  have positive' : 0 < toPrecision p b := toPrecision_pos positive
  rw [abs_div, abs_of_pos positive, div_le_one₀ positive] at le
  refine abs_toPrecision_le_one ?_
  rw [abs_div, abs_of_pos positive', div_le_one₀ positive']
  obtain ⟨low, high⟩ := abs_le.mp le
  have below := toPrecision_mono (p := p) low
  rw [toPrecision_neg] at below
  exact abs_le.mpr ⟨below, toPrecision_mono high⟩

theorem quotient_self (positive : 0 < b) : quotient p b b = 1 := by
  rw [quotient, div_self (toPrecision_pos positive).ne', toPrecision_one]

theorem quotient_neg (a b : α) : quotient p (-a) b = -quotient p a b := by
  rw [quotient, toPrecision_neg, neg_div, toPrecision_neg]
  rfl

end ItchAggregator.Rounding
