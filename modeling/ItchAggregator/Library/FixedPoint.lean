import ItchAggregator.Library.Rounding

/-! Decimals with a fixed number of places. A number is written as the nearest multiple of
the last place, ties to even, with a sign if it is negative; the reader gives back that
multiple. -/

namespace ItchAggregator.FixedPoint

open Rounding

/-- The nearest multiple of `10 ^ -n`. -/
def units (n : Nat) (x : ℚ) : ℤ := roundEven (x * 10 ^ n)

/-- The digits of `m` and a point in front of the last `n` of them. -/
def decimal (n m : Nat) : List Char :=
  Nat.toDigits 10 (m / 10 ^ n) ++ '.' :: (Nat.toDigits 10 (m % 10 ^ n)).leftpad n '0'

/-- What `%.nf` writes; also a number that is rounded to zero has its sign. -/
def text (n : Nat) (x : ℚ) : List Char :=
  (if x < 0 then ['-'] else []) ++ decimal n (units n x).natAbs

def readNat (s : List Char) : Option Nat :=
  if s ≠ [] ∧ s.all Char.isDigit then some (Nat.ofDigitChars 10 s 0) else none

def readDecimal (n : Nat) (s : List Char) : Option Nat :=
  match s.splitOn '.' with
  | [whole, places] =>
    if places.length = n then do
      let w ← readNat whole
      let p ← readNat places
      some (w * 10 ^ n + p)
    else none
  | _ => none

def read (n : Nat) (s : List Char) : Option ℤ :=
  if s.head? = some '-' then (readDecimal n s.tail).map fun m : Nat => -(m : ℤ)
  else (readDecimal n s).map fun m : Nat => (m : ℤ)

theorem isDigit_toDigits {n : Nat} {c : Char} (mem : c ∈ Nat.toDigits 10 n) : c.isDigit = true :=
  Nat.isDigit_of_mem_toDigits (by decide) (by decide) mem

theorem readNat_toDigits (n : Nat) : readNat (Nat.toDigits 10 n) = some n := by
  have digits : (Nat.toDigits 10 n).all Char.isDigit = true :=
    List.all_eq_true.mpr fun c mem => isDigit_toDigits mem
  rw [readNat, if_pos ⟨Nat.toDigits_ne_nil, digits⟩, Nat.ofDigitChars_ten_toDigits]

theorem readNat_leftpad (k n : Nat) :
    readNat ((Nat.toDigits 10 n).leftpad k '0') = some n := by
  have digits : ((Nat.toDigits 10 n).leftpad k '0').all Char.isDigit = true := by
    refine List.all_eq_true.mpr fun c mem => ?_
    rcases List.mem_append.mp mem with pad | own
    · rw [List.eq_of_mem_replicate pad]
      rfl
    · exact isDigit_toDigits own
  have some_ : (Nat.toDigits 10 n).leftpad k '0' ≠ [] :=
    List.append_ne_nil_of_right_ne_nil _ Nat.toDigits_ne_nil
  rw [readNat, if_pos ⟨some_, digits⟩, List.leftpad, Nat.ofDigitChars_append,
    Nat.ofDigitChars_replicate_zero, Nat.mul_zero, Nat.ofDigitChars_ten_toDigits]

variable {n m : Nat}

theorem length_places (positive : 0 < n) :
    ((Nat.toDigits 10 (m % 10 ^ n)).leftpad n '0').length = n := by
  have short : (Nat.toDigits 10 (m % 10 ^ n)).length ≤ n :=
    (Nat.length_toDigits_le_iff (by decide) positive).mpr (Nat.mod_lt _ (by positivity))
  rw [List.length_leftpad, Nat.max_eq_left short]

theorem mem_decimal {c : Char} (mem : c ∈ decimal n m) : c = '.' ∨ c.isDigit = true := by
  rw [decimal, List.mem_append, List.mem_cons, List.leftpad, List.mem_append] at mem
  rcases mem with whole | point | pad | places
  · exact Or.inr (isDigit_toDigits whole)
  · exact Or.inl point
  · rw [List.eq_of_mem_replicate pad]
    exact Or.inr rfl
  · exact Or.inr (isDigit_toDigits places)

theorem point_notMem {k : Nat} : '.' ∉ Nat.toDigits 10 k := fun mem =>
  absurd (isDigit_toDigits mem) (by decide)

theorem readDecimal_decimal (positive : 0 < n) : readDecimal n (decimal n m) = some m := by
  have places : '.' ∉ (Nat.toDigits 10 (m % 10 ^ n)).leftpad n '0' := by
    intro mem
    rcases List.mem_append.mp mem with pad | own
    · exact absurd (List.eq_of_mem_replicate pad) (by decide)
    · exact point_notMem own
  rw [readDecimal, decimal, List.splitOn_append_cons_self_of_not_mem point_notMem,
    List.splitOn_eq_singleton places]
  simp only [length_places positive, if_true, readNat_toDigits, readNat_leftpad,
    Option.bind_eq_bind, Option.bind_some, Option.some.injEq]
  exact Nat.div_add_mod' m (10 ^ n)

theorem units_neg {x : ℚ} (negative : x < 0) : units n x ≤ 0 := by
  have le : x * 10 ^ n ≤ 0 := mul_nonpos_of_nonpos_of_nonneg negative.le (by positivity)
  exact (roundEven_mono le).trans_eq roundEven_zero

theorem units_nonneg {x : ℚ} (nonneg : 0 ≤ x) : 0 ≤ units n x :=
  roundEven_zero.symm.trans_le (roundEven_mono (by positivity : (0 : ℚ) ≤ x * 10 ^ n))

theorem dash_notMem_decimal : '-' ∉ decimal n m := by
  intro mem
  rcases mem_decimal mem with point | digit
  · exact absurd point (by decide)
  · exact absurd digit (by decide)

/-- What is written is read back as the units. -/
theorem read_text (positive : 0 < n) (x : ℚ) : read n (text n x) = some (units n x) := by
  by_cases negative : x < 0
  · have sign : -(((units n x).natAbs : ℕ) : ℤ) = units n x := by
      have := units_neg (n := n) negative
      omega
    have minus : text n x = '-' :: decimal n (units n x).natAbs := by
      rw [text, if_pos negative]
      rfl
    rw [minus, read, List.head?_cons, if_pos rfl, List.tail_cons, readDecimal_decimal positive,
      Option.map_some, sign]
  · have sign : (((units n x).natAbs : ℕ) : ℤ) = units n x :=
      Int.natAbs_of_nonneg (units_nonneg (not_lt.mp negative))
    have first : (decimal n (units n x).natAbs).head? ≠ some '-' := fun dash =>
      dash_notMem_decimal (List.mem_of_mem_head? dash)
    rw [text, if_neg negative, List.nil_append, read, if_neg first, readDecimal_decimal positive,
      Option.map_some, sign]

theorem mem_text {x : ℚ} {c : Char} (mem : c ∈ text n x) :
    c = '-' ∨ c = '.' ∨ c.isDigit = true := by
  rw [text, List.mem_append] at mem
  rcases mem with sign | own
  · split at sign
    · exact Or.inl (List.mem_singleton.mp sign)
    · cases sign
  · exact Or.inr (mem_decimal own)

theorem units_eq {x : ℚ} {k : ℤ} (near : |x * 10 ^ n - k| < 1 / 2) : units n x = k :=
  roundEven_eq near

theorem abs_units_sub_le (n : Nat) (x : ℚ) : |(units n x : ℚ) - x * 10 ^ n| ≤ 1 / 2 :=
  abs_roundEven_sub_le _

/-- What is less than half a place outside an interval of multiples is written inside. -/
theorem units_between {x : ℚ} {lo hi : ℤ} (low : lo - 1 / 2 < x * 10 ^ n)
    (high : x * 10 ^ n < hi + 1 / 2) : lo ≤ units n x ∧ units n x ≤ hi := by
  obtain ⟨below, above⟩ := abs_le.mp (abs_units_sub_le n x)
  have least : ((lo - 1 : ℤ) : ℚ) < units n x := by
    push_cast
    linarith
  have greatest : (units n x : ℚ) < (hi + 1 : ℤ) := by
    push_cast
    linarith
  exact ⟨Int.sub_one_lt_iff.mp (by exact_mod_cast least),
    Int.lt_add_one_iff.mp (by exact_mod_cast greatest)⟩

end ItchAggregator.FixedPoint
