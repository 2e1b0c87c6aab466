import Mathlib

/-! The steps of a multiplicative hash on words of any width. Adding a word, multiplying
by one that has an inverse, and folding the high bits down with a shift and a xor lose
nothing. The words whose low bits are given are as many as the values of the others. -/

namespace ItchAggregator.WordMixing

variable {w : Nat}

theorem add_injective (a : BitVec w) : Function.Injective fun x => x + a :=
  fun _ _ same => (BitVec.add_left_inj a).mp same

theorem mul_injective {a b : BitVec w} (inverse : a * b = 1#w) :
    Function.Injective fun x => x * a := by
  intro x y same
  have back := congrArg (· * b) same
  simpa only [BitVec.mul_assoc, inverse, BitVec.mul_one] using back

theorem eq_zero_of_shift {x : BitVec w} {s : Nat} (positive : 0 < s) (same : x >>> s = x) :
    x = 0#w := by
  have value : x.toNat / 2 ^ s = x.toNat := by
    rw [← Nat.shiftRight_eq_div_pow, ← BitVec.toNat_ushiftRight, same]
  apply BitVec.eq_of_toNat_eq
  by_contra nonzero
  have smaller : x.toNat / 2 ^ s < x.toNat :=
    Nat.div_lt_self (Nat.pos_of_ne_zero nonzero) (Nat.one_lt_two_pow (Nat.ne_of_gt positive))
  omega

theorem xorShift_injective {s : Nat} (positive : 0 < s) :
    Function.Injective fun x : BitVec w => x ^^^ x >>> s := by
  intro x y same
  have folded : (x ^^^ y) >>> s = x ^^^ y := by
    rw [BitVec.ushiftRight_xor_distrib]
    calc x >>> s ^^^ y >>> s
        = x ^^^ (x ^^^ x >>> s) ^^^ (y >>> s) := by
          rw [← BitVec.xor_assoc, BitVec.xor_self, BitVec.zero_xor]
      _ = x ^^^ (y ^^^ y >>> s) ^^^ (y >>> s) := by
          rw [show x ^^^ x >>> s = y ^^^ y >>> s from same]
      _ = x ^^^ y := by
          rw [BitVec.xor_assoc, BitVec.xor_assoc, BitVec.xor_self, BitVec.xor_zero]
  exact BitVec.xor_eq_zero_iff.mp (eq_zero_of_shift positive folded)

theorem bijective {f : BitVec w → BitVec w} (injective : Function.Injective f) :
    Function.Bijective f :=
  Finite.injective_iff_bijective.mp injective

theorem ncard_low {k b : Nat} (le : k ≤ w) (lt : b < 2 ^ k) :
    {x : BitVec w | x.toNat % 2 ^ k = b}.ncard = 2 ^ (w - k) := by
  have split : 2 ^ k * 2 ^ (w - k) = 2 ^ w := by rw [← Nat.pow_add, Nat.add_sub_cancel' le]
  have bound : ∀ j < 2 ^ (w - k), b + 2 ^ k * j < 2 ^ w := by
    intro j hj
    calc b + 2 ^ k * j < 2 ^ k * (j + 1) := by rw [Nat.mul_succ]; omega
      _ ≤ 2 ^ k * 2 ^ (w - k) := Nat.mul_le_mul_left _ hj
      _ = 2 ^ w := split
  have value : ∀ j < 2 ^ (w - k), (BitVec.ofNat w (b + 2 ^ k * j)).toNat = b + 2 ^ k * j :=
    fun j hj => (BitVec.toNat_ofNat ..).trans (Nat.mod_eq_of_lt (bound j hj))
  have image : {x : BitVec w | x.toNat % 2 ^ k = b} =
      (fun j => BitVec.ofNat w (b + 2 ^ k * j)) '' Set.Iio (2 ^ (w - k)) := by
    ext x
    constructor
    · intro low
      have high : x.toNat / 2 ^ k < 2 ^ (w - k) :=
        Nat.div_lt_of_lt_mul (split ▸ x.isLt)
      refine ⟨x.toNat / 2 ^ k, high, BitVec.eq_of_toNat_eq ?_⟩
      rw [value _ high, ← show x.toNat % 2 ^ k = b from low, Nat.mod_add_div]
    · rintro ⟨j, hj, rfl⟩
      change (BitVec.ofNat w (b + 2 ^ k * j)).toNat % 2 ^ k = b
      rw [value j hj, Nat.add_mul_mod_self_left, Nat.mod_eq_of_lt lt]
  have apart : Set.InjOn (fun j => BitVec.ofNat w (b + 2 ^ k * j)) (Set.Iio (2 ^ (w - k))) := by
    intro i hi j hj same
    have same := congrArg BitVec.toNat same
    simp only [value i hi, value j hj] at same
    exact Nat.eq_of_mul_eq_mul_left (Nat.two_pow_pos k) (Nat.add_left_cancel same)
  rw [image, apart.ncard_image, Set.ncard_eq_toFinset_card']
  simp

/-- An injective map spreads the words evenly over the values of their low bits. -/
theorem ncard_preimage_low {f : BitVec w → BitVec w} (injective : Function.Injective f)
    {k b : Nat} (le : k ≤ w) (lt : b < 2 ^ k) :
    {x : BitVec w | (f x).toNat % 2 ^ k = b}.ncard = 2 ^ (w - k) := by
  have preimage : {x : BitVec w | (f x).toNat % 2 ^ k = b} =
      Set.preimage f {x | x.toNat % 2 ^ k = b} := rfl
  rw [preimage, Set.ncard_preimage_of_injective_subset_range injective
    fun y _ => (bijective injective).surjective y]
  exact ncard_low le lt

end ItchAggregator.WordMixing
