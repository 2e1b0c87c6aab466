import ItchAggregator.Library.WordMixing
import ItchAggregator.OrderHash

/-! The buckets of the order table. Every step of `mix` can be undone, so that the
references spread evenly over the buckets of every capacity. -/

namespace ItchAggregator.OrderHash

/-- The steps of `mix` on the bits of the word. -/
theorem mix_toBitVec (x : UInt64) : (mix x).toBitVec =
    let y := x.toBitVec + 0x9e3779b97f4a7c15#64
    let y := (y ^^^ y >>> 30) * 0xbf58476d1ce4e5b9#64
    let y := (y ^^^ y >>> 27) * 0x94d049bb133111eb#64
    y ^^^ y >>> 31 := rfl

/-- The multipliers are odd; these are their inverses. -/
theorem mix_injective : Function.Injective mix := by
  have first : 0xbf58476d1ce4e5b9#64 * 0x96de1b173f119089#64 = 1#64 := by decide
  have second : 0x94d049bb133111eb#64 * 0x319642b2d24d8ec3#64 = 1#64 := by decide
  intro x y same
  have same := congrArg UInt64.toBitVec same
  rw [mix_toBitVec, mix_toBitVec] at same
  have same := WordMixing.xorShift_injective (by decide) same
  have same := WordMixing.mul_injective second same
  have same := WordMixing.xorShift_injective (by decide) same
  have same := WordMixing.mul_injective first same
  have same := WordMixing.xorShift_injective (by decide) same
  exact UInt64.toBitVec_inj.mp (WordMixing.add_injective _ same)

theorem bucket_eq_iff {hash : UInt64 → UInt64} {k : LogCapacity} {ref : UInt64}
    {b : Fin (capacity k)} :
    bucket hash k ref = b ↔ (hash ref).toNat % 2 ^ k.val = b.val := by
  rw [Fin.ext_iff]
  change (hash ref).toNat &&& (2 ^ k.val - 1) = b.val ↔ _
  rw [Nat.and_two_pow_sub_one_eq_mod]

def bits (hash : UInt64 → UInt64) (x : BitVec 64) : BitVec 64 := (hash (.ofBitVec x)).toBitVec

theorem bits_injective {hash : UInt64 → UInt64} (injective : Function.Injective hash) :
    Function.Injective (bits hash) := fun _ _ same =>
  congrArg UInt64.toBitVec (injective (UInt64.toBitVec_inj.mp same))

theorem ncard_bucket {hash : UInt64 → UInt64} (injective : Function.Injective hash)
    (k : LogCapacity) (b : Fin (capacity k)) :
    {ref | bucket hash k ref = b}.ncard = 2 ^ (64 - k.val) := by
  have preimage : {ref | bucket hash k ref = b} =
      Set.preimage UInt64.toBitVec {x | (bits hash x).toNat % 2 ^ k.val = b.val} := by
    ext ref
    exact bucket_eq_iff
  rw [preimage, Set.ncard_preimage_of_injective_subset_range
    (fun _ _ same => UInt64.toBitVec_inj.mp same) fun x _ => ⟨.ofBitVec x, rfl⟩]
  exact WordMixing.ncard_preimage_low (bits_injective injective) (Nat.le_of_lt k.isLt) b.isLt

/-- `mix` is a bijection of the words, and so spreads all references evenly over the
buckets of any capacity; no two of them have one mixed value. -/
theorem mix_balanced :
    Function.Bijective mix ∧
      (∀ (k : LogCapacity) (b : Fin (capacity k)),
        {ref | bucket mix k ref = b}.ncard = 2 ^ (64 - k.val)) ∧
      ∀ ref ref', ref ≠ ref' → mix ref ≠ mix ref' := by
  refine ⟨⟨mix_injective, fun y => ?_⟩, ncard_bucket mix_injective, fun _ _ => mix_injective.ne⟩
  obtain ⟨x, here⟩ := (WordMixing.bijective (bits_injective mix_injective)).surjective y.toBitVec
  exact ⟨.ofBitVec x, UInt64.toBitVec_inj.mp here⟩

end ItchAggregator.OrderHash
