import Mathlib

/-! Text as bytes in UTF-8. ASCII bytes are the text of their characters; any other byte
is part of a longer encoding, so that it does not stand alone. -/

namespace ItchAggregator.Utf8

def IsUtf8 (bytes : List UInt8) (text : List Char) : Prop :=
  text.flatMap String.utf8EncodeChar = bytes

def ofAscii (b : UInt8) : Char := Char.ofNat b.toNat

theorem toNat_ofAscii {b : UInt8} (ascii : b < 0x80) : (ofAscii b).toNat = b.toNat := by
  have small : b.toNat < 128 := UInt8.lt_iff_toNat_lt.mp ascii
  have valid : b.toNat.isValidChar := Or.inl (by omega)
  rw [ofAscii, Char.ofNat, dif_pos valid]
  rfl

theorem encode_ofAscii {b : UInt8} (ascii : b < 0x80) : String.utf8EncodeChar (ofAscii b) = [b] := by
  have small : b.toNat < 128 := UInt8.lt_iff_toNat_lt.mp ascii
  have value : (ofAscii b).val.toNat = b.toNat := toNat_ofAscii ascii
  have one : (ofAscii b).val.toNat ≤ 0x7f := by omega
  simp only [String.utf8EncodeChar]
  rw [if_pos one, value, UInt8.ofNat_toNat]

theorem le_ofNat {n m : Nat} (low : 0x80 ≤ m) (high : n + m < 256) : 0x80 ≤ UInt8.ofNat (n + m) := by
  rw [UInt8.le_iff_toNat_le, UInt8.toNat_ofNat_of_lt' high]
  exact low.trans (Nat.le_add_left m n)

/-- A character is encoded as an ASCII byte or in bytes none of which is ASCII. -/
theorem encode_cases (c : Char) :
    (∃ b : UInt8, b < 0x80 ∧ c = ofAscii b ∧ String.utf8EncodeChar c = [b]) ∨
      2 ≤ (String.utf8EncodeChar c).length ∧ ∀ b ∈ String.utf8EncodeChar c, 0x80 ≤ b := by
  by_cases one : c.toNat ≤ 0x7f
  · have bound : c.toNat < 256 := by omega
    have byte : (UInt8.ofNat c.toNat).toNat = c.toNat := UInt8.toNat_ofNat_of_lt' bound
    have ascii : UInt8.ofNat c.toNat < 0x80 := by
      rw [UInt8.lt_iff_toNat_lt, byte]
      exact Nat.lt_succ_of_le one
    have same : c = ofAscii (UInt8.ofNat c.toNat) := by
      rw [ofAscii, byte, Char.ofNat_toNat]
    refine Or.inl ⟨_, ascii, same, ?_⟩
    exact (congrArg String.utf8EncodeChar same).trans (encode_ofAscii ascii)
  · refine Or.inr ?_
    have more : ¬c.val.toNat ≤ 0x7f := one
    simp only [String.utf8EncodeChar]
    rw [if_neg more]
    split
    · refine ⟨by simp, ?_⟩
      simp only [List.forall_mem_cons, List.not_mem_nil, false_implies, implies_true, and_true]
      exact ⟨le_ofNat (by decide) (by omega), le_ofNat (by decide) (by omega)⟩
    · split
      · refine ⟨by simp, ?_⟩
        simp only [List.forall_mem_cons, List.not_mem_nil, false_implies, implies_true, and_true]
        exact ⟨le_ofNat (by decide) (by omega), le_ofNat (by decide) (by omega),
          le_ofNat (by decide) (by omega)⟩
      · refine ⟨by simp, ?_⟩
        simp only [List.forall_mem_cons, List.not_mem_nil, false_implies, implies_true, and_true]
        exact ⟨le_ofNat (by decide) (by omega), le_ofNat (by decide) (by omega),
          le_ofNat (by decide) (by omega), le_ofNat (by decide) (by omega)⟩

theorem isUtf8_ascii {bytes : List UInt8} (ascii : ∀ b ∈ bytes, b < 0x80) {text : List Char} :
    IsUtf8 bytes text ↔ text = bytes.map ofAscii := by
  induction bytes generalizing text with
  | nil =>
    cases text with
    | nil => simp [IsUtf8]
    | cons c text =>
      have some_ : String.utf8EncodeChar c ≠ [] := String.utf8EncodeChar_ne_nil
      simp [IsUtf8, some_]
  | cons b bytes ih =>
    have later := @ih fun x hx => ascii x (List.mem_cons_of_mem b hx)
    have first : b < 0x80 := ascii b List.mem_cons_self
    cases text with
    | nil => simp [IsUtf8]
    | cons c text =>
      have rest := @later text
      unfold IsUtf8 at rest ⊢
      rw [List.flatMap_cons, List.map_cons, List.cons.injEq, ← rest]
      constructor
      · intro same
        rcases encode_cases c with ⟨x, _, char, single⟩ | ⟨long, high⟩
        · rw [single, List.singleton_append, List.cons.injEq] at same
          exact ⟨same.1 ▸ char, same.2⟩
        · cases bytes' : String.utf8EncodeChar c with
          | nil => exact absurd bytes' String.utf8EncodeChar_ne_nil
          | cons x xs =>
            rw [bytes', List.cons_append, List.cons.injEq] at same
            have low := high x (bytes' ▸ List.mem_cons_self)
            rw [same.1] at low
            exact absurd first (UInt8.not_lt.mpr low)
      · rintro ⟨rfl, same⟩
        rw [encode_ofAscii first, same]
        rfl

/-- A byte that is not ASCII does not stand alone between two that are. -/
theorem not_isUtf8 {l r : List UInt8} {a b c : UInt8} (before : a < 0x80) (high : 0x80 ≤ b)
    (behind : c < 0x80) (text : List Char) : ¬IsUtf8 (l ++ a :: b :: c :: r) text := by
  unfold IsUtf8
  induction text generalizing l with
  | nil =>
    intro same
    exact absurd (congrArg List.length same) (by simp)
  | cons x text ih =>
    intro same
    rw [List.flatMap_cons, List.append_eq_append_iff] at same
    rcases same with ⟨l', whole, rest⟩ | ⟨s, encoded, rest⟩
    · exact ih rest
    · cases s with
      | nil => exact @ih [] rest.symm
      | cons y s =>
        -- the encoding of `x` reaches `a`, which therefore is the character
        rw [List.cons_append, List.cons.injEq] at rest
        obtain ⟨rfl, rest⟩ := rest
        have inside : a ∈ String.utf8EncodeChar x := by
          rw [encoded]
          exact List.mem_append_right l List.mem_cons_self
        rcases encode_cases x with ⟨z, _, _, single⟩ | ⟨_, all⟩
        · have alone : s = [] := by
            have length := congrArg List.length encoded
            rw [single, List.length_append, List.length_singleton, List.length_cons] at length
            exact List.length_eq_zero_iff.mp (by omega)
          rw [alone, List.nil_append] at rest
          -- `b` then begins a character of its own, which `c` does not go on
          cases text with
          | nil => cases rest
          | cons w text =>
            rw [List.flatMap_cons] at rest
            rcases encode_cases w with ⟨z, low, _, single'⟩ | ⟨long, all⟩
            · rw [single', List.singleton_append, List.cons.injEq] at rest
              exact absurd (rest.1 ▸ low) (UInt8.not_lt.mpr high)
            · match bytes : String.utf8EncodeChar w with
              | [] | [_] => simp [bytes] at long
              | u :: v :: more =>
                rw [bytes, List.cons_append, List.cons_append, List.cons.injEq, List.cons.injEq] at rest
                have second := all v (by simp [bytes])
                rw [← rest.2.1] at second
                exact absurd behind (UInt8.not_lt.mpr second)
        · exact absurd before (UInt8.not_lt.mpr (all a inside))

end ItchAggregator.Utf8
