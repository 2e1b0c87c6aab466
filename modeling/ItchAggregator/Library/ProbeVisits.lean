import ItchAggregator.Library.LinearProbing

/-! How many positions the loops of an open-addressing table visit. A search and the
deletion behind it walk forward from the search's start to an empty position, the one
from where the other stopped, so that together they visit no position twice. More
visits than a loop needs change nothing. -/

namespace ItchAggregator.LinearProbing

variable {c : Nat} {α : Type} {home : α → Fin c} {t : Table c α} {hit : α → Bool}

theorem seek_mono {n m : Nat} (le : n ≤ m) {i : Fin c} (ends : seek hit t n i ≠ .endless) :
    seek hit t m i = seek hit t n i := by
  induction n generalizing m i with
  | zero => exact absurd rfl ends
  | succ n ih =>
    obtain ⟨m, rfl⟩ := Nat.exists_eq_add_of_le' (Nat.lt_of_lt_of_le (Nat.succ_pos n) le)
    unfold seek at ends ⊢
    cases entry : t i with
    | none => rfl
    | some e =>
      rw [entry] at ends
      by_cases is_hit : hit e = true
      · simp only [is_hit, if_true]
      · simp only [is_hit, Bool.false_eq_true, if_false] at ends ⊢
        exact ih (Nat.le_of_succ_le_succ le) ends

def span (i free : Fin c) : Nat := if i = free then 1 else ahead i free + 1

theorem span_le (i free : Fin c) : span i free ≤ c := by
  unfold span
  split
  · exact i.pos
  · rename_i apart
    exact ahead_lt apart

theorem span_succ {i free : Fin c} (apart : i ≠ free) : span (succ i) free + 1 = span i free := by
  unfold span
  rw [if_neg apart]
  split
  · rename_i arrived
    subst arrived
    have hs := succ_val i
    have hi := i.isLt
    unfold ahead
    rw [Ne, Fin.ext_iff] at apart
    split at hs <;> split <;> omega
  · rename_i far
    rw [ahead_succ far]

theorem seek_visits (hit : α → Bool) {free : Fin c} (empty : t free = none) {d : Nat} :
    ∀ i, span i free = d →
      ∃ n, (n ≤ d ∧ ∃ j, seek hit t n i = .vacant j) ∨
        ∃ j, seek hit t n i = .found j ∧ t j ≠ none ∧ n + ahead j free ≤ d := by
  induction d with
  | zero =>
    intro i far
    unfold span at far
    split at far <;> omega
  | succ d ih =>
    intro i far
    cases entry : t i with
    | none => exact ⟨1, Or.inl ⟨by omega, i, by simp [seek, entry]⟩⟩
    | some e =>
      have apart : i ≠ free := by
        rintro rfl
        simp [empty] at entry
      by_cases is_hit : hit e = true
      · refine ⟨1, Or.inr ⟨i, by simp [seek, entry, is_hit], by simp [entry], ?_⟩⟩
        rw [span, if_neg apart] at far
        omega
      · have next : ∀ n, seek hit t (n + 1) i = seek hit t n (succ i) := by
          intro n
          rw [seek, entry]
          exact if_neg is_hit
        have near := span_succ apart
        obtain ⟨n, ⟨le, j, stops⟩ | ⟨j, stops, held, le⟩⟩ := ih (succ i) (by omega)
        · exact ⟨n + 1, Or.inl ⟨by omega, j, (next n).trans stops⟩⟩
        · exact ⟨n + 1, Or.inr ⟨j, (next n).trans stops, held, by omega⟩⟩

/-- A search, and the deletion of the entry it finds, visit together no more positions
than there are. -/
theorem seek_shiftBack_visits (inv : ProbeInv home t) {free : Fin c} (empty : t free = none)
    (hit : α → Bool) (h : Fin c) :
    ∃ n m, n + m ≤ c ∧ seek hit t n h ≠ .endless ∧
      ∀ i, seek hit t n h = .found i →
        shiftBack home m (Function.update t i none) i i ≠ none := by
  obtain ⟨n, ⟨le, j, stops⟩ | ⟨j, stops, held, le⟩⟩ := seek_visits hit empty h rfl
  · refine ⟨n, 0, le.trans (span_le h free), by simp [stops], fun i found => ?_⟩
    simp [stops] at found
  · refine ⟨n, ahead j free, le.trans (span_le h free), by simp [stops], fun i found => ?_⟩
    rw [stops] at found
    obtain rfl := Outcome.found.inj found
    have apart : free ≠ j := by
      rintro rfl
      exact held empty
    obtain ⟨t', run, _⟩ := shiftBack_spec (ahead j free) _ j j (Repair.start inv j)
      (by rw [Function.update_of_ne apart, empty]) apart (Nat.le_refl _)
    simp [run]

end ItchAggregator.LinearProbing
