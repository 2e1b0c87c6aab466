import ItchAggregator.Library.ProbeVisits
import ItchAggregator.OrderHistory

/-! The loops of the order table. None of them has a counter in the source; what ends
them is an empty slot, and the load keeps one free whatever the references are. -/

namespace ItchAggregator.OrderHash

variable {k : LogCapacity} {hash : UInt64 → UInt64} {h : OrderHash k}

/-- The loops of a call with the reference `ref` end within `visits` slot visits, those of
the probe and those of the deletion behind it taken together; with the operations' own
bound they end no later and with the same result. -/
def LoopsWithin (hash : UInt64 → UInt64) (h : OrderHash k) (visits : Nat) (ref : UInt64) : Prop :=
  ∃ n m, n + m ≤ visits ∧ h.lookup hash ref ≠ .endless ∧
    h.probe ref n (bucket hash k ref) = h.lookup hash ref ∧
    ∀ i, h.lookup hash ref = .found i →
      ∃ slots, shiftLoop hash m (clear h.slots i) i i = some slots ∧
        shiftLoop hash (capacity k) (clear h.slots i) i i = some slots

theorem probe_mono {n m : Nat} (le : n ≤ m) {ref : UInt64} {i : Fin (capacity k)}
    (ends : h.probe ref n i ≠ .endless) : h.probe ref m i = h.probe ref n i := by
  rw [probe_eq_seek] at ends ⊢
  rw [probe_eq_seek, LinearProbing.seek_mono le ends]

theorem shiftLoop_mono {n m : Nat} (le : n ≤ m) {slots slots' : Fin (capacity k) → OrderInfo}
    {hole i : Fin (capacity k)} (ends : shiftLoop hash n slots hole i = some slots') :
    shiftLoop hash m slots hole i = some slots' := by
  induction n generalizing m slots hole i with
  | zero => cases ends
  | succ n ih =>
    obtain ⟨m, rfl⟩ := Nat.exists_eq_add_of_le' (Nat.lt_of_lt_of_le (Nat.succ_pos n) le)
    have le := Nat.le_of_succ_le_succ le
    unfold shiftLoop at ends ⊢
    dsimp only at ends ⊢
    split
    · rename_i empty
      rwa [if_pos empty] at ends
    · rename_i held
      rw [if_neg held] at ends
      split
      · rename_i crosses
        rw [if_pos crosses] at ends
        exact ih le ends
      · rename_i stays
        rw [if_neg stays] at ends
        exact ih le ends

theorem Sound.loopsWithin (sound : Sound hash h) (ref : UInt64) :
    LoopsWithin hash h (capacity k) ref := by
  obtain ⟨free, empty⟩ := sound.free
  obtain ⟨n, m, le, ends, shift⟩ := LinearProbing.seek_shiftBack_visits sound.path empty
    (fun e => e.ref == ref) (bucket hash k ref)
  rw [← probe_eq_seek] at ends
  have lookup : h.lookup hash ref = h.probe ref n (bucket hash k ref) :=
    probe_mono (by omega) ends
  refine ⟨n, m, le, lookup ▸ ends, lookup.symm, fun i found => ?_⟩
  have stops := shift i (by rw [← probe_eq_seek, ← lookup, found])
  rw [← view_clear, ← shiftLoop_eq_shiftBack, Ne, Option.map_eq_none_iff] at stops
  obtain ⟨slots, result⟩ := Option.ne_none_iff_exists'.mp stops
  exact ⟨slots, result, shiftLoop_mono (by omega) result⟩

theorem Sound.call_size (sound : Sound hash h) (c : Call) :
    (h.call hash c).2.size.toNat = h.size.toNat + 1 ∨ (h.call hash c).2.size = h.size ∨
      (h.call hash c).2.size.toNat + 1 = h.size.toNat := by
  cases c with
  | insert ref locate side shares price =>
    by_cases accepts : Accepts hash h ref
    · obtain ⟨h', result, _, size, _⟩ :=
        sound.insert_accepted locate side shares price accepts.2 accepts.1
      left
      simp only [OrderHash.call, result, size]
    · right; left
      simp only [OrderHash.call, sound.insert_refused locate side shares price accepts]
  | find ref => exact Or.inr (Or.inl rfl)
  | reduce ref canceled =>
    cases live : h.find hash ref with
    | none =>
      right; left
      simp only [OrderHash.call, sound.reduce_unknown canceled live]
    | some e =>
      by_cases all : e.shares ≤ canceled
      · obtain ⟨h', result, _, size, _⟩ := sound.reduce_all live all
        right; right
        simp only [OrderHash.call, result, size]
      · obtain ⟨h', result, _, size, _⟩ := sound.reduce_part live all
        right; left
        simp only [OrderHash.call, result, size]
  | erase ref =>
    cases live : h.find hash ref with
    | none =>
      right; left
      simp only [OrderHash.call, sound.erase_unknown live]
    | some e =>
      obtain ⟨h', result, _, size, _⟩ := sound.erase_live live
      right; right
      simp only [OrderHash.call, result, size]

/-- Before every call of every sequence, of any references, a slot is empty: the occupied
ones are at most the size, and that is at most half the capacity and never wraps. The
loops of the call therefore end within as many visits as there are slots. -/
theorem loops_terminate (hash : UInt64 → UInt64) (k : LogCapacity) (calls : List Call) :
    let h := ((empty k).run hash calls).2
    h.occupied ≤ h.size.toNat ∧ h.size.toNat ≤ capacity k / 2 ∧ (∃ i, (h.slots i).ref = 0) ∧
      (∀ ref, LoopsWithin hash h (capacity k) ref) ∧
      ∀ c, (h.call hash c).2.size.toNat = h.size.toNat + 1 ∨ (h.call hash c).2.size = h.size ∨
        (h.call hash c).2.size.toNat + 1 = h.size.toNat := by
  intro h
  have sound : Sound hash h := (empty_sound hash k).run calls
  obtain ⟨free, empty⟩ := sound.free
  exact ⟨sound.occupied_le, sound.size_le, ⟨free, view_eq_none.mp empty⟩, sound.loopsWithin,
    sound.call_size⟩

end ItchAggregator.OrderHash
