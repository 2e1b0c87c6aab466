import ItchAggregator.Library.LinearProbing

/-! The occupied positions of a table with whole probe paths depend on the homes of
its entries alone, whatever order they came in and whatever was deleted between. If
a position were empty in one table and occupied in the other, the stretch from the
nearest empty position behind it would hold more entries in the one than there are
homes in it for the other. -/

namespace ItchAggregator.LinearProbing

variable {c : Nat} {α K : Type} {home : α → Fin c} {key : α → K} {t t' : Table c α}

/-- The homes of the entries, each as often as it occurs. -/
def homes (home : α → Fin c) (t : Table c α) : Multiset (Fin c) :=
  (Finset.univ.val.filterMap t).map home

def homed (home : α → Fin c) (t : Table c α) (S : Fin c → Prop) [DecidablePred S] :
    Finset (Fin c) :=
  Finset.univ.filter fun i => ∃ e ∈ t i, S (home e)

theorem mem_homed {S : Fin c → Prop} [DecidablePred S] {i : Fin c} :
    i ∈ homed home t S ↔ ∃ e, t i = some e ∧ S (home e) := by
  simp [homed]

theorem countP_filterMap (S : Fin c → Prop) [DecidablePred S] (s : Multiset (Fin c)) :
    ((s.filterMap t).map home).countP S = s.countP fun i => ∃ e ∈ t i, S (home e) := by
  induction s using Multiset.induction with
  | empty => rfl
  | cons i s ih =>
    cases entry : t i with
    | none =>
      rw [Multiset.filterMap_cons_none i s entry, ih, Multiset.countP_cons_of_neg]
      simp [entry]
    | some e =>
      rw [Multiset.filterMap_cons_some t i s entry, Multiset.map_cons]
      by_cases inside : S (home e)
      · rw [Multiset.countP_cons_of_pos _ inside, Multiset.countP_cons_of_pos, ih]
        simpa [entry] using inside
      · rw [Multiset.countP_cons_of_neg _ inside, Multiset.countP_cons_of_neg, ih]
        simpa [entry] using inside

theorem countP_homes (S : Fin c → Prop) [DecidablePred S] :
    (homes home t).countP S = (homed home t S).card := by
  rw [homes, countP_filterMap, Multiset.countP_eq_card_filter]
  rfl

/-! Stretches between an empty position and a later one. -/

instance (y x j : Fin c) : Decidable (Scanned y x j) := by
  unfold Scanned
  infer_instance

theorem scanned_end {y x : Fin c} (ne : x ≠ y) : Scanned y x x := by
  rw [Ne, Fin.ext_iff] at ne
  unfold Scanned
  omega

theorem scanned_home {y x j h : Fin c} (inside : Scanned y x j) (avoids : ¬OnPath h j y) :
    Scanned y x h := by
  unfold Scanned at *
  unfold OnPath at avoids
  omega

theorem scanned_place {y x j h : Fin c} (inside : Scanned y x h) (avoids : ¬OnPath h j x)
    (ne : j ≠ x) : Scanned y x j := by
  rw [Ne, Fin.ext_iff] at ne
  unfold Scanned at *
  unfold OnPath at avoids
  omega

theorem ahead_lt_of_scanned {y x j : Fin c} (inside : Scanned y x j) (ne : j ≠ x) :
    ahead j x < ahead y x := by
  have := j.isLt
  have := y.isLt
  have := x.isLt
  rw [Ne, Fin.ext_iff] at ne
  unfold Scanned at inside
  unfold ahead
  split <;> split <;> omega

theorem exists_nearest (free : ∃ y, t y = none) {x : Fin c} (occupied : t x ≠ none) :
    ∃ y, t y = none ∧ ∀ j, Scanned y x j → t j ≠ none := by
  classical
  have some_free : (Finset.univ.filter fun y => t y = none).Nonempty := by
    obtain ⟨y, empty⟩ := free
    exact ⟨y, by simpa using empty⟩
  obtain ⟨y, empty, nearest⟩ := Finset.exists_min_image _ (fun y => ahead y x) some_free
  simp only [Finset.mem_filter, Finset.mem_univ, true_and] at empty nearest
  refine ⟨y, empty, fun j inside absent => ?_⟩
  have ne : j ≠ x := by
    rintro rfl
    exact occupied absent
  have nearer := ahead_lt_of_scanned inside ne
  have least := nearest j absent
  omega

/-- A position that only the second table occupies: more homes lie behind it there. -/
theorem exists_more_homes (inv : ProbeInv home t) (inv' : ProbeInv home t')
    (free : ∃ y, t' y = none) {x : Fin c} (empty : t x = none) (occupied : t' x ≠ none) :
    ∃ y, (homes home t).countP (Scanned y x) < (homes home t').countP (Scanned y x) := by
  obtain ⟨y, empty', filled⟩ := exists_nearest free occupied
  refine ⟨y, ?_⟩
  have ne : x ≠ y := by
    rintro rfl
    exact occupied empty'
  rw [countP_homes, countP_homes]
  let stretch := Finset.univ.filter (Scanned y x)
  have few : homed home t (Scanned y x) ⊂ stretch := by
    rw [Finset.ssubset_iff_of_subset]
    · refine ⟨x, by simpa [stretch] using scanned_end ne, fun mem => ?_⟩
      obtain ⟨e, entry, _⟩ := mem_homed.mp mem
      simp [empty] at entry
    · intro j mem
      obtain ⟨e, entry, inside⟩ := mem_homed.mp mem
      have here : j ≠ x := by
        rintro rfl
        simp [empty] at entry
      simpa [stretch] using scanned_place inside (fun onpath => inv j e entry x onpath empty) here
  have many : stretch ⊆ homed home t' (Scanned y x) := by
    intro j mem
    have inside : Scanned y x j := by simpa [stretch] using mem
    obtain ⟨e, entry⟩ := Option.ne_none_iff_exists'.mp (filled j inside)
    exact mem_homed.mpr ⟨e, entry,
      scanned_home inside fun onpath => inv' j e entry y onpath empty'⟩
  exact (Finset.card_lt_card few).trans_le (Finset.card_le_card many)

/-- Tables with the same homes occupy the same positions. -/
theorem occupied_of_homes (inv : ProbeInv home t) (inv' : ProbeInv home t')
    (free : ∃ y, t y = none) (free' : ∃ y, t' y = none) (same : homes home t = homes home t')
    (x : Fin c) : t x = none ↔ t' x = none := by
  constructor
  · intro empty
    by_contra occupied
    obtain ⟨y, more⟩ := exists_more_homes inv inv' free' empty occupied
    exact absurd (same ▸ more) (lt_irrefl _)
  · intro empty
    by_contra occupied
    obtain ⟨y, more⟩ := exists_more_homes inv' inv free empty occupied
    exact absurd (same ▸ more) (lt_irrefl _)

theorem homes_of_keys (distinct : Distinct key t) (distinct' : Distinct key t') {start : K → Fin c}
    (homed_ : ∀ e, home e = start (key e))
    (same : ∀ k, (∃ e, Holds t e ∧ key e = k) ↔ ∃ e, Holds t' e ∧ key e = k) :
    homes home t = homes home t' := by
  have split : ∀ u : Table c α, homes home u =
      (Finset.univ.val.filterMap fun i => (u i).map key).map start := by
    intro u
    rw [homes, ← Multiset.map_filterMap, Multiset.map_map]
    exact Multiset.map_congr rfl fun e _ => homed_ e
  have once : ∀ u : Table c α, Distinct key u →
      (Finset.univ.val.filterMap fun i => (u i).map key).Nodup := by
    intro u apart
    refine Multiset.Nodup.filterMap _ (fun i j k hi hj => ?_) Finset.univ.nodup
    obtain ⟨d, di, rfl⟩ := Option.map_eq_some_iff.mp hi
    obtain ⟨e, ej, same⟩ := Option.map_eq_some_iff.mp hj
    exact apart i j d e di ej same.symm
  have mem : ∀ (u : Table c α) k, k ∈ (Finset.univ.val.filterMap fun i => (u i).map key) ↔
      ∃ e, Holds u e ∧ key e = k := by
    intro u k
    simp only [Multiset.mem_filterMap, Finset.mem_val, Finset.mem_univ, true_and,
      Option.map_eq_some_iff, Holds]
    constructor
    · rintro ⟨i, e, entry, is_key⟩
      exact ⟨e, ⟨i, entry⟩, is_key⟩
    · rintro ⟨e, ⟨i, entry⟩, is_key⟩
      exact ⟨i, e, entry, is_key⟩
  rw [split, split, (Multiset.Nodup.ext (once t distinct) (once t' distinct')).mpr fun k => by
    rw [mem, mem, same]]

/-- A search without a hit is the same walk wherever the same positions are occupied. -/
theorem seek_missed {hit : α → Bool} (shape : ∀ i, t i = none ↔ t' i = none)
    (miss : ∀ e, Holds t e → hit e = false) (miss' : ∀ e, Holds t' e → hit e = false)
    (visits : Nat) (i : Fin c) : seek hit t visits i = seek hit t' visits i := by
  induction visits generalizing i with
  | zero => rfl
  | succ visits ih =>
    unfold seek
    cases entry : t i with
    | none => rw [(shape i).mp entry]
    | some e =>
      obtain ⟨e', entry'⟩ : ∃ e', t' i = some e' := by
        rw [← Option.ne_none_iff_exists']
        intro none
        simp [(shape i).mpr none] at entry
      simp only [entry', miss e ⟨i, entry⟩, miss' e' ⟨i, entry'⟩, Bool.false_eq_true, if_false, ih]

end ItchAggregator.LinearProbing
