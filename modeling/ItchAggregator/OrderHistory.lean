import ItchAggregator.Library.ProbeHistory
import ItchAggregator.OrderCount

/-! Deletion leaves no residue: the slots a table occupies are those of its live
references, whatever calls it went through. -/

namespace ItchAggregator

namespace OrderHash

open LinearProbing (Holds)

variable {k : LogCapacity} {hash : UInt64 → UInt64} {h h' : OrderHash k}

theorem Sound.call (sound : Sound hash h) (c : Call) : Sound hash (h.call hash c).2 := by
  cases c with
  | insert ref locate side shares price => exact sound.insert ..
  | find ref => exact sound
  | reduce ref canceled => exact sound.reduce ..
  | erase ref => exact sound.erase ref

theorem Sound.run (sound : Sound hash h) (calls : List Call) :
    Sound hash (h.run hash calls).2 := by
  induction calls generalizing h with
  | nil => exact sound
  | cons c calls ih => exact ih (sound.call c)

theorem Sound.live_iff (sound : Sound hash h) (ref : UInt64) :
    h.find hash ref ≠ none ↔ ∃ e, Holds (view h.slots) e ∧ e.ref = ref := by
  rw [Option.ne_none_iff_exists']
  exact exists_congr fun e => sound.find_eq_some

theorem Sound.free (sound : Sound hash h) : ∃ y, view h.slots y = none :=
  LinearProbing.exists_free sound.room

/-- Tables with the same live references occupy the same slots. -/
theorem Sound.occupied_of_live (sound : Sound hash h) (sound' : Sound hash h')
    (same : ∀ ref, h.find hash ref ≠ none ↔ h'.find hash ref ≠ none) (i : Fin (capacity k)) :
    view h.slots i = none ↔ view h'.slots i = none := by
  have homes := LinearProbing.homes_of_keys sound.distinct sound'.distinct
    (fun e => show home hash k e = bucket hash k e.ref from rfl) fun ref => by
      rw [← sound.live_iff, ← sound'.live_iff, same]
  exact LinearProbing.occupied_of_homes sound.path sound'.path sound.free sound'.free homes i

theorem Sound.lookup_of_live (sound : Sound hash h) (sound' : Sound hash h')
    (same : ∀ ref, h.find hash ref ≠ none ↔ h'.find hash ref ≠ none) {ref : UInt64}
    (absent : h.find hash ref = none) : h.lookup hash ref = h'.lookup hash ref := by
  have absent' : h'.find hash ref = none := by
    by_contra found
    exact (same ref).mpr found absent
  rw [lookup, lookup, probe_eq_seek, probe_eq_seek]
  refine LinearProbing.seek_missed (sound.occupied_of_live sound' same) (fun e held => ?_)
    (fun e held => ?_) _ _
  · simpa using sound.find_eq_none.mp absent e held
  · simpa using sound'.find_eq_none.mp absent' e held

/-! Fresh tables. -/

def inserts (orders : List (UInt64 × Order)) : List Call :=
  orders.map fun x => .insert x.1 x.2.locate x.2.side x.2.shares x.2.price

theorem run_inserts (sound : Sound hash h) {orders : List (UInt64 × Order)}
    (once : (orders.map Prod.fst).Nodup)
    (fresh : ∀ ref ∈ orders.map Prod.fst, ref ≠ 0 ∧ h.find hash ref = none)
    (room : h.size.toNat + orders.length ≤ capacity k / 2) (x : UInt64) :
    (h.run hash (inserts orders)).2.find hash x ≠ none ↔
      x ∈ orders.map Prod.fst ∨ h.find hash x ≠ none := by
  induction orders generalizing h with
  | nil => simp [inserts, OrderHash.run]
  | cons first orders ih =>
    obtain ⟨ref, o⟩ := first
    obtain ⟨nonzero, absent⟩ := fresh ref List.mem_cons_self
    rw [List.map_cons, List.nodup_cons] at once
    rw [List.length_cons] at room
    obtain ⟨h₁, result, sound₁, size, bound, _⟩ :=
      sound.insert_accepted o.locate o.side o.shares o.price (by omega) absent
    have finds := (bound nonzero).2
    have step : (h.run hash (inserts ((ref, o) :: orders))).2 =
        (h₁.run hash (inserts orders)).2 := by
      change ((h.insert hash ref o.locate o.side o.shares o.price).2.run hash
        (inserts orders)).2 = _
      rw [result]
    have later : ∀ ref' ∈ orders.map Prod.fst, ref' ≠ 0 ∧ h₁.find hash ref' = none := by
      intro ref' mem
      have ne : ref' ≠ ref := by
        rintro rfl
        exact once.1 mem
      obtain ⟨nonzero', absent'⟩ := fresh ref' (List.mem_cons_of_mem _ mem)
      exact ⟨nonzero', by rw [finds, if_neg ne, absent']⟩
    rw [step, ih sound₁ once.2 later (by omega), finds, List.map_cons, List.mem_cons]
    by_cases hx : x = ref
    · simp [hx]
    · simp [hx]

end OrderHash

open OrderHash in
/-- Two runs that end with the same live references end with the same slots occupied;
those are the slots of a fresh table that the live references were inserted into, in
any order, and a search for any other reference ends at the same slot. -/
theorem occupied_history_independent (hash : UInt64 → UInt64) (k : LogCapacity)
    (calls calls' : List Call)
    (same : ∀ ref, ((OrderHash.empty k).run hash calls).2.find hash ref ≠ none ↔
      ((OrderHash.empty k).run hash calls').2.find hash ref ≠ none) :
    let h := ((OrderHash.empty k).run hash calls).2
    let h' := ((OrderHash.empty k).run hash calls').2
    (∀ i, (h.slots i).ref = 0 ↔ (h'.slots i).ref = 0) ∧
      (∀ ref, h.find hash ref = none → h.lookup hash ref = h'.lookup hash ref) ∧
      ∀ orders : List (UInt64 × Order), (orders.map Prod.fst).Nodup →
        (∀ ref, ref ∈ orders.map Prod.fst ↔ h.find hash ref ≠ none) →
        let fresh := ((OrderHash.empty k).run hash (inserts orders)).2
        (∀ i, (h.slots i).ref = 0 ↔ (fresh.slots i).ref = 0) ∧
          ∀ ref, h.find hash ref = none → h.lookup hash ref = fresh.lookup hash ref := by
  intro h h'
  have sound : Sound hash h := (empty_sound hash k).run calls
  have sound' : Sound hash h' := (empty_sound hash k).run calls'
  refine ⟨fun i => ?_, fun ref => sound.lookup_of_live sound' same, ?_⟩
  · rw [← view_eq_none, ← view_eq_none]
    exact sound.occupied_of_live sound' same i
  · intro orders once live fresh
    have soundf : Sound hash fresh := (empty_sound hash k).run _
    have empty : ∀ ref, (OrderHash.empty k).find hash ref = none := fun ref => by
      rw [(empty_sound hash k).find_eq_none]
      rintro e ⟨i, entry⟩
      simp [view_empty] at entry
    have count : orders.length = h.occupied := by
      rw [← List.length_map (Prod.fst), ← List.toFinset_card_of_nodup once]
      exact sound.card_live fun ref => by rw [List.mem_toFinset, live]
    have half := sound.occupied_le.trans sound.size_le
    have finds : ∀ ref, h.find hash ref ≠ none ↔ fresh.find hash ref ≠ none := by
      intro ref
      rw [← live]
      have after := run_inserts (empty_sound hash k) once (fun ref' mem => ⟨?_, empty ref'⟩)
        (by change 0 + _ ≤ _; omega) ref
      · rw [after]
        simp [empty]
      · rintro rfl
        exact (live 0).mp mem sound.find_zero
    refine ⟨fun i => ?_, fun ref => sound.lookup_of_live soundf finds⟩
    rw [← view_eq_none, ← view_eq_none]
    exact sound.occupied_of_live soundf finds i

/-- Three references of one bucket around the end of the table, the first taken out again,
and the other two in a fresh table. -/
theorem occupied_history_independent_churn :
    let churn : List Call := [.insert 7 1 66 5 5, .insert 15 1 66 5 5, .insert 23 1 66 5 5, .erase 7]
    let fresh : List Call := [.insert 23 1 83 9 9, .insert 15 1 66 5 5]
    ((List.finRange (capacity 3)).filter fun i =>
        (((OrderHash.empty 3).run id churn).2.slots i).ref = 0) =
      (List.finRange (capacity 3)).filter fun i =>
        (((OrderHash.empty 3).run id fresh).2.slots i).ref = 0 := by
  intro churn fresh
  have refines := ((OrderHash.empty_refines id 3).run (show ∀ c ∈ churn, c.ref ≠ 0 by decide)).2
  have refines' := ((OrderHash.empty_refines id 3).run (show ∀ c ∈ fresh, c.ref ≠ 0 by decide)).2
  have keys : (OrderMap.run (capacity 3 / 2) ∅ churn).2.keys =
      (OrderMap.run (capacity 3 / 2) ∅ fresh).2.keys := by decide
  have slots := (occupied_history_independent id 3 churn fresh fun ref =>
    not_congr (by rw [refines.find_none, refines'.find_none, ← Finmap.mem_keys, ← Finmap.mem_keys,
      keys])).1
  exact List.filter_congr fun i _ => decide_eq_decide.mpr (slots i)

end ItchAggregator
