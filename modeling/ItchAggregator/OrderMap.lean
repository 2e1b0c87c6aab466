import ItchAggregator.OrderHashOps

/-! The order table's purpose: a finite map from references to orders that takes
no more than half its capacity. Every run of calls on the table answers as the
map does. -/

namespace ItchAggregator

structure Order where
  locate : UInt16
  side : UInt8
  shares : UInt32
  price : UInt32
  deriving DecidableEq, Repr

def Order.info (ref : UInt64) (o : Order) : OrderInfo :=
  ⟨ref, o.shares, o.price, o.locate, o.side, 0⟩

abbrev OrderMap := Finmap fun _ : UInt64 => Order

namespace OrderMap

def find (m : OrderMap) (ref : UInt64) : Option Order := m.lookup ref

def insert (limit : Nat) (m : OrderMap) (ref : UInt64) (o : Order) : Bool × OrderMap :=
  if m.keys.card + 1 ≤ limit ∧ ref ∉ m then (true, Finmap.insert ref o m) else (false, m)

def reduce (m : OrderMap) (ref : UInt64) (canceled : UInt32) : Bool × OrderMap :=
  match m.find ref with
  | none => (false, m)
  | some o =>
    (true,
      if o.shares ≤ canceled then Finmap.erase ref m
      else Finmap.insert ref { o with shares := o.shares - canceled } m)

def erase (m : OrderMap) (ref : UInt64) : Bool × OrderMap :=
  (decide (ref ∈ m), Finmap.erase ref m)

theorem find_insert_ite (m : OrderMap) (ref : UInt64) (o : Order) (x : UInt64) :
    find (Finmap.insert ref o m) x = if x = ref then some o else m.find x := by
  unfold find
  by_cases hx : x = ref
  · rw [if_pos hx, hx, Finmap.lookup_insert]
  · rw [if_neg hx, Finmap.lookup_insert_of_ne m hx]

theorem find_erase_ite (m : OrderMap) (ref x : UInt64) :
    find (Finmap.erase ref m) x = if x = ref then none else m.find x := by
  unfold find
  by_cases hx : x = ref
  · rw [if_pos hx, hx, Finmap.lookup_erase]
  · rw [if_neg hx, Finmap.lookup_erase_ne hx]

theorem mem_iff_find {m : OrderMap} {ref : UInt64} : ref ∈ m ↔ m.find ref ≠ none := by
  rw [find, Ne, Finmap.lookup_eq_none, not_not]

end OrderMap

/-! Calls and their answers. -/

inductive Call
  | insert (ref : UInt64) (locate : UInt16) (side : UInt8) (shares price : UInt32)
  | find (ref : UInt64)
  | reduce (ref : UInt64) (canceled : UInt32)
  | erase (ref : UInt64)

def Call.ref : Call → UInt64
  | .insert ref .. => ref
  | .find ref => ref
  | .reduce ref _ => ref
  | .erase ref => ref

inductive Answer
  | flag (b : Bool)
  | entry (o : Option OrderInfo)
  deriving DecidableEq

def OrderHash.call {k : LogCapacity} (hash : UInt64 → UInt64) (h : OrderHash k) :
    Call → Answer × OrderHash k
  | .insert ref locate side shares price =>
    let r := h.insert hash ref locate side shares price
    (.flag r.1, r.2)
  | .find ref => (.entry (h.find hash ref), h)
  | .reduce ref canceled =>
    let r := h.reduce hash ref canceled
    (.flag r.1, r.2)
  | .erase ref =>
    let r := h.erase hash ref
    (.flag r.1, r.2)

def OrderMap.call (limit : Nat) (m : OrderMap) : Call → Answer × OrderMap
  | .insert ref locate side shares price =>
    let r := m.insert limit ref ⟨locate, side, shares, price⟩
    (.flag r.1, r.2)
  | .find ref => (.entry ((m.find ref).map (Order.info ref)), m)
  | .reduce ref canceled =>
    let r := m.reduce ref canceled
    (.flag r.1, r.2)
  | .erase ref =>
    let r := m.erase ref
    (.flag r.1, r.2)

/-- Each call's answer and `size()` after it, and the final table. -/
def OrderHash.run {k : LogCapacity} (hash : UInt64 → UInt64) :
    OrderHash k → List Call → List (Answer × Nat) × OrderHash k
  | h, [] => ([], h)
  | h, c :: cs =>
    let r := h.call hash c
    let rest := run hash r.2 cs
    ((r.1, r.2.size.toNat) :: rest.1, rest.2)

def OrderMap.run (limit : Nat) : OrderMap → List Call → List (Answer × Nat) × OrderMap
  | m, [] => ([], m)
  | m, c :: cs =>
    let r := m.call limit c
    let rest := run limit r.2 cs
    ((r.1, r.2.keys.card) :: rest.1, rest.2)

namespace OrderHash

variable {k : LogCapacity} {hash : UInt64 → UInt64} {h : OrderHash k} {m : OrderMap}

theorem Sound.card_live (sound : Sound hash h) {live : Finset UInt64}
    (mem : ∀ ref, ref ∈ live ↔ h.find hash ref ≠ none) : live.card = h.occupied := by
  symm
  unfold occupied LinearProbing.count
  refine Finset.card_bij (fun i _ => (h.slots i).ref) ?_ ?_ ?_
  · intro i hi
    obtain ⟨e, entry⟩ := Option.isSome_iff_exists.mp (Finset.mem_filter.mp hi).2
    have slot := (view_eq_some.mp entry).1
    rw [mem, slot, sound.find_eq_some.mpr ⟨⟨i, entry⟩, rfl⟩]
    simp
  · intro i hi j hj same
    obtain ⟨d, hd⟩ := Option.isSome_iff_exists.mp (Finset.mem_filter.mp hi).2
    obtain ⟨e, he⟩ := Option.isSome_iff_exists.mp (Finset.mem_filter.mp hj).2
    rw [(view_eq_some.mp hd).1, (view_eq_some.mp he).1] at same
    exact sound.distinct i j d e hd he same
  · intro ref hr
    obtain ⟨e, found⟩ := Option.ne_none_iff_exists'.mp ((mem ref).mp hr)
    obtain ⟨⟨i, entry⟩, same⟩ := sound.find_eq_some.mp found
    exact ⟨i, by simp [entry], by rw [(view_eq_some.mp entry).1, same]⟩

structure Refines (hash : UInt64 → UInt64) (h : OrderHash k) (m : OrderMap) : Prop where
  sound : Sound hash h
  full : h.size.toNat = h.occupied
  finds : ∀ ref, h.find hash ref = (m.find ref).map (Order.info ref)

theorem empty_refines (hash : UInt64 → UInt64) (k : LogCapacity) :
    Refines hash (empty k) ∅ where
  sound := empty_sound hash k
  full := by
    rw [occupied, view_empty, LinearProbing.count_empty]
    rfl
  finds := by
    intro ref
    have none : (empty k).find hash ref = none := by
      rw [(empty_sound hash k).find_eq_none]
      rintro e ⟨i, entry⟩
      rw [view_empty] at entry
      simp at entry
    rw [none]
    rfl

theorem Refines.find_none (r : Refines hash h m) {ref : UInt64} :
    h.find hash ref = none ↔ ref ∉ m := by
  rw [r.finds, OrderMap.mem_iff_find, not_not, Option.map_eq_none_iff]

theorem Refines.size_eq (r : Refines hash h m) : h.size.toNat = m.keys.card := by
  rw [r.full]
  refine (r.sound.card_live fun ref => ?_).symm
  rw [Finmap.mem_keys, Ne, r.find_none, not_not]

theorem Refines.changed (r : Refines hash h m) {h' : OrderHash k} {m' : OrderMap} (ref : UInt64)
    (new : Option Order) (sound' : Sound hash h') (full : h'.size.toNat = h'.occupied)
    (table : ∀ x, h'.find hash x = if x = ref then new.map (Order.info ref) else h.find hash x)
    (map : ∀ x, m'.find x = if x = ref then new else m.find x) : Refines hash h' m' where
  sound := sound'
  full := full
  finds := by
    intro x
    rw [table, map]
    by_cases hx : x = ref
    · simp [hx]
    · simp [hx, r.finds]

theorem Refines.insert (r : Refines hash h m) {ref : UInt64} (nonzero : ref ≠ 0) (o : Order) :
    (h.insert hash ref o.locate o.side o.shares o.price).1 =
        (m.insert (capacity k / 2) ref o).1 ∧
      Refines hash (h.insert hash ref o.locate o.side o.shares o.price).2
        (m.insert (capacity k / 2) ref o).2 := by
  unfold OrderMap.insert
  by_cases room : m.keys.card + 1 ≤ capacity k / 2
  · by_cases fresh : ref ∉ m
    · obtain ⟨h', result, sound', size, bound, _⟩ :=
        r.sound.insert_accepted o.locate o.side o.shares o.price
          (by rw [r.size_eq]; exact room) (r.find_none.mpr fresh)
      obtain ⟨counted, finds⟩ := bound nonzero
      rw [result, if_pos ⟨room, fresh⟩]
      refine ⟨rfl, r.changed ref (some o) sound' ?_ finds
        (OrderMap.find_insert_ite m ref o)⟩
      rw [size, counted, r.full]
    · rw [if_neg (fun both => fresh both.2), r.sound.insert_duplicate _ _ _ _
        (fun none => fresh (r.find_none.mp none))]
      exact ⟨rfl, r⟩
  · rw [if_neg (fun both => room both.1), r.sound.insert_full _ _ _ _
      (by rw [r.size_eq]; omega)]
    exact ⟨rfl, r⟩

theorem Refines.erase (r : Refines hash h m) (ref : UInt64) :
    (h.erase hash ref).1 = (m.erase ref).1 ∧ Refines hash (h.erase hash ref).2 (m.erase ref).2 := by
  have finds := r.finds ref
  unfold OrderMap.erase
  cases live : m.find ref with
  | none =>
    rw [live] at finds
    have absent : ref ∉ m := r.find_none.mp finds
    rw [r.sound.erase_unknown finds]
    refine ⟨by simp [absent], ?_⟩
    exact r.changed ref none r.sound r.full
      (fun x => by split <;> simp_all) (OrderMap.find_erase_ite m ref)
  | some o =>
    rw [live] at finds
    obtain ⟨h', result, sound', size, counted, gone⟩ := r.sound.erase_live finds
    have present : ref ∈ m := OrderMap.mem_iff_find.mpr (by simp [live])
    rw [result]
    refine ⟨by simp [present], ?_⟩
    refine r.changed ref none sound' ?_ gone (OrderMap.find_erase_ite m ref)
    have := r.full
    change h'.size.toNat = h'.occupied
    omega

theorem Refines.reduce (r : Refines hash h m) (ref : UInt64) (canceled : UInt32) :
    (h.reduce hash ref canceled).1 = (m.reduce ref canceled).1 ∧
      Refines hash (h.reduce hash ref canceled).2 (m.reduce ref canceled).2 := by
  have finds := r.finds ref
  unfold OrderMap.reduce
  cases live : m.find ref with
  | none =>
    rw [live] at finds
    rw [r.sound.reduce_unknown canceled finds]
    exact ⟨rfl, r⟩
  | some o =>
    rw [live] at finds
    by_cases all : o.shares ≤ canceled
    · obtain ⟨h', result, sound', size, counted, gone⟩ := r.sound.reduce_all finds all
      rw [result]
      simp only [all, if_true]
      refine ⟨trivial, r.changed ref none sound' ?_ gone (OrderMap.find_erase_ite m ref)⟩
      have := r.full
      change h'.size.toNat = h'.occupied
      omega
    · obtain ⟨h', result, sound', size, counted, changed⟩ := r.sound.reduce_part finds all
      rw [result]
      simp only [all, if_false]
      refine ⟨trivial, r.changed ref (some { o with shares := o.shares - canceled }) sound' ?_
        changed (OrderMap.find_insert_ite m ref _)⟩
      rw [size, counted, r.full]

theorem Refines.call (r : Refines hash h m) {c : Call} (nonzero : c.ref ≠ 0) :
    (h.call hash c).1 = (m.call (capacity k / 2) c).1 ∧
      Refines hash (h.call hash c).2 (m.call (capacity k / 2) c).2 := by
  cases c with
  | insert ref locate side shares price =>
    obtain ⟨same, after⟩ := r.insert nonzero ⟨locate, side, shares, price⟩
    exact ⟨congrArg Answer.flag same, after⟩
  | find ref => exact ⟨congrArg Answer.entry (r.finds ref), r⟩
  | reduce ref canceled =>
    obtain ⟨same, after⟩ := r.reduce ref canceled
    exact ⟨congrArg Answer.flag same, after⟩
  | erase ref =>
    obtain ⟨same, after⟩ := r.erase ref
    exact ⟨congrArg Answer.flag same, after⟩

theorem Refines.run (r : Refines hash h m) {calls : List Call} (nonzero : ∀ c ∈ calls, c.ref ≠ 0) :
    (h.run hash calls).1 = (m.run (capacity k / 2) calls).1 ∧
      Refines hash (h.run hash calls).2 (m.run (capacity k / 2) calls).2 := by
  induction calls generalizing h m with
  | nil => exact ⟨rfl, r⟩
  | cons c calls ih =>
    obtain ⟨same, after⟩ := r.call (nonzero c List.mem_cons_self)
    obtain ⟨rest, final⟩ := ih after fun d hd => nonzero d (List.mem_cons_of_mem c hd)
    refine ⟨?_, final⟩
    simp only [OrderHash.run, OrderMap.run, same, after.size_eq, rest]

theorem Sound.slots_distinct (sound : Sound hash h) {i j : Fin (capacity k)}
    (same : (h.slots i).ref = (h.slots j).ref) (live : (h.slots i).ref ≠ 0) : i = j :=
  sound.distinct i j _ _ (view_eq_some.mpr ⟨rfl, live⟩)
    (view_eq_some.mpr ⟨rfl, fun zero => live (same.trans zero)⟩) same

/-- The loops of the operations come to their end: neither bound on the visits is
the reason one of them stops. -/
structure LoopsEnd (hash : UInt64 → UInt64) (h : OrderHash k) : Prop where
  lookup : ∀ ref, h.lookup hash ref ≠ .endless
  shift : ∀ i, (h.slots i).ref ≠ 0 → shiftLoop hash (capacity k) (clear h.slots i) i i ≠ none

theorem Sound.loopsEnd (sound : Sound hash h) : LoopsEnd hash h where
  lookup := by
    intro ref
    rcases sound.lookup_cases ref with ⟨i, _, result, _⟩ | ⟨i, result, _⟩ <;> simp [result]
  shift := by
    intro i live
    have entry : view h.slots i = some (h.slots i) := view_eq_some.mpr ⟨rfl, live⟩
    obtain ⟨slots, loop, _⟩ := sound.shiftLoop_total entry
    simp [loop]

end OrderHash

/-- The order table refines a map limited to half its capacity: for any hash
function, every call of every sequence answers as the map's, with the map's size
after it; and the table it ends in shows every order of the map, unaltered, in
one slot. No loop of the next call runs on. -/
theorem orderHash_run_refines (hash : UInt64 → UInt64) (k : LogCapacity) (calls : List Call)
    (nonzero : ∀ c ∈ calls, c.ref ≠ 0) :
    ((OrderHash.empty k).run hash calls).1 =
        (OrderMap.run (capacity k / 2) ∅ calls).1 ∧
      (∀ ref, ((OrderHash.empty k).run hash calls).2.find hash ref =
        ((OrderMap.run (capacity k / 2) ∅ calls).2.find ref).map (Order.info ref)) ∧
      (∀ i j, (((OrderHash.empty k).run hash calls).2.slots i).ref =
          (((OrderHash.empty k).run hash calls).2.slots j).ref →
        (((OrderHash.empty k).run hash calls).2.slots i).ref ≠ 0 → i = j) ∧
      ((OrderHash.empty k).run hash calls).2.LoopsEnd hash := by
  obtain ⟨answers, final⟩ := (OrderHash.empty_refines hash k).run nonzero
  exact ⟨answers, final.finds, fun _ _ => final.sound.slots_distinct, final.sound.loopsEnd⟩

/-- Two references of one bucket, the first taken out again. -/
theorem orderHash_run_refines_collision :
    ((OrderHash.empty 3).run id
        [.insert 1 7 66 100 5, .insert 9 7 83 30 6, .erase 1, .reduce 9 10, .find 9]).1 =
      [(.flag true, 1), (.flag true, 2), (.flag true, 1), (.flag true, 1),
        (.entry (some ⟨9, 20, 6, 7, 83, 0⟩), 1)] := by
  rw [(orderHash_run_refines id 3 _ (by decide)).1]
  decide

end ItchAggregator
