import ItchAggregator.Library.Batching

/-! Where batches end. Reading the stream item by item, with the number of items in the
batch at hand, tells which items close a batch; taking a batch reads up to the first of
them, or to the end of the stream. -/

namespace ItchAggregator.Batching

variable {α β : Type} {limit : Nat} {l : List (Item α)} {b : Batch α}

/-- The items in the batch at hand after one more, and whether it closed the batch. -/
def advance (limit : Nat) (held : Nat × Bool) : Item α → Nat × Bool
  | .skip => (held.1, false)
  | .mark => (0, decide (held.1 ≠ 0))
  | .ship _ => if held.1 + 1 < limit then (held.1 + 1, false) else (0, true)

def position (limit : Nat) (held : Nat) (l : List (Item α)) : Nat × Bool :=
  l.foldl (advance limit) (held, false)

def Closes (limit : Nat) (l : List (Item α)) : Prop := (position limit 0 l).2 = true

instance (limit : Nat) (l : List (Item α)) : Decidable (Closes limit l) := by
  unfold Closes
  infer_instance

theorem position_cons {held next : Nat} {x : Item α}
    (open_ : advance limit (held, false) x = (next, false))
    (l : List (Item α)) : position limit held (x :: l) = position limit next l := by
  rw [position, List.foldl_cons, open_]
  rfl

theorem position_append {l r : List (Item α)} (some : r ≠ []) :
    position limit 0 (l ++ r) = position limit (position limit 0 l).1 r := by
  cases r with
  | nil => exact absurd rfl some
  | cons x r =>
    have same : ∀ held : Nat × Bool, advance limit held x = advance limit (held.1, false) x :=
      fun held => by cases x <;> rfl
    simp only [position, List.foldl_append, List.foldl_cons]
    rw [same]

theorem position_map (g : α → β) (held : Nat) (l : List (Item α)) :
    position limit held (l.map (Item.map g)) = position limit held l := by
  have same : ∀ held : Nat × Bool, ∀ x : Item α,
      advance limit held (x.map g) = advance limit held x := fun held x => by cases x <;> rfl
  simp only [position, List.foldl_map, same]

theorem position_closed {held : Nat} (closed : (position limit held l).2 = true) :
    (position limit held l).1 = 0 := by
  induction l using List.reverseRecOn with
  | nil => cases closed
  | append_singleton l x _ =>
    have last : position limit held (l ++ [x]) = advance limit (position limit held l) x := by
      rw [position, List.foldl_append]
      rfl
    rw [last] at closed ⊢
    cases x with
    | skip => cases closed
    | mark => rfl
    | ship a =>
      by_cases more : (position limit held l).1 + 1 < limit
      · simp [advance, more] at closed
      · simp [advance, more]

/-- What taking a batch has read: nothing in front of its last item closes a batch, and
the last one does if there is anything behind it. -/
structure Ends (limit : Nat) (l : List (Item α)) (held : Nat) (rest used : List (Item α)) : Prop where
  split : l = used ++ rest
  inner : ∀ i < used.length, (position limit held (used.take i)).2 = false
  last : position limit held used = (0, true) ∨
    rest = [] ∧ (position limit held used).2 = false

theorem Ends.cons {held next : Nat} {x : Item α} {rest used : List (Item α)}
    (open_ : advance limit (held, false) x = (next, false)) (ends : Ends limit l next rest used) :
    Ends limit (x :: l) held rest (x :: used) where
  split := congrArg (x :: ·) ends.split
  inner := by
    intro i hi
    cases i with
    | zero => rfl
    | succ i =>
      rw [List.take_succ_cons, position_cons open_]
      exact ends.inner i (Nat.lt_of_succ_lt_succ hi)
  last := by
    rw [position_cons open_]
    exact ends.last

theorem Ends.map {held : Nat} {rest used : List (Item α)} (ends : Ends limit l held rest used)
    (g : α → β) : Ends limit (l.map (Item.map g)) held (rest.map (Item.map g))
      (used.map (Item.map g)) where
  split := by rw [ends.split, List.map_append]
  inner := by
    intro i hi
    rw [← List.map_take, position_map]
    exact ends.inner i (by simpa using hi)
  last := by
    rw [position_map]
    exact ends.last.imp_right fun ⟨behind, stays⟩ =>
      ⟨by rw [behind, List.map_nil], stays⟩

theorem Ends.closes {held : Nat} {x : Item α} (closes : advance limit (held, false) x = (0, true)) :
    Ends limit (x :: l) held l [x] where
  split := rfl
  inner := by
    intro i hi
    obtain rfl : i = 0 := by simpa using hi
    rfl
  last := Or.inl closes

theorem take_ends (room : b.items.length < limit) :
    ∃ used, Ends limit l b.items.length (take limit l b).rest used := by
  induction l generalizing b with
  | nil => exact ⟨[], rfl, by simp, Or.inr ⟨rfl, rfl⟩⟩
  | cons x l ih =>
    cases x with
    | skip =>
      have unfolded : take limit (.skip :: l) b = take limit l b := by simp [take, room]
      rw [unfolded]
      obtain ⟨used, ends⟩ := ih room
      exact ⟨_, ends.cons rfl⟩
    | mark =>
      by_cases empty : b.items = []
      · have none : b.items.length = 0 := by simp [empty]
        have nil : b.items.isEmpty = true := by simp [empty]
        have unfolded : take limit (.mark :: l) b = take limit l { b with marked := true } := by
          simp only [take, if_pos room, nil, if_true]
        rw [unfolded]
        obtain ⟨used, ends⟩ := ih (b := { b with marked := true }) room
        exact ⟨_, ends.cons (by simp [advance, none])⟩
      · have unfolded : take limit (.mark :: l) b = ⟨b, true, l⟩ := by simp [take, room, empty]
        rw [unfolded]
        exact ⟨_, .closes (by simp [advance, empty])⟩
    | ship a =>
      have unfolded : take limit (.ship a :: l) b =
          take limit l { b with items := b.items ++ [a] } := by simp [take, room]
      rw [unfolded]
      by_cases more : b.items.length + 1 < limit
      · obtain ⟨used, ends⟩ := ih (b := { b with items := b.items ++ [a] }) (by simpa using more)
        simp only [List.length_append, List.length_singleton] at ends
        exact ⟨_, ends.cons (by simp [advance, more])⟩
      · have full : (take limit l { b with items := b.items ++ [a] }).rest = l := by
          cases l with
          | nil => rfl
          | cons y l => simp [take, more]
        rw [full]
        exact ⟨_, .closes (by simp [advance, more])⟩

/-- The last item read closes the batch if it is full or a mark ended it. -/
theorem take_closed (room : b.items.length < limit) :
    ∃ used, l = used ++ (take limit l b).rest ∧
      ((position limit b.items.length used).2 = true ↔
        limit ≤ (take limit l b).batch.items.length ∨ (take limit l b).pending = true) := by
  induction l generalizing b with
  | nil => exact ⟨[], rfl, by simp [position, take, room]⟩
  | cons x l ih =>
    cases x with
    | skip =>
      have unfolded : take limit (.skip :: l) b = take limit l b := by simp [take, room]
      rw [unfolded]
      obtain ⟨used, split, closed⟩ := ih room
      have open_ : advance limit (b.items.length, false) (.skip : Item α) =
          (b.items.length, false) := rfl
      exact ⟨_, congrArg (.skip :: ·) split, by rwa [position_cons open_]⟩
    | mark =>
      by_cases empty : b.items = []
      · have none : b.items.length = 0 := by simp [empty]
        have nil : b.items.isEmpty = true := by simp [empty]
        have unfolded : take limit (.mark :: l) b = take limit l { b with marked := true } := by
          simp only [take, if_pos room, nil, if_true]
        rw [unfolded]
        obtain ⟨used, split, closed⟩ := ih (b := { b with marked := true }) room
        have open_ : advance limit (b.items.length, false) (.mark : Item α) =
            (b.items.length, false) := by simp [advance, none]
        exact ⟨_, congrArg (.mark :: ·) split, by rwa [position_cons open_]⟩
      · have unfolded : take limit (.mark :: l) b = ⟨b, true, l⟩ := by simp [take, room, empty]
        rw [unfolded]
        exact ⟨[.mark], rfl, by simp [position, advance, empty]⟩
    | ship a =>
      have unfolded : take limit (.ship a :: l) b =
          take limit l { b with items := b.items ++ [a] } := by simp [take, room]
      rw [unfolded]
      by_cases more : b.items.length + 1 < limit
      · obtain ⟨used, split, closed⟩ :=
          ih (b := { b with items := b.items ++ [a] }) (by simpa using more)
        simp only [List.length_append, List.length_singleton] at closed
        have open_ : advance limit (b.items.length, false) (.ship a) =
            (b.items.length + 1, false) := by simp [advance, more]
        exact ⟨_, congrArg (.ship a :: ·) split, by rwa [position_cons open_]⟩
      · have full : b.items.length + 1 = limit := by omega
        have stops : take limit l { b with items := b.items ++ [a] } =
            ⟨{ b with items := b.items ++ [a] }, false, l⟩ := by
          cases l with
          | nil => rfl
          | cons y l => simp [take, more]
        rw [stops]
        exact ⟨[.ship a], rfl, by simp [position, advance, full]⟩

end ItchAggregator.Batching
