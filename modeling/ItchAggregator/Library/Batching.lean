import Mathlib

/-! Cutting a stream into batches. Some items are shipped, some are marks, the
others are passed over. A batch takes shipped items up to a limit; a mark closes
a batch that has items and flags the next one, and flags the batch itself while
it is empty. The cut is compared with the stream: marks lie between batches, a
flag says that one lies before the batch, and nothing shipped is lost. -/

namespace ItchAggregator.Batching

inductive Item (α : Type)
  | ship (a : α)
  | mark
  | skip
  deriving DecidableEq

variable {α : Type} {limit : Nat} {pending : Bool} {l r : List (Item α)}

def Item.ship? : Item α → Option α
  | .ship a => some a
  | _ => none

def Item.isMark : Item α → Bool
  | .mark => true
  | _ => false

def ships (l : List (Item α)) : List α := l.filterMap Item.ship?

@[simp] theorem ships_nil : ships ([] : List (Item α)) = [] := rfl

@[simp] theorem ships_append (l r : List (Item α)) : ships (l ++ r) = ships l ++ ships r :=
  List.filterMap_append

@[simp] theorem ships_ship (a : α) (l : List (Item α)) : ships (.ship a :: l) = a :: ships l := rfl

@[simp] theorem ships_mark (l : List (Item α)) : ships (.mark :: l) = ships l := rfl

@[simp] theorem ships_skip (l : List (Item α)) : ships (.skip :: l) = ships l := rfl

structure Batch (α : Type) where
  items : List α
  marked : Bool

/-- A batch taken, the flag left for the next one and the stream behind it. -/
structure Taken (α : Type) where
  batch : Batch α
  pending : Bool
  rest : List (Item α)

def take (limit : Nat) : List (Item α) → Batch α → Taken α
  | [], b => ⟨b, false, []⟩
  | x :: rest, b =>
    if b.items.length < limit then
      match x with
      | .ship a => take limit rest { b with items := b.items ++ [a] }
      | .mark =>
        if b.items.isEmpty then take limit rest { b with marked := true } else ⟨b, true, rest⟩
      | .skip => take limit rest b
    else ⟨b, false, x :: rest⟩

inductive Cuts (limit : Nat) : Bool → List (Item α) → List (Batch α) → Prop
  | stop {pending : Bool} {l : List (Item α)}
      (empty : (take limit l ⟨[], pending⟩).batch.items = []) : Cuts limit pending l []
  | batch {pending : Bool} {l : List (Item α)} {bs : List (Batch α)}
      (some : (take limit l ⟨[], pending⟩).batch.items ≠ [])
      (later : Cuts limit (take limit l ⟨[], pending⟩).pending (take limit l ⟨[], pending⟩).rest bs) :
      Cuts limit pending l ((take limit l ⟨[], pending⟩).batch :: bs)

/-- The stream goes on with a mark before anything is shipped, or ships nothing. -/
def Broken (l : List (Item α)) : Prop :=
  ships l = [] ∨ ∃ gap rest, l = gap ++ .mark :: rest ∧ ships gap = []

structure Stretch (seg : List (Item α)) (items : List α) : Prop where
  first : ∃ a tl, seg = .ship a :: tl
  last : ∃ init a, seg = init ++ [.ship a]
  unbroken : .mark ∉ seg
  items : ships seg = items

/-- The stream is gaps without shipped items and, between them, one stretch without
marks for each batch; a batch is flagged exactly when a mark lies in the gap before
it, or one was pending at the start; and it is short of the limit only where the
stream breaks after it. -/
inductive Placed (limit : Nat) : Bool → List (Item α) → List (Batch α) → Prop
  | done {pending : Bool} {gap : List (Item α)} (quiet : ships gap = []) : Placed limit pending gap []
  | batch {pending : Bool} {gap seg rest : List (Item α)} {b : Batch α} {bs : List (Batch α)}
      (quiet : ships gap = [])
      (flag : b.marked = true ↔ pending = true ∨ .mark ∈ gap)
      (stretch : Stretch seg b.items)
      (bound : b.items.length ≤ limit)
      (short : b.items.length < limit → Broken rest)
      (later : Placed limit false rest bs) : Placed limit pending (gap ++ seg ++ rest) (b :: bs)

/-- What a batch `b` that has items drew from `l`: a stretch without marks, and the
quiet items behind it with the mark that closed it. -/
structure Drawn (limit : Nat) (l : List (Item α)) (b : Batch α) (t : Taken α)
    (seg tail : List (Item α)) : Prop where
  split : l = seg ++ (tail ++ t.rest)
  ends : seg = [] ∨ ∃ init a, seg = init ++ [.ship a]
  unbroken : .mark ∉ seg
  quiet : ships tail = []
  items : t.batch.items = b.items ++ ships seg
  marked : t.batch.marked = b.marked
  bound : t.batch.items.length ≤ limit
  flag : t.pending = true ↔ .mark ∈ tail
  short : t.batch.items.length < limit → .mark ∈ tail ∨ t.rest = []

theorem Drawn.ship {b : Batch α} {a : α} {t : Taken α} {seg tail : List (Item α)}
    (d : Drawn limit l { b with items := b.items ++ [a] } t seg tail) :
    Drawn limit (.ship a :: l) b t (.ship a :: seg) tail where
  split := by rw [d.split, List.cons_append]
  ends := by
    rcases d.ends with rfl | ⟨init, c, rfl⟩
    · exact Or.inr ⟨[], a, rfl⟩
    · exact Or.inr ⟨.ship a :: init, c, rfl⟩
  unbroken := by simpa using d.unbroken
  quiet := d.quiet
  items := by simpa using d.items
  marked := d.marked
  bound := d.bound
  flag := d.flag
  short := d.short

theorem take_drawn {b : Batch α} (some : b.items ≠ []) (bound : b.items.length ≤ limit) :
    ∃ seg tail, Drawn limit l b (take limit l b) seg tail := by
  induction l generalizing b with
  | nil =>
    exact ⟨[], [], ⟨rfl, Or.inl rfl, by simp, rfl, by simp [take], rfl, bound, by simp [take],
      fun _ => Or.inr rfl⟩⟩
  | cons x l ih =>
    by_cases room : b.items.length < limit
    · cases x with
      | ship a =>
        have unfolded : take limit (.ship a :: l) b =
            take limit l { b with items := b.items ++ [a] } := by simp [take, room]
        obtain ⟨seg, tail, drawn⟩ := ih (b := { b with items := b.items ++ [a] }) (by simp)
          (by rw [List.length_append]; exact room)
        exact ⟨.ship a :: seg, tail, unfolded ▸ drawn.ship⟩
      | mark =>
        have unfolded : take limit (.mark :: l) b = ⟨b, true, l⟩ := by simp [take, room, some]
        rw [unfolded]
        exact ⟨[], [.mark], ⟨rfl, Or.inl rfl, by simp, rfl, by simp, rfl, bound, by simp,
          fun _ => Or.inl List.mem_cons_self⟩⟩
      | skip =>
        have unfolded : take limit (.skip :: l) b = take limit l b := by simp [take, room]
        rw [unfolded]
        obtain ⟨seg, tail, d⟩ := ih some bound
        -- the item goes with the stretch if one follows, else with the quiet items
        rcases d.ends with rfl | ⟨init, c, rfl⟩
        · exact ⟨[], .skip :: tail, ⟨by simpa using d.split, Or.inl rfl, by simp, d.quiet, d.items,
            d.marked, d.bound, by simpa using d.flag, by simpa using d.short⟩⟩
        · exact ⟨.skip :: (init ++ [.ship c]), tail, ⟨by simpa using d.split,
            Or.inr ⟨.skip :: init, c, rfl⟩, by simpa using d.unbroken, d.quiet,
            by simpa using d.items, d.marked, d.bound, d.flag, d.short⟩⟩
    · have unfolded : take limit (x :: l) b = ⟨b, false, x :: l⟩ := by simp [take, room]
      rw [unfolded]
      exact ⟨[], [], ⟨rfl, Or.inl rfl, by simp, rfl, by simp, rfl, bound, by simp,
        fun lt => absurd lt room⟩⟩

theorem take_none (positive : 0 < limit) (marked : Bool)
    (none : (take limit l ⟨[], marked⟩).batch.items = []) :
    (take limit l ⟨[], marked⟩).pending = false ∧ (take limit l ⟨[], marked⟩).rest = [] := by
  induction l generalizing marked with
  | nil => exact ⟨rfl, rfl⟩
  | cons x l ih =>
    cases x with
    | ship a =>
      have unfolded : take limit (.ship a :: l) ⟨[], marked⟩ = take limit l ⟨[a], marked⟩ := by
        simp [take, positive]
      obtain ⟨seg, tail, drawn⟩ :=
        take_drawn (l := l) (b := ⟨[a], marked⟩) (by simp) (Nat.succ_le_of_lt positive)
      rw [unfolded, drawn.items] at none
      simp at none
    | mark =>
      have unfolded : take limit (.mark :: l) ⟨[], marked⟩ = take limit l ⟨[], true⟩ := by
        simp [take, positive]
      rw [unfolded] at none ⊢
      exact ih true none
    | skip =>
      have unfolded : take limit (.skip :: l) ⟨[], marked⟩ = take limit l ⟨[], marked⟩ := by
        simp [take, positive]
      rw [unfolded] at none ⊢
      exact ih marked none

structure Filled (limit : Nat) (l : List (Item α)) (marked : Bool) (t : Taken α)
    (gap seg tail : List (Item α)) : Prop where
  split : l = gap ++ seg ++ (tail ++ t.rest)
  before : ships gap = []
  stretch : Stretch seg t.batch.items
  behind : ships tail = []
  flagged : t.batch.marked = true ↔ marked = true ∨ .mark ∈ gap
  bound : t.batch.items.length ≤ limit
  flag : t.pending = true ↔ .mark ∈ tail
  short : t.batch.items.length < limit → .mark ∈ tail ∨ t.rest = []

theorem take_filled (positive : 0 < limit) (marked : Bool) :
    ((take limit l ⟨[], marked⟩).batch.items = [] ∧ ships l = []) ∨
      ∃ gap seg tail, Filled limit l marked (take limit l ⟨[], marked⟩) gap seg tail := by
  induction l generalizing marked with
  | nil => exact Or.inl ⟨rfl, rfl⟩
  | cons x l ih =>
    cases x with
    | ship a =>
      have unfolded : take limit (.ship a :: l) ⟨[], marked⟩ = take limit l ⟨[a], marked⟩ := by
        simp [take, positive]
      obtain ⟨seg, tail, drawn⟩ :=
        take_drawn (l := l) (b := ⟨[a], marked⟩) (by simp) (Nat.succ_le_of_lt positive)
      have d : Drawn limit (.ship a :: l) ⟨[], marked⟩ (take limit l ⟨[a], marked⟩)
          (.ship a :: seg) tail := drawn.ship
      rw [unfolded]
      refine Or.inr ⟨[], .ship a :: seg, tail, ⟨d.split, rfl, ⟨⟨a, seg, rfl⟩, ?_, d.unbroken, ?_⟩,
        d.quiet, by simp [d.marked], d.bound, d.flag, d.short⟩⟩
      · exact d.ends.resolve_left (by simp)
      · rw [d.items]
        rfl
    | mark =>
      have unfolded : take limit (.mark :: l) ⟨[], marked⟩ = take limit l ⟨[], true⟩ := by
        simp [take, positive]
      rw [unfolded]
      rcases ih true with quiet | ⟨gap, seg, tail, f⟩
      · exact Or.inl quiet
      · exact Or.inr ⟨.mark :: gap, seg, tail, ⟨congrArg (.mark :: ·) f.split, f.before, f.stretch,
          f.behind, by simpa using f.flagged, f.bound, f.flag, f.short⟩⟩
    | skip =>
      have unfolded : take limit (.skip :: l) ⟨[], marked⟩ = take limit l ⟨[], marked⟩ := by
        simp [take, positive]
      rw [unfolded]
      rcases ih marked with quiet | ⟨gap, seg, tail, f⟩
      · exact Or.inl quiet
      · exact Or.inr ⟨.skip :: gap, seg, tail, ⟨congrArg (.skip :: ·) f.split, f.before, f.stretch,
          f.behind, by simpa using f.flagged, f.bound, f.flag, f.short⟩⟩

/-- Quiet items in front join the first gap; a mark among them is the pending flag. -/
theorem Placed.prepend {tail : List (Item α)} {bs : List (Batch α)}
    (placed : Placed limit pending r bs) (quiet : ships tail = [])
    (flag : pending = true ↔ .mark ∈ tail) : Placed limit false (tail ++ r) bs := by
  cases placed with
  | done none => exact .done (by simp [quiet, none])
  | @batch _ gap seg rest b bs none marked stretch bound short later =>
    have regroup : tail ++ (gap ++ seg ++ rest) = (tail ++ gap) ++ seg ++ rest := by simp
    rw [regroup]
    refine .batch (by simp [quiet, none]) ?_ stretch bound short later
    rw [marked, flag]
    simp

theorem broken_of_mem {tail : List (Item α)} (mem : .mark ∈ tail) (quiet : ships tail = []) :
    Broken (tail ++ r) := by
  obtain ⟨gap, rest, rfl⟩ := List.append_of_mem mem
  refine Or.inr ⟨gap, rest ++ r, by simp, ?_⟩
  simp only [ships_append, List.append_eq_nil_iff] at quiet
  exact quiet.1

theorem Cuts.placed (positive : 0 < limit) {bs : List (Batch α)} (cuts : Cuts limit pending l bs) :
    Placed limit pending l bs := by
  induction cuts with
  | @stop pending l empty =>
    rcases take_filled positive pending (l := l) with ⟨_, quiet⟩ | ⟨gap, seg, tail, f⟩
    · exact .done quiet
    · obtain ⟨a, tl, first⟩ := f.stretch.first
      have nonempty := f.stretch.items
      rw [empty, first] at nonempty
      simp at nonempty
  | @batch pending l bs some later ih =>
    rcases take_filled positive pending (l := l) with ⟨none, _⟩ | ⟨gap, seg, tail, f⟩
    · exact absurd none some
    · have placed := ih.prepend f.behind f.flag
      generalize take limit l ⟨[], pending⟩ = t at f placed ⊢
      rw [f.split]
      refine .batch f.before f.flagged f.stretch f.bound (fun lt => ?_) placed
      rcases f.short lt with mem | rest
      · exact broken_of_mem mem f.behind
      · rw [rest, List.append_nil]
        exact Or.inl f.behind

theorem take_shorter (positive : 0 < limit) (marked : Bool)
    (some : (take limit l ⟨[], marked⟩).batch.items ≠ []) :
    (take limit l ⟨[], marked⟩).rest.length < l.length := by
  rcases take_filled positive marked (l := l) with ⟨none, _⟩ | ⟨gap, seg, tail, f⟩
  · exact absurd none some
  · obtain ⟨a, tl, first⟩ := f.stretch.first
    have lengths := congrArg List.length f.split
    simp only [first, List.length_append, List.length_cons] at lengths
    omega

theorem Placed.ships {bs : List (Batch α)} (placed : Placed limit pending l bs) :
    Batching.ships l = bs.flatMap Batch.items := by
  induction placed with
  | done quiet => exact quiet
  | batch quiet _ stretch _ _ _ ih =>
    simp [quiet, stretch.items, ih]

theorem Stretch.items_ne_nil {seg : List (Item α)} {items : List α} (stretch : Stretch seg items) :
    items ≠ [] := by
  obtain ⟨a, tl, rfl⟩ := stretch.first
  rw [← stretch.items]
  simp

theorem Placed.bounds {bs : List (Batch α)} (placed : Placed limit pending l bs) :
    ∀ b ∈ bs, b.items ≠ [] ∧ b.items.length ≤ limit := by
  induction placed with
  | done _ => simp
  | batch _ _ stretch bound _ _ ih =>
    intro b hb
    rcases List.mem_cons.mp hb with rfl | later
    · exact ⟨stretch.items_ne_nil, bound⟩
    · exact ih b later

/-! The shipped items since the last mark, from the stream and from the batches. -/

def sinceMark (l : List (Item α)) : List (Item α) := l.rtakeWhile fun x => !x.isMark

/-- The shortest beginning of the stream with `n` shipped items. -/
def upto : Nat → List (Item α) → List (Item α)
  | 0, _ => []
  | _ + 1, [] => []
  | n + 1, .ship a :: l => .ship a :: upto n l
  | n + 1, x :: l => x :: upto (n + 1) l

/-- What a consumer holds after a batch that starts afresh at each flagged one. -/
def hold (held : List α) (b : Batch α) : List α :=
  if b.marked then b.items else held ++ b.items

def since (bs : List (Batch α)) : List α := bs.foldl hold []

def shipped (bs : List (Batch α)) (j : Nat) : Nat := ((bs.take j).flatMap Batch.items).length

theorem sinceMark_append_of_mem (mem : .mark ∈ r) : sinceMark (l ++ r) = sinceMark r := by
  unfold sinceMark List.rtakeWhile
  rw [List.reverse_append, List.takeWhile_append, if_neg]
  intro whole
  have all := List.takeWhile_eq_self_iff.mp
    ((List.takeWhile_prefix _).eq_of_length whole) .mark (List.mem_reverse.mpr mem)
  simp [Item.isMark] at all

theorem sinceMark_append_of_notMem (unbroken : .mark ∉ r) :
    sinceMark (l ++ r) = sinceMark l ++ r := by
  have all : ∀ x ∈ r.reverse, (!x.isMark) = true := by
    intro x hx
    cases x with
    | mark => exact absurd (List.mem_reverse.mp hx) unbroken
    | ship _ => rfl
    | skip => rfl
  unfold sinceMark List.rtakeWhile
  rw [List.reverse_append, List.takeWhile_append_of_pos all]
  simp

theorem ships_sinceMark_quiet (quiet : ships l = []) : ships (sinceMark l) = [] := by
  obtain ⟨before, split⟩ := List.rtakeWhile_suffix (fun x : Item α => !x.isMark) l
  have all := congrArg ships split
  rw [quiet, ships_append, List.append_eq_nil_iff] at all
  exact all.2

theorem upto_append_ship (init : List (Item α)) (a : α) (rest : List (Item α)) :
    upto (ships (init ++ [.ship a])).length (init ++ [.ship a] ++ rest) = init ++ [.ship a] := by
  induction init with
  | nil => simp [upto]
  | cons x init ih =>
    have more : (ships (init ++ [.ship a])).length = (ships init).length + 1 := by simp
    rw [more] at ih
    cases x with
    | ship c => simpa [upto] using ih
    | mark => simpa [upto] using ih
    | skip => simpa [upto] using ih

/-- A gap and a stretch more: a consumer that starts afresh at flags holds what was
shipped since the last mark. -/
theorem ships_sinceMark_stretch {gap seg : List (Item α)} {b : Batch α} (quiet : ships gap = [])
    (flag : b.marked = true ↔ .mark ∈ gap) (stretch : Stretch seg b.items) (pre : List (Item α)) :
    ships (sinceMark (pre ++ (gap ++ seg))) = hold (ships (sinceMark pre)) b := by
  rw [← List.append_assoc, sinceMark_append_of_notMem stretch.unbroken, ships_append, stretch.items,
    hold]
  by_cases mem : .mark ∈ gap
  · rw [sinceMark_append_of_mem mem, ships_sinceMark_quiet quiet, if_pos (flag.mpr mem)]
    rfl
  · rw [sinceMark_append_of_notMem mem, ships_append, quiet, List.append_nil,
      if_neg fun marked => mem (flag.mp marked)]

/-- `core` is the stream up to the last item of the first `j` batches. -/
structure Reached (bs : List (Batch α)) (j : Nat) (core : List (Item α)) : Prop where
  ends : core = [] ∨ ∃ init a, core = init ++ [.ship a]
  ships : ships core = (bs.take j).flatMap Batch.items
  since : ∀ pre : List (Item α), Batching.ships (sinceMark (pre ++ core)) =
    (bs.take j).foldl hold (Batching.ships (sinceMark pre))

theorem reached_zero (bs : List (Batch α)) : Reached bs 0 [] := ⟨Or.inl rfl, rfl, by simp⟩

theorem Placed.reached {bs : List (Batch α)} (placed : Placed limit false l bs) :
    ∀ j ≤ bs.length, ∃ core rest, l = core ++ rest ∧ Reached bs j core ∧
      Placed limit false rest (bs.drop j) := by
  generalize unflagged : false = pending at placed
  induction placed with
  | @done pending gap quiet =>
    intro j le
    obtain rfl : j = 0 := Nat.le_zero.mp le
    exact ⟨[], gap, rfl, reached_zero [], .done quiet⟩
  | @batch pending gap seg rest b bs quiet flag stretch bound short later ih =>
    subst unflagged
    intro j le
    cases j with
    | zero => exact ⟨[], _, rfl, reached_zero _, .batch quiet flag stretch bound short later⟩
    | succ j =>
      obtain ⟨core, behind, split, reached, rest⟩ := ih rfl j (by simpa using le)
      refine ⟨gap ++ seg ++ core, behind, by rw [split]; simp, ⟨Or.inr ?_, ?_, fun pre => ?_⟩, rest⟩
      · rcases reached.ends with rfl | ⟨init, a, rfl⟩
        · obtain ⟨init, a, last⟩ := stretch.last
          exact ⟨gap ++ init, a, by simp [last]⟩
        · exact ⟨gap ++ seg ++ init, a, by simp⟩
      · simp [quiet, stretch.items, reached.ships]
      · rw [← List.append_assoc pre, reached.since, List.take_succ_cons, List.foldl_cons,
          ships_sinceMark_stretch quiet (by simpa using flag) stretch]

theorem upto_ships {core : List (Item α)} (ends : core = [] ∨ ∃ init a, core = init ++ [.ship a])
    (rest : List (Item α)) : upto (ships core).length (core ++ rest) = core := by
  rcases ends with rfl | ⟨init, a, rfl⟩
  · simp [upto]
  · exact upto_append_ship init a rest

theorem Reached.upto_eq {bs : List (Batch α)} {j : Nat} {core : List (Item α)}
    (reached : Reached bs j core) (rest : List (Item α)) :
    upto (shipped bs j) (core ++ rest) = core := by
  rw [shipped, ← reached.ships]
  exact upto_ships reached.ends rest

theorem Reached.append {bs : List (Batch α)} {i j : Nat} {core core' : List (Item α)}
    (first : Reached bs i core) (second : Reached (bs.drop i) (j - i) core') (le : i ≤ j) :
    Reached bs j (core ++ core') := by
  have regroup : bs.take j = bs.take i ++ (bs.drop i).take (j - i) := by
    rw [← List.take_add, Nat.add_sub_cancel' le]
  refine ⟨?_, ?_, fun pre => ?_⟩
  · rcases second.ends with rfl | ⟨init, a, rfl⟩
    · simpa using first.ends
    · exact Or.inr ⟨core ++ init, a, by simp⟩
  · rw [ships_append, first.ships, second.ships, regroup, List.flatMap_append]
  · rw [← List.append_assoc, second.since, first.since, regroup, List.foldl_append]

/-- What was shipped since the last mark among the batches from the `i`-th to the
`j`-th, read off the stream. -/
theorem Placed.since_upto {bs : List (Batch α)} (placed : Placed limit false l bs) {i j : Nat}
    (le : i ≤ j) (bound : j ≤ bs.length) :
    Batching.ships (sinceMark ((upto (shipped bs j) l).drop (upto (shipped bs i) l).length)) =
      since ((bs.take j).drop i) := by
  obtain ⟨core, rest, split, reached, behind⟩ := placed.reached i (le.trans bound)
  have room : j - i ≤ (bs.drop i).length := by
    rw [List.length_drop]
    omega
  obtain ⟨core', rest', split', reached', _⟩ := behind.reached (j - i) room
  have first : upto (shipped bs i) l = core := split ▸ reached.upto_eq rest
  have both : upto (shipped bs j) l = core ++ core' := by
    rw [split, split', ← List.append_assoc]
    exact (reached.append reached' le).upto_eq rest'
  have held := reached'.since []
  rw [List.nil_append, ← List.drop_take] at held
  rw [first, both, List.drop_left, held]
  rfl

def behind (n : Nat) (l : List (Item α)) : List (Item α) := l.drop (upto n l).length

theorem shipped_append (pre post : List (Batch α)) :
    shipped (pre ++ post) pre.length = (pre.flatMap Batch.items).length := by
  rw [shipped, List.take_left]

theorem Placed.batch_at {pre post : List (Batch α)} {b : Batch α}
    (placed : Placed limit false l (pre ++ b :: post)) :
    ∃ gap seg rest, behind (pre.flatMap Batch.items).length l = gap ++ seg ++ rest ∧
      Batching.ships gap = [] ∧ (b.marked = true ↔ .mark ∈ gap) ∧ Stretch seg b.items ∧
      b.items.length ≤ limit ∧ (b.items.length < limit → Broken rest) := by
  obtain ⟨core, rest, split, reached, later⟩ := placed.reached pre.length (by simp)
  have first : behind (pre.flatMap Batch.items).length l = rest := by
    rw [← shipped_append pre (b :: post), behind, split, reached.upto_eq, List.drop_left]
  rw [List.drop_left] at later
  rw [first]
  cases later with
  | @batch _ gap seg rest _ _ quiet flag stretch bound short _ =>
    exact ⟨gap, seg, rest, rfl, quiet, by simpa using flag, stretch, bound, short⟩

theorem Placed.broken_behind {pre post : List (Batch α)} {b : Batch α}
    (placed : Placed limit false l (pre ++ b :: post)) (lt : b.items.length < limit) :
    Broken (behind ((pre ++ [b]).flatMap Batch.items).length l) := by
  obtain ⟨core, rest, split, reached, later⟩ := placed.reached pre.length (by simp)
  rw [List.drop_left] at later
  cases later with
  | @batch _ gap seg rest _ _ quiet _ stretch _ short _ =>
    obtain ⟨init, a, last⟩ := stretch.last
    have through : core ++ (gap ++ seg) = (core ++ gap ++ init) ++ [.ship a] := by simp [last]
    have count : ((pre ++ [b]).flatMap Batch.items).length =
        (Batching.ships ((core ++ gap ++ init) ++ [.ship a])).length := by
      have before : (pre ++ b :: post).take pre.length = pre := List.take_left
      rw [← through]
      simp [reached.ships, before, quiet, stretch.items]
    have whole : l = (core ++ gap ++ init) ++ [.ship a] ++ rest := by
      rw [split, ← through]
      simp
    rw [behind, count, whole, upto_append_ship, List.drop_left]
    exact short lt

theorem Placed.behind_all {bs : List (Batch α)} (placed : Placed limit false l bs) :
    Batching.ships (behind (bs.flatMap Batch.items).length l) = [] := by
  obtain ⟨core, rest, split, reached, later⟩ := placed.reached bs.length (Nat.le_refl _)
  have count : (bs.flatMap Batch.items).length = shipped bs bs.length := by
    rw [shipped, List.take_length]
  rw [count, behind, split, reached.upto_eq, List.drop_left]
  rw [List.drop_length] at later
  cases later with
  | done quiet => exact quiet

def gapOf (l : List (Item α)) : List (Item α) := l.takeWhile fun x => x.ship?.isNone

theorem gapOf_quiet {gap : List (Item α)} (quiet : ships gap = []) {seg : List (Item α)}
    {items : List α} (stretch : Stretch seg items) (rest : List (Item α)) :
    gapOf (gap ++ seg ++ rest) = gap := by
  obtain ⟨a, tl, first⟩ := stretch.first
  have all : ∀ x ∈ gap, x.ship?.isNone = true := by
    intro x hx
    rw [Option.isNone_iff_eq_none]
    exact List.filterMap_eq_nil_iff.mp quiet x hx
  rw [gapOf, List.append_assoc, List.takeWhile_append_of_pos all, first]
  simp [Item.ship?]

theorem Stretch.upto_eq {seg : List (Item α)} {items : List α} (stretch : Stretch seg items)
    (rest : List (Item α)) : upto items.length (seg ++ rest) = seg := by
  obtain ⟨init, a, rfl⟩ := stretch.last
  rw [← stretch.items]
  exact upto_append_ship init a rest

/-- The batches hold what was shipped since the last mark in front of the last item. -/
theorem Placed.since_last {bs : List (Batch α)} (placed : Placed limit false l bs) :
    Batching.ships (sinceMark (upto (Batching.ships l).length l)) = since bs ∧
      Batching.ships (behind (Batching.ships l).length l) = [] := by
  obtain ⟨core, gap, split, reached, later⟩ := placed.reached bs.length (Nat.le_refl _)
  have held := reached.since []
  rw [List.take_length] at held
  rw [List.drop_length] at later
  cases later with
  | done quiet =>
    have count : (Batching.ships l).length = (Batching.ships core).length := by
      rw [split, ships_append, quiet, List.append_nil]
    have front : upto (Batching.ships l).length l = core := by
      rw [count, split, upto_ships reached.ends]
    rw [behind, front]
    exact ⟨held, by rw [split, List.drop_left, quiet]⟩

theorem upto_append_behind (n : Nat) (l : List (Item α)) : upto n l ++ behind n l = l := by
  induction l generalizing n with
  | nil => cases n <;> rfl
  | cons x l ih =>
    cases n with
    | zero => rfl
    | succ n =>
      cases x with
      | ship a => exact congrArg (.ship a :: ·) (ih n)
      | mark => exact congrArg (.mark :: ·) (ih (n + 1))
      | skip => exact congrArg (.skip :: ·) (ih (n + 1))

/-! Relabelling the shipped items. -/

variable {β : Type} (g : α → β)

def Item.map : Item α → Item β
  | .ship a => .ship (g a)
  | .mark => .mark
  | .skip => .skip

def Batch.map (b : Batch α) : Batch β := ⟨b.items.map g, b.marked⟩

theorem ships_map (l : List (Item α)) : ships (l.map (Item.map g)) = (ships l).map g := by
  induction l with
  | nil => rfl
  | cons x l ih => cases x <;> simp [Item.map, ih]

theorem mark_mem_map {l : List (Item α)} : .mark ∈ l.map (Item.map g) ↔ .mark ∈ l := by
  rw [List.mem_map]
  constructor
  · rintro ⟨x, hx, same⟩
    cases x <;> simp_all [Item.map]
  · exact fun mem => ⟨.mark, mem, rfl⟩

theorem Stretch.map {seg : List (Item α)} {items : List α} (stretch : Stretch seg items) :
    Stretch (seg.map (Item.map g)) (items.map g) where
  first := by
    obtain ⟨a, tl, rfl⟩ := stretch.first
    exact ⟨g a, tl.map (Item.map g), rfl⟩
  last := by
    obtain ⟨init, a, rfl⟩ := stretch.last
    exact ⟨init.map (Item.map g), g a, by simp [Item.map]⟩
  unbroken := fun mem => stretch.unbroken ((mark_mem_map g).mp mem)
  items := by rw [ships_map, stretch.items]

theorem Broken.map (broken : Broken l) : Broken (l.map (Item.map g)) := by
  rcases broken with quiet | ⟨gap, rest, rfl, quiet⟩
  · exact Or.inl (by rw [ships_map, quiet, List.map_nil])
  · exact Or.inr ⟨gap.map (Item.map g), rest.map (Item.map g), by simp [Item.map],
      by rw [ships_map, quiet, List.map_nil]⟩

theorem Placed.map {bs : List (Batch α)} (placed : Placed limit pending l bs) :
    Placed limit pending (l.map (Item.map g)) (bs.map (Batch.map g)) := by
  induction placed with
  | done quiet => exact .done (by rw [ships_map, quiet, List.map_nil])
  | batch quiet flag stretch bound short _ ih =>
    simp only [List.map_append, List.map_cons]
    refine .batch (by rw [ships_map, quiet, List.map_nil]) ?_ (stretch.map g)
      (by simpa [Batch.map] using bound) ?_ ih
    · rw [mark_mem_map]
      exact flag
    · exact fun lt => (short (by simpa [Batch.map] using lt)).map g

end ItchAggregator.Batching
