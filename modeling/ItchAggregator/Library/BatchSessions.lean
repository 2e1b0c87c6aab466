import ItchAggregator.Library.BatchEnds

/-! The batches of a stream in closed form. Its marks cut the stream into sessions; a session
is shipped in full batches and one with what is left, and the first batch of every session
behind a mark is flagged. Taking batches one by one, each from what the one before has left,
comes to the same. -/

namespace ItchAggregator.Batching

variable {α : Type} {limit : Nat} {pending : Bool} {l r : List (Item α)}

/-- The items in parts of `limit`, the last one with what is left. -/
def parts (limit : Nat) (items : List α) : List (List α) :=
  (List.range ((items.length + (limit - 1)) / limit)).map fun i =>
    (items.drop (i * limit)).take limit

/-- What is shipped in front of the first mark, and behind each of the marks. -/
def sessions : List (Item α) → List α × List (List α)
  | [] => ([], [])
  | .ship a :: l => (a :: (sessions l).1, (sessions l).2)
  | .mark :: l => ([], (sessions l).1 :: (sessions l).2)
  | .skip :: l => sessions l

/-- The batches of a session; the first one says whether there is a mark in front of it. -/
def sessionBatches (limit : Nat) (marked : Bool) (items : List α) : List (Batch α) :=
  match parts limit items with
  | [] => []
  | first :: later => ⟨first, marked⟩ :: later.map (⟨·, false⟩)

def batches (limit : Nat) (pending : Bool) (l : List (Item α)) : List (Batch α) :=
  sessionBatches limit pending (sessions l).1 ++
    (sessions l).2.flatMap (sessionBatches limit true)

theorem length_parts (limit : Nat) (items : List α) :
    (parts limit items).length = (items.length + (limit - 1)) / limit := by
  rw [parts, List.length_map, List.length_range]

theorem parts_nil (positive : 0 < limit) : parts limit ([] : List α) = [] := by
  rw [parts, List.length_nil, Nat.zero_add, Nat.div_eq_of_lt (by omega)]
  rfl

theorem parts_append (positive : 0 < limit) {items : List α} (full : items.length = limit)
    (more : List α) : parts limit (items ++ more) = items :: parts limit more := by
  have count : ((items ++ more).length + (limit - 1)) / limit =
      (more.length + (limit - 1)) / limit + 1 := by
    rw [List.length_append, full, Nat.add_assoc, Nat.add_div_left _ positive]
  rw [parts, count, List.range_succ_eq_map, List.map_cons, List.map_map, Nat.zero_mul,
    List.drop_zero, ← full, List.take_left, parts]
  congr 1
  refine List.map_congr_left fun i _ => ?_
  have behind : (i + 1) * items.length = items.length + i * items.length := by ring
  rw [Function.comp_apply, Nat.succ_eq_add_one, behind, ← List.drop_drop, List.drop_left]

theorem parts_single {items : List α} (some : items ≠ []) (bound : items.length ≤ limit) :
    parts limit items = [items] := by
  have positive := List.length_pos_of_ne_nil some
  have count : (items.length + (limit - 1)) / limit = 1 :=
    Nat.div_eq_of_lt_le (by omega) (by omega)
  rw [parts, count]
  simp [List.take_of_length_le bound]

theorem sessionBatches_nil (positive : 0 < limit) (marked : Bool) :
    sessionBatches limit marked ([] : List α) = [] := by
  rw [sessionBatches, parts_nil positive]

theorem sessionBatches_false (items : List α) :
    sessionBatches limit false items = (parts limit items).map (⟨·, false⟩) := by
  rw [sessionBatches]
  split <;> rename_i here <;> rw [here] <;> rfl

theorem length_sessionBatches (marked : Bool) (items : List α) :
    (sessionBatches limit marked items).length = (items.length + (limit - 1)) / limit := by
  rw [← length_parts, sessionBatches]
  split <;> rename_i here <;> simp [here]

theorem parts_flatten (positive : 0 < limit) (items : List α) :
    (parts limit items).flatten = items := by
  induction h : items.length using Nat.strong_induction_on generalizing items with
  | _ n ih =>
    rcases Nat.lt_or_ge limit items.length with long | short
    · have full : (items.take limit).length = limit := List.length_take_of_le long.le
      have later := ih (items.drop limit).length (by rw [List.length_drop]; omega) _ rfl
      rw [← List.take_append_drop limit items, parts_append positive full, List.flatten_cons, later]
    · cases items with
      | nil => rw [parts_nil positive, List.flatten_nil]
      | cons a items => rw [parts_single (List.cons_ne_nil a items) short, List.flatten_singleton]

theorem sessionBatches_items (positive : 0 < limit) (marked : Bool) (items : List α) :
    (sessionBatches limit marked items).flatMap Batch.items = items := by
  have flat := parts_flatten positive items
  rw [sessionBatches]
  split <;> rename_i here <;> rw [here] at flat
  · exact flat
  · rw [List.flatMap_cons, List.flatMap_map, List.flatMap_id']
    exact flat

theorem sessions_items (l : List (Item α)) :
    (sessions l).1 ++ (sessions l).2.flatten = ships l := by
  induction l with
  | nil => rfl
  | cons x l ih => cases x <;> simpa [sessions] using ih

theorem batches_items (positive : 0 < limit) :
    (batches limit pending l).flatMap Batch.items = ships l := by
  have later : ∀ parts : List (List α),
      (parts.flatMap (sessionBatches limit true)).flatMap Batch.items = parts.flatten := by
    intro parts
    rw [List.flatMap_assoc]
    simp only [sessionBatches_items positive, List.flatMap_id']
  rw [batches, List.flatMap_append, sessionBatches_items positive, later, sessions_items]

/-! The stream from its front. -/

theorem any_isMark {gap : List (Item α)} : gap.any Item.isMark = true ↔ .mark ∈ gap := by
  rw [List.any_eq_true]
  refine ⟨fun ⟨x, mem, mark⟩ => ?_, fun mem => ⟨.mark, mem, rfl⟩⟩
  cases x with
  | mark => exact mem
  | ship a => cases mark
  | skip => cases mark

theorem batches_mark (positive : 0 < limit) :
    batches limit pending (.mark :: l) = batches limit true l := by
  rw [batches, sessions, sessionBatches_nil positive, List.nil_append, List.flatMap_cons]
  rfl

theorem batches_quiet (positive : 0 < limit) {gap : List (Item α)} (quiet : ships gap = []) :
    batches limit pending (gap ++ r) = batches limit (pending || gap.any Item.isMark) r := by
  induction gap generalizing pending with
  | nil => simp
  | cons x gap ih =>
    cases x with
    | ship a => cases quiet
    | mark =>
      rw [List.cons_append, batches_mark positive, ih quiet]
      simp [Item.isMark]
    | skip =>
      have same : (Item.skip :: gap).any Item.isMark = gap.any Item.isMark := rfl
      rw [same, ← ih quiet]
      rfl

theorem sessions_unbroken {seg : List (Item α)} (unbroken : .mark ∉ seg) :
    sessions (seg ++ r) = (ships seg ++ (sessions r).1, (sessions r).2) := by
  induction seg with
  | nil => rfl
  | cons x seg ih =>
    have ih := ih fun mem => unbroken (List.mem_cons_of_mem x mem)
    cases x with
    | ship a => rw [List.cons_append, sessions, ih, ships_ship, List.cons_append]
    | mark => exact absurd List.mem_cons_self unbroken
    | skip => rw [List.cons_append, sessions, ih, ships_skip]

theorem sessions_broken (broken : Broken r) : (sessions r).1 = [] := by
  have quiet_ {gap : List (Item α)} (quiet : ships gap = []) (l : List (Item α)) :
      (sessions (gap ++ .mark :: l)).1 = [] ∧ (sessions gap).1 = [] := by
    induction gap with
    | nil => exact ⟨rfl, rfl⟩
    | cons x gap ih =>
      cases x with
      | ship a => cases quiet
      | mark => exact ⟨rfl, rfl⟩
      | skip => exact ih quiet
  rcases broken with none | ⟨gap, rest, rfl, quiet⟩
  · exact (quiet_ none []).2
  · exact (quiet_ quiet rest).1

theorem sessionBatches_batch {b : Batch α} {more : List α} (some : b.items ≠ [])
    (bound : b.items.length ≤ limit) (short : b.items.length < limit → more = []) :
    sessionBatches limit b.marked (b.items ++ more) = b :: sessionBatches limit false more := by
  have positive : 0 < limit := (List.length_pos_of_ne_nil some).trans_le bound
  rcases bound.lt_or_eq with less | full
  · rw [short less, List.append_nil, sessionBatches_nil positive, sessionBatches,
      parts_single some bound]
    rfl
  · rw [sessionBatches, parts_append positive full, sessionBatches_false]

theorem batches_stretch {gap seg : List (Item α)} {b : Batch α} (quiet : ships gap = [])
    (flag : b.marked = true ↔ pending = true ∨ .mark ∈ gap) (stretch : Stretch seg b.items)
    (bound : b.items.length ≤ limit) (short : b.items.length < limit → Broken r) :
    batches limit pending (gap ++ seg ++ r) = b :: batches limit false r := by
  have positive : 0 < limit := (List.length_pos_of_ne_nil stretch.items_ne_nil).trans_le bound
  have marked : (pending || gap.any Item.isMark) = b.marked := by
    rw [Bool.eq_iff_iff, flag, Bool.or_eq_true, any_isMark]
  rw [List.append_assoc, batches_quiet positive quiet, marked, batches,
    sessions_unbroken stretch.unbroken, stretch.items,
    sessionBatches_batch stretch.items_ne_nil bound fun less => sessions_broken (short less),
    List.cons_append]
  rfl

theorem batches_none (positive : 0 < limit) (quiet : ships l = []) :
    batches limit pending l = [] := by
  have none := @batches_quiet _ _ pending [] positive _ quiet
  rw [List.append_nil] at none
  rw [none, batches, sessions, sessionBatches_nil positive]
  rfl

/-- A batch taken from the front is the first of the batches, also of any shorter stream
that begins with what it has read. -/
theorem take_batches (positive : 0 < limit) {used r' : List (Item α)}
    (some : (take limit l ⟨[], pending⟩).batch.items ≠ [])
    (split : l = used ++ (take limit l ⟨[], pending⟩).rest)
    (rest : (take limit l ⟨[], pending⟩).rest = r ++ r') :
    batches limit pending (used ++ r) = (take limit l ⟨[], pending⟩).batch ::
      batches limit (take limit l ⟨[], pending⟩).pending r := by
  rcases take_filled (l := l) positive pending with ⟨none, _⟩ | ⟨gap, seg, tail, filled⟩
  · exact absurd none some
  obtain rfl : used = gap ++ seg ++ tail := by
    have parts := filled.split
    rw [← List.append_assoc] at parts
    exact List.append_cancel_right (split.symm.trans parts)
  have flag : (false || tail.any Item.isMark) = (take limit l ⟨[], pending⟩).pending := by
    rw [Bool.eq_iff_iff, filled.flag, Bool.false_or, any_isMark]
  rw [List.append_assoc, batches_stretch filled.before filled.flagged filled.stretch filled.bound,
    batches_quiet positive filled.behind, flag]
  intro less
  rcases filled.short less with mark | all
  · exact broken_of_mem mark filled.behind
  · rw [rest, List.append_eq_nil_iff] at all
    rw [all.1, List.append_nil]
    exact Or.inl filled.behind

theorem take_items (positive : 0 < limit) :
    ∀ a ∈ (take limit l ⟨[], pending⟩).batch.items, a ∈ ships l := by
  intro a mem
  rcases take_filled (l := l) positive pending with ⟨none, _⟩ | ⟨gap, seg, tail, filled⟩
  · rw [none] at mem
    cases mem
  · rw [← filled.stretch.items] at mem
    rw [filled.split]
    simp [mem]

/-! What the last sessions leave. -/

def lastSession (l : List (Item α)) : List α :=
  ((((sessions l).1 :: (sessions l).2).filter fun items => !items.isEmpty).getLast?).getD []

theorem since_append (bs cs : List (Batch α)) : since (bs ++ cs) = cs.foldl hold (since bs) :=
  List.foldl_append

theorem foldl_hold_unmarked (held : List α) (items : List (List α)) :
    (items.map (⟨·, false⟩)).foldl hold held = held ++ items.flatten := by
  induction items generalizing held with
  | nil => simp
  | cons first later ih =>
    rw [List.map_cons, List.foldl_cons, ih, List.flatten_cons, ← List.append_assoc]
    rfl

theorem foldl_hold_session (positive : 0 < limit) (marked : Bool) (held items : List α) :
    (sessionBatches limit marked items).foldl hold held =
      if items = [] then held else if marked then items else held ++ items := by
  have flat := parts_flatten positive items
  rw [sessionBatches]
  split <;> rename_i here <;> rw [here] at flat
  · obtain rfl : [] = items := flat
    exact (if_pos rfl).symm
  · rename_i first later
    have some_ : items ≠ [] := by
      rintro rfl
      rw [parts_nil positive] at here
      cases here
    rw [if_neg some_, List.foldl_cons, foldl_hold_unmarked, ← flat, List.flatten_cons]
    cases marked with
    | true => rfl
    | false => exact List.append_assoc _ _ _

/-- What is shipped since the last flagged batch is the last session that is not empty. -/
theorem since_batches (positive : 0 < limit) (pending : Bool) (l : List (Item α)) :
    since (batches limit pending l) = lastSession l := by
  have later : ∀ (held : List α) (ss : List (List α)),
      (ss.flatMap (sessionBatches limit true)).foldl hold held =
        ((ss.filter fun items => !items.isEmpty).getLast?).getD held := by
    intro held ss
    induction ss generalizing held with
    | nil => rfl
    | cons items ss ih =>
      rw [List.flatMap_cons, List.foldl_append, foldl_hold_session positive, ih]
      cases items with
      | nil => rfl
      | cons a items =>
        rw [List.filter_cons_of_pos rfl, List.getLast?_cons]
        rfl
  rw [batches, since_append, later, since, foldl_hold_session positive, lastSession]
  cases first : (sessions l).1 with
  | nil => rfl
  | cons a items =>
    rw [List.filter_cons_of_pos rfl, List.getLast?_cons]
    cases pending <;> rfl

/-! How far the batches have read. -/

/-- The items read when `n` more batches are closed, with `held` items in the batch at hand. -/
def readBy (limit : Nat) : Nat → Nat → List (Item α) → Nat
  | 0, _, _ => 0
  | _ + 1, _, [] => 0
  | n + 1, held, x :: l =>
    let next := advance limit (held, false) x
    readBy limit (if next.2 then n else n + 1) next.1 l + 1

variable {n held : Nat}

theorem readBy_nil (n held : Nat) : readBy limit n held ([] : List (Item α)) = 0 := by
  cases n <;> rfl

theorem Ends.cut {used rest' : List (Item α)} (ends : Ends limit l held (r ++ rest') used) :
    Ends limit (used ++ r) held r used where
  split := rfl
  inner := ends.inner
  last := ends.last.imp_right fun ⟨spent, stays⟩ => ⟨(List.append_eq_nil_iff.mp spent).1, stays⟩

theorem readBy_ends {rest used : List (Item α)} (ends : Ends limit l held rest used) :
    readBy limit (n + 1) held l = used.length + readBy limit n 0 rest := by
  induction used generalizing l held with
  | nil =>
    rcases ends.last with closed | ⟨none, _⟩
    · cases closed
    · rw [ends.split, none, List.nil_append, readBy_nil, readBy_nil]
      rfl
  | cons x used ih =>
    rw [ends.split, List.cons_append, readBy]
    cases used with
    | nil =>
      rcases ends.last with closed | ⟨none, stays⟩
      · have next : advance limit (held, false) x = (0, true) := closed
        rw [next]
        exact Nat.add_comm _ _
      · rw [none, List.append_nil, readBy_nil, readBy_nil]
        rfl
    | cons y used =>
      have stays : (advance limit (held, false) x).2 = false :=
        ends.inner 1 (by simp)
      have open_ : advance limit (held, false) x = ((advance limit (held, false) x).1, false) :=
        Prod.ext rfl stays
      have later : Ends limit (y :: used ++ rest) (advance limit (held, false) x).1 rest
          (y :: used) := by
        refine ⟨rfl, fun i hi => ?_, ?_⟩
        · have inner := ends.inner (i + 1) (Nat.succ_lt_succ hi)
          rwa [List.take_succ_cons, position_cons open_] at inner
        · have last := ends.last
          rwa [position_cons open_] at last
      rw [stays, if_neg Bool.false_ne_true, ih later, List.length_cons (a := x)]
      omega

theorem readBy_append (n held : Nat) (l r : List (Item α)) :
    readBy limit n held l = min (readBy limit n held (l ++ r)) l.length := by
  induction l generalizing n held with
  | nil => simp [readBy_nil]
  | cons x l ih =>
    cases n with
    | zero => rw [readBy, readBy, Nat.zero_min]
    | succ n =>
      rw [List.cons_append, readBy, readBy, List.length_cons, ih, Nat.add_min_add_right]

theorem readBy_mono (held : Nat) (l : List (Item α)) :
    Monotone fun n => readBy limit n held l := by
  refine monotone_nat_of_le_succ fun n => ?_
  induction l generalizing n held with
  | nil => simp [readBy_nil]
  | cons x l ih =>
    cases n with
    | zero => exact Nat.zero_le _
    | succ n =>
      simp only [readBy]
      split
      · exact Nat.succ_le_succ (ih _ n)
      · exact Nat.succ_le_succ (ih _ (n + 1))

end ItchAggregator.Batching
