import ItchAggregator.CsvText
import ItchAggregator.Library.BatchSessions
import ItchAggregator.MaxMsgs
import ItchAggregator.RunTurns

/-! What a run of the CPU pipeline prints, as a function of the messages it has read:
where batches end, and how far the run has read there, follow from the market opens among
the messages; a snapshot has the timestamp of the last message shipped in front of it, the
sums of the messages shipped since market open, and the names listed in what was read. -/

namespace ItchAggregator

open Batching (Batch Ends readBy since take)
open BatchAssembler

/-! The messages read, and what is printed of them. -/

def itemsOf (ms : List Msg) : List (Batching.Item Shipped) := labels OrderHash.mix (start 24) ms

def batchesOf (ms : List Msg) : List (Batch Shipped) :=
  Batching.batches batchMsgs false (itemsOf ms)

/-- The messages that have been read when `n` batches are full. -/
def readFor (n : Nat) (ms : List Msg) : List Msg := ms.take (readBy batchMsgs n 0 (itemsOf ms))

def lastTsOf (bs : List (Batch Shipped)) : UInt64 :=
  ((bs.flatMap Batch.items).getLast?.map Shipped.ts).getD 0

/-- The snapshot behind the batch `(i + 1) * interval`. -/
def periodicSnapshot (interval : Nat) (ms : List Msg) (i : Nat) : SnapshotCsv :=
  let bs := (batchesOf ms).take ((i + 1) * interval)
  { ts := lastTsOf bs
    snap := report (since bs) (since (bs.drop (i * interval)))
    symbols := SymbolTable.empty.listed (readFor ((i + 1) * interval) ms) }

def finalSnapshot (interval : Nat) (ms : List Msg) : SnapshotCsv :=
  let bs := batchesOf ms
  { ts := lastTsOf bs
    snap := report (since bs) (since (bs.drop (bs.length / interval * interval)))
    symbols := SymbolTable.empty.listed ms }

def periodicSnapshots (interval : Nat) (ms : List Msg) : List SnapshotCsv :=
  (List.range ((batchesOf ms).length / interval)).map (periodicSnapshot interval ms)

def snapshotsOf (interval : Nat) (ms : List Msg) : List SnapshotCsv :=
  periodicSnapshots interval ms ++ [finalSnapshot interval ms]

/-- The messages read by a run that stops behind the batch with which it has read `limit`
messages; a limit of 0 is none. -/
def readUnder (limit : Nat) (ms : List Msg) : List Msg :=
  if limit = 0 then ms
  else
    match (List.range (batchesOf ms).length).find? fun j => limit ≤ (readFor (j + 1) ms).length with
    | some j => readFor (j + 1) ms
    | none => ms

def statsOf (interval : Nat) (ms : List Msg) : RunStats where
  batches := (batchesOf ms).length
  shippedMsgs := ((batchesOf ms).flatMap Batch.items).length
  snapshots := (batchesOf ms).length / interval + 1

def typeCount (t : UInt8) (ms : List Msg) : Nat := ms.countP fun m => m.bytes.head? == some t

theorem absorbAll_symbols {k : LogCapacity} (hash : UInt64 → UInt64) (a : BatchAssembler k)
    (ms : List Msg) : (absorbAll hash a ms).symbols = a.symbols.listed ms := by
  induction ms generalizing a with
  | nil => rfl
  | cons m ms ih =>
    have step : (absorb hash a m).symbols = a.symbols.listed [m] := by
      rw [SymbolTable.listed, List.foldl_cons, List.foldl_nil, absorb]
      by_cases ships : m.ships = true
      · have other : m.data Ofs.type ≠ MsgType.stockDir.code := by
          intro dir
          have relevant := (Msg.ships_iff.mp ships).1
          rw [dir] at relevant
          exact absurd relevant (by decide)
        rw [if_pos ships, if_neg other]
        exact resolve_symbols a m.data
      · rw [if_neg ships]
        split <;> rfl
    rw [absorbAll_cons, ih, step, ← SymbolTable.listed_append]
    rfl

/-- The messages in front of the first market open, and those behind each one. -/
def marketSessions (ms : List Msg) : List (List Msg) := ms.splitOnP Msg.opens

theorem sessions_labels {k : LogCapacity} (a : BatchAssembler k) (ms : List Msg) :
    let cut := Batching.sessions (labels OrderHash.mix a ms)
    (cut.1 :: cut.2).map (List.map Shipped.frame) =
      (marketSessions ms).map fun part => (part.filter Msg.ships).map Msg.bytes := by
  induction ms generalizing a with
  | nil => rfl
  | cons m ms ih =>
    have ih := ih (absorb OrderHash.mix a m)
    dsimp only at ih ⊢
    rw [marketSessions] at ih ⊢
    rw [List.splitOnP_cons_eq_if_modifyHead, labels]
    obtain ⟨first, later, cut⟩ := List.exists_cons_of_ne_nil (List.splitOnP_ne_nil Msg.opens ms)
    rw [cut, List.map_cons, List.map_cons, List.cons.injEq] at ih
    rw [cut, List.modifyHead_cons]
    by_cases opens : m.opens = true
    · rw [label_opens opens, if_pos opens, Batching.sessions, List.map_cons, List.map_cons,
        List.map_cons, List.map_cons, ih.1, ih.2]
      rfl
    · rw [if_neg opens, List.map_cons, List.map_cons]
      by_cases ships : m.ships = true
      · rw [label_ships ships, Batching.sessions, List.map_cons, ih.1, ih.2,
          List.filter_cons_of_pos ships]
        rfl
      · rw [label_passes (Bool.eq_false_iff.mpr opens) (Bool.eq_false_iff.mpr ships),
          Batching.sessions, ih.1, ih.2, List.filter_cons_of_neg ships]

theorem length_batchesOf (ms : List Msg) : (batchesOf ms).length =
    ((marketSessions ms).map fun part =>
      (part.countP Msg.ships + (batchMsgs - 1)) / batchMsgs).sum := by
  have sizes := congrArg (List.map fun frames => (frames.length + (batchMsgs - 1)) / batchMsgs)
    (sessions_labels (start 24) ms)
  simp only [List.map_map, Function.comp_def, List.length_map, ← List.countP_eq_length_filter]
    at sizes
  rw [← sizes, batchesOf, Batching.batches, List.length_append, Batching.length_sessionBatches,
    List.length_flatMap]
  simp only [Batching.length_sessionBatches]
  rfl

theorem length_ships (ms : List Msg) :
    ((batchesOf ms).flatMap Batch.items).length = ms.countP Msg.ships := by
  rw [batchesOf, Batching.batches_items (by decide), itemsOf]
  generalize start 24 = a
  induction ms generalizing a with
  | nil => rfl
  | cons m ms ih =>
    rw [labels, List.countP_cons]
    by_cases ships : m.ships = true
    · rw [label_ships ships, Batching.ships_ship, List.length_cons, ih, if_pos ships]
    · rw [if_neg ships, Nat.add_zero, ← ih (absorb OrderHash.mix a m)]
      by_cases opens : m.opens = true
      · rw [label_opens opens, Batching.ships_mark]
      · rw [label_passes (Bool.eq_false_iff.mpr opens) (Bool.eq_false_iff.mpr ships),
          Batching.ships_skip]

/-- The run has read `ms`, with nothing left in a batch at hand. -/
structure Told {σ : Type} (interval : Nat) (ms : List Msg) (r : CpuRun 24 σ) : Prop where
  total : r.parser.total = ms.length
  counts : ∀ t, r.parser.counts t = typeCount t ms
  asm : r.assembler.withPending false = absorbAll OrderHash.mix (start 24) ms
  tallied : Tallied r.acc (since (batchesOf ms))
    (since ((batchesOf ms).drop ((batchesOf ms).length / interval * interval)))
  batches : r.rs.batches = (batchesOf ms).length
  shipped : r.rs.shippedMsgs = ((batchesOf ms).flatMap Batch.items).length
  snapshots : r.rs.snapshots = (batchesOf ms).length / interval
  lastTs : r.lastTs = lastTsOf (batchesOf ms)
  printed : r.printed = periodicSnapshots interval ms

def itemsBehind (ms rest : List Msg) : List (Batching.Item Shipped) :=
  labels OrderHash.mix (absorbAll OrderHash.mix (start 24) ms) rest

theorem itemsOf_append (ms rest : List Msg) :
    itemsOf (ms ++ rest) = itemsOf ms ++ itemsBehind ms rest := labels_append ms rest

theorem itemsBehind_append (ms used rest : List Msg) :
    itemsBehind ms (used ++ rest) = itemsBehind ms used ++ itemsBehind (ms ++ used) rest := by
  rw [itemsBehind, labels_append, ← absorbAll_append]
  rfl

/-- What is read behind `ms`, of the messages `rest`, goes to new batches. -/
structure Front (ms rest : List Msg) (pending : Bool) : Prop where
  batches : ∀ l l', itemsBehind ms rest = l ++ l' →
    Batching.batches batchMsgs false (itemsOf ms ++ l) =
      batchesOf ms ++ Batching.batches batchMsgs pending l
  read : ∀ n l l', itemsBehind ms rest = l ++ l' →
    readBy batchMsgs ((batchesOf ms).length + n) 0 (itemsOf ms ++ l) =
      ms.length + readBy batchMsgs n 0 l

namespace Front

variable {ms used rest : List Msg} {pending : Bool} {interval i : Nat}

theorem nil (rest : List Msg) : Front [] rest false where
  batches _ _ _ := rfl
  read n l _ _ := by
    change readBy batchMsgs (0 + n) 0 l = 0 + readBy batchMsgs n 0 l
    rw [Nat.zero_add, Nat.zero_add]

theorem batchesOf_append (front : Front ms (used ++ rest) pending) :
    batchesOf (ms ++ used) =
      batchesOf ms ++ Batching.batches batchMsgs pending (itemsBehind ms used) := by
  rw [batchesOf, itemsOf_append]
  exact front.batches _ _ (itemsBehind_append ms used rest)

theorem readFor_append {n : Nat} (front : Front ms (used ++ rest) pending)
    (inside : n ≤ (batchesOf ms).length) : readFor n (ms ++ used) = readFor n ms := by
  have read : readBy batchMsgs n 0 (itemsOf (ms ++ used)) ≤ ms.length := by
    have all := front.read 0 _ _ (itemsBehind_append ms used rest)
    rw [Nat.add_zero, readBy, Nat.add_zero] at all
    rw [itemsOf_append, ← all]
    exact Batching.readBy_mono 0 _ inside
  have same : readBy batchMsgs n 0 (itemsOf ms) = readBy batchMsgs n 0 (itemsOf (ms ++ used)) := by
    have length : (itemsOf ms).length = ms.length := labels_length ms
    rw [Batching.readBy_append _ _ _ (itemsBehind ms used), ← itemsOf_append, length]
    exact min_eq_left read
  rw [readFor, readFor, same, List.take_append_of_le_length read]

theorem readFor_all (front : Front ms rest pending) : readFor (batchesOf ms).length ms = ms := by
  have read := front.read 0 [] _ rfl
  rw [Nat.add_zero, List.append_nil, readBy, Nat.add_zero] at read
  rw [readFor, read, List.take_length]

/-- What has been printed is not changed by what is read later. -/
theorem periodic (front : Front ms (used ++ rest) pending)
    (inside : (i + 1) * interval ≤ (batchesOf ms).length) :
    periodicSnapshot interval (ms ++ used) i = periodicSnapshot interval ms i := by
  have taken : (batchesOf (ms ++ used)).take ((i + 1) * interval) =
      (batchesOf ms).take ((i + 1) * interval) := by
    rw [front.batchesOf_append, List.take_append_of_le_length inside]
  simp only [periodicSnapshot, taken, front.readFor_append inside]

theorem periodic_last (front : Front ms rest pending)
    (last : (i + 1) * interval = (batchesOf ms).length) :
    periodicSnapshot interval ms i =
      { ts := lastTsOf (batchesOf ms)
        snap := report (since (batchesOf ms)) (since ((batchesOf ms).drop (i * interval)))
        symbols := SymbolTable.empty.listed ms } := by
  simp only [periodicSnapshot, last, front.readFor_all, List.take_length]

theorem periodicSnapshots (front : Front ms (used ++ rest) pending) :
    (List.range ((batchesOf ms).length / interval)).map (periodicSnapshot interval (ms ++ used)) =
      periodicSnapshots interval ms := by
  refine List.map_congr_left fun i hi => front.periodic ?_
  exact (Nat.mul_le_mul_right _ (List.mem_range.mp hi)).trans (Nat.div_mul_le_self _ _)

end Front

theorem mem_readUnder {limit : Nat} {ms : List Msg} {m : Msg} (mem : m ∈ readUnder limit ms) :
    m ∈ ms := by
  unfold readUnder at mem
  split at mem
  · exact mem
  · split at mem
    · exact List.mem_of_mem_take mem
    · exact mem

def Below (limit : Nat) (ms : List Msg) : Prop :=
  limit ≠ 0 → ∀ j < (batchesOf ms).length, (readFor (j + 1) ms).length < limit

theorem Below.all {limit : Nat} {ms : List Msg} (below : Below limit ms) :
    readUnder limit ms = ms := by
  rw [readUnder]
  split
  · rfl
  · rename_i limited
    rw [List.find?_eq_none.mpr fun j mem => by
      simpa using below limited j (List.mem_range.mp mem)]

theorem Below.batch {limit : Nat} {ms used rest : List Msg} {pending pending' : Bool}
    (below : Below limit ms) (front : Front ms (used ++ rest) pending)
    (front' : Front (ms ++ used) rest pending')
    (one : (batchesOf (ms ++ used)).length = (batchesOf ms).length + 1) :
    if limit ≠ 0 ∧ limit ≤ (ms ++ used).length then
      readUnder limit (ms ++ used ++ rest) = ms ++ used
    else Below limit (ms ++ used) := by
  have earlier : ∀ j < (batchesOf ms).length, readFor (j + 1) (ms ++ used) = readFor (j + 1) ms :=
    fun j inside => front.readFor_append inside
  have last : readFor ((batchesOf ms).length + 1) (ms ++ used) = ms ++ used := by
    rw [← one, front'.readFor_all]
  have whole : Front (ms ++ used) (rest ++ []) pending' := by rwa [List.append_nil]
  split
  · rename_i reached
    have found : (List.range (batchesOf (ms ++ used ++ rest)).length).find?
        (fun j => limit ≤ (readFor (j + 1) (ms ++ used ++ rest)).length) =
          some (batchesOf ms).length := by
      rw [List.find?_range_eq_some, List.mem_range, whole.batchesOf_append, List.length_append, one]
      refine ⟨?_, by omega, fun j inside => ?_⟩
      · rw [whole.readFor_append one.ge, last]
        exact decide_eq_true reached.2
      · rw [whole.readFor_append (by omega), earlier j inside, Bool.not_eq_true',
          decide_eq_false_iff_not, Nat.not_le]
        exact below reached.1 j inside
    rw [readUnder, if_neg reached.1, found]
    exact (whole.readFor_append one.ge).trans last
  · rename_i open_
    intro limited j inside
    rcases (Nat.lt_succ_iff.mp (one ▸ inside)).lt_or_eq with before | rfl
    · rw [earlier j before]
      exact below limited j before
    · rw [last]
      omega

theorem batchesOf_nil : batchesOf [] = [] := Batching.batches_none (by decide) rfl

theorem Told.initial {σ : Type} (interval : Nat) (s : σ) (bufBytes : Nat) :
    Told interval [] (.start 24 (ItchParser.start s bufBytes)) where
  total := rfl
  counts _ := rfl
  asm := rfl
  tallied := by
    rw [batchesOf_nil, List.drop_nil]
    exact Tallied.reset
  batches := by
    rw [batchesOf_nil]
    rfl
  shipped := by
    rw [batchesOf_nil]
    rfl
  snapshots := by
    rw [batchesOf_nil, List.length_nil, Nat.zero_div]
    rfl
  lastTs := by
    rw [batchesOf_nil]
    rfl
  printed := by
    rw [periodicSnapshots, batchesOf_nil, List.length_nil, Nat.zero_div]
    rfl

/-! A turn of the loop. -/

theorem ItchParser.Counted.of_append {σ : Type} {p q r : ItchParser σ} {fs gs : List (List UInt8)}
    (whole : Counted p (fs ++ gs) r) (later : Counted q gs r) : Counted p fs q where
  total := by
    have totals := whole.total
    rw [later.total, List.length_append] at totals
    omega
  counts t := by
    have counts := whole.counts t
    rw [later.counts t, List.countP_append] at counts
    omega

section Turn

variable {σ : Type} {source : ByteSource σ} {opt : Options} {turns loops : Nat} {r r' : CpuRun 24 σ}
  {ms used rest : List Msg} {p q : ItchParser σ} {f : Filling 24} {interval : Nat}

theorem Told.labels (told : Told interval ms r) (rest : List Msg) :
    BatchAssembler.labels OrderHash.mix r.assembler rest = itemsBehind ms rest := by
  rw [itemsBehind, ← told.asm, labels_withPending]

/-- A call of `fill`: its batch is the next one, and the ones behind it start where it has
stopped reading. -/
theorem Front.fill {pending : Bool} (front : Front ms (used ++ rest) pending)
    {t : Batching.Taken Shipped}
    (taken : t = take batchMsgs (itemsBehind ms (used ++ rest)) ⟨[], pending⟩)
    (behind : t.rest = itemsBehind (ms ++ used) rest) (some : t.batch.items ≠ []) :
    batchesOf (ms ++ used) = batchesOf ms ++ [t.batch] ∧ Front (ms ++ used) rest t.pending := by
  have split := itemsBehind_append ms used rest
  rw [taken] at some behind
  have more : ∀ l l', itemsBehind (ms ++ used) rest = l ++ l' →
      Batching.batches batchMsgs pending (itemsBehind ms used ++ l) =
        t.batch :: Batching.batches batchMsgs t.pending l := by
    intro l l' parts
    rw [taken]
    exact Batching.take_batches (by decide) some (behind ▸ split) (behind.trans parts)
  have one : batchesOf (ms ++ used) = batchesOf ms ++ [t.batch] := by
    have alone := more [] _ rfl
    rw [List.append_nil] at alone
    rw [front.batchesOf_append, alone]
    rfl
  refine ⟨one, fun l l' parts => ?_, fun n l l' parts => ?_⟩
  · have first := front.batches (itemsBehind ms used ++ l) l' (by
      rw [split, parts, List.append_assoc])
    rw [itemsOf_append, List.append_assoc, first, more l l' parts, one, List.append_assoc]
    rfl
  · have room : (⟨[], pending⟩ : Batch Shipped).items.length < batchMsgs :=
      (by decide : 0 < batchMsgs)
    obtain ⟨read, ends⟩ := Batching.take_ends (l := itemsBehind ms (used ++ rest)) room
    have whole := ends.split
    rw [behind, split] at whole
    obtain rfl : itemsBehind ms used = read := List.append_cancel_right whole
    rw [behind, parts] at ends
    have ends : Ends batchMsgs _ 0 _ _ := ends.cut
    have first := front.read (n + 1) (itemsBehind ms used ++ l) l' (by
      rw [split, parts, List.append_assoc])
    rw [itemsOf_append, List.append_assoc, one, List.length_append, List.length_singleton,
      Nat.add_right_comm, Nat.add_assoc, first, Batching.readBy_ends ends, List.length_append,
      Nat.add_assoc]
    congr 2
    exact labels_length used

structure Filled (source : ByteSource σ) (r : CpuRun 24 σ) (ms used rest : List Msg)
    (q p : ItchParser σ) (f : Filling 24) (t : Batching.Taken Shipped) : Prop where
  taken : t = take batchMsgs (itemsBehind ms (used ++ rest)) ⟨[], r.assembler.pendingReset⟩
  drew : Drew source OrderHash.mix r.batch (r.assembler.withPending false) (used ++ rest) q t used
    rest p f
  counted : ItchParser.Counted r.parser (used.map Msg.bytes) p

theorem Told.filled (told : Told interval ms r) {more : List Msg}
    (yields : ItchParser.Yields source r.parser more q) (bounds : r.parser.Bounds)
    (call : BatchAssembler.fill source OrderHash.mix turns r.parser r.assembler r.batch =
      some (p, f)) :
    ∃ used rest t, more = used ++ rest ∧ Filled source r ms used rest q p f t := by
  obtain ⟨used, rest, drew⟩ := fill_drew yields bounds call
  obtain rfl := drew.split
  rw [told.labels] at drew
  have whole := yields.counted bounds
  rw [List.map_append] at whole
  exact ⟨used, rest, _, rfl, rfl, drew, whole.of_append (drew.yields.counted drew.bounds)⟩

namespace Filled

variable {t : Batching.Taken Shipped}

theorem asm (filled : Filled source r ms used rest q p f t) (told : Told interval ms r) :
    f.asm.withPending false = absorbAll OrderHash.mix (start 24) (ms ++ used) := by
  have unflagged : absorbAll OrderHash.mix (start 24) (ms ++ used) =
      (absorbAll OrderHash.mix (start 24) (ms ++ used)).withPending false :=
    absorbAll_withPending (a := start 24) false (ms ++ used)
  rw [filled.drew.asm, told.asm, ← absorbAll_append, unflagged]
  rfl

theorem pending (filled : Filled source r ms used rest q p f t) :
    f.asm.pendingReset = t.pending := by
  rw [filled.drew.asm]

theorem behind (filled : Filled source r ms used rest q p f t) (told : Told interval ms r) :
    t.rest = itemsBehind (ms ++ used) rest := by
  rw [filled.drew.rest, told.asm, ← absorbAll_append]
  rfl

theorem items (filled : Filled source r ms used rest q p f t) :
    f.batchMeta.nMsgs = t.batch.items.length := filled.drew.holds.count

theorem whole (filled : Filled source r ms used rest q p f t) :
    ∀ m ∈ t.batch.items, m.frame.length ≤ slotBytes := by
  intro m mem
  rw [filled.taken] at mem
  obtain ⟨msg, _, ships, tag, rfl⟩ :=
    mem_ships_labels (Batching.take_items (by decide) m mem)
  exact (length_bytes msg.data msg.len).trans_le (Msg.ships_iff.mp ships).2

theorem total (filled : Filled source r ms used rest q p f t) (told : Told interval ms r) :
    p.total = (ms ++ used).length := by
  rw [filled.counted.total, told.total, List.length_append, List.length_map]

theorem counts (filled : Filled source r ms used rest q p f t) (told : Told interval ms r)
    (type : UInt8) : p.counts type = typeCount type (ms ++ used) := by
  rw [filled.counted.counts, told.counts, typeCount, typeCount, List.countP_append, List.countP_map]
  rfl

end Filled

theorem lastTsOf_concat (bs : List (Batch Shipped)) {b : Batch Shipped} {c : BatchAssembler.Call}
    (shows : c.Shows b) (some_ : b.items ≠ []) :
    lastTsOf (bs ++ [b]) = c.batchMeta.lastTs := by
  have last : b.items.getLast? = some (b.items.getLast some_) := List.getLast?_eq_some_getLast some_
  rw [lastTsOf, List.flatMap_append, List.flatMap_singleton, List.getLast?_append, last,
    shows.last _ last]
  rfl

/-- The run has read `ms` and aggregated its batches, and has printed `n` snapshots. -/
structure Aggregated (interval n : Nat) (ms : List Msg) (r : CpuRun 24 σ) : Prop where
  total : r.parser.total = ms.length
  counts : ∀ t, r.parser.counts t = typeCount t ms
  asm : r.assembler.withPending false = absorbAll OrderHash.mix (start 24) ms
  tallied : Tallied r.acc (since (batchesOf ms)) (since ((batchesOf ms).drop (n * interval)))
  batches : r.rs.batches = (batchesOf ms).length
  shipped : r.rs.shippedMsgs = ((batchesOf ms).flatMap Batch.items).length
  snapshots : r.rs.snapshots = n
  lastTs : r.lastTs = lastTsOf (batchesOf ms)
  printed : r.printed = (List.range n).map (periodicSnapshot interval ms)

namespace Aggregated

variable {n : Nat}

theorem told (aggregated : Aggregated interval n ms r)
    (inside : (batchesOf ms).length / interval = n) : Told interval ms r := by
  obtain ⟨total, counts, asm, tallied, batches, shipped, snapshots, lastTs, printed⟩ := aggregated
  rw [← inside] at tallied snapshots printed
  exact ⟨total, counts, asm, tallied, batches, shipped, snapshots, lastTs, printed⟩

theorem snapshot {pending : Bool} (aggregated : Aggregated interval n ms r)
    (front : Front ms rest pending) (positive : 0 < interval)
    (last : (n + 1) * interval = (batchesOf ms).length) : Told interval ms r.snapshot := by
  have intervals : (batchesOf ms).length / interval = n + 1 := by
    rw [← last]
    exact Nat.mul_div_cancel _ positive
  have table : r.assembler.symbols = SymbolTable.empty.listed ms := by
    have symbols := congrArg BatchAssembler.symbols aggregated.asm
    rw [absorbAll_symbols] at symbols
    exact symbols
  refine ⟨aggregated.total, aggregated.counts, aggregated.asm, ?_, aggregated.batches,
    aggregated.shipped, ?_, aggregated.lastTs, ?_⟩
  · rw [intervals, last, List.drop_length]
    exact aggregated.tallied.snapshot
  · rw [intervals, ← aggregated.snapshots]
    rfl
  · rw [periodicSnapshots, intervals, List.range_succ, List.map_append, ← aggregated.printed,
      List.map_singleton, front.periodic_last last, ← aggregated.tallied.rows, ← aggregated.lastTs,
      ← table]
    rfl

end Aggregated

theorem Told.aggregate {t : Batching.Taken Shipped} (told : Told interval ms r)
    (front : Front ms (used ++ rest) r.assembler.pendingReset)
    (filled : Filled source r ms used rest q p f t)
    (one : batchesOf (ms ++ used) = batchesOf ms ++ [t.batch]) (some_ : t.batch.items ≠ []) :
    Aggregated interval ((batchesOf ms).length / interval) (ms ++ used)
      ((r.filled p f).aggregate f.batchMeta) := by
  have start_le : (batchesOf ms).length / interval * interval ≤ (batchesOf ms).length :=
    Nat.div_mul_le_self _ _
  refine ⟨filled.total told, filled.counts told, filled.asm told, ?_, ?_, ?_, told.snapshots, ?_, ?_⟩
  · have tallied := told.tallied.call (c := ⟨r.batch, f.batchMeta, f.dst⟩) filled.drew.holds
      filled.whole
    rw [← Ledger.Reports.since_concat, ← Ledger.Reports.since_concat,
      ← List.drop_append_of_le_length start_le, ← one] at tallied
    exact tallied
  · rw [one, List.length_append, List.length_singleton, ← told.batches]
    rfl
  · rw [one, List.flatMap_append, List.length_append, List.flatMap_singleton, ← filled.items,
      ← told.shipped]
    rfl
  · rw [one]
    exact (lastTsOf_concat (batchesOf ms) (c := ⟨r.batch, f.batchMeta, f.dst⟩) filled.drew.holds
      some_).symm
  · exact told.printed.trans front.periodicSnapshots.symm

theorem Told.onBatch {t : Batching.Taken Shipped} (told : Told opt.snapshotInterval ms r)
    (front : Front ms (used ++ rest) r.assembler.pendingReset)
    (filled : Filled source r ms used rest q p f t) (some_ : f.batchMeta.nMsgs ≠ 0) :
    Told opt.snapshotInterval (ms ++ used) ((r.filled p f).onBatch opt f.batchMeta) ∧
      Front (ms ++ used) rest f.asm.pendingReset ∧
      (batchesOf (ms ++ used)).length = (batchesOf ms).length + 1 := by
  have items : t.batch.items ≠ [] := by
    rw [Ne, ← List.length_eq_zero_iff, ← filled.items]
    exact some_
  obtain ⟨one, front'⟩ := front.fill filled.taken (filled.behind told) items
  have count : (batchesOf (ms ++ used)).length = (batchesOf ms).length + 1 := by
    rw [one, List.length_append, List.length_singleton]
  refine ⟨?_, filled.pending ▸ front', count⟩
  have aggregated := told.aggregate front filled one items
  have divmod : ((batchesOf ms).length + 1) / opt.snapshotInterval = _ := Nat.succ_div
  rw [CpuRun.onBatch, aggregated.batches, count]
  by_cases due : opt.snapshotInterval ∣ (batchesOf ms).length + 1
  · rw [if_pos due] at divmod
    rw [if_pos (Nat.mod_eq_zero_of_dvd due)]
    refine aggregated.snapshot front' opt.interval_pos ?_
    rw [count, ← divmod, Nat.div_mul_cancel due]
  · rw [if_neg due, Nat.add_zero] at divmod
    rw [if_neg fun zero => due (Nat.dvd_of_mod_eq_zero zero)]
    exact aggregated.told ((congrArg (· / opt.snapshotInterval) count).trans divmod)

theorem Told.empty {t : Batching.Taken Shipped} (told : Told interval ms r)
    (front : Front ms (used ++ rest) r.assembler.pendingReset)
    (filled : Filled source r ms used rest q p f t) (empty : f.batchMeta.nMsgs = 0) :
    rest = [] ∧ batchesOf (ms ++ used) = batchesOf ms ∧
      Told interval (ms ++ used) (r.filled p f) := by
  have none : t.batch.items = [] := by
    rw [← List.length_eq_zero_iff, ← filled.items]
    exact empty
  have behind := filled.behind told
  rw [filled.taken] at none behind
  have spent := (Batching.take_none (by decide) _ none).2
  rw [behind] at spent
  have nil : rest = [] := by
    rw [← List.length_eq_zero_iff,
      ← labels_length (a := absorbAll OrderHash.mix (start 24) (ms ++ used)) rest]
    exact List.length_eq_zero_iff.mpr spent
  have quiet : Batching.ships (itemsBehind ms used) = [] := by
    rw [nil, List.append_nil] at none
    rcases Batching.take_filled (l := itemsBehind ms used) (show 0 < batchMsgs by decide)
      r.assembler.pendingReset with ⟨_, quiet⟩ | ⟨gap, seg, tail, some_⟩
    · exact quiet
    · exact absurd none some_.stretch.items_ne_nil
  have same : batchesOf (ms ++ used) = batchesOf ms := by
    rw [front.batchesOf_append, Batching.batches_none (by decide) quiet, List.append_nil]
  refine ⟨nil, same, filled.total told, filled.counts told, filled.asm told, ?_, ?_, ?_, ?_, ?_, ?_⟩
  · rw [same]
    exact told.tallied
  · rw [same]
    exact told.batches
  · rw [same]
    exact told.shipped
  · rw [same]
    exact told.snapshots
  · rw [same]
    exact told.lastTs
  · rw [periodicSnapshots, same, front.periodicSnapshots]
    exact told.printed

structure Reading (source : ByteSource σ) (opt : Options) (ms rest : List Msg) (q : ItchParser σ)
    (r : CpuRun 24 σ) : Prop where
  told : Told opt.snapshotInterval ms r
  front : Front ms rest r.assembler.pendingReset
  below : Below opt.maxMsgs ms
  yields : ItchParser.Yields source r.parser rest q
  bounds : r.parser.Bounds

theorem Reading.initial (opt : Options) {s : σ} {bufBytes : Nat}
    (yields : ItchParser.Yields source (.start s bufBytes) ms q) :
    Reading source opt [] ms q (.start 24 (.start s bufBytes)) where
  told := Told.initial opt.snapshotInterval s bufBytes
  front := .nil ms
  below := by
    intro _ j inside
    rw [batchesOf_nil] at inside
    cases inside
  yields := yields
  bounds := ItchParser.start_bounds s bufBytes

theorem Reading.last (reading : Reading source opt ms (used ++ rest) q r)
    {t : Batching.Taken Shipped} (filled : Filled source r ms used rest q p f t)
    (empty : f.batchMeta.nMsgs = 0) : rest = [] ∧
      readUnder opt.maxMsgs (ms ++ (used ++ rest)) = ms ++ used ∧
      Told opt.snapshotInterval (ms ++ used) (r.filled p f) := by
  obtain ⟨rfl, same, ended⟩ := reading.told.empty reading.front filled empty
  have below : Below opt.maxMsgs (ms ++ used) := by
    intro limited j inside
    rw [same] at inside
    rw [reading.front.readFor_append inside]
    exact reading.below limited j inside
  rw [List.append_nil, below.all]
  exact ⟨rfl, rfl, ended⟩

/-- A batch reaches the limit, or the run goes on behind it. -/
theorem Reading.batch (reading : Reading source opt ms (used ++ rest) q r)
    {t : Batching.Taken Shipped} (filled : Filled source r ms used rest q p f t)
    (some_ : f.batchMeta.nMsgs ≠ 0) :
    if opt.maxMsgs ≠ 0 ∧ opt.maxMsgs ≤ p.total then
      readUnder opt.maxMsgs (ms ++ (used ++ rest)) = ms ++ used ∧
        Told opt.snapshotInterval (ms ++ used) ((r.filled p f).onBatch opt f.batchMeta)
    else Reading source opt (ms ++ used) rest q ((r.filled p f).onBatch opt f.batchMeta) := by
  obtain ⟨told, front, one⟩ := reading.told.onBatch reading.front filled some_
  have limit := reading.below.batch reading.front front one
  have pulls := @CpuRun.onBatch_pulls _ _ opt (r.filled p f) f.batchMeta
  rw [filled.total reading.told]
  split
  · rename_i reached
    rw [if_pos reached] at limit
    rw [← List.append_assoc]
    exact ⟨limit, told⟩
  · rename_i more
    rw [if_neg more] at limit
    refine ⟨told, ?_, limit, ?_, ?_⟩
    · rw [pulls.2]
      exact front
    · rw [pulls.1]
      exact filled.drew.yields
    · rw [pulls.1]
      exact filled.drew.bounds

theorem Reading.loop (reading : Reading source opt ms rest q r)
    (result : CpuRun.loop source OrderHash.mix opt turns loops r = some r') :
    Told opt.snapshotInterval (readUnder opt.maxMsgs (ms ++ rest)) r' := by
  induction loops generalizing r ms rest with
  | zero => cases result
  | succ loops ih =>
    obtain ⟨p, f, call, turn⟩ := CpuRun.loop_cases result
    obtain ⟨used, left, t, rfl, filled⟩ := reading.told.filled reading.yields reading.bounds call
    rcases turn with ⟨empty, rfl⟩ | ⟨some_, turn⟩
    · obtain ⟨_, read, told⟩ := reading.last filled empty
      rw [read]
      exact told
    · have batch := reading.batch filled some_
      rcases turn with ⟨reached, rfl⟩ | ⟨more, later⟩
      · rw [if_pos reached] at batch
        rw [batch.1]
        exact batch.2
      · rw [if_neg more] at batch
        rw [← List.append_assoc]
        exact ih batch later

end Turn

theorem Told.snapshot {σ : Type} {interval : Nat} {ms : List Msg} {r : CpuRun 24 σ}
    (told : Told interval ms r) :
    r.snapshot.printed = snapshotsOf interval ms ∧ r.snapshot.rs = statsOf interval ms := by
  have table : r.assembler.symbols = SymbolTable.empty.listed ms := by
    have symbols := congrArg BatchAssembler.symbols told.asm
    rw [absorbAll_symbols] at symbols
    exact symbols
  constructor
  · rw [snapshotsOf, ← told.printed, finalSnapshot, ← told.tallied.rows, ← told.lastTs, ← table]
    rfl
  · rw [statsOf, ← told.snapshots, ← told.batches, ← told.shipped]
    rfl

/-! The messages as frames. -/

theorem typeCount_frames (t : UInt8) (ms : List Msg) :
    typeCount t (ms.map fun m => Msg.ofFrame m.bytes) = typeCount t ms := by
  rw [typeCount, typeCount, List.countP_map]
  simp only [Function.comp_def, Msg.bytes_ofFrame]

section Frames

variable {ms : List Msg} (positive : ∀ m ∈ ms, 0 < m.len) (long : ∀ m ∈ ms, LongEnough m.bytes)
include positive long

theorem itemsOf_frames : itemsOf (ms.map fun m => Msg.ofFrame m.bytes) = itemsOf ms :=
  labels_frames positive long

theorem listed_frames : SymbolTable.empty.listed (ms.map fun m => Msg.ofFrame m.bytes) =
    SymbolTable.empty.listed ms := by
  have same := congrArg BatchAssembler.symbols
    (@absorbAll_frames 24 OrderHash.mix (start 24) ms positive long)
  rw [absorbAll_symbols, absorbAll_symbols] at same
  exact same

theorem readFor_frames (n : Nat) : readFor n (ms.map fun m => Msg.ofFrame m.bytes) =
    (readFor n ms).map fun m => Msg.ofFrame m.bytes := by
  rw [readFor, itemsOf_frames positive long, ← List.map_take]
  rfl

/-- What is printed depends on the bytes of the messages alone. -/
theorem snapshotsOf_frames (interval : Nat) :
    snapshotsOf interval (ms.map fun m => Msg.ofFrame m.bytes) = snapshotsOf interval ms := by
  have batches : batchesOf (ms.map fun m => Msg.ofFrame m.bytes) = batchesOf ms :=
    congrArg (Batching.batches batchMsgs false) (itemsOf_frames positive long)
  have table : ∀ n, SymbolTable.empty.listed (readFor n (ms.map fun m => Msg.ofFrame m.bytes)) =
      SymbolTable.empty.listed (readFor n ms) := by
    intro n
    rw [readFor_frames positive long]
    exact listed_frames (fun m hm => positive m (List.mem_of_mem_take hm))
      fun m hm => long m (List.mem_of_mem_take hm)
  have final : finalSnapshot interval (ms.map fun m => Msg.ofFrame m.bytes) =
      finalSnapshot interval ms := by
    simp only [finalSnapshot, batches, listed_frames positive long]
  rw [snapshotsOf, snapshotsOf, final, periodicSnapshots, periodicSnapshots, batches]
  congr 2
  funext i
  simp only [periodicSnapshot, batches, table]

theorem readUnder_frames (limit : Nat) : readUnder limit (ms.map fun m => Msg.ofFrame m.bytes) =
    (readUnder limit ms).map fun m => Msg.ofFrame m.bytes := by
  have batches : batchesOf (ms.map fun m => Msg.ofFrame m.bytes) = batchesOf ms :=
    congrArg (Batching.batches batchMsgs false) (itemsOf_frames positive long)
  simp only [readUnder, batches, readFor_frames positive long, List.length_map]
  split
  · rfl
  · split <;> rfl

theorem statsOf_frames (interval : Nat) :
    statsOf interval (ms.map fun m => Msg.ofFrame m.bytes) = statsOf interval ms := by
  rw [statsOf, batchesOf, itemsOf_frames positive long]
  rfl

end Frames

section Run

variable {σ : Type} {source : ByteSource σ} {left : σ → List UInt8} {s : σ} {opt : Options}
  {ms : List Msg} {q : ItchParser σ}

/-- What a run prints and counts follows from the messages it reads. -/
structure Tells (interval : Nat) (ms : List Msg) (r : CpuRun 24 σ) : Prop where
  total : r.parser.total = ms.length
  counts : ∀ t, r.parser.counts t = typeCount t ms
  asm : r.assembler.withPending false = absorbAll OrderHash.mix (start 24) ms
  printed : r.printed = snapshotsOf interval ms
  rs : r.rs = statsOf interval ms

theorem runCpu_told (yields : ItchParser.Yields source (.start s ItchParser.defaultBufBytes) ms q)
    {turns : Nat} {r : CpuRun 24 σ} (result : runCpu source opt turns s = some r) :
    Tells opt.snapshotInterval (readUnder opt.maxMsgs ms) r := by
  obtain ⟨r', looped, rfl⟩ := Option.map_eq_some_iff.mp result
  have told := (Reading.initial opt yields).loop looped
  rw [List.nil_append] at told
  obtain ⟨printed, stats⟩ := told.snapshot
  exact ⟨told.total, told.counts, told.asm, printed, stats⟩

theorem runCpu_hands {fs : List (List UInt8)}
    (hands : (ItchParser.start s ItchParser.defaultBufBytes).Hands source fs)
    (long : ∀ f ∈ fs, LongEnough f) {turns : Nat} {r : CpuRun 24 σ}
    (result : runCpu source opt turns s = some r) :
    Tells opt.snapshotInterval (readUnder opt.maxMsgs (fs.map Msg.ofFrame)) r := by
  obtain ⟨ms, q, yields, rfl⟩ := hands
  have tells := runCpu_told yields result
  have long : ∀ m ∈ ms, LongEnough m.bytes := fun m mem => long _ (List.mem_map_of_mem mem)
  have positive_read : ∀ m ∈ readUnder opt.maxMsgs ms, 0 < m.len := fun m mem =>
    yields.positive m (mem_readUnder mem)
  have long_read : ∀ m ∈ readUnder opt.maxMsgs ms, LongEnough m.bytes := fun m mem =>
    long m (mem_readUnder mem)
  rw [List.map_map, Function.comp_def, readUnder_frames yields.positive long]
  refine ⟨?_, fun t => ?_, ?_, ?_, ?_⟩
  · rw [List.length_map]
    exact tells.total
  · rw [typeCount_frames]
    exact tells.counts t
  · rw [absorbAll_frames positive_read long_read]
    exact tells.asm
  · rw [snapshotsOf_frames positive_read long_read]
    exact tells.printed
  · rw [statsOf_frames positive_read long_read]
    exact tells.rs

theorem runCpu_tells (hsrc : source.Delivers left) (exact_ : ∀ f ∈ frames (left s), ExactLength f)
    {turns : Nat} {r : CpuRun 24 σ} (result : runCpu source opt turns s = some r) :
    Tells opt.snapshotInterval (readUnder opt.maxMsgs ((frames (left s)).map Msg.ofFrame)) r :=
  runCpu_hands (hands_stream hsrc s) (fun f mem => (exact_ f mem).longEnough) result

/-- A run returns, and prints the snapshots of the messages it reads: with a limit, those up
to the end of the batch that reaches it, without one all the messages of the stream. -/
theorem runCpu_output (hsrc : source.Delivers left)
    (exact_ : ∀ f ∈ frames (left s), ExactLength f) :
    (∃ turns r, runCpu source opt turns s = some r) ∧
    ∀ turns r, runCpu source opt turns s = some r →
      let read := readUnder opt.maxMsgs ((frames (left s)).map Msg.ofFrame)
      r.parser.total = read.length ∧ r.printed = snapshotsOf opt.snapshotInterval read :=
  ⟨runCpu_returns hsrc s opt, fun _ _ result =>
    have tells := runCpu_tells hsrc exact_ result
    ⟨tells.total, tells.printed⟩⟩

/-- With a limit of three messages and a snapshot after every batch: the limit is reached in
the second batch. -/
theorem runCpu_output_reopened :
    ∃ turns r, runCpu memSource ⟨1, 3, by decide⟩ turns reopened = some r ∧ r.parser.total = 3 ∧
      r.printed.map (fun p => (p.snap 7).volume) = [50, 20, 20] := by
  obtain ⟨⟨turns, r, result⟩, output⟩ :=
    @runCpu_output _ memSource id reopened ⟨1, 3, by decide⟩ memSource_delivers reopened_exact
  obtain ⟨total, printed⟩ := output turns r result
  refine ⟨turns, r, result, total.trans (by decide +kernel), ?_⟩
  rw [printed]
  decide +kernel

/-- The counters of every run over a source whose messages come to an end: every market
session in as few batches as hold its messages, a snapshot for every full interval and one at
the end, and every message shipped that fits a slot. -/
theorem runCpu_accounts
    (yields : ItchParser.Yields source (.start s ItchParser.defaultBufBytes) ms q) :
    (∃ turns r, runCpu source opt turns s = some r) ∧
    ∀ turns r, runCpu source opt turns s = some r →
      let read := readUnder opt.maxMsgs ms
      r.rs.batches = ((marketSessions read).map fun part =>
        (part.countP Msg.ships + (batchMsgs - 1)) / batchMsgs).sum ∧
      r.rs.shippedMsgs = read.countP Msg.ships ∧
      r.rs.snapshots = r.rs.batches / opt.snapshotInterval + 1 ∧
      r.printed.length = r.rs.snapshots := by
  refine ⟨runCpu_ofHands ⟨ms, q, yields, rfl⟩ opt, fun turns r result => ?_⟩
  intro read
  have tells := runCpu_told yields result
  rw [tells.printed, tells.rs]
  refine ⟨length_batchesOf read, length_ships read, rfl, ?_⟩
  rw [snapshotsOf, List.length_append, periodicSnapshots, List.length_map, List.length_range]
  rfl

/-- Two market sessions of one batch each, and a snapshot after every batch. -/
theorem runCpu_accounts_reopened :
    ∃ r ms q, runCpu memSource ⟨1, 0, by decide⟩ 8 reopened = some r ∧
      ItchParser.Yields memSource (.start reopened ItchParser.defaultBufBytes) ms q ∧
      ((marketSessions ms).map fun part =>
        (part.countP Msg.ships + (batchMsgs - 1)) / batchMsgs).sum = 2 ∧
      ms.countP Msg.ships = 2 ∧ r.printed.length = 3 := by
  have ran : (runCpu memSource ⟨1, 0, by decide⟩ 8 reopened).map (fun r =>
      (r.rs.batches, r.rs.shippedMsgs)) = some (2, 2) := by decide +kernel
  obtain ⟨r, result, counters⟩ := Option.map_eq_some_iff.mp ran
  obtain ⟨two, both⟩ := Prod.mk.inj counters
  obtain ⟨ms, q, yields, _⟩ := hands_stream memSource_delivers reopened
  obtain ⟨batches, shipped, snapshots, printed⟩ :=
    (@runCpu_accounts _ memSource reopened ⟨1, 0, by decide⟩ ms q yields).2 8 r result
  refine ⟨r, ms, q, result, yields, batches.symm.trans two, shipped.symm.trans both, ?_⟩
  rw [printed, snapshots, two]
  rfl

end Run

end ItchAggregator
