import ItchAggregator.Batches

/-! The batches of a stream as its callers see them: nothing shipped is lost,
duplicated or reordered, a batch is cut short only where a market open or the end
of the stream is, and the reset flags say between which batches the market opened. -/

namespace ItchAggregator

open Batching (ships upto behind gapOf Broken)
open BatchAssembler

structure BatchAssembler.Call.Packs (c : Call) (items : List Shipped) : Prop where
  count : c.batchMeta.nMsgs = items.length
  some : items ≠ []
  bound : c.batchMeta.nMsgs ≤ batchMsgs
  slots : bytes c.out (c.batchMeta.nMsgs * slotBytes) = items.flatMap Shipped.slot
  frame : ∀ i, c.batchMeta.nMsgs * slotBytes ≤ i → c.out i = c.dst i
  firstTs : ∀ s ∈ items.head?, c.batchMeta.firstTs = (Msg.ofFrame s.frame).timestamp
  lastTs : ∀ s ∈ items.getLast?, c.batchMeta.lastTs = (Msg.ofFrame s.frame).timestamp

private theorem forall₂_split {α β : Type} {R : α → β → Prop} {pre post : List α} {x : α}
    {ys : List β} (h : List.Forall₂ R (pre ++ x :: post) ys) :
    ∃ ypre y ypost, ys = ypre ++ y :: ypost ∧ List.Forall₂ R pre ypre ∧ R x y := by
  induction pre generalizing ys with
  | nil =>
    cases h with
    | cons first _ => exact ⟨[], _, _, rfl, .nil, first⟩
  | cons z pre ih =>
    cases h with
    | cons first rest =>
      obtain ⟨ypre, y, ypost, rfl, before, here⟩ := ih rest
      exact ⟨_ :: ypre, y, ypost, rfl, .cons first before, here⟩

namespace BatchAssembler

variable {k : LogCapacity} {σ : Type} {source : ByteSource σ} {hash : UInt64 → UInt64}
  {p q : ItchParser σ} {a : BatchAssembler k} {calls : List Call} {last : Call}
  {fs : List (List UInt8)} {bs : List (Batching.Batch Shipped)}

theorem Call.Shows.packs {c : Call} {b : Batching.Batch Shipped} (shows : c.Shows b)
    (some : b.items ≠ []) (bound : b.items.length ≤ batchMsgs)
    (stamped : ∀ s ∈ b.items, s.ts = (Msg.ofFrame s.frame).timestamp) : c.Packs b.items where
  count := shows.count
  some := some
  bound := shows.count ▸ bound
  slots := shows.count ▸ shows.slots.packed
  frame := shows.count ▸ shows.slots.frame
  firstTs := fun s hs => (shows.first s hs).trans (stamped s (List.mem_of_mem_head? hs))
  lastTs := fun s hs => (shows.last s hs).trans (stamped s (List.mem_of_mem_getLast? hs))

theorem placed_frames
    (placed : Batching.Placed batchMsgs false (labels hash (start k) (fs.map Msg.ofFrame)) bs) :
    Batching.Placed batchMsgs false (fs.map frameItem) (bs.map (Batching.Batch.map Shipped.frame)) := by
  have relabel := placed.map Shipped.frame
  rwa [labels_frameItem] at relabel

theorem total_frames (shows : List.Forall₂ Call.Shows calls bs) :
    total calls =
      ((bs.map (Batching.Batch.map Shipped.frame)).flatMap Batching.Batch.items).length := by
  rw [total_shows shows]
  simp [List.flatMap, Batching.Batch.map, Function.comp_def]

theorem packs_of_mem
    (placed : Batching.Placed batchMsgs false (labels hash (start k) (fs.map Msg.ofFrame)) bs)
    {c : Call} {b : Batching.Batch Shipped} (hb : b ∈ bs) (shows : c.Shows b) :
    c.Packs b.items := by
  obtain ⟨some, bound⟩ := placed.bounds b hb
  refine shows.packs some bound fun s hs => ?_
  have mem : s ∈ ships (labels hash (start k) (fs.map Msg.ofFrame)) :=
    placed.ships ▸ List.mem_flatMap_of_mem hb hs
  exact mem_labels_ts mem

theorem packs_all
    (placed : Batching.Placed batchMsgs false (labels hash (start k) (fs.map Msg.ofFrame)) bs)
    (shows : List.Forall₂ Call.Shows calls bs) :
    List.Forall₂ Call.Packs calls (bs.map Batching.Batch.items) := by
  have inside : ∀ b ∈ bs, ∀ c : Call, c.Shows b → c.Packs b.items :=
    fun b hb c => packs_of_mem placed hb
  rw [List.forall₂_map_right_iff]
  clear placed
  induction shows with
  | nil => exact .nil
  | cons first _ ih =>
    exact .cons (inside _ List.mem_cons_self _ first)
      (ih fun b hb => inside b (List.mem_cons_of_mem _ hb))

theorem total_packs {batches : List (List Shipped)} (packs : List.Forall₂ Call.Packs calls batches) :
    total calls = batches.flatten.length := by
  induction packs with
  | nil => rfl
  | cons first _ ih => simp [total, first.count] at ih ⊢; omega

theorem Batches.nonempty {a₀ : BatchAssembler k} (run : Batches source hash p a₀ calls last q a) :
    ∀ c ∈ calls, c.batchMeta.nMsgs ≠ 0 := by
  induction run with
  | stop _ _ _ _ => simp
  | batch _ _ _ some _ ih =>
    intro c hc
    rcases List.mem_cons.mp hc with rfl | later
    · exact some
    · exact ih c later

theorem Batches.total (run : Batches source hash p (start k) calls last q a)
    (hands : p.Hands source fs) (bounds : p.Bounds) (long : ∀ f ∈ fs, LongEnough f) :
    BatchAssembler.total calls = (fs.filter fun f => (Msg.ofFrame f).ships).length := by
  obtain ⟨bs, _, placed, shows, _⟩ := run.placed hands bounds long
  rw [total_frames shows, ← (placed_frames placed).ships, ships_frameItem]

end BatchAssembler

/-- Batching loses nothing, duplicates nothing and reorders nothing. Whatever the
source, the buffer and the destinations, the calls of `fill` come to an end; their
slots are, in order, the messages of the types the kernels use; a batch is short
only in front of a market open or at the end; and no other message reaches the
order table. -/
theorem fill_batches_whole (hash : UInt64 → UInt64) (k : LogCapacity) {σ : Type}
    {source : ByteSource σ} {s : σ} {bufBytes : Nat} {p : ItchParser σ}
    (made : ItchParser.make s bufBytes = .ok p) {fs : List (List UInt8)}
    (hands : p.Hands source fs) (long : ∀ f ∈ fs, LongEnough f) :
    (∀ dsts : Nat → Ptr, ∃ calls last q a,
      Batches source hash p (start k) calls last q a ∧
      ∀ i c, (calls ++ [last])[i]? = some c → c.dst = dsts i) ∧
    (∀ calls last q a, Batches source hash p (start k) calls last q a →
      (∃ batches : List (List Shipped), List.Forall₂ Call.Packs calls batches ∧
        batches.flatten = ships (labels hash (start k) (fs.map Msg.ofFrame)) ∧
        batches.flatten.map Shipped.frame = fs.filter fun f => (Msg.ofFrame f).ships) ∧
      (∀ pre c post, calls = pre ++ c :: post → c.batchMeta.nMsgs < batchMsgs →
        Broken (behind (total (pre ++ [c])) (fs.map frameItem))) ∧
      last.batchMeta.nMsgs = 0 ∧ (∀ i, last.out i = last.dst i) ∧
      ships (behind (total calls) (fs.map frameItem)) = []) ∧
    ∀ (f : Filling k) (m : Msg), m.ships = false →
      (onMessage hash f m).2.asm.orders = f.asm.orders := by
  obtain ⟨_, rfl⟩ := ItchParser.make_ok made
  have bounds := ItchParser.start_bounds s bufBytes
  refine ⟨fun dsts => ?_, fun calls last q a run => ?_, fun f m unshipped => ?_⟩
  · obtain ⟨ms, r, yields, _⟩ := hands
    exact exists_batches yields bounds (start k) dsts
  · obtain ⟨bs, marked, placed, shows, shown, _⟩ := run.placed hands bounds long
    have placed' := placed_frames placed
    refine ⟨⟨bs.map Batching.Batch.items, packs_all placed shows, ?_, ?_⟩, ?_, shown.count,
      fun i => shown.slots.frame i (by simp), ?_⟩
    · rw [placed.ships, List.flatMap]
    · rw [← ships_frameItem, placed'.ships, List.flatMap, List.map_map, List.map_flatten,
        List.map_map]
      rfl
    · rintro pre c post rfl short
      obtain ⟨bpre, b, bpost, rfl, before, here⟩ := forall₂_split shows
      have lt : (b.map Shipped.frame).items.length < batchMsgs := by
        simpa [Batching.Batch.map, ← here.count] using short
      rw [total_frames (List.rel_append before (.cons here .nil)), List.map_append]
      rw [List.map_append, List.map_cons] at placed'
      exact placed'.broken_behind lt
    · rw [total_frames shows]
      exact placed'.behind_all
  · by_cases opens : m.opens = true
    · by_cases empty : f.batchMeta.nMsgs = 0
      · rw [onMessage_opens_empty opens empty]
      · rw [onMessage_opens_break opens empty]
    · rw [onMessage_passes (Bool.eq_false_iff.mpr opens) unshipped]
      simp only [absorb, unshipped, Bool.false_eq_true, if_false]
      split <;> rfl

/-- A market open and a delete, twice: two frames are shipped. -/
theorem fill_batches_whole_memory :
    let open_ : List UInt8 := [0, 12, 83, 0, 0, 0, 0, 0, 0, 0, 0, 0, 1, 79]
    let del : List UInt8 := [0, 19, 68, 0, 7, 0, 0, 0, 0, 0, 0, 0, 2, 0, 0, 0, 0, 0, 0, 0, 9]
    let bs := open_ ++ del ++ open_ ++ del
    ∃ calls last q a,
      Batches memSource OrderHash.mix (ItchParser.start bs 64) (start 4) calls last q a ∧
        total calls = 2 := by
  intro open_ del bs
  obtain ⟨ends, runs, _⟩ := fill_batches_whole OrderHash.mix 4
    (ItchParser.make_eq bs (Nat.le_refl 64))
    (ItchParser.hands_frames memSource_delivers bs (Nat.le_refl 64) (by decide)) (by decide)
  obtain ⟨calls, last, q, a, run, _⟩ := ends fun _ _ => 0
  obtain ⟨⟨batches, packs, _, whole⟩, _⟩ := runs calls last q a run
  refine ⟨calls, last, q, a, run, ?_⟩
  rw [total_packs packs, ← List.length_map Shipped.frame, whole]
  decide

/-- Market opens are placed between batches. In the frames behind the earlier
batches, `gapOf` is what comes before the batch's first message: the batch is
flagged exactly when the market opened there; and from that first message to its
last there is no market open. -/
theorem fill_opens_between (hash : UInt64 → UInt64) (k : LogCapacity) {σ : Type}
    {source : ByteSource σ} {s : σ} {bufBytes : Nat} {p : ItchParser σ}
    (made : ItchParser.make s bufBytes = .ok p) {fs : List (List UInt8)}
    (hands : p.Hands source fs) (exact_ : ∀ f ∈ fs, ExactLength f) :
    ∀ calls last q a, Batches source hash p (start k) calls last q a →
      ∀ pre c post, calls = pre ++ c :: post →
        let rest := behind (total pre) (fs.map frameItem)
        let own := upto c.batchMeta.nMsgs (rest.drop (gapOf rest).length)
        (c.batchMeta.resetVwap = true ↔ .mark ∈ gapOf rest) ∧ .mark ∉ own ∧
          ∃ items, c.Packs items ∧ items.map Shipped.frame = ships own := by
  obtain ⟨_, rfl⟩ := ItchParser.make_ok made
  rintro calls last q a run pre c post rfl
  obtain ⟨bs, marked, placed, shows, _⟩ := run.placed hands (ItchParser.start_bounds s bufBytes)
    fun f hf => (exact_ f hf).longEnough
  obtain ⟨bpre, b, bpost, rfl, before, here⟩ := forall₂_split shows
  have packs : c.Packs b.items := packs_of_mem placed (by simp) here
  have placed' := placed_frames placed
  rw [List.map_append, List.map_cons] at placed'
  obtain ⟨gap, seg, tail, split, quiet, flag, stretch, _⟩ := placed'.batch_at
  rw [← total_frames before] at split
  intro rest own
  have before_first : gapOf rest = gap := by
    rw [show rest = gap ++ seg ++ tail from split, Batching.gapOf_quiet quiet stretch]
  have count : c.batchMeta.nMsgs = (b.map Shipped.frame).items.length := by
    simpa [Batching.Batch.map] using here.count
  have own_eq : own = seg := by
    change upto c.batchMeta.nMsgs (rest.drop (gapOf rest).length) = seg
    rw [before_first, show rest = gap ++ (seg ++ tail) by rw [← List.append_assoc]; exact split,
      List.drop_left, count, stretch.upto_eq]
  rw [before_first, own_eq]
  exact ⟨here.flag ▸ flag, stretch.unbroken, b.items, packs, stretch.items.symm⟩

/-- A stream that begins with a market open and a delete: its first batch is flagged. -/
theorem fill_opens_between_memory :
    let bs : List UInt8 := [0, 12, 83, 0, 0, 0, 0, 0, 0, 0, 0, 0, 1, 79,
      0, 19, 68, 0, 7, 0, 0, 0, 0, 0, 0, 0, 2, 0, 0, 0, 0, 0, 0, 0, 9]
    ∃ c calls last q a,
      Batches memSource OrderHash.mix (ItchParser.start bs 64) (start 4) (c :: calls) last q a ∧
        c.batchMeta.resetVwap = true := by
  intro bs
  have hands : (ItchParser.start bs 64).Hands memSource (frames bs) :=
    ItchParser.hands_frames memSource_delivers bs (Nat.le_refl 64) (by decide)
  have bounds := ItchParser.start_bounds bs 64
  obtain ⟨ms, r, yields, _⟩ := id hands
  obtain ⟨calls, last, q, a, run, _⟩ :=
    exists_batches yields bounds (start 4) fun _ _ => 0
  have opens := fill_opens_between OrderHash.mix 4 (ItchParser.make_eq bs (Nat.le_refl 64))
    hands (by decide) calls last q a run
  have count : total calls = 1 := (run.total hands bounds (by decide)).trans (by decide)
  cases calls with
  | nil => simp [total] at count
  | cons c calls =>
    exact ⟨c, calls, last, q, a, run, (opens [] c calls rfl).1.mpr (by decide)⟩

end ItchAggregator
