import ItchAggregator.AssemblerStates
import ItchAggregator.OrderMap

/-! The reference order book: what the adds, cancels, deletes and replaces of a
stream mean, as a map from references to orders. While the stream keeps to the
load and to fresh references, the assembler's table is this book after every
message, and the side it stamps on a replace is that of the add at the root of the
chain of replaces. -/

namespace ItchAggregator

namespace OrderBook

def apply (book : OrderMap) : OrderEvent → OrderMap
  | .add ref o => Finmap.insert ref o book
  | .cancel ref canceled => (book.reduce ref canceled).2
  | .delete ref => Finmap.erase ref book
  | .replace orig new shares price =>
    match book.find orig with
    | some o => Finmap.insert new ⟨o.locate, o.side, shares, price⟩ (Finmap.erase orig book)
    | none => book

/-- The event keeps to the load and to fresh, nonzero references. -/
def Fits (limit : Nat) (book : OrderMap) : OrderEvent → Prop
  | .add ref _ => ref ≠ 0 ∧ ref ∉ book ∧ book.keys.card < limit
  | .cancel ref _ => ref ≠ 0
  | .delete ref => ref ≠ 0
  | .replace orig new _ _ => orig ≠ 0 ∧ new ≠ 0 ∧ new ∉ book ∧ book.keys.card < limit

instance (limit : Nat) (book : OrderMap) : DecidablePred (Fits limit book) := fun e => by
  cases e <;> unfold Fits <;> infer_instance

/-- The events of a history, the most recent message first. -/
def after : List (List UInt8) → OrderMap
  | [] => ∅
  | f :: older =>
    match orderEvent? (ptrOf f) with
    | some e => apply (after older) e
    | none => after older

/-- Every event of the stream fits the book it meets; `older` is what came before,
the most recent message first. -/
def Orderly (limit : Nat) : (older : List (List UInt8)) → List (List UInt8) → Prop
  | _, [] => True
  | older, f :: fs =>
    (∀ e ∈ orderEvent? (ptrOf f), Fits limit (after older) e) ∧ Orderly limit (f :: older) fs

instance Orderly.decidable (limit : Nat) :
    (older fs : List (List UInt8)) → Decidable (Orderly limit older fs)
  | _, [] => .isTrue trivial
  | older, f :: fs =>
    have := Orderly.decidable limit (f :: older) fs
    inferInstanceAs (Decidable (_ ∧ _))

/-- The side of the add at the root of the chain of replaces that made `ref`. -/
def rootSide : (older : List (List UInt8)) → UInt64 → UInt8
  | [], _ => 0
  | f :: older, ref =>
    match orderEvent? (ptrOf f) with
    | some (.add r o) => if r = ref then o.side else rootSide older ref
    | some (.replace orig new _ _) =>
      if new = ref ∧ orig ∈ after older then rootSide older orig else rootSide older ref
    | _ => rootSide older ref

/-- The tag of a message's slot: for a replace, the root side of its original if
the book has it. -/
def tag (older : List (List UInt8)) (f : List UInt8) : UInt8 :=
  match orderEvent? (ptrOf f) with
  | some (.replace orig _ _ _) => if orig ∈ after older then rootSide older orig else 0
  | _ => 0

def unknownCancels : (older : List (List UInt8)) → Nat
  | [] => 0
  | f :: older =>
    match orderEvent? (ptrOf f) with
    | some (.cancel ref _) | some (.delete ref) =>
      unknownCancels older + if ref ∈ after older then 0 else 1
    | _ => unknownCancels older

def unresolvedReplaces : (older : List (List UInt8)) → Nat
  | [] => 0
  | f :: older =>
    match orderEvent? (ptrOf f) with
    | some (.replace orig _ _ _) =>
      unresolvedReplaces older + if orig ∈ after older then 0 else 1
    | _ => unresolvedReplaces older

def stamped : (older : List (List UInt8)) → List (List UInt8) → List Shipped
  | _, [] => []
  | older, f :: fs =>
    let later := stamped (f :: older) fs
    if (Msg.ofFrame f).ships then (Msg.ofFrame f).shipped (tag older f) :: later else later

/-! Where an order of the book comes from. -/

section Origin

variable {book : OrderMap} {x : UInt64} {o : Order}

theorem find_cancel {ref : UInt64} {canceled : UInt32}
    (found : (apply book (.cancel ref canceled)).find x = some o) :
    ∃ p, book.find x = some p ∧ o.side = p.side := by
  simp only [apply, OrderMap.reduce] at found
  cases live : book.find ref with
  | none =>
    rw [live] at found
    exact ⟨o, found, rfl⟩
  | some p =>
    simp only [live] at found
    by_cases hx : x = ref
    · subst hx
      split at found
      · rw [OrderMap.find_erase_ite, if_pos rfl] at found
        cases found
      · rw [OrderMap.find_insert_ite, if_pos rfl, Option.some.injEq] at found
        exact ⟨p, live, by rw [← found]⟩
    · split at found
      · rw [OrderMap.find_erase_ite, if_neg hx] at found
        exact ⟨o, found, rfl⟩
      · rw [OrderMap.find_insert_ite, if_neg hx] at found
        exact ⟨o, found, rfl⟩

theorem find_delete {ref : UInt64} (found : (apply book (.delete ref)).find x = some o) :
    book.find x = some o := by
  simp only [apply, OrderMap.find_erase_ite] at found
  split at found
  · cases found
  · exact found

theorem find_replace {orig new : UInt64} {shares price : UInt32}
    (found : (apply book (.replace orig new shares price)).find x = some o) :
    (new = x ∧ orig ∈ book ∧ ∃ p, book.find orig = some p ∧ o.side = p.side) ∨
      (¬(new = x ∧ orig ∈ book) ∧ book.find x = some o) := by
  simp only [apply] at found
  cases live : book.find orig with
  | none =>
    have absent : orig ∉ book := by
      rw [OrderMap.mem_iff_find, live, not_not]
    rw [live] at found
    exact Or.inr ⟨fun both => absent both.2, found⟩
  | some p =>
    have present : orig ∈ book := OrderMap.mem_iff_find.mpr (by simp [live])
    simp only [live, OrderMap.find_insert_ite, OrderMap.find_erase_ite] at found
    by_cases hx : x = new
    · rw [if_pos hx, Option.some.injEq] at found
      exact Or.inl ⟨hx.symm, present, p, rfl, by rw [← found]⟩
    · rw [if_neg hx] at found
      refine Or.inr ⟨fun both => hx both.1.symm, ?_⟩
      split at found
      · cases found
      · exact found

end Origin

theorem find_side {older : List (List UInt8)} {ref : UInt64} {o : Order}
    (found : (after older).find ref = some o) : o.side = rootSide older ref := by
  induction older generalizing ref o with
  | nil => simp [after, OrderMap.find] at found
  | cons f older ih =>
    unfold after at found
    unfold rootSide
    cases event : orderEvent? (ptrOf f) with
    | none =>
      rw [event] at found
      exact ih found
    | some e =>
      rw [event] at found
      cases e with
      | add r p =>
        simp only [apply, OrderMap.find_insert_ite] at found ⊢
        by_cases hr : r = ref
        · rw [if_pos hr.symm, Option.some.injEq] at found
          rw [if_pos hr, found]
        · rw [if_neg (Ne.symm hr)] at found
          rw [if_neg hr]
          exact ih found
      | cancel r canceled =>
        obtain ⟨p, live, side⟩ := find_cancel found
        exact side.trans (ih live)
      | delete r => exact ih (find_delete found)
      | replace orig new shares price =>
        dsimp only
        rcases find_replace found with ⟨made, present, p, live, side⟩ | ⟨kept, live⟩
        · rw [if_pos ⟨made, present⟩]
          exact side.trans (ih live)
        · rw [if_neg kept]
          exact ih live

end OrderBook

namespace BatchAssembler

open OrderHash (Refines)
open OrderBook (Fits apply)

variable {k : LogCapacity} {hash : UInt64 → UInt64} {a : BatchAssembler k} {book : OrderMap}

structure Tracks (hash : UInt64 → UInt64) (a : BatchAssembler k) (book : OrderMap) (e : OrderEvent)
    (t : UInt8 × BatchAssembler k) : Prop where
  orders : Refines hash t.2.orders (apply book e)
  tag : t.1 =
    match e with
    | .replace orig _ _ _ => ((book.find orig).map Order.side).getD 0
    | _ => 0
  unknown : t.2.unknownCancels = a.unknownCancels +
    match e with
    | .cancel ref _ | .delete ref => if ref ∈ book then 0 else 1
    | _ => 0
  unresolved : t.2.unresolvedReplaces = a.unresolvedReplaces +
    match e with
    | .replace orig _ _ _ => if orig ∈ book then 0 else 1
    | _ => 0

theorem insert_fits {ref : UInt64} (o : Order) (fresh : ref ∉ book)
    (room : book.keys.card < capacity k / 2) :
    (book.insert (capacity k / 2) ref o).2 = Finmap.insert ref o book := by
  rw [OrderMap.insert, if_pos ⟨room, fresh⟩]

theorem resolve_add (r : Refines hash a.orders book) {ref : UInt64} {o : Order}
    (fits : Fits (capacity k / 2) book (.add ref o)) :
    Tracks hash a book (.add ref o) (resolveEvent hash a (.add ref o)) where
  orders := by
    have inserted := (r.insert fits.1 o).2
    rw [insert_fits o fits.2.1 fits.2.2] at inserted
    exact inserted
  tag := rfl
  unknown := rfl
  unresolved := rfl

theorem resolve_cancel (r : Refines hash a.orders book) (ref : UInt64) (canceled : UInt32) :
    Tracks hash a book (.cancel ref canceled) (resolveEvent hash a (.cancel ref canceled)) where
  orders := (r.reduce ref canceled).2
  tag := rfl
  unknown := by
    have answer := (r.reduce ref canceled).1
    simp only [resolveEvent, answer, OrderMap.reduce]
    by_cases live : ref ∈ book
    · obtain ⟨o, found⟩ := Option.ne_none_iff_exists'.mp (OrderMap.mem_iff_find.mp live)
      simp [found, live]
    · have absent : book.find ref = none := by
        rwa [OrderMap.mem_iff_find, not_not] at live
      simp [absent, live]
  unresolved := rfl

theorem resolve_delete (r : Refines hash a.orders book) (ref : UInt64) :
    Tracks hash a book (.delete ref) (resolveEvent hash a (.delete ref)) where
  orders := (r.erase ref).2
  tag := rfl
  unknown := by
    have answer := (r.erase ref).1
    simp only [resolveEvent, answer, OrderMap.erase]
    by_cases live : ref ∈ book <;> simp [live]
  unresolved := rfl

theorem erase_insert_comm {orig new : UInt64} (ne : new ≠ orig) (o : Order) :
    Finmap.erase orig (Finmap.insert new o book) = Finmap.insert new o (Finmap.erase orig book) := by
  apply Finmap.ext_lookup
  intro x
  have left := OrderMap.find_erase_ite (Finmap.insert new o book) orig x
  have right := OrderMap.find_insert_ite (Finmap.erase orig book) new o x
  rw [OrderMap.find_insert_ite] at left
  rw [OrderMap.find_erase_ite] at right
  change OrderMap.find _ x = OrderMap.find _ x
  rw [left, right]
  by_cases hx : x = orig
  · rw [if_pos hx, if_pos hx, if_neg (fun h => ne (h.symm.trans hx))]
  · rw [if_neg hx, if_neg hx]

theorem resolve_replace (r : Refines hash a.orders book) {orig new : UInt64} {shares price : UInt32}
    (fits : Fits (capacity k / 2) book (.replace orig new shares price)) :
    Tracks hash a book (.replace orig new shares price)
      (resolveEvent hash a (.replace orig new shares price)) := by
  obtain ⟨_, nonzero, fresh, room⟩ := fits
  have finds := r.finds orig
  cases live : book.find orig with
  | none =>
    rw [live] at finds
    have absent : orig ∉ book := by rw [OrderMap.mem_iff_find, live, not_not]
    refine ⟨?_, ?_, ?_, ?_⟩ <;> simp only [resolveEvent, finds, Option.map_none, apply, live]
    · exact r
    · rfl
    · rfl
    · rw [if_neg absent]
  | some o =>
    rw [live] at finds
    have present : orig ∈ book := OrderMap.mem_iff_find.mpr (by simp [live])
    have ne : new ≠ orig := by
      rintro rfl
      exact fresh present
    have inserted := (r.insert nonzero ⟨o.locate, o.side, shares, price⟩).2
    rw [insert_fits _ fresh room] at inserted
    have erased := (inserted.erase orig).2
    rw [OrderMap.erase, erase_insert_comm ne] at erased
    refine ⟨?_, ?_, ?_, ?_⟩ <;> simp only [resolveEvent, finds, Option.map_some, apply, live]
    · exact erased
    · rfl
    · rfl
    · rw [if_pos present, Nat.add_zero]

theorem resolve_tracks (r : Refines hash a.orders book) {e : OrderEvent}
    (fits : Fits (capacity k / 2) book e) : Tracks hash a book e (resolveEvent hash a e) := by
  cases e with
  | add ref o => exact resolve_add r fits
  | cancel ref canceled => exact resolve_cancel r ref canceled
  | delete ref => exact resolve_delete r ref
  | replace orig new shares price => exact resolve_replace r fits

structure Follows (hash : UInt64 → UInt64) (a : BatchAssembler k) (older : List (List UInt8)) :
    Prop where
  orders : Refines hash a.orders (OrderBook.after older)
  unknown : a.unknownCancels = OrderBook.unknownCancels older
  unresolved : a.unresolvedReplaces = OrderBook.unresolvedReplaces older

theorem start_follows (hash : UInt64 → UInt64) (k : LogCapacity) : Follows hash (start k) [] :=
  ⟨OrderHash.empty_refines hash k, rfl, rfl⟩

variable {older : List (List UInt8)} {f : List UInt8}

theorem ships_of_event (exact_ : ExactLength f) {e : OrderEvent}
    (event : orderEvent? (ptrOf f) = some e) : (Msg.ofFrame f).ships = true := by
  have type : f.headD 0 = ptrOf f Ofs.type := by cases f <;> rfl
  unfold ExactLength at exact_
  rw [type] at exact_
  unfold orderEvent? at event
  rw [Msg.ships_iff]
  cases ht : msgType? (ptrOf f Ofs.type) with
  | none => simp [ht] at event
  | some t =>
    have code : ptrOf f Ofs.type = t.code := msgType?_eq_some.mp ht
    change gpuRelevant (ptrOf f Ofs.type) = true ∧ f.length ≤ slotBytes
    rw [code] at exact_ ⊢
    rw [ht] at event
    cases t with
    | systemEvent | stockDir | trade | tradeCross => simp at event
    | addOrder | addOrderMpid | orderCancel | orderDelete | orderReplace =>
      exact ⟨by decide, (exact_ (by decide)).trans_le (by decide)⟩

theorem absorb_no_event (event : orderEvent? (ptrOf f) = none) :
    (BatchAssembler.absorb hash a (.ofFrame f)).orders = a.orders ∧
      (BatchAssembler.absorb hash a (.ofFrame f)).unknownCancels = a.unknownCancels ∧
      (BatchAssembler.absorb hash a (.ofFrame f)).unresolvedReplaces = a.unresolvedReplaces := by
  have resolved : a.resolve hash (ptrOf f) = (0, a) := by rw [resolve_eq, event]
  unfold BatchAssembler.absorb
  split
  · rw [show (Msg.ofFrame f).data = ptrOf f from rfl, resolved]
    exact ⟨rfl, rfl, rfl⟩
  · split <;> exact ⟨rfl, rfl, rfl⟩

theorem tag_eq (older : List (List UInt8)) (orig : UInt64) :
    (((OrderBook.after older).find orig).map Order.side).getD 0 =
      if orig ∈ OrderBook.after older then OrderBook.rootSide older orig else 0 := by
  cases live : (OrderBook.after older).find orig with
  | none =>
    have absent : orig ∉ OrderBook.after older := by rw [OrderMap.mem_iff_find, live, not_not]
    rw [if_neg absent]
    rfl
  | some o =>
    have present : orig ∈ OrderBook.after older := OrderMap.mem_iff_find.mpr (by simp [live])
    rw [if_pos present]
    exact OrderBook.find_side live

/-- One message more: the table stays the book, and the tag is the book's. -/
theorem Follows.absorb (follows : Follows hash a older) (exact_ : ExactLength f)
    (fits : ∀ e ∈ orderEvent? (ptrOf f), Fits (capacity k / 2) (OrderBook.after older) e) :
    Follows hash (BatchAssembler.absorb hash a (.ofFrame f)) (f :: older) ∧
      (a.resolve hash (ptrOf f)).1 = OrderBook.tag older f := by
  cases event : orderEvent? (ptrOf f) with
  | none =>
    have same := @absorb_no_event _ hash a _ event
    refine ⟨⟨?_, ?_, ?_⟩, ?_⟩
    · rw [same.1, OrderBook.after, event]
      exact follows.orders
    · rw [same.2.1, OrderBook.unknownCancels, event]
      exact follows.unknown
    · rw [same.2.2, OrderBook.unresolvedReplaces, event]
      exact follows.unresolved
    · rw [resolve_eq, event, OrderBook.tag, event]
  | some e =>
    have tracks := resolve_tracks follows.orders (fits e event)
    have absorbed : BatchAssembler.absorb hash a (.ofFrame f) = (resolveEvent hash a e).2 := by
      rw [BatchAssembler.absorb, if_pos (ships_of_event exact_ event),
        show (Msg.ofFrame f).data = ptrOf f from rfl, resolve_eq, event]
    rw [absorbed]
    refine ⟨⟨?_, ?_, ?_⟩, ?_⟩
    · rw [OrderBook.after, event]
      exact tracks.orders
    · rw [tracks.unknown, follows.unknown, OrderBook.unknownCancels, event]
      cases e <;> rfl
    · rw [tracks.unresolved, follows.unresolved, OrderBook.unresolvedReplaces, event]
      cases e <;> rfl
    · rw [resolve_eq, event, OrderBook.tag, event, tracks.tag]
      cases e with
      | replace orig _ _ _ => exact tag_eq older orig
      | _ => rfl

/-- A whole stretch of messages: the table follows the book, and what is shipped
carries the book's tags. -/
theorem Follows.absorbAll {fs : List (List UInt8)} (follows : Follows hash a older)
    (exact_ : ∀ f ∈ fs, ExactLength f) (orderly : OrderBook.Orderly (capacity k / 2) older fs) :
    Follows hash (BatchAssembler.absorbAll hash a (fs.map Msg.ofFrame)) (fs.reverse ++ older) ∧
      Batching.ships (labels hash a (fs.map Msg.ofFrame)) = OrderBook.stamped older fs := by
  induction fs generalizing a older with
  | nil => exact ⟨follows, rfl⟩
  | cons f fs ih =>
    obtain ⟨fits, later⟩ := orderly
    obtain ⟨next, tag⟩ := follows.absorb (exact_ f List.mem_cons_self) fits
    obtain ⟨final, stamps⟩ := ih next (fun g hg => exact_ g (List.mem_cons_of_mem f hg)) later
    refine ⟨by simpa using final, ?_⟩
    rw [List.map_cons, labels, OrderBook.stamped]
    by_cases ships : (Msg.ofFrame f).ships = true
    · rw [label_ships ships, Batching.ships_ship, stamps]
      simp only [ships, if_true]
      rw [show (Msg.ofFrame f).data = ptrOf f from rfl, tag]
    · have unshipped : (Msg.ofFrame f).ships = false := Bool.eq_false_iff.mpr ships
      simp only [unshipped, Bool.false_eq_true, if_false, ← stamps]
      by_cases opens : (Msg.ofFrame f).opens = true
      · rw [label_opens opens, Batching.ships_mark]
      · rw [label_passes (Bool.eq_false_iff.mpr opens) unshipped, Batching.ships_skip]

end BatchAssembler

theorem OrderBook.Orderly.left {limit : Nat} {older l r : List (List UInt8)}
    (orderly : OrderBook.Orderly limit older (l ++ r)) : OrderBook.Orderly limit older l := by
  induction l generalizing older with
  | nil => trivial
  | cons f l ih => exact ⟨orderly.1, ih orderly.2⟩

open BatchAssembler in
/-- The assembler's order tracking simulates the reference book. In every state it
passes through, after any message of any call, the table shows the book of the
messages seen, the counters are the book's, and the slots of the running call
carry the book's tags. -/
theorem fill_follows_book (hash : UInt64 → UInt64) (k : LogCapacity) {σ : Type}
    {source : ByteSource σ} {s : σ} {bufBytes : Nat} {p : ItchParser σ}
    (made : ItchParser.make s bufBytes = .ok p) {fs : List (List UInt8)}
    (hands : p.Hands source fs) (exact_ : ∀ f ∈ fs, ExactLength f)
    (orderly : OrderBook.Orderly (capacity k / 2) [] fs) :
    ∀ seen q f stop, Passes source hash p (start k) seen q f stop →
      let frames := seen.map Msg.bytes
      frames <+: fs ∧
      (∀ ref, f.asm.orders.find hash ref =
        ((OrderBook.after frames.reverse).find ref).map (Order.info ref)) ∧
      f.asm.unknownCancels = OrderBook.unknownCancels frames.reverse ∧
      f.asm.unresolvedReplaces = OrderBook.unresolvedReplaces frames.reverse ∧
      ∃ earlier items, OrderBook.stamped [] frames = earlier ++ items ∧
        items.length = f.batchMeta.nMsgs ∧
        bytes f.dst (f.batchMeta.nMsgs * slotBytes) = items.flatMap Shipped.slot ∧
        ∀ i (u : Shipped), items[i]? = some u → u.type = MsgType.orderReplace.code →
          f.dst (i * slotBytes + slotSideTag) = u.sideTag := by
  obtain ⟨_, rfl⟩ := ItchParser.make_ok made
  obtain ⟨ms, r, yields, rfl⟩ := hands
  intro seen q f stop passes frames
  have kept := passes.kept yields (ItchParser.start_bounds s bufBytes)
  obtain ⟨rest, split, _⟩ := kept.ahead
  have begins : frames ++ rest.map Msg.bytes = ms.map Msg.bytes := by
    rw [split, List.map_append]
  have exact_seen : ∀ f ∈ frames, ExactLength f := fun f hf =>
    exact_ f (begins ▸ List.mem_append_left _ hf)
  have positive : ∀ m ∈ seen, 0 < m.len := fun m hm =>
    yields.positive m (split ▸ List.mem_append_left _ hm)
  have long : ∀ m ∈ seen, LongEnough m.bytes := fun m hm =>
    (exact_seen _ (List.mem_map_of_mem hm)).longEnough
  obtain ⟨follows, stamps⟩ := (start_follows hash k).absorbAll exact_seen
    (OrderBook.Orderly.left (begins ▸ orderly))
  have state : absorbAll hash (start k) (frames.map Msg.ofFrame) = absorbAll hash (start k) seen := by
    rw [List.map_map]
    exact absorbAll_frames positive long
  have stream : labels hash (start k) (frames.map Msg.ofFrame) = labels hash (start k) seen := by
    rw [List.map_map]
    exact labels_frames positive long
  rw [state, List.append_nil] at follows
  obtain ⟨orders, _, unresolved, unknown⟩ :
      f.asm.orders = (absorbAll hash (start k) seen).orders ∧
      f.asm.symbols = (absorbAll hash (start k) seen).symbols ∧
      f.asm.unresolvedReplaces = (absorbAll hash (start k) seen).unresolvedReplaces ∧
      f.asm.unknownCancels = (absorbAll hash (start k) seen).unknownCancels := by
    simpa [withPending] using kept.asm
  obtain ⟨before, b, earlier, holds, shipped⟩ := kept.slots
  have count : f.batchMeta.nMsgs = b.items.length := holds.count
  refine ⟨⟨_, begins⟩, fun ref => ?_, unknown.trans follows.unknown,
    unresolved.trans follows.unresolved, earlier, b.items, ?_, count.symm, ?_, ?_⟩
  · rw [orders]
    exact follows.orders.finds ref
  · rw [← stamps, stream, shipped]
  · rw [count]
    exact holds.slots.packed
  · intro i u here replace
    have shippable : ∀ v ∈ b.items, ∃ m ∈ seen, m.ships = true ∧ ∃ sideTag, v = m.shipped sideTag :=
      fun v hv => mem_ships_labels (shipped ▸ List.mem_append_right earlier hv)
    have whole : ∀ v ∈ b.items, v.slot.length = slotBytes := by
      intro v hv
      obtain ⟨m, _, ships, sideTag, rfl⟩ := shippable v hv
      exact length_slot sideTag ships
    have fits : u.frame.length ≤ slotBytes := by
      obtain ⟨m, _, ships, sideTag, rfl⟩ := shippable u (List.mem_of_getElem? here)
      exact (length_bytes m.data m.len).trans_le (Msg.ships_iff.mp ships).2
    have slot := slot_at holds.slots.packed whole here
    have byte := Shipped.slot_tag fits replace
    rw [← slot, getD_bytes _ (by decide)] at byte
    exact byte

open BatchAssembler in
/-- An add and its replace: the replacement is live with the side of the add. -/
theorem fill_follows_book_replace :
    let add : List UInt8 := [0, 36, 65, 0, 7, 0, 0, 0, 0, 0, 0, 0, 1, 0, 0, 0, 0, 0, 0, 0, 1, 66,
      0, 0, 0, 50, 65, 65, 80, 76, 32, 32, 32, 32, 0, 18, 214, 128]
    let replace : List UInt8 := [0, 35, 85, 0, 7, 0, 0, 0, 0, 0, 0, 0, 2, 0, 0, 0, 0, 0, 0, 0, 1,
      0, 0, 0, 0, 0, 0, 0, 2, 0, 0, 0, 80, 0, 18, 228, 144]
    ∃ seen q f stop,
      Passes memSource OrderHash.mix (ItchParser.start (add ++ replace) 64) (start 4) seen q f stop ∧
        f.asm.orders.find OrderHash.mix 1 = none ∧
        f.asm.orders.find OrderHash.mix 2 = some ⟨2, 80, 1238160, 7, 66, 0⟩ := by
  intro add replace
  have hands : (ItchParser.start (add ++ replace) 64).Hands memSource (frames (add ++ replace)) :=
    ItchParser.hands_frames memSource_delivers (add ++ replace) (Nat.le_refl 64) (by decide)
  obtain ⟨ms, r, yields, whole⟩ := id hands
  obtain ⟨q, f, stop, passes⟩ := exists_passes yields
    (ItchParser.start_bounds (add ++ replace) 64) (start 4) (Nat.le_refl ms.length)
  rw [List.take_length] at passes
  obtain ⟨_, finds, _⟩ := fill_follows_book OrderHash.mix 4
    (ItchParser.make_eq (add ++ replace) (Nat.le_refl 64)) hands (by decide)
    (by decide) ms q f stop passes
  rw [whole] at finds
  refine ⟨ms, q, f, stop, passes, (finds 1).trans ?_, (finds 2).trans ?_⟩ <;> decide +kernel

end ItchAggregator
