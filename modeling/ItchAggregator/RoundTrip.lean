import ItchAggregator.BatchStream
import ItchAggregator.KernelRuns
import ItchAggregator.StreamBuilder

/-! Encode, frame, parse, assemble and decode. What the builder appends for a call is
parsed as one message, and the kernel decodes from its slot what the call was
given. -/

namespace ItchAggregator

open BatchAssembler PackedRecord

def ticker (stock : List UInt8) : List UInt8 :=
  stock.take 8 ++ List.replicate (8 - stock.length) ' '.toUInt8

@[simp] theorem length_ticker (stock : List UInt8) : (ticker stock).length = 8 := by
  simp [ticker]
  omega

theorem memcpy_piece (m : Ptr) (a : Nat) (l : List UInt8) :
    memcpy m a (ptrOf l) l.length = (Piece.mk a l).store m := by
  funext i
  by_cases inside : a ≤ i ∧ i < a + l.length
  · obtain ⟨d, rfl⟩ := Nat.exists_eq_add_of_le inside.1
    have bound : d < l.length := by omega
    rw [memcpy_inside m _ bound, Piece.store_inside (f := ⟨a, l⟩) (List.getElem?_eq_getElem bound)]
    simp [ptrOf, List.getD, bound]
  · rw [memcpy_outside m _ (by omega), Piece.store_outside (f := ⟨a, l⟩) (by simp only; omega)]

theorem ptrOf_ticker (stock : List UInt8) {i : Nat} (inside : i < 8) :
    ptrOf (ticker stock) i = if i < stock.length then ptrOf stock i else ' '.toUInt8 := by
  simp only [ptrOf, ticker, List.getD_eq_getElem?_getD]
  by_cases own : i < stock.length
  · rw [if_pos own, List.getElem?_append_left (by simp; omega), List.getElem?_take_of_lt inside]
  · have blank : i - (stock.take 8).length < 8 - stock.length := by simp; omega
    rw [if_neg own, List.getElem?_append_right (by simp; omega), List.getElem?_replicate_of_lt blank]
    rfl

theorem putStock_piece (m : Ptr) (a : Nat) (stock : List UInt8) :
    StreamBuilder.putStock m a stock = (Piece.mk a (ticker stock)).store m := by
  rw [← memcpy_piece, length_ticker]
  funext i
  simp only [StreamBuilder.putStock, memset, memcpy]
  by_cases inside : a ≤ i ∧ i < a + 8
  · rw [if_pos inside, if_pos inside, ptrOf_ticker stock (by omega)]
    by_cases own : i - a < stock.length
    · rw [if_pos own, if_pos (by split <;> omega)]
    · rw [if_neg own, if_neg (by split <;> omega)]
  · rw [if_neg inside, if_neg (by split <;> omega), if_neg inside]

namespace BuilderCall

def type : BuilderCall → MsgType
  | addOrder _ _ _ _ _ _ _ mpid => if mpid then .addOrderMpid else .addOrder
  | cancel .. => .orderCancel
  | del .. => .orderDelete
  | replace .. => .orderReplace
  | trade .. => .trade
  | cross .. => .tradeCross
  | sysEvent .. => .systemEvent
  | stockDir .. => .stockDir

def locate : BuilderCall → UInt16
  | addOrder locate .. | cancel locate .. | del locate .. | replace locate .. | trade locate ..
  | cross locate .. | stockDir locate .. => locate
  | sysEvent .. => 0

def ts : BuilderCall → UInt64
  | addOrder _ ts .. | cancel _ ts .. | del _ ts .. | replace _ ts .. | trade _ ts ..
  | cross _ ts .. | stockDir _ ts _ | sysEvent ts _ => ts

/-- What the kernel is to return for the call, with the tag stamped for a replace. -/
def decoded (c : BuilderCall) (sideTag : UInt8) : Decoded where
  type := c.type.code
  side :=
    match c with
    | addOrder _ _ _ side .. | trade _ _ _ side .. => side
    | replace .. => sideTag
    | _ => 0
  locate := c.locate
  price :=
    match c with
    | addOrder _ _ _ _ _ _ price _ | replace _ _ _ _ _ price | trade _ _ _ _ _ _ price _
    | cross _ _ _ _ price _ _ => price
    | _ => 0
  qty :=
    match c with
    | addOrder _ _ _ _ shares .. | trade _ _ _ _ shares .. | replace _ _ _ _ shares _ =>
      shares.toUInt64
    | cancel _ _ _ canceled => canceled.toUInt64
    | cross _ _ shares64 .. => shares64
    | _ => 0
  ts := c.ts

def pieces (c : BuilderCall) : List (Piece UInt8) :=
  [⟨Ofs.type, [c.type.code]⟩, ⟨Ofs.locate, be16 c.locate⟩, ⟨Ofs.tracking, be16 0⟩,
    ⟨Ofs.timestamp, be48 c.ts⟩] ++
  match c with
  | addOrder _ _ ref side shares stock price mpid =>
    [⟨Ofs.addRef, be64 ref⟩, ⟨Ofs.addSide, [side]⟩, ⟨Ofs.addShares, be32 shares⟩,
      ⟨Ofs.addStock, ticker stock⟩, ⟨Ofs.addPrice, be32 price⟩] ++
      if mpid then [⟨36, StreamBuilder.testMpid⟩] else []
  | cancel _ _ ref canceled => [⟨Ofs.cancelRef, be64 ref⟩, ⟨Ofs.cancelCanceled, be32 canceled⟩]
  | del _ _ ref => [⟨Ofs.delRef, be64 ref⟩]
  | replace _ _ orig nref shares price =>
    [⟨Ofs.replaceOrigRef, be64 orig⟩, ⟨Ofs.replaceNewRef, be64 nref⟩,
      ⟨Ofs.replaceShares, be32 shares⟩, ⟨Ofs.replacePrice, be32 price⟩]
  | trade _ _ ref side shares stock price matchNo =>
    [⟨Ofs.tradeRef, be64 ref⟩, ⟨Ofs.tradeSide, [side]⟩, ⟨Ofs.tradeShares, be32 shares⟩,
      ⟨Ofs.tradeStock, ticker stock⟩, ⟨Ofs.tradePrice, be32 price⟩, ⟨Ofs.tradeMatch, be64 matchNo⟩]
  | cross _ _ shares64 stock price matchNo crossType =>
    [⟨Ofs.crossShares64, be64 shares64⟩, ⟨Ofs.crossStock, ticker stock⟩,
      ⟨Ofs.crossPrice, be32 price⟩, ⟨Ofs.crossMatch, be64 matchNo⟩, ⟨Ofs.crossType, [crossType]⟩]
  | sysEvent _ code => [⟨Ofs.sysEvent, [code]⟩]
  | stockDir _ _ stock => [⟨Ofs.dirStock, ticker stock⟩]

def message (c : BuilderCall) : Ptr := storeAll c.pieces StreamBuilder.zeros

def size (c : BuilderCall) : Nat := msgLength c.type.code

def payload (c : BuilderCall) : List UInt8 := bytes c.message c.size

theorem pieces_apart (c : BuilderCall) : c.pieces.Pairwise Piece.Apart := by
  cases c with
  | addOrder locate ts ref side shares stock price mpid =>
    cases mpid <;> simp [pieces, Piece.Apart, StreamBuilder.testMpid]
  | _ => simp [pieces, Piece.Apart]

theorem pieces_inside (c : BuilderCall) : ∀ f ∈ c.pieces, f.offset + f.cells.length ≤ c.size := by
  cases c with
  | addOrder locate ts ref side shares stock price mpid =>
    cases mpid <;> simp [pieces, StreamBuilder.testMpid, size, type, msgLength]
  | _ => simp [pieces, size, type, msgLength]

theorem call_frame (b : StreamBuilder) (c : BuilderCall) :
    b.call c = b.frame c.message (UInt16.ofNat c.size) := by
  have mpid_piece : ∀ m : Ptr, memcpy m 36 (ptrOf StreamBuilder.testMpid) 4 =
      (Piece.mk 36 StreamBuilder.testMpid).store m := fun m => memcpy_piece m 36 StreamBuilder.testMpid
  cases c with
  | addOrder locate ts ref side shares stock price mpid =>
    cases mpid <;>
      simp only [StreamBuilder.call, StreamBuilder.addOrder, StreamBuilder.header, store_field,
        putBe16_field, putBe32_field, putBe48_field, putBe64_field, putStock_piece, mpid_piece] <;>
      rfl
  | _ =>
    simp only [StreamBuilder.call, StreamBuilder.cancel, StreamBuilder.del, StreamBuilder.replace,
      StreamBuilder.trade, StreamBuilder.cross, StreamBuilder.sysEvent, StreamBuilder.stockDir,
      StreamBuilder.header, store_field, putBe16_field, putBe32_field, putBe48_field,
      putBe64_field, putStock_piece]
    rfl

theorem shown {q : Ptr} {c : BuilderCall} (same : ∀ i < c.size, q i = c.message i) :
    ∀ f ∈ c.pieces, Piece.Shown q f := by
  intro f mem
  have inside := c.pieces_inside f mem
  refine (shown_storeAll c.pieces_apart StreamBuilder.zeros f mem).congr fun i hi => ?_
  exact same _ (by omega)

/-- From a slot that shows the payload, and the tag of a replace, the call's fields are
decoded. -/
theorem decodeSlot_eq {q : Ptr} {c : BuilderCall} (small : c.ts.toNat < 2 ^ 48)
    (same : ∀ i < c.size, q i = c.message i) {sideTag : UInt8}
    (tag : c.type = .orderReplace → q slotSideTag = sideTag) :
    decodeSlot q = c.decoded sideTag := by
  have shown := shown same
  have type : q Ofs.type = c.type.code := byte_shown (shown _ (by simp [pieces]))
  have locate : loadBe16 (shift q Ofs.locate) = c.locate :=
    loadBe16_shown (shown _ (by simp [pieces]))
  have ts : loadBe48 (shift q Ofs.timestamp) = c.ts :=
    loadBe48_shown (shown _ (by simp [pieces])) small
  have switch : decodeSwitch q =
      ((c.decoded sideTag).side, (c.decoded sideTag).price, (c.decoded sideTag).qty) := by
    rw [decodeSwitch, type, msgType?_code]
    cases c with
    | addOrder locate ts ref side shares stock price mpid =>
      have own : q Ofs.addSide = side := byte_shown (shown _ (by simp [pieces]))
      have qty : loadBe32 (shift q Ofs.addShares) = shares :=
        loadBe32_shown (shown _ (by simp [pieces]))
      have cost : loadBe32 (shift q Ofs.addPrice) = price :=
        loadBe32_shown (shown _ (by simp [pieces]))
      cases mpid <;> simp only [BuilderCall.type, own, qty, cost] <;> rfl
    | cancel locate ts ref canceled =>
      have qty : loadBe32 (shift q Ofs.cancelCanceled) = canceled :=
        loadBe32_shown (shown _ (by simp [pieces]))
      simp only [BuilderCall.type, qty]
      rfl
    | replace locate ts orig nref shares price =>
      have qty : loadBe32 (shift q Ofs.replaceShares) = shares :=
        loadBe32_shown (shown _ (by simp [pieces]))
      have cost : loadBe32 (shift q Ofs.replacePrice) = price :=
        loadBe32_shown (shown _ (by simp [pieces]))
      simp only [BuilderCall.type, tag rfl, qty, cost]
      rfl
    | trade locate ts ref side shares stock price matchNo =>
      have own : q Ofs.tradeSide = side := byte_shown (shown _ (by simp [pieces]))
      have qty : loadBe32 (shift q Ofs.tradeShares) = shares :=
        loadBe32_shown (shown _ (by simp [pieces]))
      have cost : loadBe32 (shift q Ofs.tradePrice) = price :=
        loadBe32_shown (shown _ (by simp [pieces]))
      simp only [BuilderCall.type, own, qty, cost]
      rfl
    | cross locate ts shares64 stock price matchNo crossType =>
      have qty : loadBe64 (shift q Ofs.crossShares64) = shares64 :=
        loadBe64_shown (shown _ (by simp [pieces]))
      have cost : loadBe32 (shift q Ofs.crossPrice) = price :=
        loadBe32_shown (shown _ (by simp [pieces]))
      simp only [BuilderCall.type, qty, cost]
      rfl
    | del | sysEvent | stockDir => rfl
  simp only [decodeSlot, type, locate, ts, switch]
  rfl

theorem size_pos (c : BuilderCall) : 0 < c.size := by
  unfold size
  cases c.type <;> decide

theorem size_le (c : BuilderCall) : c.size ≤ slotSideTag := by
  unfold size
  cases c.type <;> decide

@[simp] theorem length_payload (c : BuilderCall) : c.payload.length = c.size := length_bytes _ _

theorem headD_payload (c : BuilderCall) : c.payload.headD 0 = c.type.code := by
  have type : c.message Ofs.type = c.type.code :=
    byte_shown (shown (fun _ _ => rfl) _ (by simp [pieces]))
  rw [← type]
  exact Msg.headD_bytes (m := ⟨c.message, c.size⟩) c.size_pos

theorem longEnough (c : BuilderCall) : LongEnough c.payload := by
  rw [LongEnough, headD_payload, length_payload]
  exact Nat.le_refl _

theorem ships_payload (c : BuilderCall) :
    (Msg.ofFrame c.payload).ships = gpuRelevant c.type.code := by
  have type : (Msg.ofFrame c.payload).data Ofs.type = c.type.code := by
    rw [← c.headD_payload]
    cases c.payload <;> rfl
  have fits : (Msg.ofFrame c.payload).len ≤ slotBytes :=
    c.length_payload.trans_le (c.size_le.trans (by decide))
  rw [Msg.ships, type, decide_eq_true fits, Bool.and_true]

def framed (c : BuilderCall) : List UInt8 := be16 (UInt16.ofNat c.size) ++ c.payload

theorem size_ofNat (c : BuilderCall) : (UInt16.ofNat c.size).toNat = c.size := by
  have small := c.size_le
  rw [UInt16.toNat_ofNat']
  exact Nat.mod_eq_of_lt (small.trans_lt (by decide))

end BuilderCall

theorem StreamBuilder.call_bytes (b : StreamBuilder) (c : BuilderCall) :
    (b.call c).bytes = b.bytes ++ c.framed := by
  have lengths : ItchAggregator.bytes (putBe16 (fun _ => 0) 0 (UInt16.ofNat c.size)) 2 =
      be16 (UInt16.ofNat c.size) := rfl
  rw [BuilderCall.call_frame, StreamBuilder.frame, lengths, c.size_ofNat, List.append_assoc]
  rfl

theorem StreamBuilder.build_bytes (calls : List BuilderCall) :
    (StreamBuilder.build calls).bytes = calls.flatMap BuilderCall.framed := by
  suffices more : ∀ b : StreamBuilder,
      (calls.foldl StreamBuilder.call b).bytes = b.bytes ++ calls.flatMap BuilderCall.framed from
    more {}
  induction calls with
  | nil => simp
  | cons c calls ih =>
    intro b
    rw [List.foldl_cons, ih, StreamBuilder.call_bytes, List.flatMap_cons, List.append_assoc]

section Parse

open ItchParser

variable {σ : Type} {source : ByteSource σ} {left : σ → List UInt8} {p : ItchParser σ}

structure BuilderCall.Parsed (c : BuilderCall) (m : Msg) : Prop where
  type : m.data Ofs.type = c.type.code
  len : m.len = msgLength (m.data Ofs.type)
  bytes : m.bytes = c.payload

theorem BuilderCall.parsed_of_bytes {c : BuilderCall} {m : Msg} (bytes : m.bytes = c.payload) :
    c.Parsed m := by
  have len : m.len = c.size := by
    rw [← c.length_payload, ← bytes]
    exact (length_bytes _ _).symm
  have type : m.data Ofs.type = c.type.code := by
    rw [← Msg.headD_bytes (len ▸ c.size_pos), bytes, c.headD_payload]
  exact ⟨type, by rw [type, len, BuilderCall.size], bytes⟩

theorem yields_calls {calls : List BuilderCall} (hsrc : source.Delivers left)
    (room : 64 ≤ p.bufBytes) (live : Live left p (calls.flatMap BuilderCall.framed)) :
    ∃ ms q, Yields source p ms q ∧ List.Forall₂ BuilderCall.Parsed calls ms ∧ q.error = false := by
  induction calls generalizing p with
  | nil =>
    obtain ⟨q, call, cut⟩ := live.next_stop hsrc (by omega) (frames_short (by simp))
    refine ⟨[], q, .stop call, .nil, ?_⟩
    rw [Bool.eq_false_iff, Ne, cut]
    rintro ⟨_, _, _, none, _⟩
    simp at none
  | cons c calls ih =>
    have small := c.size_le
    have tag : slotSideTag = 44 := rfl
    have string : (c :: calls).flatMap BuilderCall.framed =
        (UInt16.ofNat c.size >>> 8).toUInt8 :: (UInt16.ofNat c.size).toUInt8 ::
          (c.payload ++ calls.flatMap BuilderCall.framed) := by
      rw [List.flatMap_cons, BuilderCall.framed, be16]
      simp
    rw [string] at live
    have length : c.size = (UInt16.ofNat c.size >>> 8).toUInt8.toNat * 256 +
        (UInt16.ofNat c.size).toUInt8.toNat := by rw [be16_toNat, c.size_ofNat]
    obtain ⟨m, q, call, bytes, _, liveq, size⟩ := live.next_frame hsrc length
      (Nat.pos_iff_ne_zero.mp c.size_pos) (by simp) (by omega)
    rw [List.take_left' c.length_payload] at bytes
    rw [List.drop_left' c.length_payload] at liveq
    obtain ⟨ms, r, later, parsed, ok⟩ := ih (by omega) liveq
    exact ⟨m :: ms, r, .message call later, .cons (BuilderCall.parsed_of_bytes bytes) parsed, ok⟩

end Parse

/-! Slots. -/

def slotsOf (batches : List BatchAssembler.Call) : List Ptr :=
  batches.flatMap fun c => (List.range c.batchMeta.nMsgs).map fun i => shift c.out (i * slotBytes)

/-- The thread of `decode_kernel` on the slot leaves `d`, whatever else is in memory and
wherever in a buffer the slot lies. -/
def Decodes (slot : Ptr) (d : Decoded) : Prop :=
  ∀ (m : DeviceMemory) (j idx : Nat),
    (∀ i < slotBytes, m (.dRaw j (idx * slotBytes + i)) = slot i) →
      Holds ((decodeKernel j idx).run m) j idx d

theorem decodes_decodeSlot (slot : Ptr) : Decodes slot (decodeSlot slot) := by
  intro m j idx same
  rw [← decodeSlot_congr same]
  exact run_decodeKernel j idx m

theorem slotsOf_shows {batches : List BatchAssembler.Call} {items : List (List Shipped)}
    (packs : List.Forall₂ BatchAssembler.Call.Packs batches items)
    (whole : ∀ l ∈ items, ∀ s ∈ l, s.slot.length = slotBytes) :
    List.Forall₂ (fun slot s => bytes slot slotBytes = s.slot) (slotsOf batches) items.flatten := by
  induction packs with
  | nil => exact .nil
  | @cons c l _ _ first _ ih =>
    rw [slotsOf, List.flatMap_cons, List.flatten_cons]
    refine List.rel_append ?_ (ih fun l' hl => whole l' (List.mem_cons_of_mem _ hl))
    have packed := first.slots
    rw [first.count] at packed ⊢
    refine List.forall₂_iff_get.mpr ⟨by simp, fun i _ inside => ?_⟩
    have own := slot_at packed (whole l List.mem_cons_self) (List.getElem?_eq_getElem inside)
    simpa using own

theorem BuilderCall.decodes {c : BuilderCall} (small : c.ts.toNat < 2 ^ 48) {s : Shipped}
    (frame : s.frame = c.payload) {slot : Ptr} (packed : bytes slot slotBytes = s.slot) :
    Decodes slot (c.decoded s.sideTag) := by
  have before : c.size ≤ slotSideTag := c.size_le
  have inside : slotSideTag < slotBytes := by decide
  have fits : s.frame.length ≤ slotBytes := by
    rw [frame, c.length_payload]
    omega
  have same : ∀ i < c.size, slot i = c.message i := by
    intro i hi
    rw [← getD_bytes slot (by omega : i < slotBytes), packed, s.slot_getD (by omega), Shipped.data,
      frame]
    exact ptrOf_bytes c.message hi
  have tag : c.type = .orderReplace → slot slotSideTag = s.sideTag := by
    intro replace
    have type : s.type = MsgType.orderReplace.code := by
      rw [Shipped.type, frame, c.headD_payload, replace]
    rw [← s.slot_tag fits type, ← packed]
    exact (getD_bytes slot inside).symm
  rw [← c.decodeSlot_eq small same tag]
  exact decodes_decodeSlot slot

theorem forall₂_bytes {calls : List BuilderCall} {ms : List Msg}
    (parsed : List.Forall₂ BuilderCall.Parsed calls ms) :
    calls.map BuilderCall.payload = ms.map Msg.bytes := by
  induction parsed with
  | nil => rfl
  | cons first _ ih => rw [List.map_cons, List.map_cons, first.bytes, ih]

variable {σ : Type} {source : ByteSource σ} {left : σ → List UInt8}

/-- The round trip over the whole format. Every call of the builder is parsed as one
message; the slots that `fill` packs are, in order, those of the calls of the types
the kernels use, and `decode_kernel` returns from them what the calls were given.
`tags` are the tags stamped on the shipped messages. -/
theorem builder_roundTrip (hash : UInt64 → UInt64) (k : LogCapacity)
    (hsrc : source.Delivers left) {s : σ} {bufBytes : Nat} {p : ItchParser σ}
    (made : ItchParser.make s bufBytes = .ok p) {calls : List BuilderCall}
    (built : left s = (StreamBuilder.build calls).bytes)
    (small : ∀ c ∈ calls, c.ts.toNat < 2 ^ 48) :
    (∃ ms q, ItchParser.Yields source p ms q ∧ List.Forall₂ BuilderCall.Parsed calls ms ∧
      q.error = false) ∧
    (∀ dsts : Nat → Ptr, ∃ batches last q a, Batches source hash p (start k) batches last q a ∧
      ∀ i b, (batches ++ [last])[i]? = some b → b.dst = dsts i) ∧
    ∀ batches last q a, Batches source hash p (start k) batches last q a →
      let relevant := calls.filter fun c => gpuRelevant c.type.code
      let tags := (Batching.ships (labels hash (start k)
        (calls.map fun c => Msg.ofFrame c.payload))).map Shipped.sideTag
      (slotsOf batches).length = relevant.length ∧ tags.length = relevant.length ∧
        ∀ (n : Nat) c slot tag, relevant[n]? = some c → (slotsOf batches)[n]? = some slot →
          tags[n]? = some tag → Decodes slot (c.decoded tag) := by
  obtain ⟨room, rfl⟩ := ItchParser.make_ok made
  have bounds := ItchParser.start_bounds s bufBytes
  have live := ItchParser.start_live left s bufBytes
  rw [built, StreamBuilder.build_bytes] at live
  obtain ⟨ms, r, yields, parsed, ok⟩ := yields_calls hsrc (by simpa [ItchParser.start] using room) live
  refine ⟨⟨ms, r, yields, parsed, ok⟩, fun dsts => exists_batches yields bounds (start k) dsts,
    fun batches last q a run => ?_⟩
  intro relevant tags
  have fs : (calls.map BuilderCall.payload).map Msg.ofFrame =
      calls.map fun c => Msg.ofFrame c.payload := List.map_map
  have hands : (ItchParser.start s bufBytes).Hands source (calls.map BuilderCall.payload) :=
    ⟨ms, r, yields, (forall₂_bytes parsed).symm⟩
  have long : ∀ f ∈ calls.map BuilderCall.payload, LongEnough f := by
    intro f hf
    obtain ⟨c, _, rfl⟩ := List.mem_map.mp hf
    exact c.longEnough
  obtain ⟨bs, _, placed, shows, _⟩ := run.placed hands bounds long
  have frames : (Batching.ships (labels hash (start k) (calls.map fun c =>
      Msg.ofFrame c.payload))).map Shipped.frame = relevant.map BuilderCall.payload := by
    rw [← fs, ← Batching.ships_map, labels_frameItem, ships_frameItem, List.filter_map]
    congr 1
    exact List.filter_congr fun c _ => c.ships_payload
  have items : (bs.map Batching.Batch.items).flatten =
      Batching.ships (labels hash (start k) (calls.map fun c => Msg.ofFrame c.payload)) := by
    rw [← fs, placed.ships, List.flatMap]
  have whole : ∀ l ∈ bs.map Batching.Batch.items, ∀ x ∈ l, x.slot.length = slotBytes := by
    intro l hl x hx
    have mem := items ▸ List.mem_flatten_of_mem hl hx
    obtain ⟨m, _, shippable, tag, rfl⟩ := mem_ships_labels mem
    exact length_slot tag shippable
  have slots := slotsOf_shows (packs_all placed shows) whole
  rw [items] at slots
  have count : tags.length = relevant.length := by
    rw [List.length_map, ← List.length_map Shipped.frame, frames, List.length_map]
  refine ⟨slots.length_eq.trans ((List.length_map _).symm.trans count), count,
    fun n c slot tag call at_slot at_tag => ?_⟩
  rw [List.getElem?_map, Option.map_eq_some_iff] at at_tag
  obtain ⟨x, here, rfl⟩ := at_tag
  have frame : x.frame = c.payload := by
    have both := congrArg (·[n]?) frames
    simpa [List.getElem?_map, here, call] using both
  have packed : bytes slot slotBytes = x.slot := by
    obtain ⟨left_, slot_at_n⟩ := List.getElem?_eq_some_iff.mp at_slot
    obtain ⟨right_, x_at_n⟩ := List.getElem?_eq_some_iff.mp here
    have shown := slots.get left_ right_
    simpa [slot_at_n, x_at_n] using shown
  have sent : c ∈ calls := (List.mem_filter.mp (List.mem_of_getElem? call)).1
  exact BuilderCall.decodes (small c sent) frame packed

/-- An order and its replacement: the second slot decodes to the side of the first. -/
theorem builder_roundTrip_replace :
    let calls : List BuilderCall :=
      [.addOrder 7 1 5 66 100 [65, 65, 80, 76] 150000 false, .replace 7 2 5 6 50 160000]
    ∃ batches last q a slot,
      Batches memSource OrderHash.mix (ItchParser.start (StreamBuilder.build calls).bytes 64)
        (start 4) batches last q a ∧
      (slotsOf batches)[1]? = some slot ∧ Decodes slot ⟨85, 66, 7, 160000, 50, 2⟩ := by
  intro calls
  have made : ItchParser.make (StreamBuilder.build calls).bytes 64 =
      .ok (ItchParser.start (StreamBuilder.build calls).bytes 64) := rfl
  have small : ∀ c ∈ calls, c.ts.toNat < 2 ^ 48 := by decide
  obtain ⟨_, run, decoded⟩ := builder_roundTrip OrderHash.mix 4 memSource_delivers made rfl small
  obtain ⟨batches, last, q, a, run, _⟩ := run fun _ _ => 0
  obtain ⟨slots, _, fields⟩ := decoded batches last q a run
  have two : (calls.filter fun c => gpuRelevant c.type.code).length = 2 := by decide
  obtain ⟨slot, here⟩ : ∃ slot, (slotsOf batches)[1]? = some slot :=
    ⟨_, List.getElem?_eq_getElem (by omega)⟩
  exact ⟨batches, last, q, a, slot, run, here,
    fields 1 (.replace 7 2 5 6 50 160000) slot 66 rfl here (by decide +kernel)⟩

end ItchAggregator
