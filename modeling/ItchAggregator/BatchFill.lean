import ItchAggregator.BatchAssembler
import ItchAggregator.Framing
import ItchAggregator.Library.Batching

/-! What `fill` does to the messages it draws. Each message is labelled by what it
means for the batches (shipped, a market open, neither); the loop is the cutting
of that labelled stream, its slots are the shipped messages packed one behind the
other, and the order table moves with the messages whatever the batches are. -/

namespace ItchAggregator

open Batching (Item Batch take)

/-- The types the kernels use, at a length that fits a slot. -/
def Msg.ships (m : Msg) : Bool :=
  gpuRelevant (m.data Ofs.type) && decide (m.len ≤ slotBytes)

def Msg.opens (m : Msg) : Bool :=
  m.data Ofs.type == MsgType.systemEvent.code && m.data Ofs.sysEvent == 'O'.toUInt8

def Msg.timestamp (m : Msg) : UInt64 := loadBe48 (shift m.data Ofs.timestamp)

theorem Msg.opens_iff {m : Msg} : m.opens = true ↔
    m.data Ofs.type = MsgType.systemEvent.code ∧ m.data Ofs.sysEvent = 'O'.toUInt8 := by
  simp [Msg.opens]

theorem Msg.ships_iff {m : Msg} :
    m.ships = true ↔ gpuRelevant (m.data Ofs.type) = true ∧ m.len ≤ slotBytes := by
  simp [Msg.ships]

theorem Msg.not_ships_of_opens {m : Msg} (opens : m.opens = true) : m.ships = false := by
  simp only [Msg.ships, (Msg.opens_iff.mp opens).1]
  rfl

/-- A message as it is shipped: its bytes, the side tag resolved for it and the
timestamp read from it. -/
structure Shipped where
  frame : List UInt8
  sideTag : UInt8
  ts : UInt64
  deriving DecidableEq

def Shipped.type (s : Shipped) : UInt8 := s.frame.headD 0

/-- The slot: the message and zeros behind it, the tag in its place for a replace. -/
def Shipped.slot (s : Shipped) : List UInt8 :=
  let padded := s.frame ++ List.replicate (slotBytes - s.frame.length) 0
  if s.type = MsgType.orderReplace.code then padded.set slotSideTag s.sideTag else padded

theorem Shipped.slot_tag {s : Shipped} (fits : s.frame.length ≤ slotBytes)
    (replace : s.type = MsgType.orderReplace.code) : s.slot.getD slotSideTag 0 = s.sideTag := by
  have room : slotSideTag <
      (s.frame ++ List.replicate (slotBytes - s.frame.length) (0 : UInt8)).length := by
    rw [List.length_append, List.length_replicate, Nat.add_sub_cancel' fits]
    decide
  simp only [Shipped.slot, replace, if_true]
  rw [List.getD_eq_getElem?_getD, List.getElem?_set_self room]
  rfl

def Msg.shipped (m : Msg) (sideTag : UInt8) : Shipped := ⟨m.bytes, sideTag, m.timestamp⟩

theorem Msg.headD_bytes {m : Msg} (positive : 0 < m.len) : m.bytes.headD 0 = m.data Ofs.type := by
  obtain ⟨n, hn⟩ := Nat.exists_eq_succ_of_ne_zero (Nat.pos_iff_ne_zero.mp positive)
  simp [Msg.bytes, ItchAggregator.bytes, hn, List.range_succ_eq_map]

theorem Msg.slot_shipped {m : Msg} (positive : 0 < m.len) (sideTag : UInt8) :
    (m.shipped sideTag).slot =
      if m.data Ofs.type = MsgType.orderReplace.code then
        (m.bytes ++ List.replicate (slotBytes - m.len) 0).set slotSideTag sideTag
      else m.bytes ++ List.replicate (slotBytes - m.len) 0 := by
  have type : (m.shipped sideTag).type = m.data Ofs.type := Msg.headD_bytes positive
  have length : m.bytes.length = m.len := length_bytes _ _
  simp only [Shipped.slot, type]
  simp only [Msg.shipped, length]

namespace BatchAssembler

variable {k : LogCapacity} {σ : Type} {source : ByteSource σ} {hash : UInt64 → UInt64}
  {a : BatchAssembler k} {f : Filling k} {m : Msg}

def absorb (hash : UInt64 → UInt64) (a : BatchAssembler k) (m : Msg) : BatchAssembler k :=
  if m.ships then (a.resolve hash m.data).2
  else if m.data Ofs.type = MsgType.stockDir.code then
    { a with symbols := a.symbols.update m.data }
  else a

def absorbAll (hash : UInt64 → UInt64) (a : BatchAssembler k) (ms : List Msg) : BatchAssembler k :=
  ms.foldl (absorb hash) a

@[simp] theorem absorbAll_nil : absorbAll hash a [] = a := rfl

@[simp] theorem absorbAll_cons (ms : List Msg) :
    absorbAll hash a (m :: ms) = absorbAll hash (absorb hash a m) ms := rfl

@[simp] theorem absorbAll_append (l r : List Msg) :
    absorbAll hash a (l ++ r) = absorbAll hash (absorbAll hash a l) r := List.foldl_append

def label (hash : UInt64 → UInt64) (a : BatchAssembler k) (m : Msg) : Item Shipped :=
  if m.opens then .mark
  else if m.ships then .ship (m.shipped (a.resolve hash m.data).1)
  else .skip

def labels (hash : UInt64 → UInt64) : BatchAssembler k → List Msg → List (Item Shipped)
  | _, [] => []
  | a, m :: ms => label hash a m :: labels hash (absorb hash a m) ms

@[simp] theorem labels_length (ms : List Msg) : (labels hash a ms).length = ms.length := by
  induction ms generalizing a with
  | nil => rfl
  | cons m ms ih => simp [labels, ih]

theorem labels_append (l r : List Msg) :
    labels hash a (l ++ r) = labels hash a l ++ labels hash (absorbAll hash a l) r := by
  induction l generalizing a with
  | nil => rfl
  | cons m l ih => simp [labels, ih]

theorem resolve_pendingReset (msg : Ptr) : (a.resolve hash msg).2.pendingReset = a.pendingReset := by
  unfold resolve
  cases msgType? (msg Ofs.type) with
  | none => rfl
  | some t =>
    cases t with
    | orderReplace =>
      cases found : a.orders.find hash (loadBe64 (shift msg Ofs.replaceOrigRef)) <;> simp [found]
    | _ => rfl

theorem absorb_pendingReset : (absorb hash a m).pendingReset = a.pendingReset := by
  unfold absorb
  split
  · exact resolve_pendingReset m.data
  · split <;> rfl

theorem onMessage_opens_empty (opens : m.opens = true) (empty : f.batchMeta.nMsgs = 0) :
    onMessage hash f m =
      (false, { f with batchMeta := { f.batchMeta with resetVwap := true } }) := by
  obtain ⟨sys, code⟩ := Msg.opens_iff.mp opens
  have dir : m.data Ofs.type ≠ MsgType.stockDir.code := by
    rw [sys]
    decide
  simp only [onMessage]
  rw [if_neg dir, if_pos sys, if_pos code, if_pos empty]

theorem onMessage_opens_break (opens : m.opens = true) (some : f.batchMeta.nMsgs ≠ 0) :
    onMessage hash f m = (true, { f with asm := { f.asm with pendingReset := true } }) := by
  obtain ⟨sys, code⟩ := Msg.opens_iff.mp opens
  have dir : m.data Ofs.type ≠ MsgType.stockDir.code := by
    rw [sys]
    decide
  simp only [onMessage]
  rw [if_neg dir, if_pos sys, if_pos code, if_neg some]

theorem onMessage_ships (ships : m.ships = true) :
    onMessage hash f m =
      (false, f.ship (absorb hash f.asm m) m (f.asm.resolve hash m.data).1) := by
  obtain ⟨relevant, fits⟩ := Msg.ships_iff.mp ships
  have dir : m.data Ofs.type ≠ MsgType.stockDir.code := by
    intro dir
    rw [dir] at relevant
    exact absurd relevant (by decide)
  have sys : m.data Ofs.type ≠ MsgType.systemEvent.code := by
    intro sys
    rw [sys] at relevant
    exact absurd relevant (by decide)
  simp only [onMessage]
  rw [if_neg dir, if_neg sys, if_neg (by simp [relevant]), if_neg (Nat.not_lt.mpr fits), absorb,
    if_pos ships]

theorem onMessage_passes (stays : m.opens = false) (unshipped : m.ships = false) :
    onMessage hash f m = (false, { f with asm := absorb hash f.asm m }) := by
  have ships : ¬m.ships = true := by simp [unshipped]
  simp only [onMessage, absorb, if_neg ships]
  by_cases dir : m.data Ofs.type = MsgType.stockDir.code
  · rw [if_pos dir, if_pos dir]
  · rw [if_neg dir, if_neg dir]
    by_cases sys : m.data Ofs.type = MsgType.systemEvent.code
    · have code : m.data Ofs.sysEvent ≠ 'O'.toUInt8 := fun code =>
        absurd (Msg.opens_iff.mpr ⟨sys, code⟩) (by simp [stays])
      rw [if_pos sys, if_neg code]
    · rw [if_neg sys]
      by_cases relevant : gpuRelevant (m.data Ofs.type) = true
      · have long : slotBytes < m.len := by
          by_contra fits
          exact ships (Msg.ships_iff.mpr ⟨relevant, Nat.le_of_not_lt fits⟩)
        rw [if_neg (by simp [relevant]), if_pos long]
      · rw [if_pos (by simp [relevant])]

/-! The turns of `fill`'s loop. -/

section Turns

variable {p p' q : ItchParser σ} {f' : Filling k} {turns : Nat}

theorem fillLoop_full (full : ¬f.batchMeta.nMsgs < batchMsgs) :
    fillLoop source hash (turns + 1) p f = some (p, f) := by
  rw [fillLoop, if_neg full]

theorem fillLoop_ended (room : f.batchMeta.nMsgs < batchMsgs) (call : p.next source = (none, p')) :
    fillLoop source hash (turns + 1) p f = some (p', f) := by
  rw [fillLoop, if_pos room, call]

theorem fillLoop_message (room : f.batchMeta.nMsgs < batchMsgs)
    (call : p.next source = (some m, p')) :
    fillLoop source hash (turns + 1) p f =
      if (onMessage hash f m).1 then some (p', (onMessage hash f m).2)
      else fillLoop source hash turns p' (onMessage hash f m).2 := by
  rw [fillLoop, if_pos room, call]
  dsimp only
  cases turn : onMessage hash f m with
  | mk closes g => cases closes <;> rfl

/-- A turn meets a full batch, or the end of the messages, or a message, which closes the
batch or is followed by the other turns. -/
theorem fillLoop_cases (result : fillLoop source hash (turns + 1) p f = some (q, f')) :
    (¬f.batchMeta.nMsgs < batchMsgs ∧ q = p ∧ f' = f) ∨
      f.batchMeta.nMsgs < batchMsgs ∧
        ((p.next source = (none, q) ∧ f' = f) ∨
          ∃ m p', p.next source = (some m, p') ∧
            ((onMessage hash f m).1 = true ∧ q = p' ∧ f' = (onMessage hash f m).2 ∨
              (onMessage hash f m).1 = false ∧
                fillLoop source hash turns p' (onMessage hash f m).2 = some (q, f'))) := by
  by_cases room : f.batchMeta.nMsgs < batchMsgs
  · refine Or.inr ⟨room, ?_⟩
    obtain ⟨⟨answer, p'⟩, call⟩ : ∃ x, p.next source = x := ⟨_, rfl⟩
    cases answer with
    | none =>
      rw [fillLoop_ended room call, Option.some.injEq, Prod.mk.injEq] at result
      exact Or.inl ⟨by rw [call, result.1], result.2.symm⟩
    | some m =>
      refine Or.inr ⟨m, p', call, ?_⟩
      rw [fillLoop_message room call] at result
      split at result
      · rename_i closes
        obtain ⟨rfl, rfl⟩ := Prod.mk.inj (Option.some.inj result)
        exact Or.inl ⟨closes, rfl, rfl⟩
      · rename_i stays
        exact Or.inr ⟨Bool.eq_false_iff.mpr stays, result⟩
  · rw [fillLoop_full room, Option.some.injEq, Prod.mk.injEq] at result
    exact Or.inl ⟨room, result.1.symm, result.2.symm⟩

end Turns

/-- The slots in memory, packed: `dst` shows the shipped messages one behind the
other and is untouched beyond them. -/
structure Slots (before dst : Ptr) (items : List Shipped) : Prop where
  packed : bytes dst (items.length * slotBytes) = items.flatMap Shipped.slot
  frame : ∀ i, items.length * slotBytes ≤ i → dst i = before i

theorem pack_inside (dst : Ptr) (n : Nat) (sideTag : UInt8) (positive : 0 < m.len)
    (ships : m.ships = true) {j : Nat} (inside : j < slotBytes) :
    pack dst n m sideTag (n * slotBytes + j) = (m.shipped sideTag).slot.getD j 0 := by
  have fits := (Msg.ships_iff.mp ships).2
  have padded : memset (memcpy dst (n * slotBytes) m.data m.len) (n * slotBytes + m.len) 0
      (slotBytes - m.len) (n * slotBytes + j) =
      (m.bytes ++ List.replicate (slotBytes - m.len) 0).getD j 0 := by
    by_cases own : j < m.len
    · rw [memset, memcpy_outside _ _ (Or.inl (by omega)), memcpy_inside _ _ own,
        List.getD_append _ _ _ _ (by simpa [Msg.bytes] using own)]
      exact (getD_bytes m.data own).symm
    · obtain ⟨d, rfl⟩ := Nat.exists_eq_add_of_le (Nat.le_of_not_lt own)
      rw [memset, ← Nat.add_assoc, memcpy_inside _ _ (by omega),
        List.getD_append_right _ _ _ _ (by simp [Msg.bytes])]
      simp [Msg.bytes, List.getD]
  rw [pack, Msg.slot_shipped positive]
  by_cases replace : m.data Ofs.type = MsgType.orderReplace.code
  · simp only [replace, if_true, store_apply, padded]
    by_cases tag : j = slotSideTag
    · have room : slotSideTag < (m.bytes ++ List.replicate (slotBytes - m.len) (0 : UInt8)).length := by
        simp [Msg.bytes, slotSideTag, slotBytes] at fits ⊢
        omega
      simp [tag, List.getD, List.getElem?_set_self room]
    · rw [if_neg (by omega)]
      simp [List.getD, List.getElem?_set_ne (Ne.symm tag)]
  · simp only [replace, if_false, padded]

theorem pack_frame (dst : Ptr) (n : Nat) (sideTag : UInt8) (ships : m.ships = true) {i : Nat}
    (outside : i < n * slotBytes ∨ (n + 1) * slotBytes ≤ i) : pack dst n m sideTag i = dst i := by
  have fits := (Msg.ships_iff.mp ships).2
  have step : (n + 1) * slotBytes = n * slotBytes + slotBytes := Nat.succ_mul n slotBytes
  have padded : memset (memcpy dst (n * slotBytes) m.data m.len) (n * slotBytes + m.len) 0
      (slotBytes - m.len) i = dst i := by
    rw [memset, memcpy_outside _ _ (by omega), memcpy_outside _ _ (by omega)]
  unfold pack
  split
  · rw [store_apply, if_neg, padded]
    have : slotSideTag < slotBytes := by decide
    omega
  · exact padded

theorem length_slot (sideTag : UInt8) (ships : m.ships = true) :
    (m.shipped sideTag).slot.length = slotBytes := by
  have fits := (Msg.ships_iff.mp ships).2
  have length : (m.shipped sideTag).frame.length = m.len := length_bytes _ _
  unfold Shipped.slot
  split <;> simp [length] <;> omega

theorem Slots.pack {before dst : Ptr} {items : List Shipped} (slots : Slots before dst items)
    (sideTag : UInt8) (positive : 0 < m.len) (ships : m.ships = true) :
    Slots before (pack dst items.length m sideTag) (items ++ [m.shipped sideTag]) where
  packed := by
    have own : bytes (shift (BatchAssembler.pack dst items.length m sideTag)
        (items.length * slotBytes)) slotBytes = (m.shipped sideTag).slot := by
      rw [← bytes_ptrOf ((m.shipped sideTag).slot), length_slot sideTag ships]
      exact bytes_congr fun j hj => pack_inside dst items.length sideTag positive ships hj
    have earlier : bytes (BatchAssembler.pack dst items.length m sideTag)
        (items.length * slotBytes) = bytes dst (items.length * slotBytes) :=
      bytes_congr fun i hi => pack_frame dst items.length sideTag ships (Or.inl hi)
    rw [List.length_append, List.length_singleton, Nat.succ_mul, bytes_add, own, earlier,
      slots.packed]
    simp
  frame := by
    intro i hi
    rw [List.length_append, List.length_singleton] at hi
    rw [pack_frame dst items.length sideTag ships (Or.inr hi)]
    exact slots.frame i (by rw [Nat.succ_mul] at hi; omega)

theorem slot_at {dst : Ptr} {items : List Shipped}
    (packed : bytes dst (items.length * slotBytes) = items.flatMap Shipped.slot)
    (whole : ∀ s ∈ items, s.slot.length = slotBytes) {i : Nat} {s : Shipped}
    (here : items[i]? = some s) : bytes (shift dst (i * slotBytes)) slotBytes = s.slot := by
  induction items generalizing dst i with
  | nil => simp at here
  | cons first items ih =>
    rw [List.length_cons, Nat.succ_mul, Nat.add_comm, bytes_add, List.flatMap_cons] at packed
    obtain ⟨head, tail⟩ := List.append_inj packed
      (by rw [length_bytes, whole first List.mem_cons_self])
    cases i with
    | zero =>
      obtain rfl := Option.some.inj here
      simpa using head
    | succ i =>
      have later := ih tail (fun t ht => whole t (List.mem_cons_of_mem first ht)) here
      rwa [shift_shift, Nat.add_comm, ← Nat.succ_mul] at later

structure Call where
  dst : Ptr
  batchMeta : BatchMeta
  out : Ptr

structure Call.Shows (c : Call) (b : Batch Shipped) : Prop where
  count : c.batchMeta.nMsgs = b.items.length
  flag : c.batchMeta.resetVwap = b.marked
  first : ∀ s ∈ b.items.head?, c.batchMeta.firstTs = s.ts
  last : ∀ s ∈ b.items.getLast?, c.batchMeta.lastTs = s.ts
  slots : Slots c.dst c.out b.items

abbrev Holds (before : Ptr) (f : Filling k) (b : Batch Shipped) : Prop :=
  Call.Shows ⟨before, f.batchMeta, f.dst⟩ b

theorem enter_holds (a : BatchAssembler k) (dst : Ptr) :
    Holds dst (.enter a dst) ⟨[], a.pendingReset⟩ where
  count := rfl
  flag := rfl
  first := by simp
  last := by simp
  slots := ⟨by simp [bytes], fun _ _ => rfl⟩

variable {before : Ptr} {b : Batch Shipped}

theorem Holds.ship (h : Holds before f b) (asm : BatchAssembler k) (sideTag : UInt8)
    (positive : 0 < m.len) (ships : m.ships = true) :
    Holds before (f.ship asm m sideTag) { b with items := b.items ++ [m.shipped sideTag] } where
  count := by
    have count : f.batchMeta.nMsgs = b.items.length := h.count
    simp [Filling.ship, count]
  flag := h.flag
  first := by
    intro s hs
    have count : f.batchMeta.nMsgs = b.items.length := h.count
    by_cases empty : b.items = []
    · simp only [empty, List.nil_append, List.head?_cons, Option.mem_some_iff] at hs
      have none : f.batchMeta.nMsgs = 0 := by simp [count, empty]
      simp only [Filling.ship, none, if_true, ← hs]
      rfl
    · have some : f.batchMeta.nMsgs ≠ 0 := by simpa [count] using empty
      simp only [Filling.ship, some, if_false]
      refine h.first s ?_
      rwa [List.head?_append_of_ne_nil _ empty] at hs
  last := by
    intro s hs
    rw [List.getLast?_concat, Option.mem_some_iff] at hs
    rw [← hs]
    rfl
  slots := by
    have packed := h.slots.pack sideTag positive ships
    rw [← h.count] at packed
    exact packed

/-- What a call of `fill` leaves: the batch taken from the labels, the
parser in front of the messages that are left, and the assembler after the others. -/
structure Drew (source : ByteSource σ) (hash : UInt64 → UInt64) (before : Ptr)
    (a : BatchAssembler k) (ms : List Msg) (q : ItchParser σ) (t : Batching.Taken Shipped)
    (used rest : List Msg) (p' : ItchParser σ) (f' : Filling k) : Prop where
  split : ms = used ++ rest
  yields : ItchParser.Yields source p' rest q
  bounds : p'.Bounds
  asm : f'.asm = { absorbAll hash a used with pendingReset := t.pending }
  rest : t.rest = labels hash (absorbAll hash a used) rest
  holds : Holds before f' t.batch

theorem absorb_opens (opens : m.opens = true) : absorb hash a m = a := by
  have dir : m.data Ofs.type ≠ MsgType.stockDir.code := by
    rw [(Msg.opens_iff.mp opens).1]
    decide
  simp [absorb, Msg.not_ships_of_opens opens, dir]

theorem label_opens (opens : m.opens = true) : label hash a m = .mark := if_pos opens

theorem label_ships (ships : m.ships = true) :
    label hash a m = .ship (m.shipped (a.resolve hash m.data).1) := by
  have stays : ¬m.opens = true := fun opens => by simp [Msg.not_ships_of_opens opens] at ships
  rw [label, if_neg stays, if_pos ships]

theorem label_passes (stays : m.opens = false) (unshipped : m.ships = false) :
    label hash a m = .skip := by simp [label, stays, unshipped]

theorem Drew.message {before : Ptr} {ms used rest : List Msg} {q p' : ItchParser σ}
    {t : Batching.Taken Shipped} {f' : Filling k}
    (drew : Drew source hash before (absorb hash a m) ms q t used rest p' f') :
    Drew source hash before a (m :: ms) q t (m :: used) rest p' f' where
  split := congrArg (m :: ·) drew.split
  yields := drew.yields
  bounds := drew.bounds
  asm := drew.asm
  rest := drew.rest
  holds := drew.holds

theorem Drew.stay {before : Ptr} {ms : List Msg} {p' q : ItchParser σ}
    {t : Batching.Taken Shipped} (quiet : f.asm.pendingReset = false) (h : Holds before f b)
    (yields : ItchParser.Yields source p' ms q) (bounds : p'.Bounds)
    (stays : t = ⟨b, false, labels hash f.asm ms⟩) :
    Drew source hash before f.asm ms q t [] ms p' f where
  split := rfl
  yields := yields
  bounds := bounds
  asm := by rw [stays, absorbAll_nil, ← quiet]
  rest := by rw [stays, absorbAll_nil]
  holds := by rw [stays]; exact h

theorem fillLoop_drew {p q : ItchParser σ} {ms : List Msg}
    (yields : ItchParser.Yields source p ms q) (bounds : p.Bounds) {f : Filling k}
    (quiet : f.asm.pendingReset = false) {b : Batch Shipped} (h : Holds before f b) {turns : Nat}
    (enough : ms.length < turns) :
    ∃ used rest p' f', fillLoop source hash turns p f = some (p', f') ∧
      Drew source hash before f.asm ms q (take batchMsgs (labels hash f.asm ms) b)
        used rest p' f' := by
  induction yields generalizing f b turns with
  | @stop p q call =>
    obtain ⟨turns, rfl⟩ : ∃ t, turns = t + 1 := ⟨turns - 1, by simp at enough; omega⟩
    by_cases room : f.batchMeta.nMsgs < batchMsgs
    · have result : fillLoop source hash (turns + 1) p f = some (q, f) := by
        simp only [fillLoop, if_pos room, call]
      have again := ItchParser.next_none_again bounds (congrArg Prod.fst call)
      rw [call] at again
      have bounds' : q.Bounds := by simpa [call] using ItchParser.next_bounds source bounds
      exact ⟨[], [], q, f, result, .stay quiet h (.stop again) bounds' rfl⟩
    · have result : fillLoop source hash (turns + 1) p f = some (p, f) := by
        simp only [fillLoop, if_neg room]
      exact ⟨[], [], p, f, result, .stay quiet h (.stop call) bounds rfl⟩
  | @message p p' q m ms call later ih =>
    obtain ⟨turns, rfl⟩ : ∃ t, turns = t + 1 := ⟨turns - 1, by simp at enough; omega⟩
    have fewer : ms.length < turns := by simpa using enough
    have positive : 0 < m.len := ItchParser.next_positive call
    have count : f.batchMeta.nMsgs = b.items.length := h.count
    have bounds' : p'.Bounds := by simpa [call] using ItchParser.next_bounds source bounds
    by_cases room : f.batchMeta.nMsgs < batchMsgs
    · have space : b.items.length < batchMsgs := count ▸ room
      by_cases opens : m.opens = true
      · have same : absorb hash f.asm m = f.asm := absorb_opens opens
        by_cases empty : f.batchMeta.nMsgs = 0
        · -- the batch is flagged and goes on
          obtain ⟨used, rest, r, f', result, drew⟩ := ih bounds'
            (f := { f with batchMeta := { f.batchMeta with resetVwap := true } }) quiet
            (b := { b with marked := true }) ⟨h.count, rfl, h.first, h.last, h.slots⟩ fewer
          refine ⟨m :: used, rest, r, f', ?_, .message ?_⟩
          · simp only [fillLoop, if_pos room, call, onMessage_opens_empty opens empty, result]
          · have nil : b.items.isEmpty = true := by simpa [count] using empty
            simp only [labels, label_opens opens, take, if_pos space, nil, if_true, same]
            exact drew
        · -- the batch is closed, and the next one flagged
          refine ⟨[m], ms, p', { f with asm := { f.asm with pendingReset := true } }, ?_, ?_⟩
          · simp only [fillLoop, if_pos room, call, onMessage_opens_break opens empty]
          · have nil : b.items.isEmpty = false := by simpa [count] using empty
            simp only [labels, label_opens opens, take, if_pos space, nil, if_false, same,
              Bool.false_eq_true]
            exact ⟨rfl, later, bounds', by simp [same], by simp [same],
              ⟨h.count, h.flag, h.first, h.last, h.slots⟩⟩
      · have stays := Bool.eq_false_iff.mpr opens
        by_cases ships : m.ships = true
        · obtain ⟨used, rest, r, f', result, drew⟩ := ih bounds'
            (f := f.ship (absorb hash f.asm m) m (f.asm.resolve hash m.data).1)
            (by simpa [Filling.ship, absorb_pendingReset] using quiet)
            (Holds.ship h _ (f.asm.resolve hash m.data).1 positive ships) fewer
          refine ⟨m :: used, rest, r, f', ?_, .message ?_⟩
          · simp only [fillLoop, if_pos room, call, onMessage_ships ships, result]
          · simp only [labels, label_ships ships, take, if_pos space]
            exact drew
        · have unshipped := Bool.eq_false_iff.mpr ships
          obtain ⟨used, rest, r, f', result, drew⟩ := ih bounds'
            (f := { f with asm := absorb hash f.asm m })
            (by simpa [absorb_pendingReset] using quiet)
            (b := b) ⟨h.count, h.flag, h.first, h.last, h.slots⟩ fewer
          refine ⟨m :: used, rest, r, f', ?_, .message ?_⟩
          · simp only [fillLoop, if_pos room, call, onMessage_passes stays unshipped, result]
          · simp only [labels, label_passes stays unshipped, take, if_pos space]
            exact drew
    · have result : fillLoop source hash (turns + 1) p f = some (p, f) := by
        simp only [fillLoop, if_neg room]
      refine ⟨[], m :: ms, p, f, result, .stay quiet h (.message call later) bounds ?_⟩
      simp only [labels, take, if_neg (fun space => room (count ▸ space))]

/-! `fill` packs the same batch whatever the buffer held. -/

structure SameBatch (f g : Filling k) : Prop where
  asm : g.asm = f.asm
  batchMeta : g.batchMeta = f.batchMeta
  slots : ∀ i < f.batchMeta.nMsgs * slotBytes, g.dst i = f.dst i

theorem pack_congr {d e : Ptr} {n : Nat} {m : Msg} (fits : m.len ≤ slotBytes)
    (same : ∀ i < n * slotBytes, e i = d i) (sideTag : UInt8) :
    ∀ i < (n + 1) * slotBytes, pack e n m sideTag i = pack d n m sideTag i := by
  intro i hi
  rw [Nat.succ_mul] at hi
  have padded : memset (memcpy e (n * slotBytes) m.data m.len) (n * slotBytes + m.len) 0
      (slotBytes - m.len) i = memset (memcpy d (n * slotBytes) m.data m.len)
      (n * slotBytes + m.len) 0 (slotBytes - m.len) i := by
    unfold memset memcpy
    split
    · rfl
    · split
      · rfl
      · exact same i (by omega)
  unfold pack
  split
  · rw [store_apply, store_apply, padded]
  · exact padded

theorem SameBatch.onMessage {f g : Filling k} (same : SameBatch f g) (hash : UInt64 → UInt64)
    (m : Msg) :
    (onMessage hash g m).1 = (onMessage hash f m).1 ∧
      SameBatch (onMessage hash f m).2 (onMessage hash g m).2 := by
  by_cases opens : m.opens = true
  · by_cases empty : f.batchMeta.nMsgs = 0
    · rw [onMessage_opens_empty opens empty, onMessage_opens_empty opens (same.batchMeta ▸ empty)]
      exact ⟨rfl, same.asm, by simp [same.batchMeta], same.slots⟩
    · rw [onMessage_opens_break opens empty, onMessage_opens_break opens (same.batchMeta ▸ empty)]
      exact ⟨rfl, by simp [same.asm], same.batchMeta, same.slots⟩
  · by_cases ships : m.ships = true
    · rw [onMessage_ships ships, onMessage_ships ships, same.asm]
      refine ⟨rfl, rfl, by simp [Filling.ship, same.batchMeta], ?_⟩
      simp only [Filling.ship, same.batchMeta]
      exact pack_congr (Msg.ships_iff.mp ships).2 same.slots _
    · rw [onMessage_passes (Bool.eq_false_iff.mpr opens) (Bool.eq_false_iff.mpr ships),
        onMessage_passes (Bool.eq_false_iff.mpr opens) (Bool.eq_false_iff.mpr ships), same.asm]
      exact ⟨rfl, rfl, same.batchMeta, same.slots⟩

theorem SameBatch.fillLoop {source : ByteSource σ} {hash : UInt64 → UInt64} {turns : Nat}
    {p p' : ItchParser σ} {f g f' : Filling k} (same : SameBatch f g)
    (result : fillLoop source hash turns p f = some (p', f')) :
    ∃ g', BatchAssembler.fillLoop source hash turns p g = some (p', g') ∧ SameBatch f' g' := by
  induction turns generalizing p f g with
  | zero => cases result
  | succ turns ih =>
    rcases fillLoop_cases result with ⟨full, rfl, rfl⟩ | ⟨room, ⟨call, rfl⟩ | ⟨m, q, call, turn⟩⟩
    · exact ⟨g, fillLoop_full (same.batchMeta ▸ full), same⟩
    · exact ⟨g, fillLoop_ended (same.batchMeta ▸ room) call, same⟩
    · obtain ⟨stop, after⟩ := same.onMessage hash m
      rw [fillLoop_message (same.batchMeta ▸ room) call, stop]
      rcases turn with ⟨closes, rfl, rfl⟩ | ⟨stays, later⟩
      · rw [if_pos closes]
        exact ⟨_, rfl, after⟩
      · rw [if_neg (Bool.eq_false_iff.mp stays)]
        exact ih after later

theorem fill_sameBatch {source : ByteSource σ} {hash : UInt64 → UInt64} {turns : Nat}
    {p p' : ItchParser σ} {a : BatchAssembler k} {dst : Ptr} {f : Filling k}
    (result : fill source hash turns p a dst = some (p', f)) (dst' : Ptr) :
    ∃ g, fill source hash turns p a dst' = some (p', g) ∧ SameBatch f g := by
  have enter : SameBatch (.enter a dst) (.enter a dst') :=
    ⟨rfl, rfl, fun i hi => absurd hi (by simp [Filling.enter])⟩
  exact enter.fillLoop result

end BatchAssembler

end ItchAggregator
