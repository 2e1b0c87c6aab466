import ItchAggregator.BatchFill
import ItchAggregator.OrderEvents

/-! Successive calls of `fill`: the batches of a whole stream. For frames that are as
long as their type says, what the assembler makes of a message is a function of the
frame's bytes. The batches then lose, duplicate and reorder nothing, and market
opens lie between them. -/

namespace ItchAggregator

open Batching (Item Batch take)

/-- The message a frame is handed out as, with zeros behind it. -/
def Msg.ofFrame (f : List UInt8) : Msg := ⟨ptrOf f, f.length⟩

/-- At least as long as its type says; nothing is said of a type out of scope. -/
def LongEnough (f : List UInt8) : Prop := msgLength (f.headD 0) ≤ f.length

def ExactLength (f : List UInt8) : Prop :=
  msgLength (f.headD 0) ≠ 0 → f.length = msgLength (f.headD 0)

instance (f : List UInt8) : Decidable (LongEnough f) := by
  unfold LongEnough
  infer_instance

instance (f : List UInt8) : Decidable (ExactLength f) := by
  unfold ExactLength
  infer_instance

theorem ExactLength.longEnough {f : List UInt8} (exact_ : ExactLength f) : LongEnough f := by
  unfold LongEnough
  by_cases zero : msgLength (f.headD 0) = 0
  · omega
  · exact (exact_ zero).ge

theorem Msg.bytes_ofFrame (f : List UInt8) : (Msg.ofFrame f).bytes = f := bytes_ptrOf f

/-- The frames handed out before the first `nullptr`. -/
def ItchParser.Hands {σ : Type} (source : ByteSource σ) (p : ItchParser σ)
    (fs : List (List UInt8)) : Prop :=
  ∃ ms q, ItchParser.Yields source p ms q ∧ ms.map Msg.bytes = fs

theorem ItchParser.hands_frames {σ : Type} {source : ByteSource σ} {left : σ → List UInt8}
    (hsrc : source.Delivers left) (s : σ) {bufBytes : Nat} (room : 64 ≤ bufBytes)
    (fits : ∀ f ∈ frames (left s), 2 + f.length ≤ bufBytes) :
    (ItchParser.start s bufBytes).Hands source (frames (left s)) := by
  obtain ⟨ms, q, yields, same, _⟩ :=
    (start_live left s bufBytes).yields hsrc (by simp [start]; omega) fits
  exact ⟨ms, q, yields, same⟩

theorem ItchParser.Yields.positive {σ : Type} {source : ByteSource σ} {p q : ItchParser σ}
    {ms : List Msg} (yields : ItchParser.Yields source p ms q) : ∀ m ∈ ms, 0 < m.len := by
  induction yields with
  | stop _ => simp
  | message call _ ih =>
    intro m hm
    rcases List.mem_cons.mp hm with rfl | later
    · exact ItchParser.next_positive call
    · exact ih m later

structure SameMessage (p q : Ptr) : Prop where
  type : p Ofs.type = q Ofs.type
  fields : ∀ i < msgLength (p Ofs.type), p i = q i

theorem Msg.same_ofFrame {m : Msg} (positive : 0 < m.len) (long : LongEnough m.bytes) :
    SameMessage m.data (Msg.ofFrame m.bytes).data := by
  have shown : ∀ i < m.len, m.data i = (Msg.ofFrame m.bytes).data i :=
    fun i hi => (ptrOf_bytes m.data hi).symm
  refine ⟨shown 0 positive, fun i hi => shown i ?_⟩
  rw [LongEnough, Msg.headD_bytes positive] at long
  exact Nat.lt_of_lt_of_le hi (long.trans_eq (length_bytes m.data m.len))

namespace SameMessage

variable {p q : Ptr} (same : SameMessage p q)

include same

theorem load16 {a : Nat} (inside : a + 2 ≤ msgLength (p Ofs.type)) :
    loadBe16 (shift p a) = loadBe16 (shift q a) :=
  loadBe16_congr fun i hi => same.fields (a + i) (by omega)

theorem load32 {a : Nat} (inside : a + 4 ≤ msgLength (p Ofs.type)) :
    loadBe32 (shift p a) = loadBe32 (shift q a) :=
  loadBe32_congr fun i hi => same.fields (a + i) (by omega)

theorem load48 {a : Nat} (inside : a + 6 ≤ msgLength (p Ofs.type)) :
    loadBe48 (shift p a) = loadBe48 (shift q a) :=
  loadBe48_congr fun i hi => same.fields (a + i) (by omega)

theorem load64 {a : Nat} (inside : a + 8 ≤ msgLength (p Ofs.type)) :
    loadBe64 (shift p a) = loadBe64 (shift q a) :=
  loadBe64_congr fun i hi => same.fields (a + i) (by omega)

end SameMessage

theorem orderEvent?_same {p q : Ptr} (same : SameMessage p q) :
    orderEvent? p = orderEvent? q := by
  unfold orderEvent?
  rw [← same.type]
  cases type : msgType? (p Ofs.type) with
  | none => rfl
  | some t =>
    have length : msgLength (p Ofs.type) = msgLength t.code := by
      rw [msgType?_eq_some.mp type]
    cases t with
    | systemEvent | stockDir | trade | tradeCross => rfl
    | addOrder | addOrderMpid =>
      have side : p Ofs.addSide = q Ofs.addSide := same.fields _ (by rw [length]; decide)
      simp only [side, same.load64 (a := Ofs.addRef) (by rw [length]; decide),
        same.load16 (a := Ofs.locate) (by rw [length]; decide),
        same.load32 (a := Ofs.addShares) (by rw [length]; decide),
        same.load32 (a := Ofs.addPrice) (by rw [length]; decide)]
    | orderCancel =>
      simp only [same.load64 (a := Ofs.cancelRef) (by rw [length]; decide),
        same.load32 (a := Ofs.cancelCanceled) (by rw [length]; decide)]
    | orderDelete => simp only [same.load64 (a := Ofs.delRef) (by rw [length]; decide)]
    | orderReplace =>
      simp only [same.load64 (a := Ofs.replaceOrigRef) (by rw [length]; decide),
        same.load64 (a := Ofs.replaceNewRef) (by rw [length]; decide),
        same.load32 (a := Ofs.replaceShares) (by rw [length]; decide),
        same.load32 (a := Ofs.replacePrice) (by rw [length]; decide)]

namespace BatchAssembler

variable {k : LogCapacity} {σ : Type} {source : ByteSource σ} {hash : UInt64 → UInt64}
  {a : BatchAssembler k} {m : Msg}

theorem resolve_same {p q : Ptr} (same : SameMessage p q) :
    a.resolve hash p = a.resolve hash q := by
  rw [resolve_eq, resolve_eq, orderEvent?_same same]

theorem copyTicker_same {p q : Ptr} :
    ∀ (left n : Nat) (dst : Ptr),
      (∀ i < left, p (Ofs.dirStock + (n + i)) = q (Ofs.dirStock + (n + i))) →
      SymbolTable.copyTicker p left n dst = SymbolTable.copyTicker q left n dst := by
  intro left
  induction left with
  | zero => intro n dst _; rfl
  | succ left ih =>
    intro n dst same
    have here := same 0 (Nat.succ_pos left)
    rw [Nat.add_zero] at here
    have later := fun dst => ih (n + 1) dst fun i hi => by
      have moved := same (i + 1) (Nat.succ_lt_succ hi)
      rwa [← Nat.add_assoc n, Nat.add_right_comm n i 1] at moved
    simp only [SymbolTable.copyTicker, here, later]

theorem update_same (t : SymbolTable) {p q : Ptr} (same : SameMessage p q)
    (dir : p Ofs.type = MsgType.stockDir.code) : t.update p = t.update q := by
  have length : msgLength (p Ofs.type) = 39 := by rw [dir]; decide
  have locate := same.load16 (a := Ofs.locate) (by rw [length]; decide)
  have ticker := fun dst => copyTicker_same (p := p) (q := q) 8 0 dst fun i hi =>
    same.fields _ (by rw [length, Ofs.dirStock]; omega)
  simp only [SymbolTable.update, locate, ticker]

variable (positive : 0 < m.len) (long : LongEnough m.bytes)

include positive in
theorem ships_ofFrame : (Msg.ofFrame m.bytes).ships = m.ships := by
  have type : (Msg.ofFrame m.bytes).data Ofs.type = m.data Ofs.type := ptrOf_bytes m.data positive
  have length : (Msg.ofFrame m.bytes).len = m.len := length_bytes m.data m.len
  rw [Msg.ships, Msg.ships, type, length]

include positive long

theorem opens_ofFrame : (Msg.ofFrame m.bytes).opens = m.opens := by
  have same := Msg.same_ofFrame positive long
  rw [Msg.opens, Msg.opens, ← same.type]
  by_cases sys : m.data Ofs.type = MsgType.systemEvent.code
  · rw [same.fields Ofs.sysEvent (by rw [sys]; decide)]
  · rw [beq_eq_false_iff_ne.mpr sys, Bool.false_and, Bool.false_and]

theorem absorb_ofFrame : absorb hash a (Msg.ofFrame m.bytes) = absorb hash a m := by
  have same := Msg.same_ofFrame positive long
  rw [absorb, absorb, ships_ofFrame positive, ← same.type, resolve_same same]
  split
  · rfl
  · split
    · rename_i dir
      rw [update_same a.symbols same dir]
    · rfl

theorem label_ofFrame : label hash a (Msg.ofFrame m.bytes) = label hash a m := by
  have same := Msg.same_ofFrame positive long
  by_cases ships : m.ships = true
  · have relevant := (Msg.ships_iff.mp ships).1
    have header : Ofs.timestamp + 6 ≤ msgLength (m.data Ofs.type) := by
      unfold gpuRelevant at relevant
      unfold msgLength
      cases ht : msgType? (m.data Ofs.type) with
      | none => simp [ht] at relevant
      | some t => cases t <;> decide
    have ts : (Msg.ofFrame m.bytes).timestamp = m.timestamp := (same.load48 header).symm
    rw [label_ships ships, label_ships (by rw [ships_ofFrame positive, ships]), ← resolve_same same,
      Msg.shipped, Msg.shipped, ts, Msg.bytes_ofFrame]
  · rw [label, label, opens_ofFrame positive long, ships_ofFrame positive, if_neg ships, if_neg ships]

omit positive long

/-- On frames as long as their type says, the labels and the assembler depend on the
bytes of the frames alone. -/
theorem labels_frames {ms : List Msg} (positive : ∀ m ∈ ms, 0 < m.len)
    (long : ∀ m ∈ ms, LongEnough m.bytes) :
    labels hash a (ms.map fun m => Msg.ofFrame m.bytes) = labels hash a ms := by
  induction ms generalizing a with
  | nil => rfl
  | cons m ms ih =>
    have hp := positive m List.mem_cons_self
    have hl := long m List.mem_cons_self
    simp only [List.map_cons, labels, label_ofFrame hp hl, absorb_ofFrame hp hl]
    rw [ih (fun n hn => positive n (List.mem_cons_of_mem m hn))
      (fun n hn => long n (List.mem_cons_of_mem m hn))]

theorem absorbAll_frames {ms : List Msg} (positive : ∀ m ∈ ms, 0 < m.len)
    (long : ∀ m ∈ ms, LongEnough m.bytes) :
    absorbAll hash a (ms.map fun m => Msg.ofFrame m.bytes) = absorbAll hash a ms := by
  induction ms generalizing a with
  | nil => rfl
  | cons m ms ih =>
    have hp := positive m List.mem_cons_self
    have hl := long m List.mem_cons_self
    simp only [List.map_cons, absorbAll_cons, absorb_ofFrame hp hl]
    exact ih (fun n hn => positive n (List.mem_cons_of_mem m hn))
      (fun n hn => long n (List.mem_cons_of_mem m hn))

/-! The pending flag does not reach the order table. -/

def withPending (a : BatchAssembler k) (pending : Bool) : BatchAssembler k :=
  { a with pendingReset := pending }

variable (pending : Bool)

theorem resolve_withPending (msg : Ptr) :
    (a.withPending pending).resolve hash msg =
      ((a.resolve hash msg).1, (a.resolve hash msg).2.withPending pending) := by
  unfold resolve
  cases msgType? (msg Ofs.type) with
  | none => rfl
  | some t =>
    cases t with
    | orderReplace =>
      cases found : a.orders.find hash (loadBe64 (shift msg Ofs.replaceOrigRef)) <;>
        simp [withPending, found]
    | _ => rfl

theorem absorb_withPending :
    absorb hash (a.withPending pending) m = (absorb hash a m).withPending pending := by
  unfold absorb
  split
  · rw [resolve_withPending]
  · split <;> rfl

theorem label_withPending : label hash (a.withPending pending) m = label hash a m := by
  unfold label
  rw [resolve_withPending]

theorem absorbAll_withPending (ms : List Msg) :
    absorbAll hash (a.withPending pending) ms = (absorbAll hash a ms).withPending pending := by
  induction ms generalizing a with
  | nil => rfl
  | cons m ms ih => rw [absorbAll_cons, absorbAll_cons, absorb_withPending, ih]

theorem labels_withPending (ms : List Msg) :
    labels hash (a.withPending pending) ms = labels hash a ms := by
  induction ms generalizing a with
  | nil => rfl
  | cons m ms ih => rw [labels, labels, label_withPending, absorb_withPending, ih]

omit pending

/-! Runs of calls. -/

theorem fillLoop_mono {turns more : Nat} (le : turns ≤ more) {p : ItchParser σ} {f : Filling k}
    {r : ItchParser σ × Filling k} (result : fillLoop source hash turns p f = some r) :
    fillLoop source hash more p f = some r := by
  induction turns generalizing more p f with
  | zero => cases result
  | succ turns ih =>
    obtain ⟨more, rfl⟩ : ∃ t, more = t + 1 := ⟨more - 1, by omega⟩
    have le' : turns ≤ more := Nat.le_of_succ_le_succ le
    obtain ⟨q, f'⟩ := r
    rcases fillLoop_cases result with ⟨full, rfl, rfl⟩ | ⟨room, ⟨call, rfl⟩ | ⟨m, p', call, turn⟩⟩
    · exact fillLoop_full full
    · exact fillLoop_ended room call
    · rw [fillLoop_message room call]
      rcases turn with ⟨closes, rfl, rfl⟩ | ⟨stays, later⟩
      · exact if_pos closes
      · rw [if_neg (Bool.eq_false_iff.mp stays)]
        exact ih le' later

/-- More turns than messages are enough. -/
theorem fill_returns {p q : ItchParser σ} {ms : List Msg}
    (yields : ItchParser.Yields source p ms q) (bounds : p.Bounds) (a : BatchAssembler k)
    (dst : Ptr) {turns : Nat} (enough : ms.length < turns) :
    ∃ p' f', fill source hash turns p a dst = some (p', f') := by
  obtain ⟨_, _, p', f', result, _⟩ :=
    fillLoop_drew yields bounds (f := .enter a dst) rfl (enter_holds a dst) enough
  exact ⟨p', f', result⟩

theorem fill_drew {p q p' : ItchParser σ} {ms : List Msg}
    (yields : ItchParser.Yields source p ms q) (bounds : p.Bounds) {dst : Ptr} {turns : Nat}
    {f' : Filling k} (call : fill source hash turns p a dst = some (p', f')) :
    ∃ used rest, Drew source hash dst (a.withPending false) ms q
      (take batchMsgs (labels hash a ms) ⟨[], a.pendingReset⟩) used rest p' f' := by
  obtain ⟨used, rest, p'', f'', result, drew⟩ :=
    fillLoop_drew yields bounds (f := .enter a dst) rfl (enter_holds a dst)
      (Nat.lt_of_lt_of_le (Nat.lt_succ_self _) (Nat.le_max_right turns _))
  have same := fillLoop_mono (Nat.le_max_left turns (ms.length + 1)) call
  rw [result, Option.some.injEq, Prod.mk.injEq] at same
  obtain ⟨rfl, rfl⟩ := same
  rw [show (Filling.enter a dst).asm = a.withPending false from rfl, labels_withPending] at drew
  exact ⟨used, rest, drew⟩

/-- Calls of `fill`, each into a buffer of the caller's choice, until one returns no
messages; `last` is that one. -/
inductive Batches (source : ByteSource σ) (hash : UInt64 → UInt64) :
    ItchParser σ → BatchAssembler k → List Call → Call → ItchParser σ → BatchAssembler k → Prop
  | stop {p q : ItchParser σ} {a : BatchAssembler k} {f : Filling k} (dst : Ptr) (turns : Nat)
      (call : fill source hash turns p a dst = some (q, f)) (empty : f.batchMeta.nMsgs = 0) :
      Batches source hash p a [] ⟨dst, f.batchMeta, f.dst⟩ q f.asm
  | batch {p q r : ItchParser σ} {a a' : BatchAssembler k} {f : Filling k} {calls : List Call}
      {last : Call} (dst : Ptr) (turns : Nat) (call : fill source hash turns p a dst = some (q, f))
      (some : f.batchMeta.nMsgs ≠ 0) (later : Batches source hash q f.asm calls last r a') :
      Batches source hash p a (⟨dst, f.batchMeta, f.dst⟩ :: calls) last r a'

/-- The calls show the batches the labelled stream is cut into. -/
theorem Batches.cuts {p q p' : ItchParser σ} {a a' : BatchAssembler k} {calls : List Call}
    {last : Call} {ms : List Msg} (run : Batches source hash p a calls last p' a')
    (yields : ItchParser.Yields source p ms q) (bounds : p.Bounds) :
    ∃ bs marked, Batching.Cuts batchMsgs a.pendingReset (labels hash a ms) bs ∧
      List.Forall₂ Call.Shows calls bs ∧ last.Shows ⟨[], marked⟩ ∧
      a' = (absorbAll hash a ms).withPending false := by
  induction run generalizing ms with
  | @stop p p' a f dst turns call empty =>
    obtain ⟨used, rest, drew⟩ := fill_drew yields bounds call
    have none : (take batchMsgs (labels hash a ms) ⟨[], a.pendingReset⟩).batch.items = [] := by
      rw [← List.length_eq_zero_iff, ← drew.holds.count]
      exact empty
    obtain ⟨flag, behind⟩ := Batching.take_none (by decide) _ none
    have nil : rest = [] := by
      have labels_nil := drew.rest
      rw [behind] at labels_nil
      cases rest with
      | nil => rfl
      | cons m rest => simp [labels] at labels_nil
    have shown : Call.Shows ⟨dst, f.batchMeta, f.dst⟩
        ⟨(take batchMsgs (labels hash a ms) ⟨[], a.pendingReset⟩).batch.items,
          (take batchMsgs (labels hash a ms) ⟨[], a.pendingReset⟩).batch.marked⟩ := drew.holds
    rw [none] at shown
    refine ⟨[], _, .stop none, .nil, shown, ?_⟩
    · rw [drew.asm, flag, drew.split, nil, List.append_nil, absorbAll_withPending]
      rfl
  | @batch p p' r a a' f calls last dst turns call some later ih =>
    obtain ⟨used, rest, drew⟩ := fill_drew yields bounds call
    obtain ⟨bs, marked, cuts, shows, shown, final⟩ := ih drew.yields drew.bounds
    have state : f.asm = (absorbAll hash a used).withPending
        (take batchMsgs (labels hash a ms) ⟨[], a.pendingReset⟩).pending := by
      rw [drew.asm, absorbAll_withPending]
      rfl
    have behind : labels hash f.asm rest =
        (take batchMsgs (labels hash a ms) ⟨[], a.pendingReset⟩).rest := by
      rw [state, labels_withPending, drew.rest, absorbAll_withPending, labels_withPending]
    have flag : f.asm.pendingReset =
        (take batchMsgs (labels hash a ms) ⟨[], a.pendingReset⟩).pending := by
      rw [state]
      rfl
    rw [behind, flag] at cuts
    refine ⟨_, marked, .batch ?_ cuts, .cons drew.holds shows, shown, ?_⟩
    · rw [Ne, ← List.length_eq_zero_iff, ← drew.holds.count]
      exact some
    · rw [final, state, absorbAll_withPending, drew.split, absorbAll_append]
      rfl

theorem Drew.shorter {q p' : ItchParser σ} {ms used rest : List Msg} {a' : BatchAssembler k}
    {before : Ptr} {pending : Bool} {f' : Filling k}
    (drew : Drew source hash before a' ms q (take batchMsgs (labels hash a ms) ⟨[], pending⟩)
      used rest p' f')
    (some : f'.batchMeta.nMsgs ≠ 0) : rest.length < ms.length := by
  have nonempty : (take batchMsgs (labels hash a ms) ⟨[], pending⟩).batch.items ≠ [] := by
    rw [Ne, ← List.length_eq_zero_iff, ← drew.holds.count]
    exact some
  have fewer := Batching.take_shorter (by decide) pending nonempty
  rwa [drew.rest, labels_length, labels_length] at fewer

/-- Whatever the buffers, the calls come to an end. -/
theorem exists_batches {p q : ItchParser σ} {ms : List Msg}
    (yields : ItchParser.Yields source p ms q) (bounds : p.Bounds) (a : BatchAssembler k)
    (dsts : Nat → Ptr) :
    ∃ calls last p' a', Batches source hash p a calls last p' a' ∧
      ∀ i c, (calls ++ [last])[i]? = some c → c.dst = dsts i := by
  generalize hn : ms.length = n
  induction n using Nat.strong_induction_on generalizing ms p a dsts with
  | _ n ih =>
    obtain ⟨p', f', call⟩ := fill_returns yields bounds a (dsts 0)
      (Nat.lt_succ_self ms.length)
    obtain ⟨used, rest, drew⟩ := fill_drew yields bounds call
    by_cases empty : f'.batchMeta.nMsgs = 0
    · refine ⟨[], _, p', f'.asm, .stop (dsts 0) _ call empty, fun i c hc => ?_⟩
      cases i with
      | zero => simpa using congrArg Call.dst (Option.some.inj hc).symm
      | succ i => simp at hc
    · obtain ⟨calls, last, p'', a'', run, own⟩ :=
        ih rest.length (hn ▸ drew.shorter empty) drew.yields drew.bounds f'.asm
          (fun i => dsts (i + 1)) rfl
      refine ⟨_, last, p'', a'', .batch (dsts 0) _ call empty run, fun i c hc => ?_⟩
      cases i with
      | zero => simpa using congrArg Call.dst (Option.some.inj hc).symm
      | succ i => exact own i c (by simpa using hc)

def frameItem (f : List UInt8) : Item (List UInt8) :=
  if (Msg.ofFrame f).opens then .mark else if (Msg.ofFrame f).ships then .ship f else .skip

theorem label_frameItem (f : List UInt8) :
    (label hash a (.ofFrame f)).map Shipped.frame = frameItem f := by
  unfold label frameItem
  split
  · rfl
  · split
    · simp [Item.map, Msg.shipped, Msg.bytes_ofFrame]
    · rfl

theorem labels_frameItem (fs : List (List UInt8)) :
    (labels hash a (fs.map Msg.ofFrame)).map (Item.map Shipped.frame) = fs.map frameItem := by
  induction fs generalizing a with
  | nil => rfl
  | cons f fs ih => simp [labels, label_frameItem, ih]

theorem ships_frameItem (fs : List (List UInt8)) :
    Batching.ships (fs.map frameItem) = fs.filter fun f => (Msg.ofFrame f).ships := by
  induction fs with
  | nil => rfl
  | cons f fs ih =>
    by_cases opens : (Msg.ofFrame f).opens = true
    · simp [frameItem, opens, Msg.not_ships_of_opens opens, ih]
    · by_cases ships : (Msg.ofFrame f).ships = true
      · simp [frameItem, opens, ships, ih]
      · simp [frameItem, opens, ships, ih]

theorem mem_ships_labels {s : Shipped} {ms : List Msg}
    (mem : s ∈ Batching.ships (labels hash a ms)) :
    ∃ m ∈ ms, m.ships = true ∧ ∃ sideTag, s = m.shipped sideTag := by
  induction ms generalizing a with
  | nil => simp [labels] at mem
  | cons m ms ih =>
    have later : s ∈ Batching.ships (labels hash (absorb hash a m) ms) →
        ∃ n ∈ m :: ms, n.ships = true ∧ ∃ sideTag, s = n.shipped sideTag := by
      intro mem
      obtain ⟨n, hn, rest⟩ := ih mem
      exact ⟨n, List.mem_cons_of_mem m hn, rest⟩
    by_cases ships : m.ships = true
    · simp only [labels, label_ships ships, Batching.ships_ship, List.mem_cons] at mem
      rcases mem with rfl | mem
      · exact ⟨m, List.mem_cons_self, ships, _, rfl⟩
      · exact later mem
    · by_cases opens : m.opens = true
      · simp only [labels, label_opens opens, Batching.ships_mark] at mem
        exact later mem
      · simp only [labels,
          label_passes (Bool.eq_false_iff.mpr opens) (Bool.eq_false_iff.mpr ships),
          Batching.ships_skip] at mem
        exact later mem

theorem mem_labels_ts {s : Shipped} {fs : List (List UInt8)}
    (mem : s ∈ Batching.ships (labels hash a (fs.map Msg.ofFrame))) :
    s.ts = (Msg.ofFrame s.frame).timestamp := by
  obtain ⟨m, hm, _, tag, rfl⟩ := mem_ships_labels mem
  obtain ⟨f, _, rfl⟩ := List.mem_map.mp hm
  simp [Msg.shipped, Msg.bytes_ofFrame]

def total (calls : List Call) : Nat := (calls.map fun c => c.batchMeta.nMsgs).sum

theorem total_shows {calls : List Call} {bs : List (Batch Shipped)}
    (shows : List.Forall₂ Call.Shows calls bs) :
    total calls = (bs.flatMap Batch.items).length := by
  induction shows with
  | nil => rfl
  | cons first _ ih => simp [total, first.count] at ih ⊢; omega

/-- A run over a stream of frames: the calls show batches placed in the frames, which
ship what the labelled frames ship. -/
theorem Batches.placed {p q : ItchParser σ} {a' : BatchAssembler k} {calls : List Call}
    {last : Call} {fs : List (List UInt8)}
    (run : Batches source hash p (start k) calls last q a') (hands : p.Hands source fs)
    (bounds : p.Bounds) (long : ∀ f ∈ fs, LongEnough f) :
    ∃ bs marked,
      Batching.Placed batchMsgs false (labels hash (start k) (fs.map Msg.ofFrame)) bs ∧
      List.Forall₂ Call.Shows calls bs ∧ last.Shows ⟨[], marked⟩ ∧
      a' = absorbAll hash (start k) (fs.map Msg.ofFrame) := by
  obtain ⟨ms, r, yields, rfl⟩ := hands
  have long' : ∀ m ∈ ms, LongEnough m.bytes := fun m hm => long _ (List.mem_map_of_mem hm)
  obtain ⟨bs, marked, cuts, shows, shown, final⟩ := run.cuts yields bounds
  have stream : labels hash (start k) ((ms.map Msg.bytes).map Msg.ofFrame) =
      labels hash (start k) ms := by
    rw [List.map_map]
    exact labels_frames yields.positive long'
  have state : absorbAll hash (start k) ((ms.map Msg.bytes).map Msg.ofFrame) =
      absorbAll hash (start k) ms := by
    rw [List.map_map]
    exact absorbAll_frames yields.positive long'
  refine ⟨bs, marked, ?_, shows, shown, ?_⟩
  · rw [stream]
    exact cuts.placed (by decide)
  · rw [state, final, ← absorbAll_withPending]
    rfl

end BatchAssembler

end ItchAggregator
