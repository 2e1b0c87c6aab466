import ItchAggregator.MessageReads

/-! Which messages are long enough for what is read of them. Only the upper bound of a
length is checked; a message that is shorter than the reads of its type shows the
bytes behind it in the buffer. -/

namespace ItchAggregator

open ReadLog (Reads)
open MsgReads (Inside)

/-- The name's copy loop stops inside the message, in the `left` turns from `n` on. -/
def NameInside (m : Msg) : (left n : Nat) → Prop
  | 0, _ => True
  | left + 1, n =>
    Ofs.dirStock + n < m.len ∧
      (m.data (Ofs.dirStock + n) = ' '.toUInt8 ∨ m.data (Ofs.dirStock + n) = 0 ∨
        NameInside m left (n + 1))

theorem inside_copyTicker (m : Msg) (left n : Nat) (dst : Ptr) :
    Inside m.data m.len (SymbolTable.copyTickerReads left n dst) ↔ NameInside m left n := by
  induction left generalizing n dst with
  | zero => simp [SymbolTable.copyTickerReads, NameInside]
  | succ left ih =>
    simp only [SymbolTable.copyTickerReads, NameInside, Reads.within_bind, Reads.within_get,
      Reads.run_get, Reads.within_ite, Reads.within_pure, ih]
    tauto

namespace BatchAssembler

variable {k : LogCapacity} {σ : Type} {source : ByteSource σ} {hash : UInt64 → UInt64}
  {a : BatchAssembler k} {f : Filling k} {m : Msg}

/-- The message holds what is read of a message of its type. The new reference, the
shares and the price of a replace are read if its original is live. -/
def Suffices (hash : UInt64 → UInt64) (a : BatchAssembler k) (m : Msg) : Prop :=
  match msgType? (m.data Ofs.type) with
  | some .stockDir =>
    Ofs.locate + 1 < m.len ∧
      ((loadBe16 (shift m.data Ofs.locate)).toNat < maxSymbols → NameInside m 8 0)
  | some .systemEvent => Ofs.sysEvent < m.len
  | some .addOrder | some .addOrderMpid => Ofs.addPrice + 3 < m.len
  | some .orderCancel => Ofs.cancelCanceled + 3 < m.len
  | some .orderDelete => Ofs.delRef + 7 < m.len
  | some .orderReplace =>
    Ofs.replaceOrigRef + 7 < m.len ∧
      (a.orders.find hash (loadBe64 (shift m.data Ofs.replaceOrigRef)) ≠ none →
        Ofs.replacePrice + 3 < m.len)
  | some .trade | some .tradeCross => Ofs.timestamp + 5 < m.len
  | none => True

theorem inside_relevant (relevant : gpuRelevant (m.data Ofs.type) = true) :
    Inside m.data m.len (onMessageReads hash f m.len) ↔ 0 < m.len ∧ (m.len ≤ slotBytes →
      Inside m.data m.len (resolveReads hash f.asm (m.data Ofs.type)) ∧ Ofs.timestamp + 5 < m.len) := by
  have dir : m.data Ofs.type ≠ MsgType.stockDir.code := fun dir => by
    rw [dir] at relevant
    exact absurd relevant (by decide)
  have sys : m.data Ofs.type ≠ MsgType.systemEvent.code := fun sys => by
    rw [sys] at relevant
    exact absurd relevant (by decide)
  simp only [onMessageReads, Reads.within_bind, Reads.within_get, Reads.run_get, if_neg dir,
    if_neg sys, relevant, Bool.not_true, Bool.false_eq_true, if_false, Reads.within_ite,
    Reads.within_pure, MsgReads.inside_message, MsgReads.inside_be48, Nat.not_lt]
  tauto

/-- The reads of the loop body stay inside the message exactly when it holds them. -/
theorem inside_onMessage (positive : 0 < m.len) :
    Inside m.data m.len (onMessageReads hash f m.len) ↔ Suffices hash f.asm m := by
  unfold Suffices
  cases type : msgType? (m.data Ofs.type) with
  | none =>
    have other : ∀ t : MsgType, m.data Ofs.type ≠ t.code := fun t is_t => by
      simp [msgType?_eq_some.mpr is_t] at type
    have irrelevant : gpuRelevant (m.data Ofs.type) = false := by simp only [gpuRelevant, type]
    simp only [onMessageReads, Reads.within_bind, Reads.within_get, Reads.run_get, if_neg (other _),
      irrelevant]
    simpa using positive
  | some t =>
    have code : m.data Ofs.type = t.code := msgType?_eq_some.mp type
    cases t with
    | stockDir =>
      simp only [onMessageReads, SymbolTable.updateReads, Reads.within_bind, Reads.within_get,
        Reads.run_get, code, if_true, Reads.within_ite, Reads.within_pure, MsgReads.inside_be16,
        MsgReads.run_be16, inside_copyTicker, Nat.not_le]
      tauto
    | systemEvent =>
      simp only [onMessageReads, Reads.within_bind, Reads.within_get, Reads.run_get, code,
        code_injective.eq_iff, reduceCtorEq, if_false, if_true, Reads.within_ite,
        Reads.within_pure]
      tauto
    | addOrder | addOrderMpid =>
      rw [inside_relevant (by rw [code]; decide), code]
      simp only [resolveReads, msgType?_code, Reads.within_bind, Reads.within_get,
        Reads.within_pure, MsgReads.inside_be16, MsgReads.inside_be32, MsgReads.inside_be64,
        and_true, Ofs.addRef, Ofs.locate, Ofs.addSide, Ofs.addShares, Ofs.addPrice, Ofs.timestamp,
        slotBytes]
      omega
    | orderCancel =>
      rw [inside_relevant (by rw [code]; decide), code]
      simp only [resolveReads, msgType?_code, Reads.within_bind, Reads.within_pure,
        MsgReads.inside_be32, MsgReads.inside_be64, and_true, Ofs.cancelRef, Ofs.cancelCanceled,
        Ofs.timestamp, slotBytes]
      omega
    | orderDelete =>
      rw [inside_relevant (by rw [code]; decide), code]
      simp only [resolveReads, msgType?_code, Reads.within_bind, Reads.within_pure,
        MsgReads.inside_be64, and_true, Ofs.delRef, Ofs.timestamp, slotBytes]
      omega
    | orderReplace =>
      rw [inside_relevant (by rw [code]; decide), code]
      cases found : f.asm.orders.find hash (loadBe64 (shift m.data Ofs.replaceOrigRef)) with
      | none =>
        simp only [resolveReads, msgType?_code, Reads.within_bind, Reads.within_pure,
          MsgReads.inside_be64, MsgReads.run_be64, found, Ofs.replaceOrigRef, Ofs.timestamp,
          slotBytes, ne_eq, not_true_eq_false, false_imp_iff, and_true]
        omega
      | some o =>
        simp only [resolveReads, msgType?_code, Reads.within_bind, Reads.within_pure,
          MsgReads.inside_be64, MsgReads.inside_be32, MsgReads.run_be64, found, Ofs.replaceOrigRef,
          Ofs.replaceNewRef, Ofs.replaceShares, Ofs.replacePrice, Ofs.timestamp, slotBytes, ne_eq,
          reduceCtorEq, not_false_eq_true, true_imp_iff, and_true]
        omega
    | trade | tradeCross =>
      rw [inside_relevant (by rw [code]; decide), code]
      simp only [resolveReads, msgType?_code, Reads.within_pure, true_and, Ofs.timestamp, slotBytes]
      omega

/-- The loop body reads the message alone: no byte behind it, so that its outcome is the
same whatever the buffer holds there. -/
structure ReadsOnly (hash : UInt64 → UInt64) (f : Filling k) (m : Msg) : Prop where
  inside : Inside m.data m.len (onMessageReads hash f m.len)
  same : ∀ m' : Msg, m'.bytes = m.bytes → onMessage hash f m' = onMessage hash f m

theorem same_bytes {m m' : Msg} (same : m'.bytes = m.bytes) :
    m'.len = m.len ∧ ∀ i < m.len, m'.data i = m.data i := by
  have length : m'.len = m.len := by
    rw [← length_bytes m'.data m'.len, ← length_bytes m.data m.len]
    exact congrArg List.length same
  refine ⟨length, fun i hi => ?_⟩
  rw [← getD_bytes m'.data (length ▸ hi), ← getD_bytes m.data hi]
  exact congrArg (·.getD i 0) same

theorem readsOnly_iff (positive : 0 < m.len) : ReadsOnly hash f m ↔ Suffices hash f.asm m := by
  rw [← inside_onMessage positive]
  refine ⟨ReadsOnly.inside, fun inside => ⟨inside, fun m' same => ?_⟩⟩
  obtain ⟨length, shown⟩ := same_bytes same
  rw [← run_onMessageReads, ← run_onMessageReads, length]
  exact inside.run_eq shown

theorem suffices_ofFrame (positive : 0 < m.len) :
    Suffices hash a (Msg.ofFrame m.bytes) ↔ Suffices hash a m := by
  obtain ⟨length, shown⟩ := same_bytes (Msg.bytes_ofFrame m.bytes)
  have frame := @inside_onMessage _ hash (.enter a fun _ => 0) _ (length ▸ positive)
  have own := @inside_onMessage _ hash (.enter a fun _ => 0) _ positive
  rw [length] at frame
  exact frame.symm.trans ((Iff.intro (fun inside => inside.congr fun i hi => (shown i hi).symm)
    fun inside => inside.congr shown).trans own)

theorem onMessage_absorbs (f : Filling k) (m : Msg) (pending : Bool) :
    (onMessage hash f m).2.asm.withPending pending = (absorb hash f.asm m).withPending pending := by
  by_cases opens : m.opens = true
  · rw [absorb_opens opens]
    by_cases empty : f.batchMeta.nMsgs = 0
    · rw [onMessage_opens_empty opens empty]
    · rw [onMessage_opens_break opens empty]
      rfl
  · by_cases ships : m.ships = true
    · rw [onMessage_ships ships]
      rfl
    · rw [onMessage_passes (Bool.eq_false_iff.mpr opens) (Bool.eq_false_iff.mpr ships)]

theorem absorb_of_suffices (positive : 0 < m.len) (enough : Suffices hash a m) :
    absorb hash a (Msg.ofFrame m.bytes) = absorb hash a m := by
  have only : ReadsOnly hash (.enter a fun _ => 0) m := (readsOnly_iff positive).mpr enough
  have outcome := only.same _ (Msg.bytes_ofFrame m.bytes)
  have pending : ∀ m, (absorb hash a m).withPending a.pendingReset = absorb hash a m := fun m => by
    rw [← @absorb_pendingReset _ hash a m]
    rfl
  have enters : ∀ m, (onMessage hash (.enter a fun _ => 0) m).2.asm.withPending a.pendingReset =
      absorb hash a m := fun m => by
    have entered : (Filling.enter a fun _ => 0).asm = a.withPending false := rfl
    rw [onMessage_absorbs, entered, absorb_withPending]
    exact pending m
  rw [← enters, ← enters, outcome]

theorem Passes.absorbed {p₀ p : ItchParser σ} {a₀ : BatchAssembler k} {seen : List Msg}
    {stop : Bool}
    (passes : Passes source hash p₀ a₀ seen p f stop) :
    f.asm.withPending false = (absorbAll hash a₀ seen).withPending false := by
  induction passes with
  | enter dst => rfl
  | @message seen p p' f m _ _ _ ih =>
    rw [onMessage_absorbs, ← absorb_withPending, ih, absorb_withPending, absorbAll_append]
    rfl
  | broken _ _ ih => exact ih
  | full _ _ _ ih => exact ih
  | ended _ _ _ _ ih => exact ih

theorem Passes.suffices_iff {p₀ p : ItchParser σ} {a₀ : BatchAssembler k} {seen : List Msg}
    {stop : Bool} (passes : Passes source hash p₀ a₀ seen p f stop) (m : Msg) :
    Suffices hash f.asm m ↔ Suffices hash (absorbAll hash a₀ seen) m := by
  have orders : f.asm.orders = (absorbAll hash a₀ seen).orders := by
    have same := congrArg BatchAssembler.orders passes.absorbed
    exact same
  unfold Suffices
  rw [orders]

abbrev asFrames (seen : List Msg) : List Msg := seen.map fun m => Msg.ofFrame m.bytes

/-- While the messages suffice, the assembler is that of their frames. -/
theorem absorbAll_asFrames {p₀ p : ItchParser σ} {a₀ : BatchAssembler k} {seen : List Msg}
    {stop : Bool} (passes : Passes source hash p₀ a₀ seen p f stop)
    (enough : ∀ seen q f m q', Passes source hash p₀ a₀ seen q f false →
      f.batchMeta.nMsgs < batchMsgs → q.next source = (some m, q') →
      absorbAll hash a₀ (asFrames seen) = absorbAll hash a₀ seen →
      Suffices hash (absorbAll hash a₀ seen) m) :
    absorbAll hash a₀ (asFrames seen) = absorbAll hash a₀ seen := by
  induction passes with
  | enter dst => rfl
  | @message seen p p' f m before room call ih =>
    have here := absorb_of_suffices (ItchParser.next_positive call)
      (enough seen p f m p' before room call ih)
    rw [asFrames, List.map_append, absorbAll_append, ih, absorbAll_append]
    exact here
  | broken _ _ ih => exact ih
  | full _ _ _ ih => exact ih
  | ended _ _ _ _ ih => exact ih

/-- In a run of `fill` every message is read alone exactly when every frame holds what is
read of its type: whatever the buffer, the reads of the source and the bytes around. -/
theorem reads_only_iff (source : ByteSource σ) (hash : UInt64 → UInt64) (k : LogCapacity)
    (p : ItchParser σ) :
    (∀ seen q f m q', Passes source hash p (start k) seen q f false →
      f.batchMeta.nMsgs < batchMsgs → q.next source = (some m, q') → ReadsOnly hash f m) ↔
    ∀ seen q f m q', Passes source hash p (start k) seen q f false →
      f.batchMeta.nMsgs < batchMsgs → q.next source = (some m, q') →
      Suffices hash (absorbAll hash (start k) (asFrames seen)) (Msg.ofFrame m.bytes) := by
  constructor
  · intro only seen q f m q' passes room call
    have enough : ∀ seen q f m q', Passes source hash p (start k) seen q f false →
        f.batchMeta.nMsgs < batchMsgs → q.next source = (some m, q') →
        Suffices hash (absorbAll hash (start k) seen) m :=
      fun seen q f m q' passes room call => (passes.suffices_iff m).mp
        ((readsOnly_iff (ItchParser.next_positive call)).mp (only seen q f m q' passes room call))
    rw [suffices_ofFrame (ItchParser.next_positive call), absorbAll_asFrames passes
      fun seen q f m q' passes room call _ => enough seen q f m q' passes room call]
    exact enough seen q f m q' passes room call
  · intro frames seen q f m q' passes room call
    have enough : ∀ seen q f m q', Passes source hash p (start k) seen q f false →
        f.batchMeta.nMsgs < batchMsgs → q.next source = (some m, q') →
        absorbAll hash (start k) (asFrames seen) = absorbAll hash (start k) seen →
        Suffices hash (absorbAll hash (start k) seen) m := by
      intro seen q f m q' passes room call same
      rw [← same, ← suffices_ofFrame (ItchParser.next_positive call)]
      exact frames seen q f m q' passes room call
    rw [readsOnly_iff (ItchParser.next_positive call), passes.suffices_iff]
    exact enough seen q f m q' passes room call (absorbAll_asFrames passes enough)

/-- A system event of one byte in front of a trade: the byte that decides whether the
market opens is one of the trade's timestamp. -/
theorem reads_beyond_event :
    let bs : List UInt8 := [0, 1, 83, 0, 44, 80, 0, 7, 0, 0, 0, 0, 0, 79, 0, 1, 0, 0, 0, 0, 0, 0, 0,
      1, 66, 0, 0, 0, 50, 65, 65, 80, 76, 32, 32, 32, 32, 0, 18, 214, 128, 0, 0, 0, 0, 0, 0, 0, 3]
    ∃ q f m q', Passes memSource OrderHash.mix (ItchParser.start bs 64) (start 24) [] q f false ∧
      f.batchMeta.nMsgs < batchMsgs ∧ q.next memSource = (some m, q') ∧
      m.bytes = [83] ∧ ¬Inside m.data m.len (onMessageReads OrderHash.mix f m.len) ∧
      (onMessage OrderHash.mix f m).2.batchMeta.resetVwap = true ∧
      (onMessage OrderHash.mix f (Msg.ofFrame m.bytes)).2.batchMeta.resetVwap = false := by
  intro bs
  have first : ((ItchParser.start bs 64).next memSource).1.map
      (fun m => (m.bytes, m.data Ofs.type, m.data Ofs.sysEvent)) = some ([83], 83, 79) := by decide
  obtain ⟨m, call, facts⟩ := Option.map_eq_some_iff.mp first
  simp only [Prod.mk.injEq] at facts
  obtain ⟨frame, type, event⟩ := facts
  have length : m.len = 1 :=
    (length_bytes m.data m.len).symm.trans (congrArg List.length frame)
  have is_event : msgType? (m.data Ofs.type) = some .systemEvent := msgType?_eq_some.mpr type
  have opens : m.opens = true := Msg.opens_iff.mpr ⟨type, event⟩
  refine ⟨_, _, m, _, .enter fun _ => 0, by decide, Prod.ext call rfl, frame, ?_, ?_, ?_⟩
  · rw [inside_onMessage (by omega), Suffices, is_event, length]
    exact show ¬Ofs.sysEvent < 1 by decide
  · rw [onMessage_opens_empty opens rfl]
  · rw [frame]
    decide

end BatchAssembler

end ItchAggregator
