import ItchAggregator.Framing

/-! The Python pass over the decompressed file: frames are read off the front, counted by
type, and the trades of a locate are summed in unbounded integers. A slice that is too
short for its field and a ticker that is not ASCII raise. -/

namespace ItchAggregator

/-- How `main` ends without its result: the truncation it reports, or an exception. -/
inductive ValidateError
  | truncated
  | structError
  | unicodeDecodeError
  deriving DecidableEq, Repr

/-- The tables of `main`; the counts go by the type byte. -/
structure ValidateCounts where
  counts : UInt8 → Nat := fun _ => 0
  sharesByLocate : Nat → Nat := fun _ => 0
  numByLocate : Nat → Nat := fun _ => 0
  names : Nat → Option (List UInt8) := fun _ => none
  total : Nat := 0

namespace ValidateCounts

/-- `msg[i:j]`. -/
def slice (msg : List UInt8) (i j : Nat) : List UInt8 := (msg.take j).drop i

/-- `struct.Struct(">…").unpack` of a field of `n` bytes. -/
def unpack (n : Nat) (field : List UInt8) : Except ValidateError Nat :=
  if field.length = n then .ok (field.foldl (fun v b => v * 256 + b.toNat) 0)
  else .error .structError

def isSpace (b : UInt8) : Bool := b == 32 || (9 ≤ b && b ≤ 13) || (28 ≤ b && b ≤ 31)

def decodeStrip (field : List UInt8) : Except ValidateError (List UInt8) :=
  if field.all (· < 128) then .ok ((field.dropWhile isSpace).reverse.dropWhile isSpace).reverse
  else .error .unicodeDecodeError

/-- The branches of the two trades: shares of `n` bytes at `i`, the price at `j`. -/
def addTrade (v : ValidateCounts) (msg : List UInt8) (i n j : Nat) :
    Except ValidateError ValidateCounts := do
  let locate ← unpack 2 (slice msg 1 3)
  let shares ← unpack n (slice msg i (i + n))
  let price ← unpack 4 (slice msg j (j + 4))
  pure
    { v with
      sharesByLocate := Function.update v.sharesByLocate locate (v.sharesByLocate locate + shares)
      numByLocate := Function.update v.numByLocate locate (v.numByLocate locate + shares * price) }

def addName (v : ValidateCounts) (msg : List UInt8) : Except ValidateError ValidateCounts := do
  let locate ← unpack 2 (slice msg 1 3)
  let name ← decodeStrip (slice msg 11 19)
  pure { v with names := Function.update v.names locate (some name) }

def message (v : ValidateCounts) (msg : List UInt8) : Except ValidateError ValidateCounts :=
  let t := msg.headD 0
  let v :=
    { v with
      counts := Function.update v.counts t (v.counts t + 1)
      total := v.total + 1 }
  if t = 'R'.toUInt8 then addName v msg
  else if t = 'P'.toUInt8 then addTrade v msg 20 4 32
  else if t = 'Q'.toUInt8 then addTrade v msg 11 8 27
  else .ok v

/-- The loop of `main`; every turn reads two bytes, so the file's length bounds them. -/
def loop (maxMsgs : Nat) : Nat → List UInt8 → ValidateCounts → Except ValidateError ValidateCounts
  | turns + 1, hi :: lo :: rest, v =>
    let length := hi.toNat * 256 + lo.toNat
    if length = 0 then .ok v
    else if rest.length < length then .error .truncated
    else
      match message v (rest.take length) with
      | .error e => .error e
      | .ok v =>
        if maxMsgs ≠ 0 ∧ maxMsgs ≤ v.total then .ok v
        else loop maxMsgs turns (rest.drop length) v
  | _, _, v => .ok v

/-- `main` on the bytes of the file, up to its output. -/
def main (maxMsgs : Nat) (bs : List UInt8) : Except ValidateError ValidateCounts :=
  loop maxMsgs bs.length bs {}

/-- The fields that `main` reads of the message are there, and its ticker is ASCII. -/
def Readable (msg : List UInt8) : Prop :=
  (msg.headD 0 = 'R'.toUInt8 → 3 ≤ msg.length ∧ ∀ b ∈ slice msg 11 19, b < 128) ∧
    (msg.headD 0 = 'P'.toUInt8 → 36 ≤ msg.length) ∧
    (msg.headD 0 = 'Q'.toUInt8 → 31 ≤ msg.length)

instance (msg : List UInt8) : Decidable (Readable msg) := by
  unfold Readable
  infer_instance

theorem unpack_ok {n : Nat} {field : List UInt8} (length : field.length = n) :
    ∃ x, unpack n field = .ok x := ⟨_, if_pos length⟩

theorem unpack_error {n : Nat} {field : List UInt8} (length : field.length ≠ n) :
    unpack n field = .error .structError := if_neg length

theorem length_slice (msg : List UInt8) (i j : Nat) :
    (slice msg i j).length = min j msg.length - i := by simp [slice]

structure Counts (v v' : ValidateCounts) (msg : List UInt8) : Prop where
  total : v'.total = v.total + 1
  counts : v'.counts = Function.update v.counts (msg.headD 0) (v.counts (msg.headD 0) + 1)

variable {v : ValidateCounts} {msg : List UInt8} {i n j : Nat}

theorem addTrade_ok (long : j + 4 ≤ msg.length) (before : i + n ≤ j + 4) :
    ∃ v', addTrade v msg i n j = .ok v' ∧ v'.total = v.total ∧ v'.counts = v.counts := by
  obtain ⟨locate, first⟩ := @unpack_ok 2 (slice msg 1 3) (by rw [length_slice]; omega)
  obtain ⟨shares, second⟩ := @unpack_ok n (slice msg i (i + n)) (by rw [length_slice]; omega)
  obtain ⟨price, third⟩ := @unpack_ok 4 (slice msg j (j + 4)) (by rw [length_slice]; omega)
  simp only [addTrade, first, second, third]
  exact ⟨_, rfl, rfl, rfl⟩

/-- A trade without its price raises, whichever field it is that is cut off. -/
theorem addTrade_short (short : msg.length < j + 4) :
    addTrade v msg i n j = .error .structError := by
  have third : unpack 4 (slice msg j (j + 4)) = .error .structError :=
    unpack_error (by rw [length_slice]; omega)
  unfold addTrade
  by_cases locate : (slice msg 1 3).length = 2
  · obtain ⟨x, first⟩ := unpack_ok locate
    rw [first]
    by_cases shares : (slice msg i (i + n)).length = n
    · obtain ⟨y, second⟩ := unpack_ok shares
      rw [second, third]
      rfl
    · rw [unpack_error shares]
      rfl
  · rw [unpack_error locate]
    rfl

theorem addName_ok (long : 3 ≤ msg.length) (ascii : ∀ b ∈ slice msg 11 19, b < 128) :
    ∃ v', addName v msg = .ok v' ∧ v'.total = v.total ∧ v'.counts = v.counts := by
  obtain ⟨locate, first⟩ := @unpack_ok 2 (slice msg 1 3) (by rw [length_slice]; omega)
  have decoded : (slice msg 11 19).all (· < 128) = true := by simpa using ascii
  simp only [addName, first, decodeStrip, decoded, if_true]
  exact ⟨_, rfl, rfl, rfl⟩

theorem addName_error (bad : ¬(3 ≤ msg.length ∧ ∀ b ∈ slice msg 11 19, b < 128)) :
    ∃ e, addName v msg = .error e ∧ e ≠ .truncated := by
  unfold addName
  by_cases long : 3 ≤ msg.length
  · obtain ⟨locate, first⟩ := @unpack_ok 2 (slice msg 1 3) (by rw [length_slice]; omega)
    have undecoded : ¬(slice msg 11 19).all (· < 128) = true := fun decoded =>
      bad ⟨long, by simpa using decoded⟩
    refine ⟨.unicodeDecodeError, ?_, by decide⟩
    rw [first, decodeStrip, if_neg undecoded]
    rfl
  · refine ⟨.structError, ?_, by decide⟩
    rw [unpack_error (by rw [length_slice]; omega)]
    rfl

/-- A readable message is counted; any other one raises. -/
theorem message_readable (readable : Readable msg) (v : ValidateCounts) :
    ∃ v', message v msg = .ok v' ∧ Counts v v' msg := by
  obtain ⟨dir, trade, cross⟩ := readable
  unfold message
  dsimp only
  split
  · rename_i isR
    obtain ⟨v', result, total, counts⟩ := addName_ok (dir isR).1 (dir isR).2
    exact ⟨v', result, total, counts⟩
  · split
    · rename_i isP
      obtain ⟨v', result, total, counts⟩ := addTrade_ok (trade isP) (by decide : 20 + 4 ≤ 32 + 4)
      exact ⟨v', result, total, counts⟩
    · split
      · rename_i isQ
        obtain ⟨v', result, total, counts⟩ := addTrade_ok (cross isQ) (by decide : 11 + 8 ≤ 27 + 4)
        exact ⟨v', result, total, counts⟩
      · exact ⟨_, rfl, rfl, rfl⟩

theorem message_unreadable (unreadable : ¬Readable msg) (v : ValidateCounts) :
    ∃ e, message v msg = .error e ∧ e ≠ .truncated := by
  unfold message
  dsimp only
  split
  · rename_i isR
    refine addName_error fun fine => unreadable ⟨fun _ => fine, ?_, ?_⟩ <;>
      · rw [isR]
        exact fun other => absurd other (by decide)
  · split
    · rename_i isP
      refine ⟨.structError, addTrade_short ?_, by decide⟩
      by_contra long
      refine unreadable ⟨?_, fun _ => Nat.not_lt.mp long, ?_⟩ <;>
        · rw [isP]
          exact fun other => absurd other (by decide)
    · split
      · rename_i isQ
        refine ⟨.structError, addTrade_short ?_, by decide⟩
        by_contra long
        refine unreadable ⟨?_, ?_, fun _ => Nat.not_lt.mp long⟩ <;>
          · rw [isQ]
            exact fun other => absurd other (by decide)
      · rename_i notR notP notQ
        exact absurd ⟨fun isR => absurd isR notR, fun isP => absurd isP notP,
          fun isQ => absurd isQ notQ⟩ unreadable

/-! The pass over the whole file, frame by frame. -/

variable {bs : List UInt8} {maxMsgs turns : Nat}

theorem loop_stop (stop : frames bs = []) (enough : bs.length ≤ turns) :
    loop maxMsgs turns bs v = if CutOff bs then .error .truncated else .ok v := by
  match turns, bs with
  | 0, [] | _ + 1, [] | _ + 1, [_] => rfl
  | turns + 1, hi :: lo :: rest =>
    unfold loop
    dsimp only
    by_cases zero : hi.toNat * 256 + lo.toNat = 0
    · rw [if_pos zero, if_neg fun cut => cut.1 zero]
    · have short : rest.length < hi.toNat * 256 + lo.toNat := by
        by_contra whole
        rw [frames_frame zero (Nat.le_of_not_lt whole)] at stop
        exact absurd stop (List.cons_ne_nil _ _)
      rw [if_neg zero, if_pos short, if_pos ⟨zero, short⟩]

theorem loop_frame {hi lo : UInt8} {rest : List UInt8} (positive : hi.toNat * 256 + lo.toNat ≠ 0)
    (whole : hi.toNat * 256 + lo.toNat ≤ rest.length) :
    loop maxMsgs (turns + 1) (hi :: lo :: rest) v =
      match message v (rest.take (hi.toNat * 256 + lo.toNat)) with
      | .error e => .error e
      | .ok v =>
        if maxMsgs ≠ 0 ∧ maxMsgs ≤ v.total then .ok v
        else loop maxMsgs turns (rest.drop (hi.toNat * 256 + lo.toNat)) v := by
  rw [loop, if_neg positive, if_neg (Nat.not_lt.mpr whole)]

/-- Without a limit the pass reports a truncation exactly when it gets to a frame cut
off. -/
theorem loop_truncated (enough : bs.length ≤ turns) :
    loop 0 turns bs v = .error .truncated ↔
      CutOff (leftover bs) ∧ ∀ f ∈ frames bs, Readable f := by
  induction bs using frames_induction generalizing turns v with
  | stop bs stop =>
    rw [loop_stop stop enough, leftover_stop stop, stop]
    by_cases cut : CutOff bs <;> simp [cut]
  | frame hi lo rest positive whole ih =>
    obtain ⟨turns, rfl⟩ : ∃ t, turns = t + 1 := ⟨turns - 1, by simp at enough; omega⟩
    rw [loop_frame positive whole, leftover_frame positive whole, frames_frame positive whole,
      List.forall_mem_cons]
    by_cases readable : Readable (rest.take (hi.toNat * 256 + lo.toNat))
    · obtain ⟨v', result, _⟩ := message_readable readable v
      have later := @ih v' turns (by simp only [List.length_cons, List.length_drop] at enough ⊢; omega)
      simp only [result, ne_eq, not_true_eq_false, false_and, if_false, later]
      tauto
    · obtain ⟨e, result, other⟩ := message_unreadable readable v
      simp only [result, Except.error.injEq]
      tauto

theorem main_truncated (bs : List UInt8) : main 0 bs = .error .truncated ↔
    CutOff (leftover bs) ∧ ∀ f ∈ frames bs, Readable f := loop_truncated (Nat.le_refl _)

/-- With a limit the pass counts the frames up to the one that reaches it. -/
theorem loop_counts (enough : bs.length ≤ turns) (below : v.total < maxMsgs)
    (whole : ¬CutOff (leftover bs))
    (readable : ∀ f ∈ frames bs, Readable f) :
    ∃ v', loop maxMsgs turns bs v = .ok v' ∧
      v'.total = min maxMsgs (v.total + (frames bs).length) ∧
      ∀ t, v'.counts t = v.counts t +
        ((frames bs).take (maxMsgs - v.total)).countP fun f => f.head? == some t := by
  induction bs using frames_induction generalizing turns v with
  | stop bs stop =>
    rw [leftover_stop stop] at whole
    refine ⟨v, by rw [loop_stop stop enough, if_neg whole], ?_, by simp [stop]⟩
    rw [stop, List.length_nil, Nat.add_zero, min_eq_right (Nat.le_of_lt below)]
  | frame hi lo rest promised fits ih =>
    obtain ⟨turns, rfl⟩ : ∃ t, turns = t + 1 := ⟨turns - 1, by simp at enough; omega⟩
    rw [leftover_frame promised fits] at whole
    rw [frames_frame promised fits, List.forall_mem_cons] at readable
    obtain ⟨v₁, result, counts⟩ := message_readable readable.1 v
    have type : (rest.take (hi.toNat * 256 + lo.toNat)).head? =
        some ((rest.take (hi.toNat * 256 + lo.toNat)).headD 0) := by
      have length : (rest.take (hi.toNat * 256 + lo.toNat)).length ≠ 0 := by
        rwa [List.length_take_of_le fits]
      cases msg : rest.take (hi.toNat * 256 + lo.toNat) with
      | nil => simp [msg] at length
      | cons b msg => rfl
    rw [loop_frame promised fits, result, frames_frame promised fits]
    generalize rest.take (hi.toNat * 256 + lo.toNat) = msg at type counts
    obtain ⟨total, counts⟩ := counts
    generalize msg.headD 0 = b at type counts
    have one : ∀ t, v₁.counts t = v.counts t + if msg.head? == some t then 1 else 0 := by
      intro t
      rw [counts, Function.update_apply, type]
      by_cases same : t = b
      · simp [same]
      · simp [same, Ne.symm same]
    dsimp only
    split
    · rename_i reached
      have last : maxMsgs - v.total = 1 := by omega
      refine ⟨v₁, rfl, by simp only [List.length_cons]; omega, fun t => ?_⟩
      rw [last, List.take_succ_cons, List.take_zero, List.countP_singleton, one]
    · rename_i more
      have shorter : (rest.drop (hi.toNat * 256 + lo.toNat)).length ≤ turns := by
        simp only [List.length_cons, List.length_drop] at enough ⊢
        omega
      have below₁ : v₁.total < maxMsgs := by omega
      obtain ⟨v', ended, all, sums⟩ := ih shorter below₁ whole readable.2
      refine ⟨v', ended, by simp only [all, List.length_cons]; omega, fun t => ?_⟩
      have left : maxMsgs - v.total = maxMsgs - v₁.total + 1 := by omega
      rw [sums, one, left, List.take_succ_cons, List.countP_cons, Nat.add_assoc,
        Nat.add_comm (ite _ _ _)]

theorem main_counts (positive : 0 < maxMsgs) (whole : ¬CutOff (leftover bs))
    (readable : ∀ f ∈ frames bs, Readable f) :
    ∃ v, main maxMsgs bs = .ok v ∧ v.total = min maxMsgs (frames bs).length ∧
      ∀ t, v.counts t = ((frames bs).take maxMsgs).countP fun f => f.head? == some t := by
  obtain ⟨v, result, total, counts⟩ := loop_counts (v := {}) (Nat.le_refl bs.length)
    positive whole readable
  exact ⟨v, result, by simpa using total, by simpa using counts⟩

end ValidateCounts

end ItchAggregator
