import ItchAggregator.Program

/-! What becomes of a file that cannot be read to its end. The parser goes as it does over a
source that ends where this one fails, and so does a run; only the flag it stops with is
another, and with it the exit status. -/

namespace ItchAggregator

namespace ByteSource

variable {σ : Type}

/-- Every failure is taken for the end of the file. -/
def ended (source : ByteSource σ) : ByteSource σ where
  read s n :=
    match source.read s n with
    | (none, s) => (some ⟨[], Nat.zero_le n⟩, s)
    | (some bs, s) => (some bs, s)

/-- The source hands over the string `left` in pieces of any size and fails behind its end. -/
def BreaksOff (source : ByteSource σ) (left : σ → List UInt8) : Prop :=
  ∀ s n, (∃ bs s', source.read s n = (some bs, s') ∧ left s = bs.val ++ left s' ∧
      (bs.val = [] → n = 0)) ∨
    ∃ s', source.read s n = (none, s') ∧ left s = [] ∧ left s' = []

theorem BreaksOff.ended {source : ByteSource σ} {left : σ → List UInt8}
    (breaks : source.BreaksOff left) : source.ended.Delivers left := by
  intro s n
  rcases breaks s n with ⟨bs, s', read, string, empty⟩ | ⟨s', read, nil, nil'⟩
  · exact ⟨bs, s', by simp only [ByteSource.ended, read], string, fun none => Or.inr (empty none)⟩
  · refine ⟨⟨[], Nat.zero_le n⟩, s', by simp only [ByteSource.ended, read], ?_, fun _ => Or.inl nil⟩
    rw [nil, nil']
    rfl

end ByteSource

def EndMarked : List UInt8 → Prop
  | hi :: lo :: _ => hi.toNat * 256 + lo.toNat = 0
  | _ => False

instance : DecidablePred EndMarked
  | [] | [_] => isFalse id
  | hi :: lo :: _ => Nat.decEq (hi.toNat * 256 + lo.toNat) 0

namespace ItchParser

variable {σ : Type} {source : ByteSource σ} {left : σ → List UInt8} {p q : ItchParser σ}
  {bs : List UInt8} {want : Nat}

/-- The top-up loop goes the same way until the source fails. -/
theorem refill_ended (source : ByteSource σ) (want turns : Nat) (p : ItchParser σ) :
    refill source.ended want turns p = refill source want turns p ∨
      (refill source want turns p).1 = false ∧ (refill source.ended want turns p).1 = false := by
  induction turns generalizing p with
  | zero => exact Or.inl rfl
  | succ turns ih =>
    unfold refill
    split
    · obtain ⟨⟨answer, s⟩, read⟩ : ∃ a, source.read p.src (p.bufBytes - p.tail) = a := ⟨_, rfl⟩
      cases answer with
      | none =>
        right
        simp [ByteSource.ended, read]
      | some bs =>
        simp only [ByteSource.ended, read]
        split
        · exact Or.inl rfl
        · exact ih _
    · exact Or.inl rfl

theorem ensure_ended (source : ByteSource σ) (want : Nat) (p : ItchParser σ) :
    ensure source.ended want p = ensure source want p ∨
      (ensure source want p).1 = false ∧ (ensure source.ended want p).1 = false := by
  unfold ensure
  split
  · exact Or.inl rfl
  · split
    · exact Or.inl rfl
    · exact refill_ended source want want p.compact

theorem ensure_of_ended (result : ensure source.ended want p = (true, q)) :
    ensure source want p = (true, q) := by
  rcases ensure_ended source want p with same | ⟨_, refused⟩
  · exact same.symm.trans result
  · rw [result] at refused
    cases refused

theorem ensure_refused_of_ended (result : ensure source.ended want p = (false, q)) :
    ∃ r, ensure source want p = (false, r) := by
  rcases ensure_ended source want p with same | ⟨refused, _⟩
  · exact ⟨q, same.symm.trans result⟩
  · exact ⟨_, Prod.ext refused rfl⟩

theorem next_of_ended {m : Msg} (call : next source.ended p = (some m, q)) :
    next source p = (some m, q) := by
  have outcome := next_case source.ended p
  rw [call] at outcome
  cases outcome with
  | message r r' first positive second =>
    exact next_message (ensure_of_ended first) positive (ensure_of_ended second)

theorem refill_breaks (breaks : source.BreaksOff left) (want turns : Nat) (h : p.Bounds)
    (front : p.head = 0) (fits : want ≤ p.bufBytes) (refused : (refill source want turns p).1 = false) :
    (refill source want turns p).2.error = true := by
  induction turns generalizing p with
  | zero => cases refused
  | succ turns ih =>
    unfold refill at refused ⊢
    by_cases short : p.tail - p.head < want
    · rw [if_pos short] at refused ⊢
      rcases breaks p.src (p.bufBytes - p.tail) with ⟨bs, s, read, _, empty⟩ | ⟨s, read, _⟩
      · have some_ : bs.val.length ≠ 0 := by
          intro zero
          have full := empty (List.length_eq_zero_iff.mp zero)
          omega
        simp only [read, some_, if_false] at refused ⊢
        exact ih (read_grown h s bs).bounds front fits refused
      · rw [read]
    · rw [if_neg short] at refused
      cases refused

theorem ensure_breaks (breaks : source.BreaksOff left) (live : Live left p bs)
    (fits : want ≤ p.bufBytes) (refused : ensure source want p = (false, q)) :
    q.error = true := by
  unfold ensure at refused
  split at refused
  · cases refused
  · rw [if_neg (by simp [live.eof, live.error])] at refused
    have result := refill_breaks breaks want want (compact_bounds live.bounds)
      (compact_head p) (by rwa [compact_bufBytes]) (congrArg Prod.fst refused)
    rwa [refused] at result

/-- Behind the last frame the flag goes up, if there is no end-of-session marker. -/
theorem Live.next_breaks (live : Live left p bs) (breaks : source.BreaksOff left)
    (room : 2 ^ 16 + 1 ≤ p.bufBytes) (stop : frames bs = []) :
    ∃ q, next source p = (none, q) ∧ (q.error = true ↔ ¬EndMarked bs) := by
  have hsrc := breaks.ended
  match bs with
  | [] | [_] =>
    obtain ⟨_, refused⟩ := live.ensure_refused hsrc (by simp : _ < 2)
    obtain ⟨q, first⟩ := ensure_refused_of_ended refused
    exact ⟨q, next_noPrefix first, by simp [ensure_breaks breaks live (by omega) first, EndMarked]⟩
  | hi :: lo :: rest =>
    obtain ⟨q, first, liveq, two, grownq⟩ :=
      live.ensure_met hsrc (by omega : 2 ≤ p.bufBytes) (by simp)
    have first := ensure_of_ended first
    have prefixed := liveq.promised two
    by_cases zero : q.promised = 0
    · refine ⟨_, next_marker first zero, ?_⟩
      simp [liveq.error, EndMarked, ← prefixed, zero]
    · have cut : rest.length < q.promised := by
        rw [frames_cons] at stop
        by_contra whole
        rw [if_neg (by omega)] at stop
        cases stop
      obtain ⟨_, refused⟩ := liveq.ensure_refused hsrc
        (by simp; omega : (hi :: lo :: rest).length < 2 + q.promised)
      obtain ⟨r, second⟩ := ensure_refused_of_ended refused
      have small : q.promised < 2 ^ 16 := UInt16.toNat_lt _
      have failed : r.error = true :=
        ensure_breaks breaks liveq (by rw [grownq.bufBytes]; omega) second
      refine ⟨_, next_truncated first zero second, ?_⟩
      have flag : r.cutOff.error = true := by
        unfold cutOff
        split <;> simp [failed]
      simp [flag, EndMarked, ← prefixed, zero]

theorem Live.yields_breaks (live : Live left p bs) (breaks : source.BreaksOff left)
    (room : 2 ^ 16 + 1 ≤ p.bufBytes) :
    ∃ ms q, Yields source p ms q ∧ ms.map Msg.bytes = frames bs ∧
      (q.error = true ↔ ¬EndMarked (leftover bs)) := by
  induction bs using frames_induction generalizing p with
  | stop bs stop =>
    obtain ⟨q, call, flag⟩ := live.next_breaks breaks room stop
    exact ⟨[], q, .stop call, by simp [stop], by rw [flag, leftover_stop stop]⟩
  | frame hi lo rest positive whole ih =>
    have := hi.toNat_lt
    have := lo.toNat_lt
    obtain ⟨m, q, call, payload, _, liveq, size⟩ :=
      live.next_frame breaks.ended rfl positive whole (by omega)
    obtain ⟨ms, r, later, same, flag⟩ := ih liveq (by omega)
    refine ⟨m :: ms, r, .message (next_of_ended call) later, ?_, ?_⟩
    · rw [List.map_cons, payload, same, frames_frame positive whole]
    · rw [flag, leftover_frame positive whole]

end ItchParser

/-- A run over the bytes `bs` asks for nothing behind them: it comes to the end-of-session
marker, or it stops at its limit. -/
def NeverAsks (limit : Nat) (bs : List UInt8) : Prop :=
  EndMarked (leftover bs) ∨ Unasked limit (readUnder limit ((frames bs).map Msg.ofFrame))

instance (limit : Nat) (bs : List UInt8) : Decidable (NeverAsks limit bs) := by
  unfold NeverAsks Unasked
  infer_instance

section Run

variable {σ : Type} {source : ByteSource σ} {left : σ → List UInt8} {s : σ}

/-- The run returns, tells of the bytes in front of the failure, and has the flag up unless it
has not come to the failure. -/
theorem runCpu_breaks (breaks : source.BreaksOff left)
    (long : ∀ f ∈ frames (left s), LongEnough f) (opt : Options) :
    (∃ turns r, runCpu source opt turns s = some r) ∧
    ∀ turns r, runCpu source opt turns s = some r →
      Tells opt.snapshotInterval (readUnder opt.maxMsgs ((frames (left s)).map Msg.ofFrame)) r ∧
      (r.parser.error = true ↔ ¬NeverAsks opt.maxMsgs (left s)) := by
  have live := ItchParser.start_live left s ItchParser.defaultBufBytes
  have room : 2 ^ 16 + 1 ≤ ItchParser.defaultBufBytes := by decide
  obtain ⟨ms, q, yields, same, flag⟩ := live.yields_breaks breaks room
  have hands : (ItchParser.start s ItchParser.defaultBufBytes).Hands source (frames (left s)) :=
    ⟨ms, q, yields, same⟩
  refine ⟨runCpu_ofHands hands opt, fun turns r result => ⟨runCpu_hands hands long result, ?_⟩⟩
  rw [runCpu_asked yields (same ▸ long) result, flag, same, NeverAsks, not_or]

variable {gzopen : List UInt8 → Option σ} {m : DeviceMemory} {clock : Clock} {argv0 : List UInt8}
  {args : List (List UInt8)} {out : Outcome}

/-- A file that cannot be read behind the bytes `left s` has the outcome of a file with these
bytes, but for the exit status. This is 1, unless the program never asks for more. -/
theorem main_breaksOff {o : ProgramOptions} (breaks : source.BreaksOff left)
    (parsed : parseArgs args .default = .accepted o) (opened : gzopen o.file = some s)
    (long : ∀ f ∈ frames (left s), LongEnough f) :
    Main source gzopen m clock argv0 args out ↔
      out = { Outcome.ofBytes o clock (left s) with
        status := if NeverAsks o.maxMsgs (left s) then 0 else 1 } := by
  obtain ⟨returns, tells⟩ := runCpu_breaks breaks long o.toOptions
  refine main_accepted parsed opened returns fun turns r result => ?_
  obtain ⟨tells, flag⟩ := tells turns r result
  refine tells.leaves ?_
  have limit : o.toOptions.maxMsgs = o.maxMsgs := rfl
  rw [limit] at flag
  simp only [flag, ite_not]

def brokenSource : ByteSource (List UInt8) where
  read left n :=
    if left = [] then (none, []) else (some ⟨left.take n, List.length_take_le n left⟩, left.drop n)

theorem brokenSource_breaksOff : brokenSource.BreaksOff id := by
  intro left n
  by_cases nil : left = []
  · exact Or.inr ⟨[], if_pos nil, nil, rfl⟩
  · refine Or.inl ⟨_, _, if_neg nil, (List.take_append_drop n left).symm, fun none => ?_⟩
    exact (List.take_eq_nil_iff.mp none).resolve_right nil

end Run

/-- A failure behind two batches. -/
theorem main_breaksOff_reopened :
    ∃ out', Main brokenSource (fun _ => some reopened) DeviceMemory.zeroed ⟨['1'], ['2'], [], 0⟩ []
        [fileFlag, [120], snapshotIntervalFlag, [49]] out' ∧ out'.status = 1 ∧
      out'.stderr = out ("# parsed=3 shipped=2 batches=2 snapshots=3 wall=1s rate=2M msg/s ".toList ++
        "unresolved_replaces=0 unknown_cancels=0\n".toList) := by
  let o : ProgramOptions := { ProgramOptions.default with
    file := [120], snapshotInterval := 1, interval_pos := Nat.one_pos }
  have long : ∀ f ∈ frames (id reopened), LongEnough f := fun f mem =>
    (reopened_exact f mem).longEnough
  have asks : ¬NeverAsks o.maxMsgs (id reopened) := by decide +kernel
  have parsed : parseArgs [fileFlag, [120], snapshotIntervalFlag, [49]] .default = .accepted o := rfl
  refine ⟨_, (main_breaksOff brokenSource_breaksOff parsed ?_ long).mpr rfl, ?_, ?_⟩
  · rfl
  · dsimp only
    rw [if_neg asks]
  · decide +kernel

end ItchAggregator
