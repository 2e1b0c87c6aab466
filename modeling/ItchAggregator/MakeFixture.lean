import ItchAggregator.CrossCheck
import ItchAggregator.Program
import ItchAggregator.SyntheticStream

/-! Fixtures: the first messages of a day's file, copied in whole frames. A fixture of as
many messages as a run has read stands in for the file in every output of that run, and
validating a fixture is validating the file with a limit. -/

namespace ItchAggregator

open MakeSynthetic (prefixed)
open BatchAssembler

structure MakeFixture where
  n : Nat := 0
  dst : List UInt8 := []

namespace MakeFixture

/-- The loop of `main`; a turn reads two bytes, so the file's length bounds them. -/
def loop (nTarget : Int) : Nat → List UInt8 → MakeFixture → MakeFixture
  | turns + 1, hi :: lo :: rest, x =>
    if (x.n : Int) < nTarget then
      let length := hi.toNat * 256 + lo.toNat
      if length = 0 then x
      else if rest.length < length then x
      else
        loop nTarget turns (rest.drop length)
          { dst := x.dst ++ [hi, lo] ++ rest.take length, n := x.n + 1 }
    else x
  | _, _, x => x

def main (nTarget : Int) (bs : List UInt8) : MakeFixture := loop nTarget bs.length bs {}

def fixture (nTarget : Int) (bs : List UInt8) : List UInt8 := (main nTarget bs).dst

variable {bs : List UInt8} {nTarget : Int} {turns : Nat} {x : MakeFixture}

theorem loop_reached (reached : nTarget ≤ x.n) : loop nTarget turns bs x = x := by
  unfold loop
  split
  · exact if_neg reached.not_gt
  · rfl

theorem loop_stop (stop : frames bs = []) : loop nTarget turns bs x = x := by
  unfold loop
  split
  · rename_i turns hi lo rest
    by_cases zero : hi.toNat * 256 + lo.toNat = 0
    · simp only [if_pos zero, ite_self]
    · have short : rest.length < hi.toNat * 256 + lo.toNat := by
        by_contra whole
        rw [frames_frame zero (Nat.le_of_not_lt whole)] at stop
        exact absurd stop (List.cons_ne_nil _ _)
      simp only [if_neg zero, if_pos short, ite_self]
  · rfl

theorem prefixed_frame {hi lo : UInt8} {msg : List UInt8}
    (length : msg.length = hi.toNat * 256 + lo.toNat) : prefixed msg = [hi, lo] ++ msg := by
  have high : hi.toNat < 256 := hi.toNat_lt
  have low : lo.toNat < 256 := lo.toNat_lt
  rw [prefixed, length]
  congr 1
  simp only [be16, List.cons.injEq, and_true, ← UInt8.toNat_inj]
  constructor
  · simp [Nat.shiftRight_eq_div_pow]
    omega
  · simp

theorem loop_copies (enough : bs.length ≤ turns) :
    (loop nTarget turns bs x).n = x.n + ((frames bs).take (nTarget - x.n).toNat).length ∧
      (loop nTarget turns bs x).dst =
        x.dst ++ ((frames bs).take (nTarget - x.n).toNat).flatMap prefixed := by
  induction bs using frames_induction generalizing turns x with
  | stop bs stop => simp [loop_stop stop, stop]
  | frame hi lo rest positive whole ih =>
    by_cases more : (x.n : Int) < nTarget
    · obtain ⟨turns, rfl⟩ : ∃ t, turns = t + 1 := ⟨turns - 1, by simp at enough; omega⟩
      have shorter : (rest.drop (hi.toNat * 256 + lo.toNat)).length ≤ turns := by
        simp only [List.length_cons, List.length_drop] at enough ⊢
        omega
      have left : (nTarget - x.n).toNat = (nTarget - (x.n + 1 : Nat)).toNat + 1 := by omega
      have msg := prefixed_frame (List.length_take_of_le whole)
      rw [loop, if_pos more]
      dsimp only
      rw [if_neg positive, if_neg whole.not_gt, frames_frame positive whole, left,
        List.take_succ_cons, List.length_cons, List.flatMap_cons, msg]
      obtain ⟨count, copied⟩ := @ih turns
        { dst := x.dst ++ [hi, lo] ++ rest.take (hi.toNat * 256 + lo.toNat), n := x.n + 1 } shorter
      refine ⟨?_, ?_⟩
      · rw [count]
        dsimp only
        omega
      · rw [copied]
        simp only [List.append_assoc]
    · have none : (nTarget - x.n).toNat = 0 := by omega
      simp [loop_reached (not_lt.mp more), none]

theorem fixture_prefixed (nTarget : Int) (bs : List UInt8) :
    fixture nTarget bs = ((frames bs).take nTarget.toNat).flatMap prefixed := by
  have copies := (@loop_copies bs nTarget bs.length {} (Nat.le_refl _)).2
  simpa [fixture, main] using copies

/-- The frames with their prefixes are the stream, up to what is behind the last one. -/
theorem prefixed_frames (bs : List UInt8) : (frames bs).flatMap prefixed ++ leftover bs = bs := by
  induction bs using frames_induction with
  | stop bs stop => rw [stop, leftover_stop stop, List.flatMap_nil, List.nil_append]
  | frame hi lo rest positive whole ih =>
    rw [frames_frame positive whole, leftover_frame positive whole, List.flatMap_cons,
      prefixed_frame (List.length_take_of_le whole), List.append_assoc, ih, List.append_assoc,
      List.take_append_drop]
    rfl

theorem fixture_frames (nTarget : Int) (bs : List UInt8) :
    frames (fixture nTarget bs) = (frames bs).take nTarget.toNat ∧
      leftover (fixture nTarget bs) = [] := by
  have fits : ∀ f ∈ (frames bs).take nTarget.toNat, 0 < f.length ∧ f.length < 2 ^ 16 := fun f mem =>
    frames_length (List.mem_of_mem_take mem)
  have stream := frames_prefixed fits (rfl : frames [] = [])
  rwa [List.append_nil, ← fixture_prefixed] at stream

/-- A fixture is what its file starts with; it is itself a stream, of the first messages,
that ends behind the last one, and its fixtures are fixtures of the file. -/
theorem fixture_valid (nTarget : Int) (bs : List UInt8) :
    fixture nTarget bs <+: bs ∧
      frames (fixture nTarget bs) = (frames bs).take nTarget.toNat ∧
      leftover (fixture nTarget bs) = [] ∧
      ∀ n, fixture n (fixture nTarget bs) = fixture (min n nTarget) bs := by
  obtain ⟨cut, clean⟩ := fixture_frames nTarget bs
  refine ⟨?_, cut, clean, fun n => ?_⟩
  · have split := List.take_append_drop nTarget.toNat (frames bs)
    refine ⟨((frames bs).drop nTarget.toNat).flatMap prefixed ++ leftover bs, ?_⟩
    rw [fixture_prefixed, ← List.append_assoc, ← List.flatMap_append, split, prefixed_frames]
  · have fewer : (min n nTarget).toNat = min n.toNat nTarget.toNat := by omega
    rw [fixture_prefixed, cut, List.take_take, ← fewer, ← fixture_prefixed]

/-! Runs over fixtures. -/

theorem readUnder_take (limit : Nat) (ms : List Msg) :
    readUnder limit ms = ms.take (readUnder limit ms).length := by
  have front : readUnder limit ms <+: ms := by
    unfold readUnder
    split
    · exact List.prefix_rfl
    · split
      · exact List.take_prefix _ _
      · exact List.prefix_rfl
  exact List.prefix_iff_eq_take.mp front

def messagesRead (limit : Nat) (bs : List UInt8) : Nat :=
  (readUnder limit ((frames bs).map Msg.ofFrame)).length

theorem outcome_fixture (o : ProgramOptions) (clock : Clock) (path bs : List UInt8) :
    Outcome.ofBytes { o with file := path, maxMsgs := 0 } clock
        (fixture (messagesRead o.maxMsgs bs) bs) =
      { Outcome.ofBytes o clock bs with status := 0 } := by
  obtain ⟨cut, clean⟩ := fixture_frames (messagesRead o.maxMsgs bs) bs
  have read : readUnder 0 ((frames (fixture (messagesRead o.maxMsgs bs) bs)).map Msg.ofFrame) =
      readUnder o.maxMsgs ((frames bs).map Msg.ofFrame) := by
    rw [readUnder_take o.maxMsgs, cut, Int.toNat_natCast, List.map_take]
    exact if_pos rfl
  have whole : ¬ReportsCut 0 (fixture (messagesRead o.maxMsgs bs) bs) := by
    intro reports
    have cutOff := (reportsCut_zero.mp reports).1
    rw [clean] at cutOff
    exact cutOff
  simp only [Outcome.ofBytes, Outcome.ofRun, read, whole]
  rfl

section Main

variable {σ : Type} {source : ByteSource σ} {left : σ → List UInt8}
  {gzopen : List UInt8 → Option σ} {m : DeviceMemory} {clock : Clock} {argv0 : List UInt8}
  {args args' : List (List UInt8)} {o : ProgramOptions} {path : List UInt8} {s s' : σ}

/-- The program prints, counts and writes of a fixture without a limit what it does of the
file under a limit, when the fixture has as many messages as are read under the limit; it
then returns 0. -/
theorem fixture_replays (hsrc : source.Delivers left)
    (long : ∀ f ∈ frames (left s), LongEnough f)
    (limited : parseArgs args .default = .accepted o) (opened : gzopen o.file = some s)
    (unlimited : parseArgs args' .default = .accepted { o with file := path, maxMsgs := 0 })
    (carved : gzopen path = some s')
    (fixture_ : left s' = fixture (messagesRead o.maxMsgs (left s)) (left s)) :
    ∃ out, (∀ x, Main source gzopen m clock argv0 args x ↔ x = out) ∧
      ∀ x, Main source gzopen m clock argv0 args' x ↔ x = { out with status := 0 } := by
  have first : ∀ f ∈ frames (left s'), LongEnough f := by
    intro f mem
    rw [fixture_, (fixture_frames _ _).1] at mem
    exact long f (List.mem_of_mem_take mem)
  refine ⟨.ofBytes o clock (left s), fun x => main_ofBytes_iff hsrc limited opened long, fun x => ?_⟩
  rw [← outcome_fixture o clock path, ← fixture_]
  exact main_ofBytes_iff hsrc unlimited carved first

/-- A file of one trade and a trade that is cut off, and the fixture of the first trade. -/
theorem fixture_replays_cut :
    let gzopen (path : List UInt8) := some <|
      if path = [120] then [0, 44] ++ tradeFrame ++ [0, 44, 80] else [0, 44] ++ tradeFrame
    ∃ out, Main memSource gzopen DeviceMemory.zeroed ⟨[], [], [], 0⟩ [] [fileFlag, [120]] out ∧
      out.status = 1 ∧
      Main memSource gzopen DeviceMemory.zeroed ⟨[], [], [], 0⟩ [] [fileFlag, [121]]
        { out with status := 0 } := by
  intro gzopen
  have long : ∀ f ∈ frames (id ([0, 44] ++ tradeFrame ++ [0, 44, 80])), LongEnough f := by
    decide +kernel
  have parsed : parseArgs [fileFlag, [120]] .default =
      .accepted { ProgramOptions.default with file := [120] } := rfl
  have day : gzopen [120] = some ([0, 44] ++ tradeFrame ++ [0, 44, 80]) := rfl
  have carved : [0, 44] ++ tradeFrame =
      fixture (messagesRead 0 ([0, 44] ++ tradeFrame ++ [0, 44, 80]))
        ([0, 44] ++ tradeFrame ++ [0, 44, 80]) := by decide +kernel
  have reports : ReportsCut ProgramOptions.default.maxMsgs
      ([0, 44] ++ tradeFrame ++ [0, 44, 80]) := by decide +kernel
  have copy : gzopen [121] = some ([0, 44] ++ tradeFrame) := rfl
  obtain ⟨out, ends, replays⟩ :=
    @fixture_replays _ memSource id gzopen DeviceMemory.zeroed ⟨[], [], [], 0⟩ [] _ [fileFlag, [121]]
      _ _ _ _ memSource_delivers long parsed day rfl copy carved
  refine ⟨out, (ends out).mpr rfl, ?_, (replays _).mpr rfl⟩
  have same := (main_ofBytes_iff memSource_delivers parsed day long).mp ((ends out).mpr rfl)
  rw [same, Outcome.ofBytes_status]
  exact if_pos reports

end Main

end MakeFixture

/-! Validation of fixtures. -/

namespace ValidateCounts

variable {bs : List UInt8} {maxMsgs turns : Nat} {v v' : ValidateCounts}

theorem message_total {msg : List UInt8} (result : message v msg = .ok v') :
    v'.total = v.total + 1 := by
  by_cases readable : Readable msg
  · obtain ⟨w, ok, counts⟩ := message_readable readable v
    rw [result, Except.ok.injEq] at ok
    rw [ok, counts.total]
  · obtain ⟨e, error, _⟩ := message_unreadable readable v
    rw [result] at error
    cases error

/-- The pass goes over the first frames, and reports a frame that is cut off when there are
too few. -/
theorem loop_take (enough : bs.length ≤ turns) (below : v.total < maxMsgs) :
    loop maxMsgs turns bs v =
      ((frames bs).take (maxMsgs - v.total)).foldlM message v >>= fun w =>
        if (frames bs).length < maxMsgs - v.total ∧ CutOff (leftover bs) then .error .truncated
        else .ok w := by
  induction bs using frames_induction generalizing turns v with
  | stop bs stop =>
    have few : (frames bs).length < maxMsgs - v.total := by
      rw [stop, List.length_nil]
      omega
    rw [loop_stop stop enough, leftover_stop stop, stop, List.take_nil]
    rw [stop] at few
    simp only [few, true_and]
    rfl
  | frame hi lo rest positive whole ih =>
    obtain ⟨turns, rfl⟩ : ∃ t, turns = t + 1 := ⟨turns - 1, by simp at enough; omega⟩
    have shorter : (rest.drop (hi.toNat * 256 + lo.toNat)).length ≤ turns := by
      simp only [List.length_cons, List.length_drop] at enough ⊢
      omega
    have one : maxMsgs - v.total = maxMsgs - (v.total + 1) + 1 := by omega
    rw [loop_frame positive whole, leftover_frame positive whole, frames_frame positive whole, one,
      List.take_succ_cons, List.foldlM_cons, List.length_cons]
    cases result : message v (rest.take (hi.toNat * 256 + lo.toNat)) with
    | error e => rfl
    | ok v' =>
      have total := message_total result
      dsimp only
      split
      · rename_i reached
        have none : maxMsgs - (v.total + 1) = 0 := by omega
        have full : ¬(frames (rest.drop (hi.toNat * 256 + lo.toNat))).length + 1 < 0 + 1 := by omega
        simp only [none, List.take_zero, full, false_and, if_false]
        rfl
      · rename_i more
        rw [ih shorter (by omega), total]
        simp only [Nat.add_lt_add_iff_right]
        rfl

/-- Validating a file with a limit is validating a fixture of as many messages, except that a
frame that is cut off in front of the limit is reported. -/
theorem main_fixture (positive : 0 < maxMsgs) :
    main maxMsgs bs = main 0 (MakeFixture.fixture maxMsgs bs) >>= fun v =>
      if (frames bs).length < maxMsgs ∧ CutOff (leftover bs) then .error .truncated else .ok v := by
  obtain ⟨cut, clean⟩ := MakeFixture.fixture_frames maxMsgs bs
  have whole : ¬CutOff (leftover (MakeFixture.fixture maxMsgs bs)) := by
    rw [clean]
    exact id
  rw [main_foldlM whole, cut, Int.toNat_natCast]
  exact loop_take (Nat.le_refl _) positive

/-- The limit is reached in front of the frame that is cut off. -/
theorem main_fixture_cut :
    main 1 [0, 1, 72, 0, 2, 72] = main 0 (MakeFixture.fixture 1 [0, 1, 72, 0, 2, 72]) := by
  have limited : main 1 [0, 1, 72, 0, 2, 72] = _ := main_fixture Nat.zero_lt_one
  have full :
      ¬((frames [0, 1, 72, 0, 2, 72]).length < 1 ∧ CutOff (leftover [0, 1, 72, 0, 2, 72])) := by
    decide
  simp only [full, if_false] at limited
  rw [limited]
  exact bind_pure _

end ValidateCounts

end ItchAggregator
