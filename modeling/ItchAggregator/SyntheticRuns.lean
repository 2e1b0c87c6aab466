import ItchAggregator.SyntheticStream
import ItchAggregator.Validation

/-! What the programs make of a synthetic file. The market opens once only, in front of
everything that is traded, so that the pipeline and the Python pass agree on every column
they share. -/

namespace ItchAggregator

open BatchAssembler JsonText Utf8 ValidateCounts

namespace MakeSynthetic

variable {locate ts : Nat} {msg : List UInt8}

theorem symbols_plain : ∀ sym ∈ symbols, (encode sym).length ≤ 8 ∧
    ∀ c ∈ encode sym, c < 128 ∧ isSpace c = false ∧ c ≠ 0 := by
  decide +kernel

theorem stockDirectory_padded {sym : String} (listed : sym ∈ symbols) (small : locate < 2 ^ 16)
    (day : ts < 2 ^ 48) (made : stockDirectory locate ts sym = some msg) : Padded msg := by
  obtain ⟨short, plain⟩ := symbols_plain sym listed
  refine ⟨encode sym, 8 - (encode sym).length, ?_, plain⟩
  have field : stockField sym =
      encode sym ++ List.replicate (8 - (encode sym).length) ' '.toUInt8 := by
    rw [stockField]
    exact List.take_of_length_le (by simp; omega)
  rw [stockDirectory, header_eq .stockDir rfl small day] at made
  obtain rfl := Option.some_inj.mp made
  have head : (fields .stockDir locate ts []).flatten.length = 11 := rfl
  rw [← field, slice, List.take_left' (by rw [List.length_append, head, length_stockField]),
    List.drop_left' head]

theorem systemEvent_opens {event : Char} (day : ts < 2 ^ 48)
    (made : systemEvent ts event = some msg) :
    (Msg.ofFrame msg).opens = (event.toUInt8 == 'O'.toUInt8) := by
  rw [systemEvent, header_eq .systemEvent rfl (by decide) day] at made
  obtain rfl := Option.some_inj.mp made
  rfl

/-- The names of the symbols, the start of market hours, and messages that are neither. -/
def OneSession (fs : List (List UInt8)) : Prop :=
  ∃ names start_ rest, fs = names ++ start_ :: rest ∧
    (∀ f ∈ names, f.headD 0 = MsgType.stockDir.code ∧ Padded f) ∧
    (Msg.ofFrame start_).opens = true ∧
    ∀ f ∈ rest, f.headD 0 ≠ MsgType.stockDir.code ∧ (Msg.ofFrame f).opens = false

section Generator

variable {ρ : Type} {g : Generator ρ}

theorem Generator.directory_named {syms : List (String × Nat)}
    (listed : ∀ x ∈ syms, x.1 ∈ symbols ∧ x.2 < 2 ^ 16) (day : g.ts < 2 ^ 48) :
    ∃ g' fs, syms.foldlM (fun (g : Generator ρ) x => do
        g.emit (← stockDirectory x.2 g.ts x.1)) g = some g' ∧
      Announced g g' fs ∧ ∀ f ∈ fs, f.headD 0 = MsgType.stockDir.code ∧ Padded f := by
  induction syms generalizing g with
  | nil => exact ⟨g, [], rfl, ⟨by simp, by simp⟩, by simp⟩
  | cons x syms ih =>
    obtain ⟨⟨own, small⟩, others⟩ := List.forall_mem_cons.mp listed
    obtain ⟨msg, made, carries⟩ := stockDirectory_carries small day x.1
    obtain ⟨g', fs, rest, announced, named⟩ :=
      ih (g := { g with out := g.out ++ prefixed msg }) others day
    refine ⟨g', msg :: fs, ?_, ⟨?_, ?_⟩, ?_⟩
    · rw [List.foldlM_cons, made, Option.bind_eq_bind, Option.bind_eq_bind, Option.bind_some,
        emit_eq g carries.short, Option.bind_some]
      exact rest
    · rw [announced.state]
      simp
    · exact List.forall_mem_cons.mpr ⟨⟨.stockDir, carries, by decide⟩, announced.quiet⟩
    · exact List.forall_mem_cons.mpr
        ⟨⟨carries.type, stockDirectory_padded own small day made⟩, named⟩

theorem Generator.preamble_named (r : ρ) :
    ∃ g names start_, preamble r = some g ∧ Announced { rng := r } g (names ++ [start_]) ∧
      (∀ f ∈ names, f.headD 0 = MsgType.stockDir.code ∧ Padded f) ∧
      (Msg.ofFrame start_).opens = true := by
  have day : 34200000000000 < 2 ^ 48 := by decide
  have listed : ∀ x ∈ symbols.zipIdx 1, x.1 ∈ symbols ∧ x.2 < 2 ^ 16 := by decide
  obtain ⟨g, names, directory, announced, named⟩ :=
    directory_named (g := { rng := r }) listed day
  obtain ⟨msg, made, carries⟩ := systemEvent_carries 'O' day
  refine ⟨{ g with out := g.out ++ prefixed msg }, names, msg, ?_, ⟨?_, ?_⟩, named, ?_⟩
  · rw [preamble, directory, Option.bind_eq_bind, Option.bind_some, announced.state]
    simp only [made, Option.bind_eq_bind, Option.bind_some]
    exact emit_eq _ carries.short
  · rw [announced.state]
    simp
  · intro f mem
    rcases List.mem_append.mp mem with early | last
    · exact announced.quiet f early
    · exact List.mem_singleton.mp last ▸ ⟨.systemEvent, carries, by decide⟩
  · rw [systemEvent_opens day made]
    rfl

variable {rng : Rng ρ} {nTarget : Int} {r : ρ}

theorem Generator.Announced.books {fs : List (List UInt8)}
    (announced : Announced { rng := r } g fs) : Books g (fs.reverse ++ []) ∧ Clock g := by
  have opened : Books g [] := by
    rw [announced.state]
    exact ⟨Listed.nil, by simp, Nat.one_pos, rfl, rfl⟩
  refine ⟨(quiet_ran opened announced.quiet).1, ?_⟩
  rw [announced.state]
  exact ⟨show 34200000000000 < 2 ^ 48 by decide, show 1 ≤ 34200000000000 by decide,
    show 1 ≤ 34200000000000 by decide⟩

theorem main_oneSession (small : ∀ h ∈ Generator.turns rng nTarget r, Generator.Small rng h) :
    ∃ g fs, main rng nTarget r = some g ∧ Written rng nTarget r g fs ∧ OneSession fs := by
  obtain ⟨g, fs, result, written⟩ := main_written small
  refine ⟨g, fs, result, written, ?_⟩
  obtain ⟨g₁, names, start_, preamble, announced, named, opens⟩ := Generator.preamble_named r
  obtain ⟨books, clock⟩ := announced.books
  have turns : Generator.turns rng nTarget r = g₁.heads rng nTarget (nTarget - nMeta).toNat := by
    rw [Generator.turns, preamble, Option.elim_some]
  obtain ⟨g₂, late, loop, ran, _⟩ := Generator.loop_ran books clock (turns ▸ small)
  obtain ⟨close, made, carries⟩ := systemEvent_carries 'C' ran.clock.day
  have behind : ∀ f ∈ late ++ [close], (∃ t e, Carries f t e) ∧
      f.headD 0 ≠ MsgType.stockDir.code ∧ (Msg.ofFrame f).opens = false := by
    intro f mem
    rcases List.mem_append.mp mem with run | last
    · obtain ⟨t, e, carries, relevant⟩ := ran.carries f run
      refine ⟨⟨t, e, carries⟩, ?_, ?_⟩
      · rw [carries.type]
        cases t <;> first | decide | cases relevant
      · have ships : (Msg.ofFrame f).ships = true := carries.ships.trans relevant
        by_contra opens
        rw [Msg.not_ships_of_opens (Bool.of_not_eq_false opens)] at ships
        cases ships
    · obtain rfl := List.mem_singleton.mp last
      refine ⟨⟨_, _, carries⟩, ?_, ?_⟩
      · rw [carries.type]
        decide
      · rw [systemEvent_opens ran.clock.day made]
        rfl
  have out : g.out = (names ++ start_ :: (late ++ [close])).flatMap prefixed ++ [0, 0] := by
    rw [main, preamble, Option.bind_eq_bind, Option.bind_some, loop, Option.bind_eq_bind,
      Option.bind_some, made, Option.bind_some, Generator.emit_eq _ carries.short] at result
    obtain rfl := Option.some_inj.mp result
    simp [ran.out, announced.state]
  refine ⟨names, start_, late ++ [close], ?_, named, opens, fun f mem => (behind f mem).2⟩
  have fits : ∀ f ∈ names ++ start_ :: (late ++ [close]), 0 < f.length ∧ 2 + f.length ≤ 64 := by
    intro f mem
    have some_ : ∃ t e, Carries f t e := by
      rw [List.append_cons] at mem
      rcases List.mem_append.mp mem with early | run
      · obtain ⟨t, carries, _⟩ := announced.quiet f early
        exact ⟨t, none, carries⟩
      · exact (behind f run).1
    obtain ⟨t, e, carries⟩ := some_
    have bounds := carries.fits
    have size : slotBytes = 48 := rfl
    omega
  rw [← (frames_stream written.out written.fits).1, (frames_stream out fits).1]

end Generator

end MakeSynthetic

/-! One market session. -/

theorem lastShipping_one {front back : List Msg} {m : Msg}
    (quiet : ∀ x ∈ front, x.opens = false ∧ x.ships = false) (opens : m.opens = true)
    (one : ∀ x ∈ back, x.opens = false) :
    (lastShipping (front ++ m :: back)).filter Msg.ships =
      (front ++ m :: back).filter Msg.ships := by
  have unshipped : front.filter Msg.ships = [] :=
    List.filter_eq_nil_iff.mpr fun x mem => by simp [(quiet x mem).2]
  have stays : front.any Msg.ships = false := by simpa using fun x mem => (quiet x mem).2
  have parts : marketSessions (front ++ m :: back) = [front, back] := by
    rw [marketSessions,
      List.splitOnP_append_cons_of_forall_mem (fun x mem => (quiet x mem).1) m opens,
      List.splitOnP_eq_singleton one]
  have last : lastShipping (front ++ m :: back) = if back.any Msg.ships then back else [] := by
    rw [lastShipping, parts]
    simp only [List.filter_cons, stays, Bool.false_eq_true, if_false, List.filter_nil]
    split <;> rfl
  have all : (front ++ m :: back).filter Msg.ships = back.filter Msg.ships := by
    rw [List.filter_append, unshipped, List.nil_append, List.filter_cons]
    simp only [Msg.not_ships_of_opens opens, Bool.false_eq_true, if_false]
  rw [last, all]
  split
  · rfl
  · rename_i none
    symm
    rw [List.filter_nil, List.filter_eq_nil_iff]
    exact fun x mem ships => none (List.any_eq_true.mpr ⟨x, mem, ships⟩)

namespace MakeSynthetic.OneSession

variable {fs : List (List UInt8)}

theorem padded (one : OneSession fs) : ∀ f ∈ fs, f.headD 0 = 'R'.toUInt8 → Padded f := by
  obtain ⟨names, start_, rest, rfl, named, opens, behind⟩ := one
  intro f mem isR
  rcases List.mem_append.mp mem with early | late
  · exact (named f early).2
  · rcases List.mem_cons.mp late with rfl | late
    · have type : f.headD 0 = MsgType.systemEvent.code := by
        rw [← (Msg.opens_iff.mp opens).1]
        cases f <;> rfl
      rw [type] at isR
      cases isR
    · exact absurd isR (behind f late).1

theorem ships (one : OneSession fs) : (lastShipping (fs.map Msg.ofFrame)).filter Msg.ships =
    (fs.map Msg.ofFrame).filter Msg.ships := by
  obtain ⟨names, start_, rest, rfl, named, opens, behind⟩ := one
  have type : ∀ f ∈ names, (Msg.ofFrame f).data Ofs.type = MsgType.stockDir.code := by
    intro f mem
    rw [← (named f mem).1]
    cases f <;> rfl
  rw [List.map_append, List.map_cons]
  refine lastShipping_one (fun x mem => ?_) opens fun x mem => ?_
  · obtain ⟨f, here, rfl⟩ := List.mem_map.mp mem
    simp only [Msg.opens, Msg.ships, type f here]
    exact ⟨rfl, rfl⟩
  · obtain ⟨f, here, rfl⟩ := List.mem_map.mp mem
    exact (behind f here).2

theorem sums (one : OneSession fs) (exact_ : ∀ f ∈ fs, ExactLength f) {a : Array64}
    (sums : a = .vwapNum ∨ a = .vwapDen) (l : Nat) :
    (((lastShipping (fs.map Msg.ofFrame)).map Msg.bytes).map (flowAt a l)).sum =
      (fs.map (flowAt a l)).sum := by
  have all : ∀ m ∈ fs.map Msg.ofFrame, ∃ f, ExactLength f ∧ m = Msg.ofFrame f := by
    intro m mem
    obtain ⟨f, here, rfl⟩ := List.mem_map.mp mem
    exact ⟨f, exact_ f here, rfl⟩
  have frames_ : (fs.map Msg.ofFrame).map Msg.bytes = fs := by
    rw [List.map_map]
    exact (List.map_congr_left fun f _ => Msg.bytes_ofFrame f).trans (List.map_id fs)
  rw [← sum_ships sums l fun m mem => all m (mem_lastShipping mem), one.ships,
    sum_ships sums l all, frames_]

end MakeSynthetic.OneSession

theorem Validates.whole {σ : Type} {v w : ValidateCounts} {r : CpuRun 24 σ} {p : SnapshotCsv}
    (validates : Validates v w r p) (shares : w.sharesByLocate = v.sharesByLocate)
    (num : w.numByLocate = v.numByLocate) : Validates v v r p := by
  obtain ⟨total, counts, last, names, volume, paid, vwap⟩ := validates
  have same : w.vwap = v.vwap := by
    funext l
    rw [ValidateCounts.vwap, ValidateCounts.vwap, shares, num]
  rw [shares] at volume vwap
  rw [num] at paid vwap
  rw [same] at vwap
  exact ⟨total, counts, last, names, volume, paid, vwap⟩

namespace MakeSynthetic

variable {ρ : Type} {rng : Rng ρ} {nTarget : Int} {r : ρ}

theorem Carries.plainType {msg : List UInt8} {t : MsgType} {e : Option OrderEvent}
    (carries : Carries msg t e) : PlainType (msg.headD 0) := by
  rw [carries.type]
  cases t <;> decide

/-- Whatever the generator draws, its file is validated: the Python pass goes over the whole
file, it finds its counters in the statistics of a run of either pipeline, and its names,
volumes and average prices in the last snapshot of the CPU pipeline. The program ends in one
way and returns 0. -/
theorem synthetic_validates (rng : Rng ρ) (nTarget : Int) (r : ρ)
    (small : ∀ h ∈ Generator.turns rng nTarget r, Generator.Small rng h) :
    ∃ g v, main rng nTarget r = some g ∧ ValidateCounts.main 0 g.out = .ok v ∧
      v.total = nMeta + g.produced + 1 ∧
      ∀ {σ : Type} {source : ByteSource σ} {left : σ → List UInt8}, source.Delivers left →
        ∀ {s : σ}, left s = g.out →
        (∀ opt : Options, opt.maxMsgs = 0 → (∃ turns run, runCpu source opt turns s = some run) ∧
          ∀ turns run, runCpu source opt turns s = some run → ∃ p, Validates v v run p) ∧
        ∀ {gzopen : List UInt8 → Option σ} {m : DeviceMemory} {clock : Clock} {argv0 : List UInt8}
          {args : List (List UInt8)} {o : ProgramOptions} {w : Json},
          parseArgs args .default = .accepted o → gzopen o.file = some s → o.statsJson ≠ [] →
          o.maxMsgs = 0 → IsNumber clock.wall w →
          ∃ out, (∀ x, Main source gzopen m clock argv0 args x ↔ x = out) ∧ out.status = 0 ∧
            ∃ bytes text stats, out.stats = some (o.statsJson, bytes) ∧ IsUtf8 bytes text ∧
              Loads text stats ∧ v.against stats = some [] := by
  obtain ⟨g, fs, result, written, one⟩ := main_oneSession small
  obtain ⟨framed, behind⟩ := frames_stream written.out written.fits
  have whole : ¬CutOff (leftover g.out) := by
    rw [behind]
    decide
  have exact_ := written.exactLength
  have regular : ∀ f ∈ fs, Regular f := regular_padded exact_
    (fun f mem => List.length_pos_iff.mp (written.fits f mem).1) one.padded
  obtain ⟨v, passed, sums⟩ := foldlM_sums regular {}
  obtain ⟨w, folded, day⟩ := foldlM_sums (regular_lastShipping regular) {}
  have shares : w.sharesByLocate = v.sharesByLocate := by
    funext l
    rw [day.shares, sums.shares, one.sums exact_ (Or.inr rfl)]
  have num : w.numByLocate = v.numByLocate := by
    funext l
    rw [day.num, sums.num, one.sums exact_ (Or.inl rfl)]
  have pass : ValidateCounts.main 0 g.out = .ok v := by
    rw [main_foldlM whole, framed]
    exact passed
  refine ⟨g, v, result, pass, ?_, fun {σ source left} hsrc {s} file => ⟨?_, ?_⟩⟩
  · rw [sums.total, written.total]
    exact Nat.zero_add _
  · intro opt all
    refine ⟨runCpu_returns hsrc s opt, fun turns run ended => ?_⟩
    have tells := runCpu_tells hsrc (by rwa [file, framed]) ended
    rw [readUnder, if_pos all, file, framed] at tells
    exact ⟨_, (tells.validates regular one.padded sums day).whole shares num⟩
  · intro _ _ _ _ _ _ _ parsed opened asked unlimited number
    have exact_ : ∀ f ∈ frames (left s), ExactLength f := by rwa [file, framed]
    have ascii : ∀ f ∈ frames (left s), f.headD 0 = 'R'.toUInt8 → ∀ b ∈ slice f 11 19, b < 128 := by
      rw [file, framed]
      exact fun f mem isR => (one.padded f mem isR).ascii
    have plain : ∀ f ∈ frames (left s), PlainType (f.headD 0) := by
      rw [file, framed]
      intro f mem
      obtain ⟨t, e, carries⟩ := written.carries f mem
      exact carries.plainType
    obtain ⟨bytes, text, stats, stored, utf8, loads, agrees, _⟩ :=
      Outcome.ofBytes_validated exact_ asked unlimited ascii plain number
    obtain ⟨status, u, passed, same⟩ := agrees (by rwa [file])
    obtain rfl : v = u := Except.ok.inj (pass.symm.trans (file ▸ passed))
    exact ⟨_, fun _ => main_ofBytes_iff hsrc parsed opened fun f mem => (exact_ f mem).longEnough,
      status, bytes, text, stats, stored, utf8, loads, same⟩

/-- An add and a trade of 20 shares. -/
theorem synthetic_validates_trade :
    let draws := [5, 3, 20000, 9, 0, 0, 0, 6, 7, 30000, 20, 0x1c000000000000, 0]
    ∃ g v turns run p, main tape 19 draws = some g ∧ ValidateCounts.main 0 g.out = .ok v ∧
      runCpu memSource .default turns g.out = some run ∧ Validates v v run p ∧
      (p.snap 7).volume.toNat = 20 ∧
      ∃ out bytes text stats, Main memSource (fun _ => some g.out) DeviceMemory.zeroed
          ⟨[], [], "0.5".toList, 2⟩ [] [fileFlag, [120], statsJsonFlag, [121]] out ∧
        out.status = 0 ∧ out.stats = some ([121], bytes) ∧ IsUtf8 bytes text ∧
        Loads text stats ∧ v.against stats = some [] := by
  intro draws
  have small : ∀ h ∈ Generator.turns tape 19 draws, Generator.Small tape h := by decide +kernel
  obtain ⟨g, v, result, pass, _, agrees⟩ := synthetic_validates tape 19 draws small
  obtain ⟨pipeline, program⟩ := agrees memSource_delivers (s := g.out) rfl
  obtain ⟨⟨turns, run, ended⟩, validates⟩ := pipeline .default rfl
  obtain ⟨p, validates⟩ := validates turns run ended
  have shares : ((main tape 19 draws).bind fun g =>
      (ValidateCounts.main 0 g.out).toOption.map fun v => v.sharesByLocate 7) = some 20 := by
    decide +kernel
  rw [result, Option.bind_some, pass] at shares
  have volume : (p.snap 7).volume.toNat = 20 := by
    rw [validates.volume 7]
    exact congrArg (· % 2 ^ 64) (Option.some_inj.mp shares)
  let o : ProgramOptions := { ProgramOptions.default with file := [120], statsJson := [121] }
  have parsed : parseArgs [fileFlag, [120], statsJsonFlag, [121]] .default = .accepted o := rfl
  have seconds : IsNumber "0.5".toList (.num 5 (-1)) := ⟨by simp, rfl⟩
  obtain ⟨out, ends, status, bytes, text, stats, stored, utf8, loads, matches_⟩ :=
    @program (fun _ => some g.out) .zeroed ⟨[], [], "0.5".toList, 2⟩ [] _ o _ parsed rfl (by decide)
      rfl seconds
  exact ⟨g, v, turns, run, p, result, pass, ended, validates, volume, out, bytes, text, stats,
    (ends out).mpr rfl, status, stored, utf8, loads, matches_⟩

end MakeSynthetic

end ItchAggregator
