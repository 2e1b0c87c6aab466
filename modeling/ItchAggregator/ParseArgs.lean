import ItchAggregator.StatsFile

/-! The command line. The arguments are read as settings from left to right, the last
setting of a kind counts, and what cannot be read as a setting stops the reading. -/

namespace ItchAggregator

open JsonText Utf8

/-! Numbers as the C library reads them. -/

def isspace (b : UInt8) : Bool := b == 32 || (9 ≤ b && b ≤ 13)

def isdigit (b : UInt8) : Bool := (ofAscii b).isDigit

def leadingNat (s : List UInt8) : Nat := Nat.ofDigitChars 10 ((s.takeWhile isdigit).map ofAscii) 0

/-- Is there a minus sign behind the blanks, and the number behind the sign. -/
def signedNat (s : List UInt8) : Bool × Nat :=
  match s.dropWhile isspace with
  | [] => (false, 0)
  | c :: rest =>
    if c = '-'.toUInt8 then (true, leadingNat rest)
    else if c = '+'.toUInt8 then (false, leadingNat rest)
    else (false, leadingNat (c :: rest))

/-- `strtoull(s, nullptr, 10)`: the largest value for what is out of range. -/
def strtoull (s : List UInt8) : Nat :=
  let x := signedNat s
  if 2 ^ 64 ≤ x.2 then 2 ^ 64 - 1
  else if x.1 then (2 ^ 64 - x.2) % 2 ^ 64
  else x.2

def atoll (s : List UInt8) : Int :=
  let x := signedNat s
  if x.1 then max (-2 ^ 63) (-x.2) else min (2 ^ 63 - 1) x.2

theorem strtoull_lt (s : List UInt8) : strtoull s < 2 ^ 64 := by
  simp only [strtoull]
  split
  · decide
  · split
    · exact Nat.mod_lt _ (by decide)
    · omega

theorem atoll_lt (s : List UInt8) : atoll s < 2 ^ 63 := by
  simp only [atoll]
  split <;> omega

theorem isdigit_outNat (n : Nat) : ∀ b ∈ outNat n, isdigit b = true := by
  intro b mem
  have digit := List.mem_map_of_mem (f := ofAscii) mem
  rw [outNat_text] at digit
  exact toDigits_isDigit n _ digit

theorem leadingNat_outNat (n : Nat) : leadingNat (outNat n) = n := by
  rw [leadingNat, List.takeWhile_eq_self_iff.mpr (isdigit_outNat n), outNat_text,
    Nat.ofDigitChars_ten_toDigits]

theorem isspace_digit : ∀ b : UInt8, isdigit b = true → isspace b = false := by decide +kernel

theorem signedNat_outNat (n : Nat) : signedNat (outNat n) = (false, n) := by
  cases digits : outNat n with
  | nil => exact absurd (List.map_eq_nil_iff.mp digits) Nat.toDigits_ne_nil
  | cons c rest =>
    have digit := isdigit_outNat n c (digits ▸ List.mem_cons_self)
    have other : ∀ b, isdigit b = false → c ≠ b := by
      rintro b none rfl
      rw [none] at digit
      cases digit
    rw [signedNat, List.dropWhile_cons_of_neg (by simp [isspace_digit c digit])]
    dsimp only
    rw [if_neg (other _ (by decide)), if_neg (other _ (by decide)), ← digits, leadingNat_outNat]

theorem strtoull_outNat {n : Nat} (fits : n < 2 ^ 64) : strtoull (outNat n) = n := by
  rw [strtoull, signedNat_outNat]
  exact if_neg fits.not_ge

theorem atoll_outNat {n : Nat} (fits : n < 2 ^ 63) : atoll (outNat n) = n := by
  rw [atoll, signedNat_outNat]
  exact min_eq_right (by omega)

/-! The options. -/

structure ProgramOptions extends Options where
  file : List UInt8
  statsJson : List UInt8
  cpuOnly : Bool
  noCsv : Bool

def ProgramOptions.default : ProgramOptions := ⟨.default, [], [], false, false⟩

def fileFlag : List UInt8 := out "--file".toList
def snapshotIntervalFlag : List UInt8 := out "--snapshot-interval".toList
def maxMsgsFlag : List UInt8 := out "--max-msgs".toList
def statsJsonFlag : List UInt8 := out "--stats-json".toList
def cpuOnlyFlag : List UInt8 := out "--cpu-only".toList
def noCsvFlag : List UInt8 := out "--no-csv".toList
def helpFlag : List UInt8 := out "--help".toList
def helpFlagShort : List UInt8 := out "-h".toList

def missingValue (flag : List UInt8) : List UInt8 :=
  out "missing value for ".toList ++ flag ++ out ['\n']

def unknownOption (a : List UInt8) : List UInt8 := out "unknown option: ".toList ++ a ++ out ['\n']

/-- How `parse_args` ends: with `true`, with `false` and a text for `stderr`, or with the
program after it has printed the usage. -/
inductive Parsed
  | accepted (o : ProgramOptions)
  | rejected (text : List UInt8)
  | help

/-- The loop of `parse_args` from the argument behind the program's name on. -/
def parseArgs : List (List UInt8) → ProgramOptions → Parsed
  | [], o => if o.file = [] then .rejected [] else .accepted o
  | a :: rest, o =>
    if a = fileFlag then
      match rest with
      | [] => .rejected (missingValue fileFlag)
      | v :: rest => parseArgs rest { o with file := v }
    else if a = snapshotIntervalFlag then
      match rest with
      | [] => .rejected (missingValue snapshotIntervalFlag)
      | v :: rest =>
        if positive : 0 < atoll v then
          parseArgs rest
            { o with
              snapshotInterval := (atoll v).toNat
              interval_pos := by omega }
        else .rejected []
    else if a = maxMsgsFlag then
      match rest with
      | [] => .rejected (missingValue maxMsgsFlag)
      | v :: rest => parseArgs rest { o with maxMsgs := strtoull v }
    else if a = statsJsonFlag then
      match rest with
      | [] => .rejected (missingValue statsJsonFlag)
      | v :: rest => parseArgs rest { o with statsJson := v }
    else if a = cpuOnlyFlag then parseArgs rest { o with cpuOnly := true }
    else if a = noCsvFlag then parseArgs rest { o with noCsv := true }
    else if a = helpFlag ∨ a = helpFlagShort then .help
    else .rejected (unknownOption a)

/-! The arguments as settings. -/

inductive Setting
  | file (path : List UInt8)
  | snapshotInterval (n : List UInt8) (positive : 0 < atoll n)
  | maxMsgs (n : List UInt8)
  | statsJson (path : List UInt8)
  | cpuOnly
  | noCsv

namespace Setting

def args : Setting → List (List UInt8)
  | file path => [fileFlag, path]
  | snapshotInterval n _ => [snapshotIntervalFlag, n]
  | maxMsgs n => [maxMsgsFlag, n]
  | statsJson path => [statsJsonFlag, path]
  | cpuOnly => [cpuOnlyFlag]
  | noCsv => [noCsvFlag]

def apply (o : ProgramOptions) : Setting → ProgramOptions
  | file path => { o with file := path }
  | snapshotInterval n positive =>
    { o with
      snapshotInterval := (atoll n).toNat
      interval_pos := by omega }
  | maxMsgs n => { o with maxMsgs := strtoull n }
  | statsJson path => { o with statsJson := path }
  | cpuOnly => { o with cpuOnly := true }
  | noCsv => { o with noCsv := true }

end Setting

open Setting in
theorem parseArgs_args (x : Setting) (rest : List (List UInt8)) (o : ProgramOptions) :
    parseArgs (x.args ++ rest) o = parseArgs rest (x.apply o) := by
  cases x with
  | file path => exact if_pos rfl
  | snapshotInterval n positive =>
    change parseArgs (snapshotIntervalFlag :: n :: rest) o = _
    rw [parseArgs.eq_def]
    dsimp only
    rw [if_neg (by decide), if_pos rfl]
    exact dif_pos positive
  | maxMsgs n =>
    change parseArgs (maxMsgsFlag :: n :: rest) o = _
    rw [parseArgs.eq_def]
    dsimp only
    rw [if_neg (by decide), if_neg (by decide), if_pos rfl]
    rfl
  | statsJson path =>
    change parseArgs (statsJsonFlag :: path :: rest) o = _
    rw [parseArgs.eq_def]
    dsimp only
    rw [if_neg (by decide), if_neg (by decide), if_neg (by decide), if_pos rfl]
    rfl
  | cpuOnly =>
    change parseArgs (cpuOnlyFlag :: rest) o = _
    rw [parseArgs.eq_def]
    dsimp only
    rw [if_neg (by decide), if_neg (by decide), if_neg (by decide),
      if_neg (by decide), if_pos rfl]
    rfl
  | noCsv =>
    change parseArgs (noCsvFlag :: rest) o = _
    rw [parseArgs.eq_def]
    dsimp only
    rw [if_neg (by decide), if_neg (by decide), if_neg (by decide),
      if_neg (by decide), if_neg (by decide), if_pos rfl]
    rfl

theorem parseArgs_flatMap (ss : List Setting) (rest : List (List UInt8)) (o : ProgramOptions) :
    parseArgs (ss.flatMap Setting.args ++ rest) o =
      parseArgs rest (ss.foldl Setting.apply o) := by
  induction ss generalizing o with
  | nil => rfl
  | cons x ss ih => rw [List.flatMap_cons, List.append_assoc, parseArgs_args, ih, List.foldl_cons]

def valueFlags : List (List UInt8) := [fileFlag, snapshotIntervalFlag, maxMsgsFlag, statsJsonFlag]

def plainFlags : List (List UInt8) := [cpuOnlyFlag, noCsvFlag, helpFlag, helpFlagShort]

/-- Arguments that are no setting in front, and how `parse_args` ends with them. -/
inductive Stops : List (List UInt8) → Parsed → Prop
  | help {a : List UInt8} (rest : List (List UInt8)) (asks : a = helpFlag ∨ a = helpFlagShort) :
      Stops (a :: rest) .help
  | missing {a : List UInt8} (value : a ∈ valueFlags) : Stops [a] (.rejected (missingValue a))
  | interval {n : List UInt8} (rest : List (List UInt8)) (none : atoll n ≤ 0) :
      Stops (snapshotIntervalFlag :: n :: rest) (.rejected [])
  | unknown {a : List UInt8} (rest : List (List UInt8)) (other : a ∉ valueFlags ++ plainFlags) :
      Stops (a :: rest) (.rejected (unknownOption a))

theorem Stops.parseArgs {args : List (List UInt8)} {p : Parsed} (stops : Stops args p)
    (o : ProgramOptions) : parseArgs args o = p := by
  rw [ItchAggregator.parseArgs.eq_def]
  cases stops with
  | help rest asks =>
    rcases asks with rfl | rfl <;> rfl
  | missing value =>
    simp only [valueFlags, List.mem_cons, List.not_mem_nil, or_false] at value
    rcases value with rfl | rfl | rfl | rfl <;> rfl
  | interval rest none =>
    dsimp only
    rw [if_neg (by decide), if_pos rfl]
    exact dif_neg none.not_gt
  | unknown rest other =>
    simp only [valueFlags, plainFlags, List.cons_append, List.nil_append, List.mem_cons,
      List.not_mem_nil, or_false, not_or] at other
    simp [other]

theorem front_cases (args : List (List UInt8)) :
    args = [] ∨ (∃ x rest, args = Setting.args x ++ rest) ∨ ∃ p, Stops args p := by
  cases args with
  | nil => exact Or.inl rfl
  | cons a rest =>
    refine Or.inr ?_
    by_cases value : a ∈ valueFlags
    · cases rest with
      | nil => exact Or.inr ⟨_, .missing value⟩
      | cons v rest =>
        simp only [valueFlags, List.mem_cons, List.not_mem_nil, or_false] at value
        rcases value with rfl | rfl | rfl | rfl
        · exact Or.inl ⟨.file v, rest, rfl⟩
        · rcases lt_or_ge 0 (atoll v) with positive | none
          · exact Or.inl ⟨.snapshotInterval v positive, rest, rfl⟩
          · exact Or.inr ⟨_, .interval rest none⟩
        · exact Or.inl ⟨.maxMsgs v, rest, rfl⟩
        · exact Or.inl ⟨.statsJson v, rest, rfl⟩
    · by_cases plain : a ∈ plainFlags
      · simp only [plainFlags, List.mem_cons, List.not_mem_nil, or_false] at plain
        rcases plain with rfl | rfl | asks
        · exact Or.inl ⟨.cpuOnly, rest, rfl⟩
        · exact Or.inl ⟨.noCsv, rest, rfl⟩
        · exact Or.inr ⟨_, .help rest asks⟩
      · exact Or.inr ⟨_, .unknown rest (by simp [value, plain])⟩

theorem args_cases (args : List (List UInt8)) :
    (∃ ss, args = List.flatMap Setting.args ss) ∨
      ∃ ss rest p, args = List.flatMap Setting.args ss ++ rest ∧ Stops rest p := by
  induction h : args.length using Nat.strong_induction_on generalizing args with
  | _ n ih =>
    rcases front_cases args with rfl | ⟨x, rest, rfl⟩ | ⟨p, stops⟩
    · exact Or.inl ⟨[], rfl⟩
    · have shorter : rest.length < n := by
        rw [← h, List.length_append]
        have some_ : 0 < x.args.length := by cases x <;> simp [Setting.args]
        omega
      rcases ih _ shorter rest rfl with ⟨ss, rfl⟩ | ⟨ss, left, p, rfl, stops⟩
      · exact Or.inl ⟨x :: ss, rfl⟩
      · exact Or.inr ⟨x :: ss, left, p, by rw [List.flatMap_cons, List.append_assoc], stops⟩
    · exact Or.inr ⟨[], args, p, rfl, stops⟩

/-! The last setting of a kind. -/

namespace Setting

def file? : Setting → Option (List UInt8)
  | file path => some path
  | _ => none

def snapshotInterval? : Setting → Option Nat
  | snapshotInterval n _ => some (atoll n).toNat
  | _ => none

def maxMsgs? : Setting → Option Nat
  | maxMsgs n => some (strtoull n)
  | _ => none

def statsJson? : Setting → Option (List UInt8)
  | statsJson path => some path
  | _ => none

def cpuOnly? : Setting → Option Bool
  | cpuOnly => some true
  | _ => none

def noCsv? : Setting → Option Bool
  | noCsv => some true
  | _ => none

def last {α : Type} (value? : Setting → Option α) (ss : List Setting) (default_ : α) : α :=
  (ss.filterMap value?).getLast?.getD default_

theorem last_apply {α : Type} (value : ProgramOptions → α) (value? : Setting → Option α)
    (sets : ∀ o x, value (apply o x) = (value? x).getD (value o)) (ss : List Setting)
    (o : ProgramOptions) : value (ss.foldl apply o) = last value? ss (value o) := by
  induction ss using List.reverseRecOn with
  | nil => rfl
  | append_singleton ss x ih =>
    rw [List.foldl_append, List.foldl_cons, List.foldl_nil, sets, ih, last, last,
      List.filterMap_append, List.getLast?_append]
    cases given : value? x <;> simp [given]

end Setting

/-- Every option has the value that was given last, or else its default. -/
structure Settles (ss : List Setting) (o : ProgramOptions) : Prop where
  file : o.file = Setting.last Setting.file? ss []
  snapshotInterval : o.snapshotInterval = Setting.last Setting.snapshotInterval? ss 128
  maxMsgs : o.maxMsgs = Setting.last Setting.maxMsgs? ss 0
  statsJson : o.statsJson = Setting.last Setting.statsJson? ss []
  cpuOnly : o.cpuOnly = Setting.last Setting.cpuOnly? ss false
  noCsv : o.noCsv = Setting.last Setting.noCsv? ss false

theorem settles_foldl (ss : List Setting) : Settles ss (ss.foldl Setting.apply .default) where
  file :=
    Setting.last_apply ProgramOptions.file Setting.file?
      (fun o x => by cases x <;> rfl) ss .default
  snapshotInterval :=
    Setting.last_apply (fun o => o.snapshotInterval) Setting.snapshotInterval?
      (fun o x => by cases x <;> rfl) ss .default
  maxMsgs :=
    Setting.last_apply (fun o => o.maxMsgs) Setting.maxMsgs?
      (fun o x => by cases x <;> rfl) ss .default
  statsJson :=
    Setting.last_apply ProgramOptions.statsJson Setting.statsJson?
      (fun o x => by cases x <;> rfl) ss .default
  cpuOnly :=
    Setting.last_apply ProgramOptions.cpuOnly Setting.cpuOnly?
      (fun o x => by cases x <;> rfl) ss .default
  noCsv :=
    Setting.last_apply ProgramOptions.noCsv Setting.noCsv?
      (fun o x => by cases x <;> rfl) ss .default

theorem Settles.eq {ss : List Setting} {o o' : ProgramOptions} (settles : Settles ss o)
    (settles' : Settles ss o') : o = o' := by
  obtain ⟨⟨interval, maxMsgs, _⟩, file, statsJson, cpuOnly, noCsv⟩ := o
  obtain ⟨⟨interval', maxMsgs', _⟩, file', statsJson', cpuOnly', noCsv'⟩ := o'
  obtain rfl : interval = interval' := settles.snapshotInterval.trans settles'.snapshotInterval.symm
  obtain rfl : maxMsgs = maxMsgs' := settles.maxMsgs.trans settles'.maxMsgs.symm
  obtain rfl : file = file' := settles.file.trans settles'.file.symm
  obtain rfl : statsJson = statsJson' := settles.statsJson.trans settles'.statsJson.symm
  obtain rfl : cpuOnly = cpuOnly' := settles.cpuOnly.trans settles'.cpuOnly.symm
  obtain rfl : noCsv = noCsv' := settles.noCsv.trans settles'.noCsv.symm
  rfl

/-- How `parse_args` ends: the arguments are settings, and the last of a kind counts, or the
settings are followed by what is none. -/
inductive Reads (args : List (List UInt8)) : Parsed → Prop
  | settings {ss : List Setting} {o : ProgramOptions} (split : args = ss.flatMap Setting.args)
      (settles : Settles ss o) (file : o.file ≠ []) : Reads args (.accepted o)
  | noFile {ss : List Setting} (split : args = ss.flatMap Setting.args)
      (none : Setting.last Setting.file? ss [] = []) : Reads args (.rejected [])
  | stops {ss : List Setting} {rest : List (List UInt8)} {p : Parsed}
      (split : args = ss.flatMap Setting.args ++ rest) (stops : Stops rest p) : Reads args p

theorem parseArgs_settings (ss : List Setting) : parseArgs (ss.flatMap Setting.args) .default =
    parseArgs [] (ss.foldl Setting.apply .default) := by
  have flat := parseArgs_flatMap ss [] .default
  rwa [List.append_nil] at flat

theorem reads_parseArgs (args : List (List UInt8)) : Reads args (parseArgs args .default) := by
  rcases args_cases args with ⟨ss, rfl⟩ | ⟨ss, rest, p, rfl, stops⟩
  · rw [parseArgs_settings]
    have settles := settles_foldl ss
    by_cases file : (ss.foldl Setting.apply .default).file = []
    · rw [parseArgs, if_pos file]
      exact .noFile rfl (settles.file ▸ file)
    · rw [parseArgs, if_neg file]
      exact .settings rfl settles file
  · rw [parseArgs_flatMap, stops.parseArgs]
    exact .stops rfl stops

theorem Reads.parseArgs {args : List (List UInt8)} {p : Parsed} (reads : Reads args p) :
    parseArgs args .default = p := by
  cases reads with
  | settings split settles file =>
    obtain rfl := settles.eq (settles_foldl _)
    rw [split, parseArgs_settings]
    exact if_neg file
  | noFile split none =>
    rw [split, parseArgs_settings]
    exact if_pos ((settles_foldl _).file.trans none)
  | stops split stops => rw [split, parseArgs_flatMap, stops.parseArgs]

/-- The arguments of a command line are read in one way only, the one of `parse_args`. -/
theorem parseArgs_iff (args : List (List UInt8)) (p : Parsed) :
    parseArgs args .default = p ↔ Reads args p :=
  ⟨fun same => same ▸ reads_parseArgs args, Reads.parseArgs⟩

def ProgramOptions.settings (o : ProgramOptions) (fits : o.snapshotInterval < 2 ^ 63) :
    List Setting :=
  [.file o.file,
    .snapshotInterval (outNat o.snapshotInterval) (by
      rw [atoll_outNat fits]
      exact Int.natCast_pos.mpr o.interval_pos),
    .maxMsgs (outNat o.maxMsgs), .statsJson o.statsJson] ++
  (if o.cpuOnly then [.cpuOnly] else []) ++ if o.noCsv then [.noCsv] else []

theorem Setting.last_append {α : Type} (value? : Setting → Option α) (ss ts : List Setting)
    (default_ : α) :
    last value? (ss ++ ts) default_ = last value? ts (last value? ss default_) := by
  rw [last, last, last, List.filterMap_append, List.getLast?_append]
  cases (ts.filterMap value?).getLast? <;> rfl

theorem ProgramOptions.settles (o : ProgramOptions) (fits : o.snapshotInterval < 2 ^ 63)
    (fits' : o.maxMsgs < 2 ^ 64) : Settles (o.settings fits) o := by
  have interval : (atoll (outNat o.snapshotInterval)).toNat = o.snapshotInterval := by
    rw [atoll_outNat fits, Int.toNat_natCast]
  constructor <;> rw [settings, Setting.last_append, Setting.last_append]
  · split <;> split <;> rfl
  · split <;> split <;> exact interval.symm
  · split <;> split <;> exact (strtoull_outNat fits').symm
  · split <;> split <;> rfl
  · cases o.cpuOnly <;> cases o.noCsv <;> rfl
  · cases o.cpuOnly <;> cases o.noCsv <;> rfl

theorem Setting.last_cases {α : Type} (value? : Setting → Option α) (ss : List Setting)
    (default_ : α) : last value? ss default_ = default_ ∨
      ∃ x ∈ ss, value? x = some (last value? ss default_) := by
  rw [last]
  cases given : (ss.filterMap value?).getLast? with
  | none => exact Or.inl rfl
  | some v => exact Or.inr (List.mem_filterMap.mp (List.mem_of_getLast? given))

theorem Settles.range {ss : List Setting} {o : ProgramOptions} (settles : Settles ss o) :
    o.snapshotInterval < 2 ^ 63 ∧ o.maxMsgs < 2 ^ 64 := by
  constructor
  · rw [settles.snapshotInterval]
    rcases Setting.last_cases Setting.snapshotInterval? ss 128 with default_ | ⟨x, _, given⟩
    · rw [default_]
      decide
    · cases x with
      | snapshotInterval n positive =>
        rw [← Option.some_inj.mp given]
        have bound := atoll_lt n
        omega
      | _ => cases given
  · rw [settles.maxMsgs]
    rcases Setting.last_cases Setting.maxMsgs? ss 0 with default_ | ⟨x, _, given⟩
    · rw [default_]
      decide
    · cases x with
      | maxMsgs n =>
        rw [← Option.some_inj.mp given]
        exact strtoull_lt n
      | _ => cases given

/-- The options that a command line can give: all that name a file and are in range. -/
theorem parseArgs_range (o : ProgramOptions) :
    (∃ args, parseArgs args .default = .accepted o) ↔
      o.file ≠ [] ∧ o.snapshotInterval < 2 ^ 63 ∧ o.maxMsgs < 2 ^ 64 := by
  constructor
  · rintro ⟨args, accepted⟩
    cases accepted ▸ reads_parseArgs args with
    | settings _ settles file => exact ⟨file, settles.range⟩
    | stops _ stops => cases stops
  · rintro ⟨file, fits, fits'⟩
    exact ⟨_, Reads.parseArgs (.settings rfl (o.settles fits fits') file)⟩

end ItchAggregator
