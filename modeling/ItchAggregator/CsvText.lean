import ItchAggregator.CsvRows
import ItchAggregator.Library.FixedPoint
import ItchAggregator.StatsFile

/-! The text of the CSV rows, and what a reader makes of it. The floating-point columns are
quotients that are rounded to doubles, and then to the places printed; prices come out as
the integers they are computed from. No column is quoted, so that the rows are read back as
long as no ticker has a separator in it. -/

namespace ItchAggregator

open FixedPoint Rounding Utf8

/-! Doubles and floats. The magnitudes are 0 or far inside the exponents' range. -/

def toDouble (x : ℚ) : ℚ := toPrecision 52 x

def toFloat (x : ℚ) : ℚ := toPrecision 23 x

def dollars (x : ℚ) : ℚ := toDouble (toDouble x / 10000)

namespace Snapshot

def vwapDouble (s : Snapshot) : ℚ :=
  if s.volume = 0 then 0
  else dollars (toDouble (toDouble s.vwapNum.toNat / toDouble s.volume.toNat))

/-- The field `imbalance`; the difference of the volumes is signed, their sum wraps. -/
def imbalanceFloat (s : Snapshot) : ℚ :=
  if s.buyVol + s.sellVol = 0 then 0
  else
    toFloat (toDouble (toDouble (s.buyVol.toInt64 - s.sellVol.toInt64).toInt /
      toDouble (s.buyVol + s.sellVol).toNat))

end Snapshot

/-! The writer. -/

def comma : UInt8 := ','.toUInt8

def newline : UInt8 := '\n'.toUInt8

def csvHeader : List UInt8 :=
  out ("ts_ns,symbol,vwap,volume,buy_vol,sell_vol,imbalance,".toList ++
    "bid,ask,spread,trades,adds,cancel_shares".toList)

namespace CsvRow

/-- `%.4f` of a price in units of 1/10000. -/
def price (x : ℚ) : List UInt8 := out (text 4 (dollars x))

def columns (r : CsvRow) : List (List UInt8) :=
  [outNat r.ts.toNat, r.symbol, out (text 4 r.snap.vwapDouble), outNat r.snap.volume.toNat,
    outNat r.snap.buyVol.toNat, outNat r.snap.sellVol.toNat, out (text 6 r.snap.imbalanceFloat),
    r.bid.elim [] fun b => price b.toNat, r.ask.elim [] fun a => price a.toNat,
    r.spread.elim [] fun d => price d, outNat r.snap.trades.toNat, outNat r.snap.adds.toNat,
    outNat r.snap.cancelShares.toNat]

def line (r : CsvRow) : List UInt8 := [comma].intercalate r.columns

end CsvRow

def csvText (rows : List CsvRow) : List UInt8 :=
  csvHeader ++ newline :: rows.flatMap fun r => r.line ++ [newline]

/-! The reader. -/

/-- A row as it is read: prices in units of 1/10000, the imbalance in millionths. -/
structure CsvRecord where
  ts : Nat
  symbol : List UInt8
  vwap : ℤ
  volume : Nat
  buyVol : Nat
  sellVol : Nat
  imbalance : ℤ
  bid : Option ℤ
  ask : Option ℤ
  spread : Option ℤ
  trades : Nat
  adds : Nat
  cancelShares : Nat
  deriving DecidableEq

namespace CsvRecord

def nat (column : List UInt8) : Option Nat := readNat (column.map ofAscii)

def fixed (n : Nat) (column : List UInt8) : Option ℤ := read n (column.map ofAscii)

def price? (column : List UInt8) : Option (Option ℤ) :=
  if column = [] then some none else (fixed 4 column).map some

def ofColumns : List (List UInt8) → Option CsvRecord
  | [ts, symbol, vwap, volume, buyVol, sellVol, imbalance, bid, ask, spread, trades, adds,
      cancelShares] => do
    let ts ← nat ts
    let vwap ← fixed 4 vwap
    let volume ← nat volume
    let buyVol ← nat buyVol
    let sellVol ← nat sellVol
    let imbalance ← fixed 6 imbalance
    let bid ← price? bid
    let ask ← price? ask
    let spread ← price? spread
    let trades ← nat trades
    let adds ← nat adds
    let cancelShares ← nat cancelShares
    some ⟨ts, symbol, vwap, volume, buyVol, sellVol, imbalance, bid, ask, spread, trades, adds,
      cancelShares⟩
  | _ => none

def ofLine (line : List UInt8) : Option CsvRecord := ofColumns (line.splitOn comma)

/-- Every line is a row; behind the last newline there is nothing. -/
def ofLines : List (List UInt8) → Option (List CsvRecord)
  | [] => none
  | [last] => if last = [] then some [] else none
  | line :: lines => do
    let r ← ofLine line
    let rs ← ofLines lines
    some (r :: rs)

end CsvRecord

def readCsv (bs : List UInt8) : Option (List CsvRecord) :=
  match bs.splitOn newline with
  | header :: lines => if header = csvHeader then CsvRecord.ofLines lines else none
  | [] => none

/-- What a row is read back as: the integers of its snapshot, the prices as they were
aggregated, and the two quotients rounded to their places. -/
def CsvRow.record (r : CsvRow) : CsvRecord where
  ts := r.ts.toNat
  symbol := r.symbol
  vwap := units 4 r.snap.vwapDouble
  volume := r.snap.volume.toNat
  buyVol := r.snap.buyVol.toNat
  sellVol := r.snap.sellVol.toNat
  imbalance := units 6 r.snap.imbalanceFloat
  bid := r.bid.map fun b => (b.toNat : ℤ)
  ask := r.ask.map fun a => (a.toNat : ℤ)
  spread := r.spread
  trades := r.snap.trades.toNat
  adds := r.snap.adds.toNat
  cancelShares := r.snap.cancelShares.toNat

/-! Columns of digits, points and signs. -/

def Numeric (s : List Char) : Prop := ∀ c ∈ s, c = '-' ∨ c = '.' ∨ c.isDigit = true

theorem Numeric.lt {s : List Char} (numeric : Numeric s) : ∀ c ∈ s, c.toNat < 128 := by
  intro c mem
  rcases numeric c mem with rfl | rfl | digit
  · decide
  · decide
  · exact digit_lt digit

theorem numeric_toDigits (n : Nat) : Numeric (Nat.toDigits 10 n) := fun c mem =>
  Or.inr (Or.inr (toDigits_isDigit n c mem))

theorem numeric_text (n : Nat) (x : ℚ) : Numeric (text n x) := fun _ mem => mem_text mem

theorem Numeric.notMem {s : List Char} (numeric : Numeric s) {b : UInt8} {c : Char}
    (ascii : c.toNat < 128) (code : b = UInt8.ofNat c.toNat) (other : c ∉ s) : b ∉ out s := by
  intro mem
  obtain ⟨d, hd, same⟩ := List.mem_map.mp mem
  rw [code] at same
  have value : d.toNat = c.toNat := by
    have values := congrArg UInt8.toNat same
    rwa [UInt8.toNat_ofNat_of_lt' ((numeric.lt d hd).trans (by decide)),
      UInt8.toNat_ofNat_of_lt' (ascii.trans (by decide))] at values
  exact other (Char.toNat_inj.mp value ▸ hd)

def NoSeparators (column : List UInt8) : Prop := comma ∉ column ∧ newline ∉ column

theorem Numeric.separators {s : List Char} (numeric : Numeric s) : NoSeparators (out s) := by
  have none {c : Char} (dash : c ≠ '-') (point : c ≠ '.') (digit : c.isDigit = false) : c ∉ s := by
    intro mem
    rcases numeric c mem with rfl | rfl | isDigit
    · exact dash rfl
    · exact point rfl
    · exact absurd isDigit (by simp [digit])
  exact ⟨numeric.notMem (c := ',') (by decide) rfl (none (by decide) (by decide) rfl),
    numeric.notMem (c := '\n') (by decide) rfl (none (by decide) (by decide) rfl)⟩

theorem nat_outNat (n : Nat) : CsvRecord.nat (outNat n) = some n := by
  rw [CsvRecord.nat, outNat_text, readNat_toDigits]

theorem fixed_text {n : Nat} (positive : 0 < n) (x : ℚ) :
    CsvRecord.fixed n (out (text n x)) = some (units n x) := by
  rw [CsvRecord.fixed, out_text (numeric_text n x).lt, read_text positive]

/-! Prices. -/

/-- Within the reach of the price columns the double is printed as the integer it is of. -/
theorem units_dollars {k : ℤ} (short : |k| < 2 ^ 33) : units 4 (dollars k) = k := by
  have exact_ : toDouble (k : ℚ) = k := toPrecision_intCast (short.trans (by norm_num))
  have error : |toDouble ((k : ℚ) / 10000) - k / 10000| ≤ |(k : ℚ) / 10000| / 2 ^ 53 :=
    abs_toPrecision_sub_le 52 _
  have bound : |(k : ℚ)| < 2 ^ 33 := by exact_mod_cast short
  have scaled : |toDouble ((k : ℚ) / 10000) * 10 ^ 4 - k| =
      |toDouble ((k : ℚ) / 10000) - k / 10000| * 10 ^ 4 := by
    have positive : |(10 : ℚ) ^ 4| = 10 ^ 4 := abs_of_pos (by norm_num)
    rw [← positive, ← abs_mul, positive]
    congr 1
    ring
  rw [dollars, exact_]
  apply units_eq
  rw [scaled]
  calc _ ≤ |(k : ℚ) / 10000| / 2 ^ 53 * 10 ^ 4 := by gcongr
    _ = |(k : ℚ)| / 2 ^ 53 := by
      rw [abs_div]
      norm_num
      ring
    _ < 1 / 2 := by
      rw [div_lt_iff₀ (by norm_num)]
      exact bound.trans (by norm_num)

/-- The buffers of `print_snapshot_csv` hold a price and its terminating NUL. -/
theorem length_price {k : ℤ} (short : |k| < 2 ^ 33) : (CsvRow.price k).length < 24 := by
  have whole : (Nat.toDigits 10 (k.natAbs / 10 ^ 4)).length ≤ 6 := by
    rw [Nat.length_toDigits_le_iff (by norm_num) (by norm_num)]
    rw [Int.abs_eq_natAbs] at short
    omega
  have places := length_places (n := 4) (m := k.natAbs) (by norm_num)
  rw [CsvRow.price, out, List.length_map, text, units_dollars short, decimal]
  simp only [List.length_append, List.length_cons, places]
  split <;> simp only [List.length_cons, List.length_nil] <;> omega

/-! Lines. -/

namespace CsvRow

structure Printable (r : CsvRow) : Prop where
  symbol : r.symbol.length ≤ 9
  spread : ∀ d ∈ r.spread, |d| < 2 ^ 33

def Plain (r : CsvRow) : Prop := NoSeparators r.symbol

instance (r : CsvRow) : Decidable r.Plain := inferInstanceAs (Decidable (_ ∧ _))

variable {r : CsvRow}

theorem noSeparators_price {α : Type} (o : Option α) (f : α → ℚ) :
    NoSeparators (o.elim [] fun x => price (f x)) := by
  cases o with
  | none => exact ⟨List.not_mem_nil, List.not_mem_nil⟩
  | some x => exact (numeric_text 4 _).separators

theorem separators {column : List UInt8} (mem : column ∈ r.columns) :
    column = r.symbol ∨ NoSeparators column := by
  have digits (n : Nat) : NoSeparators (outNat n) := (numeric_toDigits n).separators
  have places (n : Nat) (x : ℚ) : NoSeparators (out (text n x)) := (numeric_text n x).separators
  simp only [columns, List.mem_cons, List.not_mem_nil, or_false] at mem
  rcases mem with rfl | rfl | rfl | rfl | rfl | rfl | rfl | rfl | rfl | rfl | rfl | rfl | rfl
  · exact .inr (digits _)
  · exact .inl rfl
  · exact .inr (places 4 _)
  · exact .inr (digits _)
  · exact .inr (digits _)
  · exact .inr (digits _)
  · exact .inr (places 6 _)
  · exact .inr (noSeparators_price r.bid fun b => b.toNat)
  · exact .inr (noSeparators_price r.ask fun a => a.toNat)
  · exact .inr (noSeparators_price r.spread fun d => d)
  · exact .inr (digits _)
  · exact .inr (digits _)
  · exact .inr (digits _)

theorem price?_price {k : ℤ} (short : |k| < 2 ^ 33) :
    CsvRecord.price? (price k) = some (some k) := by
  have some_ : price k ≠ [] := by
    simp [price, out, text, decimal]
  rw [CsvRecord.price?, if_neg some_, price, fixed_text (by norm_num), units_dollars short]
  rfl

theorem price?_quote (q : Option UInt32) :
    CsvRecord.price? (q.elim [] fun b => price b.toNat) =
      some (q.map fun b => (b.toNat : ℤ)) := by
  cases q with
  | none => rfl
  | some b =>
    have short : |((b.toNat : ℕ) : ℤ)| < 2 ^ 33 := by
      have := b.toNat_lt
      rw [Nat.abs_cast]
      omega
    exact_mod_cast price?_price short

theorem price?_spread (printable : r.Printable) :
    CsvRecord.price? (r.spread.elim [] fun d => price d) = some r.spread := by
  cases h : r.spread with
  | none => rfl
  | some d => exact price?_price (printable.spread d (by rw [h]; rfl))

theorem ofColumns_columns (printable : r.Printable) :
    CsvRecord.ofColumns r.columns = some r.record := by
  simp only [columns, CsvRecord.ofColumns, nat_outNat, fixed_text (show 0 < 4 by decide),
    fixed_text (show 0 < 6 by decide), price?_quote, price?_spread printable, Option.bind_eq_bind,
    Option.bind_some, record]

theorem ofLine_line (printable : r.Printable) (plain : comma ∉ r.symbol) :
    CsvRecord.ofLine r.line = some r.record := by
  have whole : ∀ column ∈ r.columns, comma ∉ column := fun column mem =>
    (separators mem).elim (fun same => same ▸ plain) And.left
  rw [CsvRecord.ofLine, line, List.splitOn_intercalate comma whole (by simp [columns]),
    ofColumns_columns printable]

end CsvRow

theorem count_intercalate {α : Type*} [DecidableEq α] (a : α) (xs : List α) (xss : List (List α)) :
    ([a].intercalate (xs :: xss)).count a = ((xs :: xss).map (List.count a)).sum + xss.length := by
  induction xss generalizing xs with
  | nil => simp
  | cons ys xss ih =>
    rw [List.intercalate_cons_cons, List.count_append, List.count_append, ih]
    simp
    omega

theorem count_intercalate_ne {α : Type*} [DecidableEq α] {a b : α} (other : a ≠ b) (xs : List α)
    (xss : List (List α)) :
    ([a].intercalate (xs :: xss)).count b = ((xs :: xss).map (List.count b)).sum := by
  induction xss generalizing xs with
  | nil => simp
  | cons ys xss ih =>
    rw [List.intercalate_cons_cons, List.count_append, List.count_append, ih]
    simp [other]

theorem length_splitOn {α : Type*} [DecidableEq α] (a : α) (xs : List α) :
    (xs.splitOn a).length = xs.count a + 1 := by
  induction xs with
  | nil => simp
  | cons x xs ih =>
    rw [List.splitOn_cons_eq_if_modifyHead, List.count_cons]
    split <;> simp [ih]

theorem CsvRecord.ofLine_count {line : List UInt8} {record : CsvRecord}
    (result : ofLine line = some record) : line.count comma = 12 := by
  have length : (line.splitOn comma).length = 13 := by
    rw [ofLine, ofColumns.eq_def] at result
    split at result
    · next columns => rw [columns]; rfl
    · cases result
  rw [length_splitOn] at length
  omega

namespace CsvRow

variable {r : CsvRow}

theorem line_symbol (r : CsvRow) :
    ∃ tail, r.line = outNat r.ts.toNat ++ comma :: (r.symbol ++ comma :: tail) := by
  rw [line, columns]
  simp only [List.intercalate_cons_cons, List.append_assoc, List.singleton_append]
  exact ⟨_, rfl⟩

theorem count_line (r : CsvRow) : r.line.count comma = 12 + r.symbol.count comma := by
  rw [line, columns, count_intercalate]
  have digits (n : Nat) : (outNat n).count comma = 0 :=
    List.count_eq_zero.mpr (numeric_toDigits n).separators.1
  have places (n : Nat) (x : ℚ) : (out (text n x)).count comma = 0 :=
    List.count_eq_zero.mpr (numeric_text n x).separators.1
  have blank {α : Type} (o : Option α) (f : α → ℚ) :
      (o.elim [] fun x => price (f x)).count comma = 0 :=
    List.count_eq_zero.mpr (noSeparators_price o f).1
  simp only [List.map_cons, List.map_nil, List.sum_cons, List.sum_nil, digits, places,
    blank r.bid fun b => b.toNat, blank r.ask fun a => a.toNat, blank r.spread fun d => d,
    List.length_cons, List.length_nil]
  omega

/-- A ticker with a newline breaks the line in front of the other commas. -/
theorem splitOn_newline (printable : r.Printable) (broken : newline ∈ r.symbol) :
    ∃ piece pieces, r.line.splitOn newline = piece :: pieces ∧ piece.count comma < 12 := by
  obtain ⟨front, back, split, unbroken⟩ := List.eq_append_cons_of_mem broken
  obtain ⟨tail, line⟩ := line_symbol r
  have ts : NoSeparators (outNat r.ts.toNat) := (numeric_toDigits _).separators
  have first : newline ∉ outNat r.ts.toNat ++ comma :: front := by
    simp only [List.mem_append, List.mem_cons, not_or]
    exact ⟨ts.2, by decide, unbroken⟩
  have whole : r.line =
      (outNat r.ts.toNat ++ comma :: front) ++ newline :: (back ++ comma :: tail) := by
    rw [line, split]
    simp
  refine ⟨outNat r.ts.toNat ++ comma :: front, (back ++ comma :: tail).splitOn newline, ?_, ?_⟩
  · rw [whole, List.splitOn_append_cons_self_of_not_mem first]
  · have short := printable.symbol
    rw [split] at short
    simp only [List.length_append, List.length_cons] at short
    have commas : front.count comma ≤ front.length := List.count_le_length
    rw [List.count_append, List.count_cons_self, List.count_eq_zero.mpr ts.1]
    omega

theorem splitOn_line (whole : newline ∉ r.symbol) : r.line.splitOn newline = [r.line] := by
  apply List.splitOn_eq_singleton
  rw [← List.count_eq_zero, line, columns, count_intercalate_ne (by decide),
    List.sum_eq_zero_iff]
  intro n mem
  obtain ⟨column, listed, rfl⟩ := List.mem_map.mp mem
  rw [List.count_eq_zero]
  rcases separators (r := r) listed with rfl | plain
  · exact whole
  · exact plain.2

theorem ofLine_broken (printable : r.Printable) (broken : ¬r.Plain) :
    ∃ piece pieces, r.line.splitOn newline = piece :: pieces ∧ CsvRecord.ofLine piece = none := by
  have none_ {piece : List UInt8} (count : piece.count comma ≠ 12) :
      CsvRecord.ofLine piece = none := by
    rw [Option.eq_none_iff_forall_ne_some]
    exact fun record result => count (CsvRecord.ofLine_count result)
  by_cases newline_ : newline ∈ r.symbol
  · obtain ⟨piece, pieces, split, few⟩ := splitOn_newline printable newline_
    exact ⟨piece, pieces, split, none_ few.ne⟩
  · have comma_ : comma ∈ r.symbol := by
      by_contra absent
      exact broken ⟨absent, newline_⟩
    refine ⟨r.line, [], splitOn_line newline_, none_ ?_⟩
    have := List.count_pos_iff.mpr comma_
    rw [count_line]
    omega

theorem splitOn_rows (rows : List CsvRow) :
    (rows.flatMap fun r => r.line ++ [newline]).splitOn newline =
      (rows.flatMap fun r => r.line.splitOn newline) ++ [[]] := by
  induction rows with
  | nil => simp
  | cons r rows ih =>
    rw [List.flatMap_cons, List.append_assoc, List.singleton_append,
      List.splitOn_append_cons_self, ih, List.flatMap_cons, List.append_assoc]

end CsvRow

theorem CsvRecord.ofLines_cons (line : List UInt8) {lines : List (List UInt8)}
    (more : lines ≠ []) :
    ofLines (line :: lines) = (ofLine line).bind fun r => (ofLines lines).map (r :: ·) := by
  cases lines with
  | nil => exact absurd rfl more
  | cons next lines => simp only [ofLines, Option.bind_eq_bind, Option.map_eq_bind]; rfl

theorem ofLines_rows {rows : List CsvRow} (printable : ∀ r ∈ rows, r.Printable) :
    CsvRecord.ofLines ((rows.flatMap fun r => r.line.splitOn newline) ++ [[]]) =
      if ∀ r ∈ rows, r.Plain then some (rows.map CsvRow.record) else none := by
  induction rows with
  | nil => simp [CsvRecord.ofLines]
  | cons r rows ih =>
    have of_r := printable r List.mem_cons_self
    have ih := ih fun r mem => printable r (List.mem_cons_of_mem _ mem)
    rw [List.flatMap_cons, List.append_assoc]
    by_cases plain : r.Plain
    · rw [CsvRow.splitOn_line plain.2, List.singleton_append,
        CsvRecord.ofLines_cons _ (by simp), CsvRow.ofLine_line of_r plain.1, Option.bind_some, ih]
      simp only [List.forall_mem_cons, plain, true_and]
      split <;> rfl
    · obtain ⟨piece, pieces, split, none_⟩ := CsvRow.ofLine_broken of_r plain
      rw [split, List.cons_append, CsvRecord.ofLines_cons _ (by simp), none_, Option.bind_none,
        if_neg fun all => plain (all r List.mem_cons_self)]

/-! Snapshots. -/

theorem length_name (symbols : SymbolTable) (locate : Nat) :
    (symbols.name locate).length ≤ 9 := by
  rw [SymbolTable.name]
  split
  · exact (List.takeWhile_sublist _).length_le.trans (by simp [bytes])
  · simp

theorem printable_ofSnapshot (ts : UInt64) (symbols : SymbolTable) (locate : Nat) (s : Snapshot) :
    (CsvRow.ofSnapshot ts (symbols.name locate) s).Printable where
  symbol := length_name symbols locate
  spread := by
    intro d mem
    have ask := s.ask.toNat_lt
    have bid := s.bid.toNat_lt
    simp only [CsvRow.ofSnapshot] at mem
    split at mem
    · obtain rfl := Option.mem_some_iff.mp mem
      rw [abs_lt]
      omega
    · cases mem

/-- A CSV file is read back row by row, every quote and count as it was aggregated, if no
ticker that is printed has a separator; otherwise it is not read. -/
theorem readCsv_csvText (printed : List SnapshotCsv) :
    let rows := printed.flatMap fun p => printSnapshotCsv p.ts p.snap p.symbols
    readCsv (csvText rows) =
      if ∀ r ∈ rows, comma ∉ r.symbol ∧ newline ∉ r.symbol then some (rows.map CsvRow.record)
      else none := by
  intro rows
  have printable : ∀ r ∈ rows, r.Printable := by
    intro r mem
    obtain ⟨p, -, mem⟩ := List.mem_flatMap.mp mem
    obtain ⟨sym, -, rfl⟩ := List.mem_map.mp mem
    exact printable_ofSnapshot ..
  have header : newline ∉ csvHeader := by decide
  rw [readCsv, csvText, List.splitOn_append_cons_self_of_not_mem header, CsvRow.splitOn_rows]
  exact (if_pos rfl).trans (ofLines_rows printable)

end ItchAggregator
