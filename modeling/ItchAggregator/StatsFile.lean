import ItchAggregator.Library.JsonObjects
import ItchAggregator.Library.Utf8
import ItchAggregator.RunCpu
import ItchAggregator.ValidateCounts

/-! The statistics file, and what the Python pass makes of it. The writer puts the type
byte of every counter into a key as it is. -/

namespace ItchAggregator

open JsonText Utf8

/-- What a stream writes for a text in ASCII. -/
def out (s : List Char) : List UInt8 := s.map fun c => UInt8.ofNat c.toNat

def outNat (n : Nat) : List UInt8 := out (Nat.toDigits 10 n)

def allTypes : List UInt8 := (List.range 256).map UInt8.ofNat

def writeCounts (c : UInt8 → Nat) : List UInt8 → Bool → List UInt8
  | [], _ => []
  | t :: ts, first =>
    if c t = 0 then writeCounts c ts first
    else
      (if first then [] else out [',']) ++ (out "\n    \"".toList ++ [t] ++ out "\": ".toList ++
        outNat (c t) ++ writeCounts c ts false)

def countsObject (c : UInt8 → Nat) : List UInt8 :=
  out ['\x7b'] ++ writeCounts c allTypes true ++ out "\n  \x7d".toList

/-- The file of `write_stats`; `wall` is what the stream writes for the wall-clock seconds and
`mps` the integer that the message rate is cut down to. -/
def writeStats {k : LogCapacity} {σ : Type} (p : ItchParser σ) (a : BatchAssembler k)
    (rs : RunStats) (wall : List Char) (mps : Nat) : List UInt8 :=
  out "\x7b\n  \"total_messages\": ".toList ++ outNat p.total ++
  out ",\n  \"shipped_messages\": ".toList ++ outNat rs.shippedMsgs ++
  out ",\n  \"batches\": ".toList ++ outNat rs.batches ++
  out ",\n  \"snapshots\": ".toList ++ outNat rs.snapshots ++
  out ",\n  \"wall_seconds\": ".toList ++ out wall ++
  out ",\n  \"messages_per_sec\": ".toList ++ outNat mps ++
  out ",\n  \"unresolved_replaces\": ".toList ++ outNat a.unresolvedReplaces ++
  out ",\n  \"unknown_cancels\": ".toList ++ outNat a.unknownCancels ++
  out ",\n  \"counts_by_type\": ".toList ++ countsObject p.counts ++
  out "\n\x7d\n".toList

/-! `--against`. -/

namespace ValidateCounts

def eqNat : Json → Nat → Bool
  | .num m e, n => if 0 ≤ e then m * 10 ^ e.toNat == (n : Int) else m == (n : Int) * 10 ^ (-e).toNat
  | .bool b, n => n == b.toNat
  | _, _ => false

def truthy : Json → Bool
  | .null => false
  | .bool b => b
  | .num m _ => m != 0
  | .str s => !s.isEmpty
  | .arr items => !items.isEmpty
  | .obj members => !members.isEmpty

/-- The lines of the comparison that say `MISMATCH`. -/
inductive Mismatch
  | type (t : List Nat) (python : Nat) (pipeline : Json)
  | total (python : Nat) (pipeline : Option Json)

def counted (v : ValidateCounts) (t : List Nat) : Bool :=
  allTypes.any fun b => v.counts b != 0 && t == [b.toNat]

/-- The first loop: every type counted here. -/
def ours (v : ValidateCounts) (theirs : List (List Nat × Json)) : List Mismatch :=
  (allTypes.filter fun b => v.counts b != 0).filterMap fun b =>
    let pipeline := (Json.member? theirs [b.toNat]).getD (.num 0 0)
    if eqNat pipeline (v.counts b) then none else some (.type [b.toNat] (v.counts b) pipeline)

def onlyTheirs (v : ValidateCounts) (theirs : List (List Nat × Json)) : List Mismatch :=
  ((theirs.map Prod.fst).dedup.mergeSort fun s t => decide (s ≤ t)).filterMap fun t =>
    (Json.member? theirs t).bind fun n =>
      if truthy n && !v.counted t then some (.type t 0 n) else none

/-- The comparison with the statistics; `none` when a lookup is made in what is not a
dictionary. No line is the exit code 0. -/
def against (v : ValidateCounts) : Json → Option (List Mismatch)
  | .obj stats =>
    match (Json.member? stats ("counts_by_type".toList.map Char.toNat)).getD (.obj []) with
    | .obj theirs =>
      let pipeline := Json.member? stats ("total_messages".toList.map Char.toNat)
      some (ours v theirs ++ onlyTheirs v theirs ++
        if (pipeline.map fun x => eqNat x v.total) = some true then []
        else [.total v.total pipeline])
    | _ => none
  | _ => none

end ValidateCounts

/-! The texts of the two. -/

theorem out_text {s : List Char} (ascii : ∀ c ∈ s, c.toNat < 128) : (out s).map ofAscii = s := by
  rw [out, List.map_map]
  refine (List.map_congr_left fun c hc => ?_).trans s.map_id
  have byte : (UInt8.ofNat c.toNat).toNat = c.toNat :=
    UInt8.toNat_ofNat_of_lt' ((ascii c hc).trans (by decide))
  rw [Function.comp_apply, ofAscii, byte, Char.ofNat_toNat, id]

theorem digit_lt {c : Char} (digit : c.isDigit = true) : c.toNat < 128 := by
  rw [Char.isDigit, Bool.and_eq_true, decide_eq_true_eq, decide_eq_true_eq,
    UInt32.le_iff_toNat_le] at digit
  have upper : c.toNat ≤ 57 := digit.2
  omega

theorem toDigits_isDigit (n : Nat) : ∀ c ∈ Nat.toDigits 10 n, c.isDigit = true := fun _ mem =>
  Nat.isDigit_of_mem_toDigits (by decide) (by decide) mem

theorem outNat_text (n : Nat) : (outNat n).map ofAscii = Nat.toDigits 10 n :=
  out_text fun c mem => digit_lt (toDigits_isDigit n c mem)

theorem out_ascii {s : List Char} (ascii : ∀ c ∈ s, c.toNat < 128) : ∀ b ∈ out s, b < 0x80 := by
  intro b hb
  obtain ⟨c, hc, rfl⟩ := List.mem_map.mp hb
  have small := ascii c hc
  rw [UInt8.lt_iff_toNat_lt, UInt8.toNat_ofNat_of_lt' (small.trans (by decide))]
  exact small

theorem outNat_ascii (n : Nat) : ∀ b ∈ outNat n, b < 0x80 :=
  out_ascii fun c mem => digit_lt (toDigits_isDigit n c mem)

theorem mem_allTypes (t : UInt8) : t ∈ allTypes :=
  List.mem_map.mpr ⟨t.toNat, List.mem_range.mpr (UInt8.toNat_lt t), UInt8.ofNat_toNat⟩

def countedTypes (c : UInt8 → Nat) : List UInt8 := allTypes.filter fun t => c t != 0

theorem mem_countedTypes {c : UInt8 → Nat} {t : UInt8} : t ∈ countedTypes c ↔ c t ≠ 0 := by
  simp [countedTypes, mem_allTypes]

def typeGap : List Char := "\n    ".toList

theorem typeGap_blank : ∀ c ∈ typeGap, isWs c = true := by
  unfold typeGap
  simp [isWs]

def countsText (c : UInt8 → Nat) : List Char :=
  objectText typeGap "\n  ".toList (fun t => [ofAscii t]) (fun t => Nat.toDigits 10 (c t))
    (countedTypes c)

theorem writeCounts_text (c : UInt8 → Nat) (ts : List UInt8) (first : Bool) :
    (writeCounts c ts first).map ofAscii =
      match ts.filter fun t => c t != 0 with
      | [] => []
      | t :: rest =>
        (if first then [] else [',']) ++ (typeGap ++ (memberText [ofAscii t] (Nat.toDigits 10 (c t)) ++
          moreText typeGap (fun t => [ofAscii t]) (fun t => Nat.toDigits 10 (c t)) rest)) := by
  induction ts generalizing first with
  | nil => rfl
  | cons t ts ih =>
    unfold writeCounts
    by_cases zero : c t = 0
    · rw [if_pos zero, ih, List.filter_cons_of_neg (by simp [zero])]
    · have gap : (out "\n    \"".toList).map ofAscii = typeGap ++ ['"'] := out_text (by simp)
      have colon : (out "\": ".toList).map ofAscii = "\": ".toList := out_text (by simp)
      have comma : (if first = true then [] else out [',']).map ofAscii =
          if first then [] else [','] := by
        cases first with
        | true => rfl
        | false => exact out_text (by simp)
      rw [if_neg zero, List.filter_cons_of_pos (by simp [zero])]
      simp only [List.map_append, gap, colon, comma, outNat_text, ih, List.map_cons, List.map_nil]
      cases ts.filter fun t => c t != 0 with
      | nil => simp [memberText, moreText]
      | cons u rest => simp [memberText, moreText]

theorem countsObject_text (c : UInt8 → Nat) : (countsObject c).map ofAscii = countsText c := by
  have opening : (out ['\x7b']).map ofAscii = ['\x7b'] := out_text (by simp)
  have closing : (out "\n  \x7d".toList).map ofAscii = "\n  ".toList ++ ['\x7d'] :=
    out_text (by simp)
  rw [countsObject, List.map_append, List.map_append, opening, closing, writeCounts_text, countsText,
    countedTypes]
  cases allTypes.filter fun t => c t != 0 with
  | nil => rfl
  | cons t rest => simp [objectText]

/-- A type whose character stands for itself in a JSON string, in one byte. -/
def PlainType (t : UInt8) : Prop :=
  0x20 ≤ t ∧ t < 0x80 ∧ t ≠ '"'.toUInt8 ∧ t ≠ '\\'.toUInt8

instance (t : UInt8) : Decidable (PlainType t) := by
  unfold PlainType
  infer_instance

/-- The object is JSON in UTF-8, and decoded to the counters that are not zero. -/
def ReadsBack (c : UInt8 → Nat) : Prop :=
  ∃ text members, (∀ s, IsUtf8 (countsObject c) s ↔ s = text) ∧
    (∀ j, Loads text j ↔ j = .obj members) ∧
    ∀ key v, Json.member? members key = some v ↔ ∃ t, c t ≠ 0 ∧ key = [t.toNat] ∧ v = .num (c t) 0

theorem plain_iff {t : UInt8} (ascii : t < 0x80) :
    Plain (ofAscii t) ↔ 0x20 ≤ t ∧ t ≠ '"'.toUInt8 ∧ t ≠ '\\'.toUInt8 := by
  have code := toNat_ofAscii ascii
  have is : ∀ c : Char, c.toNat < 128 → (ofAscii t = c ↔ t = UInt8.ofNat c.toNat) := by
    intro c small
    rw [← Char.toNat_inj, code, ← UInt8.toNat_inj, UInt8.toNat_ofNat_of_lt' (small.trans (by decide))]
  rw [Plain, code, ne_eq, ne_eq, is _ (by decide), is _ (by decide), UInt8.le_iff_toNat_le]
  tauto

theorem member?_map {α : Type*} {ts : List α} {key : α → List Nat} {j : α → Json}
    (differ : Function.Injective key) {k : List Nat} {v : Json} :
    Json.member? (ts.map fun t => (key t, j t)) k = some v ↔ ∃ t ∈ ts, key t = k ∧ j t = v := by
  rw [Json.member?, ← List.map_reverse, List.find?_map, Option.map_map, Option.map_eq_some_iff]
  constructor
  · rintro ⟨t, found, value⟩
    have mem := List.mem_reverse.mp (List.mem_of_find?_eq_some found)
    exact ⟨t, mem, by simpa using List.find?_some found, value⟩
  · rintro ⟨t, mem, same, value⟩
    cases found : ts.reverse.find? ((fun m : List Nat × Json => m.1 == k) ∘ fun t => (key t, j t)) with
    | none => exact absurd (List.find?_eq_none.mp found t (List.mem_reverse.mpr mem)) (by simp [same])
    | some u =>
      have other : key u = k := by simpa using List.find?_some found
      have eq : u = t := differ (other.trans same.symm)
      exact ⟨u, rfl, eq ▸ value⟩

def countsMembers (c : UInt8 → Nat) : List (List Nat × Json) :=
  (countedTypes c).map fun t => ([t.toNat], .num (c t) 0)

theorem member?_counts (c : UInt8 → Nat) (key : List Nat) (v : Json) :
    Json.member? (countsMembers c) key = some v ↔
      ∃ t, c t ≠ 0 ∧ key = [t.toNat] ∧ v = .num (c t) 0 := by
  have differ : Function.Injective fun t : UInt8 => [t.toNat] := fun t u same =>
    UInt8.toNat_inj.mp (List.singleton_inj.mp same)
  rw [countsMembers, member?_map differ]
  simp only [mem_countedTypes, eq_comm]

theorem countedTypes_length (c : UInt8 → Nat) : (countedTypes c).length ≤ 256 := by
  have all : allTypes.length = 256 := (List.length_map _).trans List.length_range
  exact (List.length_filter_le _ _).trans_eq all

theorem readable_type {c : UInt8 → Nat} {t : UInt8} (plain : PlainType t) (fuel : Nat) :
    Readable (value (fuel + 1)) (fun t => [ofAscii t]) (fun t => Nat.toDigits 10 (c t))
      (fun t => Json.num (c t) 0) t where
  plain := by
    intro d hd
    rw [List.mem_singleton.mp hd]
    obtain ⟨low, ascii, quote, backslash⟩ := plain
    exact (plain_iff ascii).mpr ⟨low, quote, backslash⟩
  reads := .number (number_toDigits (c t))

theorem value_counts {c : UInt8 → Nat} (plain : ∀ t, c t ≠ 0 → PlainType t) (r : List Char) :
    value 258 (countsText c ++ r) = some (.obj (countsMembers c), r) := by
  have all : value 258 (countsText c ++ r) = some (.obj ((countedTypes c).map fun t =>
      ([ofAscii t].map Char.toNat, .num (c t) 0)), r) :=
    value_objectText typeGap_blank (by simp [isWs])
      (fun t ht => readable_type (plain t (mem_countedTypes.mp ht)) 256)
      ((countedTypes_length c).trans (by decide)) r
  have keys : (countedTypes c).map (fun t => ([ofAscii t].map Char.toNat, Json.num (c t) 0)) =
      countsMembers c := by
    refine List.map_congr_left fun t ht => ?_
    rw [List.map_singleton, toNat_ofAscii (plain t (mem_countedTypes.mp ht)).2.1]
  rwa [keys] at all

theorem skip_countsText (c : UInt8 → Nat) (r : List Char) :
    skip (countsText c ++ r) = countsText c ++ r := by
  unfold countsText
  cases countedTypes c <;> exact skip_cons rfl _

theorem writeCounts_ascii {c : UInt8 → Nat} (ascii : ∀ t, c t ≠ 0 → t < 0x80) (ts : List UInt8)
    (first : Bool) : ∀ b ∈ writeCounts c ts first, b < 0x80 := by
  have comma : ∀ b ∈ out [','], b < 0x80 := out_ascii (by simp)
  have gap : ∀ b ∈ out "\n    \"".toList, b < 0x80 := out_ascii (by simp)
  have colon : ∀ b ∈ out "\": ".toList, b < 0x80 := out_ascii (by simp)
  induction ts generalizing first with
  | nil => simp [writeCounts]
  | cons t ts ih =>
    unfold writeCounts
    split
    · exact ih first
    · rename_i some_
      intro b hb
      simp only [List.mem_append, List.mem_singleton] at hb
      rcases hb with hb | ((((hb | rfl) | hb) | hb) | hb)
      · cases first with
        | true => cases hb
        | false => exact comma b hb
      · exact gap b hb
      · exact ascii b some_
      · exact colon b hb
      · exact outNat_ascii _ b hb
      · exact ih false b hb

theorem countsObject_ascii {c : UInt8 → Nat} (ascii : ∀ t, c t ≠ 0 → t < 0x80) :
    ∀ b ∈ countsObject c, b < 0x80 := by
  have opening : ∀ b ∈ out ['\x7b'], b < 0x80 := out_ascii (by simp)
  have closing : ∀ b ∈ out "\n  \x7d".toList, b < 0x80 := out_ascii (by simp)
  intro b hb
  rcases List.mem_append.mp hb with hb | hb
  · rcases List.mem_append.mp hb with hb | hb
    · exact opening b hb
    · exact writeCounts_ascii ascii _ _ b hb
  · exact closing b hb

theorem writeCounts_key {c : UInt8 → Nat} {t : UInt8} (some_ : c t ≠ 0) {ts : List UInt8}
    (mem : t ∈ ts) (first : Bool) :
    ∃ l r, writeCounts c ts first = l ++ 0x22 :: t :: 0x22 :: r := by
  have gap : out "\n    \"".toList = out typeGap ++ [0x22] := by decide
  have colon : out "\": ".toList = 0x22 :: out ": ".toList := by decide
  induction ts generalizing first with
  | nil => cases mem
  | cons u ts ih =>
    unfold writeCounts
    rcases List.mem_cons.mp mem with rfl | mem
    · refine ⟨(if first then [] else out [',']) ++ out typeGap,
        out ": ".toList ++ outNat (c t) ++ writeCounts c ts false, ?_⟩
      rw [if_neg some_, gap, colon]
      simp
    · split
      · exact ih mem first
      · obtain ⟨l, r, split⟩ := ih mem false
        refine ⟨(if first then [] else out [',']) ++ (out "\n    \"".toList ++ [u] ++
          out "\": ".toList ++ outNat (c u)) ++ l, r, ?_⟩
        rw [split]
        simp

/-- A type in the upper half makes the object no UTF-8. -/
theorem not_isUtf8_counts {c : UInt8 → Nat} {t : UInt8} (some_ : c t ≠ 0) (high : 0x80 ≤ t)
    (text : List Char) : ¬IsUtf8 (countsObject c) text := by
  obtain ⟨l, r, split⟩ := writeCounts_key some_ (mem_allTypes t) true
  have whole : countsObject c = (out ['\x7b'] ++ l) ++ 0x22 :: t :: 0x22 ::
      (r ++ out "\n  \x7d".toList) := by
    rw [countsObject, split]
    simp
  rw [whole]
  exact not_isUtf8 (by decide) high (by decide) text

theorem isDigit_plain {c : Char} (digit : c.isDigit = true) : Plain c := by
  rw [Char.isDigit, Bool.and_eq_true, decide_eq_true_eq, decide_eq_true_eq, ge_iff_le,
    UInt32.le_iff_toNat_le, UInt32.le_iff_toNat_le] at digit
  have lower : 48 ≤ c.toNat := digit.1
  have upper : c.toNat ≤ 57 := digit.2
  refine ⟨?_, ?_, by omega⟩
  · rintro rfl
    exact absurd lower (by decide)
  · rintro rfl
    exact absurd upper (by decide)

/-- A control character, a quote or a backslash spoils the object from its key on. -/
theorem members_type {c : UInt8 → Nat} {t : UInt8} (ascii : t < 0x80) (bad : ¬PlainType t)
    (f : List Char → Option (Json × List Char)) (n : Nat) (ts : List UInt8) :
    members f n (memberText [ofAscii t] (Nat.toDigits 10 (c t)) ++
      (moreText typeGap (fun t => [ofAscii t]) (fun t => Nat.toDigits 10 (c t)) ts ++
        ("\n  ".toList ++ ['\x7d']))) = none := by
  have newline : ∃ s r, (∀ d ∈ s, Plain d) ∧
      moreText typeGap (fun t => [ofAscii t]) (fun t => Nat.toDigits 10 (c t)) ts ++
        ("\n  ".toList ++ ['\x7d']) = s ++ '\n' :: r := by
    cases ts with
    | nil => exact ⟨[], _, by simp, rfl⟩
    | cons u ts => exact ⟨[','], _, by simpa using by decide, rfl⟩
  obtain ⟨s, r, plain, cut⟩ := newline
  rw [cut]
  by_cases low : t < 0x20
  · have control : (ofAscii t).toNat < 0x20 := by
      rw [toNat_ofAscii ascii]
      exact UInt8.lt_iff_toNat_lt.mp low
    exact members_scan f n (scan_control (s := []) (by simp) control _)
  · by_cases quote : t = '"'.toUInt8
    · rw [quote]
      exact members_quote f _ _ n
    · by_cases backslash : t = '\\'.toUInt8
      · rw [backslash]
        refine members_backslash f n (c := '\n') (fun d hd => ?_) (by decide) r
        rcases List.mem_append.mp hd with digit | rest
        · exact isDigit_plain (toDigits_isDigit _ d digit)
        · exact plain d rest
      · exact absurd ⟨UInt8.not_lt.mp low, ascii, quote, backslash⟩ bad

theorem readsBack_iff {c : UInt8 → Nat} : ReadsBack c ↔ ∀ t, c t ≠ 0 → PlainType t := by
  constructor
  · rintro ⟨text, members, encoded, decoded, _⟩
    have utf8 := (encoded text).mpr rfl
    have loads := (decoded _).mpr rfl
    have ascii : ∀ t, c t ≠ 0 → t < 0x80 := by
      intro t some_
      by_contra high
      exact not_isUtf8_counts some_ (UInt8.not_lt.mp high) text utf8
    rw [isUtf8_ascii (countsObject_ascii ascii), countsObject_text] at utf8
    rw [utf8] at loads
    by_contra bad
    -- the first type that is not plain
    have some_bad : (countedTypes c).dropWhile (fun t => decide (PlainType t)) ≠ [] := by
      intro none
      refine bad fun t some_ => ?_
      have all := List.dropWhile_eq_nil_iff.mp none t (mem_countedTypes.mpr some_)
      exact of_decide_eq_true all
    obtain ⟨t, ts, rest⟩ := List.exists_cons_of_ne_nil some_bad
    have split : countedTypes c =
        (countedTypes c).takeWhile (fun t => decide (PlainType t)) ++ t :: ts := by
      rw [← rest, List.takeWhile_append_dropWhile]
    have spoiled : ¬PlainType t := by
      have head := List.head?_dropWhile_not (fun t => decide (PlainType t)) (countedTypes c)
      rw [rest] at head
      simpa using head
    have counted : c t ≠ 0 := by
      rw [← mem_countedTypes, split]
      exact List.mem_append_right _ List.mem_cons_self
    have before : ∀ u ∈ (countedTypes c).takeWhile fun t => decide (PlainType t), PlainType u :=
      fun u hu => by simpa using List.mem_takeWhile_imp hu
    rw [countsText, split] at loads
    exact not_loads typeGap_blank (fun fuel u hu => readable_type (before u hu) fuel)
      (fun f n => members_type (ascii t counted) spoiled f n ts) _ loads
  · intro plain
    have ascii : ∀ t, c t ≠ 0 → t < 0x80 := fun t some_ => (plain t some_).2.1
    have loads : Loads (countsText c) (.obj (countsMembers c)) := by
      have value := value_counts plain []
      have start := skip_countsText c []
      rw [List.append_nil] at value start
      exact ⟨258, [], by rw [start, value], rfl⟩
    refine ⟨countsText c, countsMembers c, fun s => ?_, fun j => ⟨fun other => ?_, ?_⟩,
      member?_counts c⟩
    · rw [isUtf8_ascii (countsObject_ascii ascii), countsObject_text]
    · exact other.unique loads
    · rintro rfl
      exact loads

/-! The whole file. -/

theorem isUtf8_out {s : List Char} (ascii : ∀ c ∈ s, c.toNat < 128) : IsUtf8 (out s) s :=
  (isUtf8_ascii (out_ascii ascii)).mpr (out_text ascii).symm

theorem isUtf8_outNat (n : Nat) : IsUtf8 (outNat n) (Nat.toDigits 10 n) :=
  isUtf8_out fun c mem => digit_lt (toDigits_isDigit n c mem)

theorem isUtf8_pieces {pieces : List (List UInt8 × List Char)}
    (each : ∀ x ∈ pieces, IsUtf8 x.1 x.2) :
    IsUtf8 (pieces.flatMap Prod.fst) (pieces.flatMap Prod.snd) := by
  induction pieces with
  | nil => rfl
  | cons x pieces ih =>
    have first := each x List.mem_cons_self
    have later := ih fun y hy => each y (List.mem_cons_of_mem x hy)
    unfold IsUtf8 at *
    rw [List.flatMap_cons, List.flatMap_cons, List.flatMap_append, first, later]

/-- A number in ASCII, as a stream writes a finite floating-point number. -/
structure IsNumber (wall : List Char) (w : Json) : Prop where
  ascii : ∀ c ∈ wall, c.toNat < 128
  number : number wall = some (w, [])

variable {k : LogCapacity} {σ : Type} (p : ItchParser σ) (a : BatchAssembler k) (rs : RunStats)
  {wall : List Char} (mps : Nat) {w : Json}

/-- The members of the file: keys, texts and values. -/
def statsFields (wall : List Char) (w : Json) : List (List Char × List Char × Json) :=
  let nat (n : Nat) : List Char × Json := (Nat.toDigits 10 n, .num n 0)
  [("total_messages".toList, nat p.total), ("shipped_messages".toList, nat rs.shippedMsgs),
    ("batches".toList, nat rs.batches), ("snapshots".toList, nat rs.snapshots),
    ("wall_seconds".toList, wall, w), ("messages_per_sec".toList, nat mps),
    ("unresolved_replaces".toList, nat a.unresolvedReplaces),
    ("unknown_cancels".toList, nat a.unknownCancels),
    ("counts_by_type".toList, countsText p.counts, .obj (countsMembers p.counts))]

def statsMembers (wall : List Char) (w : Json) : List (List Nat × Json) :=
  (statsFields p a rs mps wall w).map fun x => (x.1.map Char.toNat, x.2.2)

def statsText (wall : List Char) (w : Json) : List Char :=
  objectText "\n  ".toList "\n".toList (fun x => x.1) (fun x => x.2.1) (statsFields p a rs mps wall w)

theorem isUtf8_member {c : Char} {s key : List Char} {bytes : List UInt8} {text : List Char}
    (label : s = c :: ("\n  ".toList ++ '"' :: (key ++ "\": ".toList)))
    (ascii : ∀ d ∈ s, d.toNat < 128) (value : IsUtf8 bytes text) :
    IsUtf8 (out s ++ bytes) (c :: ("\n  ".toList ++ memberText key text)) := by
  have both : s ++ text = c :: ("\n  ".toList ++ memberText key text) := by
    rw [label]
    simp [memberText]
  have written : IsUtf8 (out s) s := isUtf8_out ascii
  unfold IsUtf8 at *
  rw [← both, List.flatMap_append, written, value]

theorem isUtf8_stats (number : IsNumber wall w) (ascii : ∀ t, p.counts t ≠ 0 → t < 0x80) :
    IsUtf8 (writeStats p a rs wall mps) (statsText p a rs mps wall w ++ ['\n']) := by
  have counts : IsUtf8 (countsObject p.counts) (countsText p.counts) :=
    (isUtf8_ascii (countsObject_ascii ascii)).mpr (countsObject_text p.counts).symm
  let written (s : String) (c : Char) (key : String) (bytes : List UInt8) (text : List Char) :
      List UInt8 × List Char :=
    (out s.toList ++ bytes, c :: ("\n  ".toList ++ memberText key.toList text))
  let nat (s : String) (c : Char) (key : String) (n : Nat) : List UInt8 × List Char :=
    written s c key (outNat n) (Nat.toDigits 10 n)
  let pieces : List (List UInt8 × List Char) :=
    [nat "\x7b\n  \"total_messages\": " '\x7b' "total_messages" p.total,
      nat ",\n  \"shipped_messages\": " ',' "shipped_messages" rs.shippedMsgs,
      nat ",\n  \"batches\": " ',' "batches" rs.batches,
      nat ",\n  \"snapshots\": " ',' "snapshots" rs.snapshots,
      written ",\n  \"wall_seconds\": " ',' "wall_seconds" (out wall) wall,
      nat ",\n  \"messages_per_sec\": " ',' "messages_per_sec" mps,
      nat ",\n  \"unresolved_replaces\": " ',' "unresolved_replaces" a.unresolvedReplaces,
      nat ",\n  \"unknown_cancels\": " ',' "unknown_cancels" a.unknownCancels,
      written ",\n  \"counts_by_type\": " ',' "counts_by_type" (countsObject p.counts)
        (countsText p.counts),
      (out "\n\x7d\n".toList, "\n".toList ++ ['\x7d'] ++ ['\n'])]
  have bytes : writeStats p a rs wall mps = pieces.flatMap Prod.fst := by
    unfold writeStats
    simp only [pieces, nat, written, List.flatMap_cons, List.flatMap_nil, List.append_assoc,
      List.append_nil]
  have text : statsText p a rs mps wall w ++ ['\n'] = pieces.flatMap Prod.snd := by
    simp only [statsText, statsFields, objectText, moreText, pieces, nat, written,
      List.flatMap_cons, List.flatMap_nil, List.append_assoc, List.cons_append, List.append_nil,
      List.nil_append]
  have member {s : String} {c : Char} {key : String} {bytes : List UInt8} {text : List Char}
      (label : s.toList = c :: ("\n  ".toList ++ '"' :: (key.toList ++ "\": ".toList)))
      (ascii : ∀ d ∈ s.toList, d.toNat < 128) (value : IsUtf8 bytes text) :
      IsUtf8 (written s c key bytes text).1 (written s c key bytes text).2 :=
    isUtf8_member label ascii value
  rw [bytes, text]
  refine isUtf8_pieces ?_
  simp only [pieces, nat, List.forall_mem_cons, List.not_mem_nil, false_implies, implies_true,
    and_true]
  exact ⟨member (by decide) (by simp) (isUtf8_outNat _), member (by decide) (by simp) (isUtf8_outNat _),
    member (by decide) (by simp) (isUtf8_outNat _), member (by decide) (by simp) (isUtf8_outNat _),
    member (by decide) (by simp) (isUtf8_out number.ascii),
    member (by decide) (by simp) (isUtf8_outNat _), member (by decide) (by simp) (isUtf8_outNat _),
    member (by decide) (by simp) (isUtf8_outNat _), member (by decide) (by simp) counts,
    isUtf8_out (by simp)⟩

theorem loads_stats (number : IsNumber wall w) (plain : ∀ t, p.counts t ≠ 0 → PlainType t) :
    Loads (statsText p a rs mps wall w ++ ['\n']) (.obj (statsMembers p a rs mps wall w)) := by
  have counts : Reads (value 258) (countsText p.counts) (.obj (countsMembers p.counts)) :=
    ⟨skip_countsText p.counts, fun c r _ => value_counts plain (c :: r)⟩
  have nat (n : Nat) : Reads (value 258) (Nat.toDigits 10 n) (.num n 0) := .number (number_toDigits n)
  have seconds : Reads (value 258) wall w := .number number.number
  have member {key : String} {text : List Char} {j : Json} (plain : ∀ c ∈ key.toList, Plain c)
      (reads : Reads (value 258) text j) :
      Readable (value 258) (fun x : List Char × List Char × Json => x.1) (fun x => x.2.1)
        (fun x => x.2.2) (key.toList, text, j) := ⟨plain, reads⟩
  have good : ∀ x ∈ statsFields p a rs mps wall w,
      Readable (value 258) (fun x => x.1) (fun x => x.2.1) (fun x => x.2.2) x := by
    simp only [statsFields, List.forall_mem_cons, List.not_mem_nil, false_implies, implies_true,
      and_true]
    exact ⟨member (by simp [Plain]) (nat _), member (by simp [Plain]) (nat _),
      member (by simp [Plain]) (nat _), member (by simp [Plain]) (nat _),
      member (by simp [Plain]) seconds, member (by simp [Plain]) (nat _),
      member (by simp [Plain]) (nat _), member (by simp [Plain]) (nat _),
      member (by simp [Plain]) counts⟩
  have gaps : ∀ c ∈ "\n  ".toList, isWs c = true := by simp [isWs]
  have closes : ∀ c ∈ "\n".toList, isWs c = true := by simp [isWs]
  have value := value_objectText gaps closes good (by simp [statsFields]) ['\n']
  refine ⟨259, ['\n'], ?_, rfl⟩
  have start : skip (statsText p a rs mps wall w ++ ['\n']) = statsText p a rs mps wall w ++ ['\n'] :=
    skip_cons rfl _
  rw [start]
  exact value

namespace ValidateCounts

theorem eqNat_num (m n : Nat) : eqNat (.num m 0) n = true ↔ m = n := by
  simp only [eqNat]
  rw [if_pos le_rfl, beq_iff_eq, Int.toNat_zero, pow_zero, mul_one, Nat.cast_inj]

/-- `theirs.get(t, 0)`. -/
theorem get_counts (c : UInt8 → Nat) (t : UInt8) :
    (Json.member? (countsMembers c) [t.toNat]).getD (.num 0 0) = .num (c t) 0 := by
  by_cases zero : c t = 0
  · cases found : Json.member? (countsMembers c) [t.toNat] with
    | none => rw [zero]; rfl
    | some v =>
      obtain ⟨u, some_, same, _⟩ := (member?_counts c _ _).mp found
      have eq : t = u := UInt8.toNat_inj.mp (List.singleton_inj.mp same)
      exact absurd zero (eq ▸ some_)
  · rw [(member?_counts c [t.toNat] _).mpr ⟨t, zero, rfl, rfl⟩]
    rfl

theorem ours_counts {v : ValidateCounts} {c : UInt8 → Nat} :
    ours v (countsMembers c) = [] ↔ ∀ t, v.counts t ≠ 0 → c t = v.counts t := by
  rw [ours, List.filterMap_eq_nil_iff]
  refine forall_congr' fun t => ?_
  rw [get_counts, List.mem_filter]
  simp only [mem_allTypes, true_and, bne_iff_ne, ite_eq_left_iff, reduceCtorEq, imp_false, not_not,
    eqNat_num]

theorem counted_iff {v : ValidateCounts} {t : UInt8} :
    v.counted [t.toNat] = true ↔ v.counts t ≠ 0 := by
  rw [counted, List.any_eq_true]
  constructor
  · rintro ⟨b, _, both⟩
    obtain ⟨some_, same⟩ : v.counts b ≠ 0 ∧ t.toNat = b.toNat := by simpa using both
    rwa [UInt8.toNat_inj.mp same]
  · intro some_
    exact ⟨t, mem_allTypes t, by simpa using some_⟩

theorem onlyTheirs_counts {v : ValidateCounts} {c : UInt8 → Nat} :
    onlyTheirs v (countsMembers c) = [] ↔ ∀ t, c t ≠ 0 → v.counts t ≠ 0 := by
  rw [onlyTheirs, List.filterMap_eq_nil_iff]
  simp only [List.mem_mergeSort, List.mem_dedup]
  constructor
  · intro none t some_
    have member := (member?_counts c [t.toNat] _).mpr ⟨t, some_, rfl, rfl⟩
    have mem : [t.toNat] ∈ (countsMembers c).map Prod.fst := by
      rw [countsMembers, List.map_map]
      exact List.mem_map_of_mem (mem_countedTypes.mpr some_)
    have shown := none _ mem
    rw [member] at shown
    by_contra zero
    have absent : v.counted [t.toNat] = false := by
      rw [← Bool.not_eq_true, counted_iff]
      exact fun some' => some' zero
    simp [truthy, absent, some_] at shown
  · intro all key mem
    rw [countsMembers, List.map_map] at mem
    obtain ⟨t, counted, rfl⟩ := List.mem_map.mp mem
    have some_ := mem_countedTypes.mp counted
    have shown : v.counted [t.toNat] = true := counted_iff.mpr (all t some_)
    have member := (member?_counts c [t.toNat] _).mpr ⟨t, some_, rfl, rfl⟩
    simp only [Function.comp_apply, member, Option.bind_some, shown, Bool.not_true, Bool.and_false,
      Bool.false_eq_true, if_false]

variable (wall w) in
theorem against_stats (v : ValidateCounts) :
    ∃ lines, against v (.obj (statsMembers p a rs mps wall w)) = some lines ∧
      (lines = [] ↔ (∀ t, v.counts t = p.counts t) ∧ v.total = p.total) := by
  have total : Json.member? (statsMembers p a rs mps wall w) ("total_messages".toList.map Char.toNat) =
      some (.num p.total 0) := rfl
  have counts : Json.member? (statsMembers p a rs mps wall w) ("counts_by_type".toList.map Char.toNat) =
      some (.obj (countsMembers p.counts)) := rfl
  have types : (ours v (countsMembers p.counts) = [] ∧ onlyTheirs v (countsMembers p.counts) = []) ↔
      ∀ t, v.counts t = p.counts t := by
    rw [ours_counts, onlyTheirs_counts]
    constructor
    · rintro ⟨left, right⟩ t
      by_cases zero : v.counts t = 0
      · by_contra differ
        exact right t (fun none => differ (zero.trans none.symm)) zero
      · exact (left t zero).symm
    · intro same
      exact ⟨fun t _ => (same t).symm, fun t some_ => same t ▸ some_⟩
  simp only [against, counts, total, Option.getD_some]
  refine ⟨_, rfl, ?_⟩
  rw [List.append_eq_nil_iff, List.append_eq_nil_iff, types, Option.map_some]
  refine and_congr_right fun _ => ?_
  have equal : some (eqNat (.num p.total 0) v.total) = some true ↔ p.total = v.total := by
    rw [Option.some.injEq, eqNat_num]
  by_cases same : p.total = v.total
  · rw [if_pos (equal.mpr same)]
    exact iff_of_true rfl same.symm
  · rw [if_neg (mt equal.mp same)]
    exact iff_of_false (List.cons_ne_nil _ _) (Ne.symm same)

end ValidateCounts

/-- The statistics read back what was counted, and the Python pass compares its counters
with those of the parser, exactly when every type counted is a character that JSON leaves as
it is. -/
theorem counts_read_back_iff (number : IsNumber wall w) :
    (ReadsBack p.counts ∧
      ∀ v : ValidateCounts, ∃ text stats lines, IsUtf8 (writeStats p a rs wall mps) text ∧
        Loads text stats ∧ v.against stats = some lines ∧
        (lines = [] ↔ (∀ t, v.counts t = p.counts t) ∧ v.total = p.total)) ↔
      ∀ t, p.counts t ≠ 0 → PlainType t := by
  rw [readsBack_iff]
  refine and_iff_left_of_imp fun plain v => ?_
  obtain ⟨lines, result, same⟩ := v.against_stats p a rs wall mps w
  exact ⟨_, _, lines, isUtf8_stats p a rs mps number fun t some_ => (plain t some_).2.1,
    loads_stats p a rs mps number plain, result, same⟩

/-- A stream of one trade. -/
theorem counts_read_back_iff_trade :
    let bs : List UInt8 := [0, 44, 80, 0, 7, 0, 0, 0, 0, 0, 0, 0, 1, 0, 0, 0, 0, 0, 0, 0, 1, 66,
      0, 0, 0, 50, 65, 65, 80, 76, 32, 32, 32, 32, 0, 18, 214, 128, 0, 0, 0, 0, 0, 0, 0, 3]
    let p := ((ItchParser.start bs 64).next memSource).2
    p.counts 80 = 1 ∧ ReadsBack p.counts := by
  intro bs p
  have seconds : IsNumber "0.5".toList (.num 5 (-1)) := ⟨by simp, rfl⟩
  have plain : ∀ t, p.counts t ≠ 0 → PlainType t := by decide +kernel
  have back := (counts_read_back_iff p (.start 24) { shippedMsgs := 1 } 2 seconds).mpr plain
  exact ⟨by decide +kernel, back.1⟩

/-- A stream of one message whose type is a quote. -/
theorem quote_spoils_counts :
    let p := ((ItchParser.start [0, 1, 34] 64).next memSource).2
    p.counts 34 = 1 ∧ ¬ReadsBack p.counts := by
  intro p
  have counted : p.counts 34 = 1 := by decide +kernel
  refine ⟨counted, fun back => ?_⟩
  have plain := readsBack_iff.mp back 34 (by rw [counted]; decide)
  exact absurd plain (by decide)

end ItchAggregator
