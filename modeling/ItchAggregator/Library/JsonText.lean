import Mathlib

/-! A strict decoder for JSON text. Strings are lists of code points, so that an unpaired
surrogate that is escaped has its place in them, and numbers are the decimals they are
written as. An object keeps its members in the order of the text; of members with one key
the last one counts. -/

namespace ItchAggregator.JsonText

inductive Json
  | null
  | bool (b : Bool)
  /-- `mantissa * 10 ^ exponent` -/
  | num (mantissa exponent : Int)
  | str (s : List Nat)
  | arr (items : List Json)
  | obj (members : List (List Nat × Json))

def Json.member? (members : List (List Nat × Json)) (key : List Nat) : Option Json :=
  (members.reverse.find? fun m => m.1 == key).map Prod.snd

def isWs (c : Char) : Bool := c == ' ' || c == '\t' || c == '\n' || c == '\r'

def skip (cs : List Char) : List Char := cs.dropWhile isWs

def hex4? (a b c d : Char) : Option Nat :=
  let digit? (c : Char) : Option Nat :=
    if '0' ≤ c ∧ c ≤ '9' then some (c.toNat - '0'.toNat)
    else if 'a' ≤ c ∧ c ≤ 'f' then some (c.toNat - 'a'.toNat + 10)
    else if 'A' ≤ c ∧ c ≤ 'F' then some (c.toNat - 'A'.toNat + 10)
    else none
  do
    let a ← digit? a
    let b ← digit? b
    let c ← digit? c
    let d ← digit? d
    some (((a * 16 + b) * 16 + c) * 16 + d)

def escape? (c : Char) : Option Nat :=
  match c with
  | '"' | '\\' | '/' => some c.toNat
  | 'b' => some 8
  | 'f' => some 12
  | 'n' => some 10
  | 'r' => some 13
  | 't' => some 9
  | _ => none

/-- The characters of a string behind its opening quote, and what is behind the closing
one. -/
def scan : List Char → Option (List Nat × List Char)
  | [] => none
  | c :: r =>
    if c = '"' then some ([], r)
    else if c = '\\' then
      match r with
      | [] => none
      | e :: r =>
        if e = 'u' then
          match r with
          | a :: b :: c :: d :: r => do
            let x ← hex4? a b c d
            let s ← scan r
            some (x :: s.1, s.2)
          | _ => none
        else do
          let x ← escape? e
          let s ← scan r
          some (x :: s.1, s.2)
    else if c.toNat < 0x20 then none
    else do
      let s ← scan r
      some (c.toNat :: s.1, s.2)

/-- Escaped surrogates that make a pair are one code point. -/
def joinPairs : List Nat → List Nat
  | hi :: lo :: r =>
    if 0xD800 ≤ hi ∧ hi < 0xDC00 ∧ 0xDC00 ≤ lo ∧ lo < 0xE000 then
      (0x10000 + (hi - 0xD800) * 0x400 + (lo - 0xDC00)) :: joinPairs r
    else hi :: joinPairs (lo :: r)
  | r => r

def string (cs : List Char) : Option (List Nat × List Char) :=
  (scan cs).map fun s => (joinPairs s.1, s.2)

def fraction (cs : List Char) : List Char × List Char :=
  match cs with
  | [] => ([], [])
  | c :: r =>
    if c = '.' ∧ r.takeWhile Char.isDigit ≠ [] then
      (r.takeWhile Char.isDigit, r.dropWhile Char.isDigit)
    else ([], c :: r)

def sign (cs : List Char) : Int × List Char :=
  match cs with
  | [] => (1, [])
  | c :: r => if c = '-' then (-1, r) else if c = '+' then (1, r) else (1, c :: r)

def exponent (cs : List Char) : Int × List Char :=
  match cs with
  | [] => (0, [])
  | c :: r =>
    let s := sign r
    if (c = 'e' ∨ c = 'E') ∧ s.2.takeWhile Char.isDigit ≠ [] then
      (s.1 * Nat.ofDigitChars 10 (s.2.takeWhile Char.isDigit) 0, s.2.dropWhile Char.isDigit)
    else (0, c :: r)

def unsigned (cs : List Char) : Option ((Nat × Int) × List Char) :=
  match cs with
  | [] => none
  | c :: r =>
    if c.isDigit then
      let whole :=
        if c = '0' then (['0'], r) else (c :: r.takeWhile Char.isDigit, r.dropWhile Char.isDigit)
      let f := fraction whole.2
      let e := exponent f.2
      some ((Nat.ofDigitChars 10 (whole.1 ++ f.1) 0, e.1 - f.1.length), e.2)
    else none

def number (cs : List Char) : Option (Json × List Char) :=
  match cs with
  | [] => none
  | c :: r =>
    if c = '-' then (unsigned r).map fun x => (.num (-x.1.1) x.1.2, x.2)
    else (unsigned (c :: r)).map fun x => (.num x.1.1 x.1.2, x.2)

def word (w : List Char) (j : Json) (cs : List Char) : Option (Json × List Char) :=
  if w.isPrefixOf cs then some (j, cs.drop w.length) else none

/-- The members of an object from the first key's quote on, with a decoder of their values. -/
def members (value : List Char → Option (Json × List Char)) :
    Nat → List Char → Option (List (List Nat × Json) × List Char)
  | 0, _ => none
  | turns + 1, cs =>
    match cs with
    | '"' :: r => do
      let key ← string r
      match skip key.2 with
      | ':' :: r => do
        let v ← value (skip r)
        match skip v.2 with
        | ',' :: r => do
          let ms ← members value turns (skip r)
          some ((key.1, v.1) :: ms.1, ms.2)
        | '\x7d' :: r => some ([(key.1, v.1)], r)
        | _ => none
      | _ => none
    | _ => none

def items (value : List Char → Option (Json × List Char)) :
    Nat → List Char → Option (List Json × List Char)
  | 0, _ => none
  | turns + 1, cs => do
    let v ← value cs
    match skip v.2 with
    | ',' :: r => do
      let vs ← items value turns (skip r)
      some (v.1 :: vs.1, vs.2)
    | ']' :: r => some ([v.1], r)
    | _ => none

/-- A value at the front of the text and what is behind it; `none` also when the fuel does
not last. -/
def value : Nat → List Char → Option (Json × List Char)
  | 0, _ => none
  | fuel + 1, cs =>
    match cs with
    | [] => none
    | '"' :: r => (string r).map fun x => (.str x.1, x.2)
    | '\x7b' :: r =>
      match skip r with
      | '\x7d' :: r => some (.obj [], r)
      | r => (members (value fuel) fuel r).map fun x => (.obj x.1, x.2)
    | '[' :: r =>
      match skip r with
      | ']' :: r => some (.arr [], r)
      | r => (items (value fuel) fuel r).map fun x => (.arr x.1, x.2)
    | 'n' :: r => word ['u', 'l', 'l'] .null r
    | 't' :: r => word ['r', 'u', 'e'] (.bool true) r
    | 'f' :: r => word ['a', 'l', 's', 'e'] (.bool false) r
    | cs => number cs

/-- The text is one value with white space around it. -/
def Loads (text : List Char) (j : Json) : Prop :=
  ∃ fuel rest, value fuel (skip text) = some (j, rest) ∧ skip rest = []

/-! More fuel decodes no less and nothing else. -/

section Fuel

variable {f g : List Char → Option (Json × List Char)} {n n' : Nat} {cs : List Char}

theorem members_mono (le : n ≤ n') (more : ∀ cs x, f cs = some x → g cs = some x)
    {x : List (List Nat × Json) × List Char} (result : members f n cs = some x) :
    members g n' cs = some x := by
  induction n generalizing n' cs x with
  | zero => cases result
  | succ n ih =>
    obtain ⟨m, rfl⟩ : ∃ m, n' = m + 1 := ⟨n' - 1, by omega⟩
    have later : ∀ {cs x}, members f n cs = some x → members g m cs = some x :=
      fun h => ih (Nat.le_of_succ_le_succ le) h
    unfold members at result ⊢
    split at result
    · obtain ⟨key, string, result⟩ := Option.bind_eq_some_iff.mp result
      refine Option.bind_eq_some_iff.mpr ⟨key, string, ?_⟩
      split at result
      · obtain ⟨v, value, result⟩ := Option.bind_eq_some_iff.mp result
        refine Option.bind_eq_some_iff.mpr ⟨v, more _ _ value, ?_⟩
        split at result
        · obtain ⟨ms, rest, result⟩ := Option.bind_eq_some_iff.mp result
          exact Option.bind_eq_some_iff.mpr ⟨ms, later rest, result⟩
        · exact result
        · cases result
      · cases result
    · cases result

theorem items_mono (le : n ≤ n') (more : ∀ cs x, f cs = some x → g cs = some x)
    {x : List Json × List Char} (result : items f n cs = some x) : items g n' cs = some x := by
  induction n generalizing n' cs x with
  | zero => cases result
  | succ n ih =>
    obtain ⟨m, rfl⟩ : ∃ m, n' = m + 1 := ⟨n' - 1, by omega⟩
    have later : ∀ {cs x}, items f n cs = some x → items g m cs = some x :=
      fun h => ih (Nat.le_of_succ_le_succ le) h
    unfold items at result ⊢
    obtain ⟨v, value, result⟩ := Option.bind_eq_some_iff.mp result
    refine Option.bind_eq_some_iff.mpr ⟨v, more _ _ value, ?_⟩
    split at result
    · obtain ⟨vs, rest, result⟩ := Option.bind_eq_some_iff.mp result
      exact Option.bind_eq_some_iff.mpr ⟨vs, later rest, result⟩
    · exact result
    · cases result

theorem value_mono {x : Json × List Char} (le : n ≤ n') (result : value n cs = some x) :
    value n' cs = some x := by
  induction n generalizing n' cs x with
  | zero => cases result
  | succ n ih =>
    obtain ⟨m, rfl⟩ : ∃ m, n' = m + 1 := ⟨n' - 1, by omega⟩
    have le : n ≤ m := Nat.le_of_succ_le_succ le
    unfold value at result ⊢
    split at result
    · cases result
    · exact result
    · split at result
      · exact result
      · obtain ⟨ms, inner, result⟩ := Option.map_eq_some_iff.mp result
        exact Option.map_eq_some_iff.mpr ⟨ms, members_mono le (fun _ _ => ih le) inner, result⟩
    · split at result
      · exact result
      · obtain ⟨vs, inner, result⟩ := Option.map_eq_some_iff.mp result
        exact Option.map_eq_some_iff.mpr ⟨vs, items_mono le (fun _ _ => ih le) inner, result⟩
    · exact result
    · exact result
    · exact result
    · exact result

end Fuel

/-- A text is at most one value. -/
theorem Loads.unique {text : List Char} {i j : Json} (first : Loads text i)
    (second : Loads text j) : i = j := by
  obtain ⟨n, r, value, _⟩ := first
  obtain ⟨n', r', value', _⟩ := second
  have same := (value_mono (Nat.le_max_left n n') value).symm.trans
    (value_mono (Nat.le_max_right n n') value')
  exact congrArg Prod.fst (Option.some.inj same)

/-! Texts that are decoded. -/

section Texts

variable {c : Char} {s gap r : List Char}

theorem skip_cons (solid : isWs c = false) (r : List Char) : skip (c :: r) = c :: r := by
  rw [skip, List.dropWhile_cons, if_neg (by simp [solid])]

theorem skip_append (blank : ∀ c ∈ gap, isWs c = true) (r : List Char) :
    skip (gap ++ r) = skip r := by
  induction gap with
  | nil => rfl
  | cons c gap ih =>
    rw [skip, List.cons_append, List.dropWhile_cons, if_pos (blank c List.mem_cons_self)]
    exact ih fun d hd => blank d (List.mem_cons_of_mem c hd)

/-- A character that stands for itself in a string. -/
def Plain (c : Char) : Prop := c ≠ '"' ∧ c ≠ '\\' ∧ 0x20 ≤ c.toNat

instance (c : Char) : Decidable (Plain c) := by
  unfold Plain
  infer_instance

theorem scan_cons (plain : Plain c) (r : List Char) :
    scan (c :: r) = (scan r).map fun s => (c.toNat :: s.1, s.2) := by
  obtain ⟨quote, backslash, control⟩ := plain
  rw [scan.eq_def]
  dsimp only
  rw [if_neg quote, if_neg backslash, if_neg (Nat.not_lt.mpr control)]
  cases scan r <;> rfl

theorem scan_quote (r : List Char) : scan ('"' :: r) = some ([], r) := by
  rw [scan.eq_def]
  exact if_pos rfl

theorem scan_append (plain : ∀ c ∈ s, Plain c) (r : List Char) :
    scan (s ++ r) = (scan r).map fun x => (s.map Char.toNat ++ x.1, x.2) := by
  induction s with
  | nil => simp
  | cons c s ih =>
    rw [List.cons_append, scan_cons (plain c List.mem_cons_self),
      ih fun d hd => plain d (List.mem_cons_of_mem c hd), Option.map_map]
    rfl

theorem scan_quoted (plain : ∀ c ∈ s, Plain c) (r : List Char) :
    scan (s ++ '"' :: r) = some (s.map Char.toNat, r) := by
  rw [scan_append plain, scan_quote]
  simp

theorem scan_control (plain : ∀ c ∈ s, Plain c) (control : c.toNat < 0x20) (r : List Char) :
    scan (s ++ c :: r) = none := by
  have quote : c ≠ '"' := by
    rintro rfl
    exact absurd control (by decide)
  have backslash : c ≠ '\\' := by
    rintro rfl
    exact absurd control (by decide)
  have stuck : scan (c :: r) = none := by
    rw [scan.eq_def]
    dsimp only
    rw [if_neg quote, if_neg backslash, if_pos control]
  rw [scan_append plain, stuck]
  rfl

theorem scan_escaped (r : List Char) :
    scan ('\\' :: '"' :: r) = (scan r).map fun s => ('"'.toNat :: s.1, s.2) := by
  rw [scan.eq_def]
  dsimp only
  rw [if_neg (by decide), if_pos rfl, if_neg (by decide)]
  cases scan r <;> rfl

theorem joinPairs_chars (s : List Char) : joinPairs (s.map Char.toNat) = s.map Char.toNat := by
  induction s with
  | nil => rfl
  | cons c s ih =>
    cases s with
    | nil => rfl
    | cons d s =>
      have valid : c.toNat < 0xD800 ∨ 0xDFFF < c.toNat ∧ c.toNat < 0x110000 := c.valid
      rw [List.map_cons, List.map_cons, joinPairs, if_neg (by omega), ← List.map_cons, ih]

theorem string_quoted (plain : ∀ c ∈ s, Plain c) (r : List Char) :
    string (s ++ '"' :: r) = some (s.map Char.toNat, r) := by
  rw [string, scan_quoted plain, Option.map_some, joinPairs_chars]

/-- A character that a number does not go on with. -/
def Stop (c : Char) : Prop :=
  c.isDigit = false ∧ c ≠ '.' ∧ c ≠ 'e' ∧ c ≠ 'E' ∧ c ≠ '-' ∧ c ≠ '+'

instance (c : Char) : Decidable (Stop c) := by
  unfold Stop
  infer_instance

variable {t : List Char}

theorem digits_append (stop : Stop c) (t r : List Char) :
    (t ++ c :: r).takeWhile Char.isDigit = t.takeWhile Char.isDigit ∧
      (t ++ c :: r).dropWhile Char.isDigit = t.dropWhile Char.isDigit ++ c :: r := by
  induction t with
  | nil => simp [stop.1]
  | cons d t ih =>
    rw [List.cons_append, List.takeWhile_cons, List.dropWhile_cons, List.takeWhile_cons,
      List.dropWhile_cons]
    split
    · exact ⟨congrArg _ ih.1, ih.2⟩
    · exact ⟨rfl, rfl⟩

theorem fraction_append (stop : Stop c) (t r : List Char) :
    fraction (t ++ c :: r) = ((fraction t).1, (fraction t).2 ++ c :: r) := by
  cases t with
  | nil => exact if_neg fun both => stop.2.1 both.1
  | cons d t =>
    obtain ⟨taken, left⟩ := digits_append stop t r
    simp only [fraction, List.cons_append, taken, left]
    split <;> rfl

theorem sign_append (stop : Stop c) (t r : List Char) :
    sign (t ++ c :: r) = ((sign t).1, (sign t).2 ++ c :: r) := by
  cases t with
  | nil =>
    exact (if_neg stop.2.2.2.2.1).trans (if_neg stop.2.2.2.2.2)
  | cons d t =>
    simp only [sign, List.cons_append]
    split
    · rfl
    · split <;> rfl

theorem exponent_append (stop : Stop c) (t r : List Char) :
    exponent (t ++ c :: r) = ((exponent t).1, (exponent t).2 ++ c :: r) := by
  cases t with
  | nil =>
    refine if_neg fun both => ?_
    rcases both.1 with lower | upper
    · exact stop.2.2.1 lower
    · exact stop.2.2.2.1 upper
  | cons d t =>
    have signed := sign_append stop t r
    obtain ⟨taken, left⟩ := digits_append stop (sign t).2 r
    simp only [exponent, List.cons_append, signed, taken, left]
    split <;> rfl

theorem unsigned_append (stop : Stop c) {x : (Nat × Int) × List Char} (read : unsigned t = some x)
    (r : List Char) : unsigned (t ++ c :: r) = some (x.1, x.2 ++ c :: r) := by
  cases t with
  | nil => cases read
  | cons d t =>
    obtain ⟨taken, left⟩ := digits_append stop t r
    simp only [unsigned, List.cons_append] at read ⊢
    split at read
    · rename_i digit
      rw [if_pos digit]
      obtain rfl := Option.some.inj read
      split <;> simp only [taken, left, fraction_append stop, exponent_append stop]
    · cases read

/-- A number that is followed by what no number goes on with. -/
theorem number_append (stop : Stop c) {x : Json × List Char} (read : number t = some x)
    (r : List Char) : number (t ++ c :: r) = some (x.1, x.2 ++ c :: r) := by
  cases t with
  | nil => cases read
  | cons d t =>
    simp only [number, List.cons_append] at read ⊢
    split at read
    · obtain ⟨y, inner, rfl⟩ := Option.map_eq_some_iff.mp read
      rename_i minus
      rw [if_pos minus, unsigned_append stop inner]
      rfl
    · obtain ⟨y, inner, rfl⟩ := Option.map_eq_some_iff.mp read
      rename_i plus
      have all := unsigned_append stop inner r
      rw [List.cons_append] at all
      rw [if_neg plus, all]
      rfl

theorem digitChar_ne_zero : ∀ n < 10, 0 < n → Nat.digitChar n ≠ '0' := by decide

theorem toDigits_head {n : Nat} (positive : 0 < n) :
    ∃ d t, Nat.toDigits 10 n = d :: t ∧ d ≠ '0' := by
  induction n using Nat.strong_induction_on with
  | _ n ih =>
    by_cases one : n < 10
    · exact ⟨_, [], Nat.toDigits_of_lt_base one, digitChar_ne_zero n one positive⟩
    · obtain ⟨d, t, first, leads⟩ := ih (n / 10) (by omega) (by omega)
      have split : Nat.toDigits 10 n = Nat.toDigits 10 (n / 10) ++ _ :=
        Nat.toDigits_of_base_le (by decide) (by omega)
      rw [first, List.cons_append] at split
      exact ⟨d, _, split, leads⟩

theorem number_toDigits (n : Nat) : number (Nat.toDigits 10 n) = some (.num n 0, []) := by
  have digits : ∀ c ∈ Nat.toDigits 10 n, c.isDigit = true := fun c hc =>
    Nat.isDigit_of_mem_toDigits (by decide) (by decide) hc
  have back : Nat.ofDigitChars 10 (Nat.toDigits 10 n) 0 = n := Nat.ofDigitChars_ten_toDigits
  rcases Nat.eq_zero_or_pos n with rfl | positive
  · rfl
  · obtain ⟨d, t, eq, leads⟩ := toDigits_head positive
    rw [eq, List.forall_mem_cons] at digits
    rw [eq] at back
    have minus : d ≠ '-' := by
      rintro rfl
      exact absurd digits.1 (by decide)
    have taken : t.takeWhile Char.isDigit = t := List.takeWhile_eq_self_iff.mpr digits.2
    have left : t.dropWhile Char.isDigit = [] := List.dropWhile_eq_nil_iff.mpr digits.2
    have whole : unsigned (d :: t) = some ((n, 0), []) := by
      simp only [unsigned, digits.1, if_true, if_neg leads, taken, left, fraction, exponent,
        List.append_nil, back]
      rfl
    rw [eq]
    simp only [number]
    rw [if_neg minus, whole]
    rfl

end Texts

end ItchAggregator.JsonText
