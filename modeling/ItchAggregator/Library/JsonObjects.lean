import ItchAggregator.Library.JsonText

/-! The text of an object that is written member by member, with a gap in front of each key
and a closing gap, and no character of a key escaped. It is decoded to its members if its
keys are plain and its values are decoded; a key that is not plain spoils it. -/

namespace ItchAggregator.JsonText

def memberText (key value : List Char) : List Char := '"' :: (key ++ '"' :: ':' :: ' ' :: value)

variable {α : Type*} (gap close : List Char) (key text : α → List Char)

def moreText (as : List α) : List Char :=
  as.flatMap fun a => ',' :: (gap ++ memberText (key a) (text a))

def objectText : List α → List Char
  | [] => '\x7b' :: (close ++ ['\x7d'])
  | a :: as =>
    '\x7b' :: (gap ++ (memberText (key a) (text a) ++ (moreText gap key text as ++
      (close ++ ['\x7d']))))

/-- The decoder `f` of values reads the text as `j`, whatever a number stops at behind it. -/
structure Reads (f : List Char → Option (Json × List Char)) (text : List Char) (j : Json) :
    Prop where
  solid : ∀ r, skip (text ++ r) = text ++ r
  reads : ∀ c r, Stop c → f (text ++ c :: r) = some (j, c :: r)

variable {gap close key text} {f : List Char → Option (Json × List Char)} {j : α → Json}
  {n : Nat} {k v r : List Char} {i : Json}

theorem stop_of_ws {c : Char} (blank : isWs c = true) : Stop c := by
  simp only [isWs, Bool.or_eq_true, beq_iff_eq] at blank
  rcases blank with ((rfl | rfl) | rfl) | rfl <;> decide

theorem Reads.blank (reads : Reads f v i) (blank : ∀ c ∈ gap, isWs c = true) {c : Char}
    (stop : Stop c) (solid : isWs c = false) (r : List Char) :
    ∃ rest, f (v ++ (gap ++ c :: r)) = some (i, rest) ∧ skip rest = c :: r := by
  refine ⟨gap ++ c :: r, ?_, (skip_append blank _).trans (skip_cons solid r)⟩
  cases gap with
  | nil => exact reads.reads c r stop
  | cons d gap => exact reads.reads d _ (stop_of_ws (blank d List.mem_cons_self))

theorem members_key (plain : ∀ c ∈ k, Plain c) (reads : Reads f v i) (n : Nat) (r : List Char) :
    members f (n + 1) (memberText k v ++ r) = (f (v ++ r)).bind fun x =>
      match skip x.2 with
      | ',' :: r => (members f n (skip r)).bind fun ms => some ((k.map Char.toNat, x.1) :: ms.1, ms.2)
      | '\x7d' :: r => some ([(k.map Char.toNat, x.1)], r)
      | _ => none := by
  have cut : memberText k v ++ r = '"' :: (k ++ '"' :: ':' :: ' ' :: (v ++ r)) := by
    simp [memberText]
  have blank : skip (' ' :: (v ++ r)) = v ++ r := reads.solid r
  conv_rhs => rw [← blank]
  rw [cut, members, string_quoted plain]
  rfl

theorem members_more (plain : ∀ c ∈ k, Plain c) (reads : Reads f v i)
    (blank : ∀ c ∈ gap, isWs c = true) (n : Nat) (r : List Char) :
    members f (n + 1) (memberText k v ++ ',' :: (gap ++ '"' :: r)) =
      (members f n ('"' :: r)).map fun ms => ((k.map Char.toNat, i) :: ms.1, ms.2) := by
  have comma : skip (',' :: (gap ++ '"' :: r)) = ',' :: (gap ++ '"' :: r) := skip_cons rfl _
  have next : skip (gap ++ '"' :: r) = '"' :: r := (skip_append blank _).trans (skip_cons rfl r)
  rw [members_key plain reads, reads.reads _ _ (by decide), Option.bind_some]
  simp only [comma, next]
  cases members f n ('"' :: r) <;> rfl

theorem members_last (plain : ∀ c ∈ k, Plain c) (reads : Reads f v i)
    (blank : ∀ c ∈ close, isWs c = true) (n : Nat) (r : List Char) :
    members f (n + 1) (memberText k v ++ (close ++ '\x7d' :: r)) =
      some ([(k.map Char.toNat, i)], r) := by
  obtain ⟨rest, value, ending⟩ := reads.blank blank (c := '\x7d') (by decide) rfl r
  rw [members_key plain reads, value, Option.bind_some]
  simp only [ending]

structure Readable (f : List Char → Option (Json × List Char)) (key text : α → List Char)
    (j : α → Json) (a : α) : Prop where
  plain : ∀ c ∈ key a, Plain c
  reads : Reads f (text a) (j a)

theorem members_texts {a : α} {as : List α} (gaps : ∀ c ∈ gap, isWs c = true)
    (closes : ∀ c ∈ close, isWs c = true) (good : ∀ b ∈ a :: as, Readable f key text j b)
    (enough : as.length < n) (r : List Char) :
    members f n (memberText (key a) (text a) ++ (moreText gap key text as ++
        (close ++ '\x7d' :: r))) =
      some ((a :: as).map fun b => ((key b).map Char.toNat, j b), r) := by
  induction as generalizing a n with
  | nil =>
    obtain ⟨n, rfl⟩ : ∃ m, n = m + 1 := ⟨n - 1, by omega⟩
    have first := good a List.mem_cons_self
    exact members_last first.plain first.reads closes n r
  | cons b as ih =>
    obtain ⟨n, rfl⟩ : ∃ m, n = m + 1 := ⟨n - 1, by omega⟩
    have first := good a List.mem_cons_self
    have later := ih (fun d hd => good d (List.mem_cons_of_mem a hd)) (Nat.lt_of_succ_lt_succ enough)
    have step := members_more first.plain first.reads gaps n
      (key b ++ '"' :: ':' :: ' ' :: text b ++ (moreText gap key text as ++ (close ++ '\x7d' :: r)))
    have cut : memberText (key a) (text a) ++ (moreText gap key text (b :: as) ++
          (close ++ '\x7d' :: r)) =
        memberText (key a) (text a) ++ ',' :: (gap ++ '"' :: (key b ++ '"' :: ':' :: ' ' :: text b ++
          (moreText gap key text as ++ (close ++ '\x7d' :: r)))) := by
      simp [moreText, memberText]
    have next : '"' :: (key b ++ '"' :: ':' :: ' ' :: text b ++
        (moreText gap key text as ++ (close ++ '\x7d' :: r))) =
        memberText (key b) (text b) ++ (moreText gap key text as ++ (close ++ '\x7d' :: r)) := by
      simp [memberText]
    rw [cut, step, next, later]
    rfl

theorem value_members {fuel : Nat} {r rest : List Char} (quote : skip r = '"' :: rest) :
    value (fuel + 1) ('\x7b' :: r) =
      (members (value fuel) fuel ('"' :: rest)).map fun x => (.obj x.1, x.2) := by
  rw [value.eq_def]
  simp only [quote]
  rfl

theorem value_objectText {as : List α} {fuel : Nat} (gaps : ∀ c ∈ gap, isWs c = true)
    (closes : ∀ c ∈ close, isWs c = true) (good : ∀ a ∈ as, Readable (value fuel) key text j a)
    (enough : as.length ≤ fuel) (r : List Char) :
    value (fuel + 1) (objectText gap close key text as ++ r) =
      some (.obj (as.map fun a => ((key a).map Char.toNat, j a)), r) := by
  cases as with
  | nil =>
    have ending : skip (close ++ '\x7d' :: r) = '\x7d' :: r :=
      (skip_append closes _).trans (skip_cons rfl r)
    have cut : objectText gap close key text [] ++ r = '\x7b' :: (close ++ '\x7d' :: r) := by
      simp [objectText]
    rw [cut]
    simp only [value, ending, List.map_nil]
  | cons a as =>
    have all := members_texts gaps closes good enough r
    have first : skip (gap ++ (memberText (key a) (text a) ++ (moreText gap key text as ++
          (close ++ '\x7d' :: r)))) =
        memberText (key a) (text a) ++ (moreText gap key text as ++ (close ++ '\x7d' :: r)) :=
      (skip_append gaps _).trans (skip_cons rfl _)
    have cut : objectText gap close key text (a :: as) ++ r =
        '\x7b' :: (gap ++ (memberText (key a) (text a) ++ (moreText gap key text as ++
          (close ++ '\x7d' :: r)))) := by
      simp [objectText]
    rw [cut, value_members first]
    exact congrArg (Option.map _) all

theorem Reads.number {t : List Char} {fuel : Nat} (read : JsonText.number t = some (i, [])) :
    Reads (value (fuel + 1)) t i := by
  cases t with
  | nil => cases read
  | cons d t =>
    have leads : d = '-' ∨ d.isDigit = true := by
      by_contra neither
      rw [not_or] at neither
      simp only [JsonText.number, if_neg neither.1, unsigned, if_neg neither.2] at read
      cases read
    have solid : isWs d = false := by
      rcases leads with rfl | digit
      · rfl
      · by_contra blank
        have stop := stop_of_ws (Bool.not_eq_false _ ▸ blank)
        rw [stop.1] at digit
        cases digit
    refine ⟨fun r => skip_cons solid _, fun c r stop => ?_⟩
    have all := number_append stop read r
    have other : ∀ e : Char, e ≠ '-' → e.isDigit = false → d ≠ e := by
      rintro e minus digit rfl
      rcases leads with same | digit'
      · exact minus same
      · rw [digit] at digit'
        cases digit'
    rw [value.eq_def]
    simp only [List.cons_append] at all ⊢
    split
    · rename_i eq
      cases eq
    all_goals first
      | exact all
      | (rename_i eq; exact absurd (List.cons.inj eq).1 (other _ (by decide) (by decide)))

/-! Keys of one character that is not plain. -/

theorem members_quote (f : List Char → Option (Json × List Char)) (v r : List Char) (n : Nat) :
    members f n (memberText ['"'] v ++ r) = none := by
  cases n with
  | zero => rfl
  | succ n =>
    have empty : string ('"' :: '"' :: ':' :: ' ' :: (v ++ r)) =
        some ([], '"' :: ':' :: ' ' :: (v ++ r)) := string_quoted (s := []) (by simp) _
    have again : skip ('"' :: ':' :: ' ' :: (v ++ r)) = '"' :: ':' :: ' ' :: (v ++ r) :=
      skip_cons rfl _
    change members f (n + 1) ('"' :: '"' :: '"' :: ':' :: ' ' :: (v ++ r)) = none
    simp only [members, empty, Option.bind_eq_bind, Option.bind_some, again]
    rfl

theorem members_scan (f : List Char → Option (Json × List Char)) (n : Nat)
    (stuck : scan (k ++ '"' :: ':' :: ' ' :: (v ++ r)) = none) :
    members f n (memberText k v ++ r) = none := by
  cases n with
  | zero => rfl
  | succ n =>
    have cut : memberText k v ++ r = '"' :: (k ++ '"' :: ':' :: ' ' :: (v ++ r)) := by
      simp [memberText]
    rw [cut]
    simp only [members, string, stuck, Option.map_none, Option.bind_eq_bind, Option.bind_none]

/-- A backslash goes over the quote to what is behind the value, up to a control
character. -/
theorem members_backslash (f : List Char → Option (Json × List Char)) (n : Nat) {s : List Char}
    {c : Char} (plain : ∀ d ∈ v ++ s, Plain d) (control : c.toNat < 0x20) (r : List Char) :
    members f n (memberText ['\\'] v ++ (s ++ c :: r)) = none := by
  refine members_scan f n ?_
  have crossed : ∀ d ∈ ':' :: ' ' :: (v ++ s), Plain d := by
    simp only [List.forall_mem_cons]
    exact ⟨by decide, by decide, plain⟩
  have stuck := scan_control crossed control r
  rw [List.cons_append, List.cons_append, List.append_assoc] at stuck
  rw [List.singleton_append, scan_escaped, stuck]
  rfl

theorem members_stuck {as : List α} (gaps : ∀ c ∈ gap, isWs c = true)
    (good : ∀ a ∈ as, Readable f key text j a) (stuck : ∀ n, members f n ('"' :: r) = none)
    (n : Nat) :
    members f n ((as.flatMap fun a => memberText (key a) (text a) ++ ',' :: gap) ++ '"' :: r) =
      none := by
  induction as generalizing n with
  | nil => exact stuck n
  | cons a as ih =>
    have first := good a List.mem_cons_self
    have later := ih (fun b hb => good b (List.mem_cons_of_mem a hb))
    cases n with
    | zero => rfl
    | succ n =>
      obtain ⟨q, next⟩ : ∃ q, (as.flatMap fun a => memberText (key a) (text a) ++ ',' :: gap) ++
          '"' :: r = '"' :: q := by
        cases as with
        | nil => exact ⟨r, rfl⟩
        | cons b as => exact ⟨_, rfl⟩
      have cut : ((a :: as).flatMap fun a => memberText (key a) (text a) ++ ',' :: gap) ++ '"' :: r =
          memberText (key a) (text a) ++ ',' :: (gap ++ '"' :: q) := by
        rw [← next]
        simp
      rw [cut, members_more first.plain first.reads gaps, ← next, later n]
      rfl

theorem objectText_split (as : List α) (a : α) (bs : List α) :
    objectText gap close key text (as ++ a :: bs) =
      '\x7b' :: (gap ++ ((as.flatMap fun a => memberText (key a) (text a) ++ ',' :: gap) ++
        (memberText (key a) (text a) ++ (moreText gap key text bs ++ (close ++ ['\x7d']))))) := by
  cases as with
  | nil => rfl
  | cons b as =>
    have rest : ∀ as : List α, moreText gap key text (as ++ a :: bs) =
        ',' :: (gap ++ ((as.flatMap fun a => memberText (key a) (text a) ++ ',' :: gap) ++
          (memberText (key a) (text a) ++ moreText gap key text bs))) := by
      intro as
      induction as with
      | nil => simp [moreText]
      | cons c as ih =>
        have cons : moreText gap key text (c :: (as ++ a :: bs)) =
            ',' :: (gap ++ memberText (key c) (text c)) ++ moreText gap key text (as ++ a :: bs) :=
          List.flatMap_cons
        rw [List.cons_append, cons, ih]
        simp
    rw [List.cons_append, objectText, rest]
    simp

/-- An object with a member that is not decoded is not JSON. -/
theorem not_loads {as bs : List α} {a : α} (gaps : ∀ c ∈ gap, isWs c = true)
    (good : ∀ fuel, ∀ b ∈ as, Readable (value (fuel + 1)) key text j b)
    (stuck : ∀ f n, members f n (memberText (key a) (text a) ++ (moreText gap key text bs ++
      (close ++ ['\x7d']))) = none) (i : Json) :
    ¬Loads (objectText gap close key text (as ++ a :: bs)) i := by
  rintro ⟨fuel, rest, result, _⟩
  rw [objectText_split, skip_cons rfl] at result
  have quote : ∃ q, ((as.flatMap fun a => memberText (key a) (text a) ++ ',' :: gap) ++
      (memberText (key a) (text a) ++ (moreText gap key text bs ++ (close ++ ['\x7d'])))) =
      '"' :: q := by
    cases as with
    | nil => exact ⟨_, rfl⟩
    | cons b as => exact ⟨_, rfl⟩
  obtain ⟨q, next⟩ := quote
  have blank : skip (gap ++ '"' :: q) = '"' :: q := (skip_append gaps _).trans (skip_cons rfl q)
  match fuel with
  | 0 => cases result
  | 1 =>
    rw [next, value_members blank] at result
    cases result
  | fuel + 2 =>
    have none : members (value (fuel + 1)) (fuel + 1) _ = none :=
      members_stuck gaps (good fuel) (fun n => stuck (value (fuel + 1)) n) (fuel + 1)
    rw [next, value_members blank, ← next] at result
    exact absurd (result.symm.trans (congrArg (Option.map _) none)) (by simp)

end ItchAggregator.JsonText
