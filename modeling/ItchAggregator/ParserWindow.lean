import ItchAggregator.ItchParser

/-! What one `ensure` and one `next` do to the window, for any byte source.
The buffered bytes are only ever extended at the end, a compaction moves them
without changing them, and a failed `ensure` fails again in the same way. -/

namespace ItchAggregator.ItchParser

variable {σ : Type} {source : ByteSource σ} {p q r : ItchParser σ}

def held (p : ItchParser σ) : Nat := p.tail - p.head

def window (p : ItchParser σ) : List UInt8 := bytes (shift p.buf p.head) p.held

@[simp] theorem length_window (p : ItchParser σ) : p.window.length = p.held := length_bytes _ _

structure Bounds (p : ItchParser σ) : Prop where
  head_le : p.head ≤ p.tail
  tail_le : p.tail ≤ p.bufBytes

theorem start_bounds (s : σ) (bufBytes : Nat) : (start s bufBytes).Bounds :=
  ⟨Nat.le_refl 0, Nat.zero_le _⟩

/-- `q` holds the bytes of `p` and possibly more behind them; nothing was
consumed or counted. -/
structure Grown (p q : ItchParser σ) : Prop where
  bounds : q.Bounds
  bufBytes : q.bufBytes = p.bufBytes
  total : q.total = p.total
  counts : q.counts = p.counts
  window : p.window <+: q.window

theorem Grown.refl (h : p.Bounds) : Grown p p := ⟨h, rfl, rfl, rfl, List.prefix_refl _⟩

theorem Grown.trans (hpq : Grown p q) (hqr : Grown q r) : Grown p r where
  bounds := hqr.bounds
  bufBytes := hqr.bufBytes.trans hpq.bufBytes
  total := hqr.total.trans hpq.total
  counts := hqr.counts.trans hpq.counts
  window := hpq.window.trans hqr.window

theorem Grown.held_le (h : Grown p q) : p.held ≤ q.held := by
  simpa using h.window.length_le

theorem window_read (h : p.Bounds) (s : σ) (bs : List UInt8) :
    ({ p with
        src := s
        buf := memcpy p.buf p.tail (ptrOf bs) bs.length
        tail := p.tail + bs.length } : ItchParser σ).window = p.window ++ bs := by
  have hle := h.head_le
  have split : p.tail + bs.length - p.head = p.held + bs.length := by
    unfold held
    omega
  have old : bytes (shift (memcpy p.buf p.tail (ptrOf bs) bs.length) p.head) p.held =
      p.window := by
    apply bytes_congr
    intro i hi
    exact memcpy_outside _ _ (Or.inl (by unfold held at hi; omega))
  have new : bytes (shift (shift (memcpy p.buf p.tail (ptrOf bs) bs.length) p.head) p.held)
      bs.length = bs := by
    rw [shift_shift, show p.head + p.held = p.tail from Nat.add_sub_cancel' hle]
    exact (bytes_congr fun i hi => memcpy_inside _ _ hi).trans (bytes_ptrOf bs)
  change bytes _ (p.tail + bs.length - p.head) = _
  rw [split, bytes_add, old, new]

theorem compact_bounds (h : p.Bounds) : p.compact.Bounds := by
  unfold compact
  split
  · exact ⟨Nat.zero_le _, (Nat.sub_le _ _).trans h.tail_le⟩
  · exact h

theorem compact_head (p : ItchParser σ) : p.compact.head = 0 := by
  unfold compact
  split <;> simp_all

@[simp] theorem compact_bufBytes (p : ItchParser σ) : p.compact.bufBytes = p.bufBytes := by
  unfold compact
  split <;> rfl

@[simp] theorem compact_src (p : ItchParser σ) : p.compact.src = p.src := by
  unfold compact
  split <;> rfl

@[simp] theorem compact_eof (p : ItchParser σ) : p.compact.eof = p.eof := by
  unfold compact
  split <;> rfl

@[simp] theorem compact_error (p : ItchParser σ) : p.compact.error = p.error := by
  unfold compact
  split <;> rfl

@[simp] theorem window_compact (p : ItchParser σ) : p.compact.window = p.window := by
  by_cases moved : 0 < p.head
  · have same : p.compact.window =
        bytes (shift (memcpy p.buf 0 (shift p.buf p.head) (p.tail - p.head)) 0) p.held := by
      simp only [compact, moved, if_true, window, held, Nat.sub_zero]
    rw [same]
    apply bytes_congr
    intro i hi
    exact memcpy_inside _ _ hi
  · simp [compact, moved]

theorem compact_grown (h : p.Bounds) : Grown p p.compact where
  bounds := compact_bounds h
  bufBytes := compact_bufBytes p
  total := by unfold compact; split <;> rfl
  counts := by unfold compact; split <;> rfl
  window := by rw [window_compact]

theorem read_grown (h : p.Bounds) (s : σ) (bs : {bs : List UInt8 // bs.length ≤ p.bufBytes - p.tail}) :
    Grown p
      { p with
        src := s
        buf := memcpy p.buf p.tail (ptrOf bs.val) bs.val.length
        tail := p.tail + bs.val.length } where
  bounds := by
    have bound := bs.property
    have hle := h.head_le
    have htl := h.tail_le
    constructor
    · exact hle.trans (Nat.le_add_right _ _)
    · change p.tail + bs.val.length ≤ p.bufBytes
      omega
  bufBytes := rfl
  total := rfl
  counts := rfl
  window := by
    rw [window_read h]
    exact List.prefix_append _ _

/-- The outcome of a request for `want` bytes: met with the flags untouched, or
refused with a flag up. -/
structure Served (want : Nat) (p : ItchParser σ) (b : Bool) (q : ItchParser σ) : Prop where
  grown : Grown p q
  met : b = true → want ≤ q.held ∧ q.eof = p.eof ∧ q.error = p.error
  refused : b = false → q.held < want ∧ (q.eof || q.error) = true

theorem refill_grown (source : ByteSource σ) (want turns : Nat) (h : p.Bounds) :
    Grown p (refill source want turns p).2 := by
  induction turns generalizing p with
  | zero => exact Grown.refl h
  | succ turns ih =>
    unfold refill
    split
    · split
      · exact ⟨⟨h.1, h.2⟩, rfl, rfl, rfl, List.prefix_refl _⟩
      · split
        · exact ⟨⟨h.1, h.2⟩, rfl, rfl, rfl, List.prefix_refl _⟩
        · exact (read_grown h _ _).trans (ih (read_grown h _ _).bounds)
    · exact Grown.refl h

theorem refill_answer (source : ByteSource σ) (want turns : Nat) (h : p.Bounds)
    (enough : want - p.held ≤ turns) :
    ((refill source want turns p).1 = true → want ≤ (refill source want turns p).2.held ∧
      (refill source want turns p).2.eof = p.eof ∧
      (refill source want turns p).2.error = p.error) ∧
    ((refill source want turns p).1 = false → (refill source want turns p).2.held < want ∧
      ((refill source want turns p).2.eof || (refill source want turns p).2.error) = true) := by
  induction turns generalizing p with
  | zero =>
    refine ⟨fun _ => ⟨?_, rfl, rfl⟩, fun hb => absurd hb (by simp [refill])⟩
    exact Nat.le_of_sub_eq_zero (Nat.le_zero.mp enough)
  | succ turns ih =>
    unfold refill
    by_cases short : p.tail - p.head < want
    · rw [if_pos short]
      obtain ⟨⟨answer, s⟩, read⟩ : ∃ a, source.read p.src (p.bufBytes - p.tail) = a := ⟨_, rfl⟩
      rw [read]
      cases answer with
      | none => exact ⟨by simp, fun _ => ⟨short, by simp⟩⟩
      | some bs =>
        by_cases empty : bs.val.length = 0
        · simp only [empty, if_true]
          exact ⟨by simp, fun _ => ⟨short, by simp⟩⟩
        · simp only [empty, if_false]
          have hle := h.head_le
          refine ih (read_grown h s bs).bounds ?_
          -- a non-empty piece shortens what is missing
          simp only [held] at enough ⊢
          omega
    · rw [if_neg short]
      exact ⟨fun _ => ⟨Nat.le_of_not_lt short, rfl, rfl⟩, by simp⟩

theorem refill_served (source : ByteSource σ) (want turns : Nat) (h : p.Bounds)
    (enough : want - p.held ≤ turns) :
    Served want p (refill source want turns p).1 (refill source want turns p).2 where
  grown := refill_grown source want turns h
  met := (refill_answer source want turns h enough).1
  refused := (refill_answer source want turns h enough).2

theorem ensure_served (source : ByteSource σ) (want : Nat) (h : p.Bounds) :
    Served want p (ensure source want p).1 (ensure source want p).2 := by
  unfold ensure
  split
  case isTrue enough => exact ⟨Grown.refl h, fun _ => ⟨enough, rfl, rfl⟩, by simp⟩
  case isFalse short =>
    split
    case isTrue flagged => exact ⟨Grown.refl h, by simp, fun _ => ⟨Nat.lt_of_not_le short, flagged⟩⟩
    case isFalse _ =>
      have served := refill_served source want want (compact_bounds h) (Nat.sub_le _ _)
      refine ⟨(compact_grown h).trans served.grown, fun hb => ?_, served.refused⟩
      simpa using served.met hb

theorem ensure_refused {want : Nat} (short : p.held < want) (flagged : (p.eof || p.error) = true) :
    ensure source want p = (false, p) := by
  unfold ensure
  rw [if_neg (by unfold held at short; omega), if_pos flagged]

theorem ensure_met {want : Nat} (enough : want ≤ p.held) : ensure source want p = (true, p) := by
  unfold ensure
  rw [if_pos (by unfold held at enough; exact enough)]

theorem Grown.byte (h : Grown p q) {i : Nat} (hi : i < p.held) :
    q.buf (q.head + i) = p.buf (p.head + i) := by
  obtain ⟨more, hw⟩ := h.window
  have hq := h.held_le
  have left := getD_bytes (shift q.buf q.head) (Nat.lt_of_lt_of_le hi hq)
  have right := getD_bytes (shift p.buf p.head) hi
  have same : q.window.getD i 0 = p.window.getD i 0 := by
    rw [← hw]
    exact List.getD_append _ _ _ _ (by simpa using hi)
  exact left.symm.trans (same.trans right)

def promised (p : ItchParser σ) : Nat := (loadBe16 (shift p.buf p.head)).toNat

theorem Grown.promised (h : Grown p q) (two : 2 ≤ p.held) : q.promised = p.promised := by
  unfold ItchParser.promised
  congr 1
  apply loadBe16_congr
  intro i hi
  exact h.byte (by omega)

def consume (p : ItchParser σ) (n : Nat) : ItchParser σ :=
  { p with
    head := p.head + (2 + n)
    total := p.total + 1
    counts := Function.update p.counts (p.buf (p.head + 2)) (p.counts (p.buf (p.head + 2)) + 1) }

def cutOff (p : ItchParser σ) : ItchParser σ :=
  if !p.error && decide (2 < p.held) then { p with error := true } else p

@[simp] theorem held_cutOff (p : ItchParser σ) : p.cutOff.held = p.held := by
  unfold cutOff
  split <;> rfl

@[simp] theorem promised_cutOff (p : ItchParser σ) : p.cutOff.promised = p.promised := by
  unfold cutOff
  split <;> rfl

theorem cutOff_cutOff (p : ItchParser σ) : p.cutOff.cutOff = p.cutOff := by
  by_cases cut : (!p.error && decide (2 < p.held)) = true
  · simp [cutOff, cut]
  · simp [cutOff, cut]

theorem cutOff_flagged (flagged : (p.eof || p.error) = true) :
    (p.cutOff.eof || p.cutOff.error) = true := by
  unfold cutOff
  split
  · simp
  · exact flagged

/-- The four ways `next` returns: no prefix, the end marker, a frame cut off, a
message. -/
inductive NextCase (source : ByteSource σ) (p : ItchParser σ) :
    Option Msg → ItchParser σ → Prop
  | noPrefix (q : ItchParser σ) (first : ensure source 2 p = (false, q)) : NextCase source p none q
  | marker (q : ItchParser σ) (first : ensure source 2 p = (true, q)) (zero : q.promised = 0) :
      NextCase source p none { q with eof := true }
  | truncated (q r : ItchParser σ) (first : ensure source 2 p = (true, q))
      (positive : q.promised ≠ 0)
      (second : ensure source (2 + q.promised) q = (false, r)) :
      NextCase source p none r.cutOff
  | message (q r : ItchParser σ) (first : ensure source 2 p = (true, q))
      (positive : q.promised ≠ 0)
      (second : ensure source (2 + q.promised) q = (true, r)) :
      NextCase source p (some ⟨shift r.buf (r.head + 2), q.promised⟩) (r.consume q.promised)

theorem cutOff_bounds (h : p.Bounds) : p.cutOff.Bounds := by
  unfold cutOff
  split
  · exact ⟨h.1, h.2⟩
  · exact h

theorem consume_bounds {n : Nat} (h : p.Bounds) (enough : 2 + n ≤ p.held) :
    (p.consume n).Bounds := by
  refine ⟨?_, h.tail_le⟩
  have hle := h.head_le
  unfold held at enough
  change p.head + (2 + n) ≤ p.tail
  omega

theorem window_consume {n : Nat} (enough : 2 + n ≤ p.held) :
    (p.consume n).window = p.window.drop (2 + n) := by
  have split : p.held = (2 + n) + (p.consume n).held := by
    simp only [held, consume] at enough ⊢
    omega
  have whole := bytes_add (shift p.buf p.head) (2 + n) (p.consume n).held
  rw [← split] at whole
  rw [show p.window = _ from whole, List.drop_append_of_le_length (by simp), List.drop_of_length_le
    (by simp), List.nil_append, shift_shift]
  rfl

theorem message_bytes {n : Nat} (enough : 2 + n ≤ p.held) :
    bytes (shift p.buf (p.head + 2)) n = (p.window.drop 2).take n := by
  have whole := bytes_add (shift p.buf p.head) 2 (p.held - 2)
  have split : p.held - 2 = n + (p.held - 2 - n) := by omega
  rw [Nat.add_sub_cancel' (by omega : 2 ≤ p.held), split, bytes_add] at whole
  rw [show p.window = _ from whole, List.drop_append_of_le_length (by simp), List.drop_of_length_le
    (by simp), List.nil_append, List.take_append_of_le_length (by simp), List.take_of_length_le
    (by simp), shift_shift]

theorem next_noPrefix (first : ensure source 2 p = (false, q)) : next source p = (none, q) := by
  simp only [next, first]

theorem next_marker (first : ensure source 2 p = (true, q)) (zero : q.promised = 0) :
    next source p = (none, { q with eof := true }) := by
  simp only [next, first]
  exact if_pos zero

theorem next_truncated (first : ensure source 2 p = (true, q)) (positive : q.promised ≠ 0)
    (second : ensure source (2 + q.promised) q = (false, r)) :
    next source p = (none, r.cutOff) := by
  unfold promised at second
  simp only [next, first, second]
  exact if_neg positive

theorem next_message (first : ensure source 2 p = (true, q)) (positive : q.promised ≠ 0)
    (second : ensure source (2 + q.promised) q = (true, r)) :
    next source p =
      (some ⟨shift r.buf (r.head + 2), q.promised⟩, r.consume q.promised) := by
  unfold promised at second
  simp only [next, first, second]
  exact if_neg positive

theorem next_case (source : ByteSource σ) (p : ItchParser σ) :
    NextCase source p (next source p).1 (next source p).2 := by
  obtain ⟨⟨b, q⟩, first⟩ : ∃ a, ensure source 2 p = a := ⟨_, rfl⟩
  cases b with
  | false => exact next_noPrefix first ▸ .noPrefix q first
  | true =>
    by_cases zero : q.promised = 0
    · exact next_marker first zero ▸ .marker q first zero
    · obtain ⟨⟨c, r⟩, second⟩ : ∃ a, ensure source (2 + q.promised) q = a := ⟨_, rfl⟩
      cases c with
      | false => exact next_truncated first zero second ▸ .truncated q r first zero second
      | true => exact next_message first zero second ▸ .message q r first zero second

theorem next_positive {m : Msg} (call : next source p = (some m, q)) : 0 < m.len := by
  have outcome := next_case source p
  rw [call] at outcome
  cases outcome with
  | message _ _ _ positive _ => exact Nat.pos_of_ne_zero positive

theorem next_none_counters (h : p.Bounds) (call : next source p = (none, q)) :
    q.total = p.total ∧ q.counts = p.counts := by
  have outcome := next_case source p
  rw [call] at outcome
  have first_counters : ∀ {b : Bool} {r : ItchParser σ} {want : Nat} {p : ItchParser σ}, p.Bounds →
      ensure source want p = (b, r) → r.Bounds ∧ r.total = p.total ∧ r.counts = p.counts := by
    intro b r want p bounds result
    have grown := (ensure_served source want bounds).grown
    rw [result] at grown
    exact ⟨grown.bounds, grown.total, grown.counts⟩
  cases outcome with
  | noPrefix _ first => exact (first_counters h first).2
  | marker r first _ => exact (first_counters h first).2
  | truncated r r' first _ second =>
    obtain ⟨bounds, total, counts⟩ := first_counters h first
    obtain ⟨_, total', counts'⟩ := first_counters bounds second
    have cut : r'.cutOff.total = r'.total ∧ r'.cutOff.counts = r'.counts := by
      unfold cutOff
      split <;> exact ⟨rfl, rfl⟩
    exact ⟨cut.1.trans (total'.trans total), cut.2.trans (counts'.trans counts)⟩

theorem next_some_counters {m : Msg} (h : p.Bounds) (call : next source p = (some m, q)) :
    q.total = p.total + 1 ∧
      q.counts = Function.update p.counts (m.data 0) (p.counts (m.data 0) + 1) := by
  have outcome := next_case source p
  rw [call] at outcome
  cases outcome with
  | message r r' first _ second =>
    have grown := (ensure_served source 2 h).grown
    rw [first] at grown
    have grown' := (ensure_served source (2 + r.promised) grown.bounds).grown
    rw [second] at grown'
    have total : r'.total = p.total := grown'.total.trans grown.total
    have counts : r'.counts = p.counts := grown'.counts.trans grown.counts
    refine ⟨congrArg (· + 1) total, ?_⟩
    rw [← counts]
    rfl

/-- The next call returns `nullptr`, reads nothing and leaves the parser as it is,
whatever the source would answer. -/
def Ended (p : ItchParser σ) : Prop := ∀ source : ByteSource σ, next source p = (none, p)

/-- A return of `nullptr` is final. -/
theorem next_none_ended (h : p.Bounds) (stop : (next source p).1 = none) :
    (next source p).2.Ended := by
  intro source'
  have outcome := next_case source p
  rw [stop] at outcome
  generalize (next source p).2 = after at outcome ⊢
  cases outcome with
  | noPrefix q first =>
    have served := ensure_served source 2 h
    rw [first] at served
    obtain ⟨short, flagged⟩ := served.refused rfl
    exact next_noPrefix (ensure_refused short flagged)
  | marker q first zero =>
    have served := ensure_served source 2 h
    rw [first] at served
    have two := (served.met rfl).1
    have again : ensure source' 2 ({ q with eof := true } : ItchParser σ) =
        (true, { q with eof := true }) := ensure_met two
    have final := next_marker again zero
    exact final
  | truncated q r first positive second =>
    have served := ensure_served source 2 h
    rw [first] at served
    have two := (served.met rfl).1
    have served' := ensure_served source (2 + q.promised) served.grown.bounds
    rw [second] at served'
    obtain ⟨short, flagged⟩ := served'.refused rfl
    have same : r.cutOff.promised = q.promised := by
      rw [promised_cutOff]
      exact served'.grown.promised two
    have two' : 2 ≤ r.cutOff.held := by
      rw [held_cutOff]
      exact two.trans served'.grown.held_le
    have refused : ensure source' (2 + r.cutOff.promised) r.cutOff = (false, r.cutOff) :=
      ensure_refused (by rw [same, held_cutOff]; exact short) (cutOff_flagged flagged)
    have again := next_truncated (ensure_met two') (same ▸ positive) refused
    rwa [cutOff_cutOff] at again

theorem next_none_again (h : p.Bounds) (stop : (next source p).1 = none) :
    next source (next source p).2 = (none, (next source p).2) :=
  next_none_ended h stop source

theorem next_bounds (source : ByteSource σ) (h : p.Bounds) : (next source p).2.Bounds := by
  have outcome := next_case source p
  generalize (next source p).1 = returned at outcome
  generalize (next source p).2 = after at outcome ⊢
  have first_bounds : ∀ {b q}, ensure source 2 p = (b, q) → q.Bounds := fun first => by
    simpa [first] using (ensure_served source 2 h).grown.bounds
  cases outcome with
  | noPrefix _ first => exact first_bounds first
  | marker q first zero => exact ⟨(first_bounds first).1, (first_bounds first).2⟩
  | truncated q r first positive second =>
    have served := ensure_served source (2 + q.promised) (first_bounds first)
    rw [second] at served
    exact cutOff_bounds served.grown.bounds
  | message q r first positive second =>
    have served := ensure_served source (2 + q.promised) (first_bounds first)
    rw [second] at served
    exact consume_bounds served.grown.bounds (served.met rfl).1

/-- Every state the parser passes through while messages are drawn from it,
inside the top-up loop included. -/
inductive Visits (source : ByteSource σ) (p : ItchParser σ) : ItchParser σ → Prop
  | here : Visits source p p
  | compact {q : ItchParser σ} : Visits source p q → Visits source p q.compact
  | refill {q : ItchParser σ} (want turns : Nat) :
      Visits source p q → Visits source p (refill source want turns q).2
  | next {q : ItchParser σ} : Visits source p q → Visits source p (next source q).2

theorem Visits.bounds (h : p.Bounds) (visited : Visits source p q) : q.Bounds := by
  induction visited with
  | here => exact h
  | compact _ ih => exact compact_bounds ih
  | refill want turns _ ih => exact (refill_grown source want turns ih).bounds
  | next _ ih => exact next_bounds source ih

end ItchAggregator.ItchParser
