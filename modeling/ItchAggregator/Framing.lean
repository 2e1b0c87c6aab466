import ItchAggregator.ParserWindow

/-! Reference framing of a byte string, and the parser's agreement with it. The
reference is a loop over the string alone; the parser sees the same string
through a source that hands it over in pieces of any size and through a buffer
that compacts at any offset. -/

namespace ItchAggregator

/-- Stop below two bytes, at a zero length and at a frame cut off; otherwise
emit the frame. Every turn consumes a byte, so the string's length bounds them. -/
def framesWithin : Nat → List UInt8 → List (List UInt8)
  | turns + 1, hi :: lo :: rest =>
    let n := hi.toNat * 256 + lo.toNat
    if n = 0 ∨ rest.length < n then [] else rest.take n :: framesWithin turns (rest.drop n)
  | _, _ => []

def frames (bs : List UInt8) : List (List UInt8) := framesWithin bs.length bs

theorem framesWithin_eq {turns : Nat} {bs : List UInt8} (enough : bs.length ≤ turns) :
    framesWithin turns bs = frames bs := by
  suffices h : ∀ a b bs, bs.length ≤ a → bs.length ≤ b → framesWithin a bs = framesWithin b bs from
    h _ _ bs enough (Nat.le_refl _)
  intro a
  induction a with
  | zero =>
    intro b bs ha _
    obtain rfl := List.length_eq_zero_iff.mp (Nat.le_zero.mp ha)
    simp [framesWithin]
  | succ a ih =>
    intro b bs ha hb
    match bs with
    | [] => simp [framesWithin]
    | [_] => simp [framesWithin]
    | hi :: lo :: rest =>
      obtain ⟨b, rfl⟩ : ∃ b', b = b' + 1 := ⟨b - 1, by simp at hb; omega⟩
      have tail := ih b (rest.drop (hi.toNat * 256 + lo.toNat))
        (by simp at ha ⊢; omega) (by simp at hb ⊢; omega)
      simp only [framesWithin, tail]

theorem frames_short {bs : List UInt8} (h : bs.length < 2) : frames bs = [] := by
  match bs with
  | [] => rfl
  | [_] => rfl
  | _ :: _ :: _ => simp at h

theorem frames_cons (hi lo : UInt8) (rest : List UInt8) :
    frames (hi :: lo :: rest) =
      if hi.toNat * 256 + lo.toNat = 0 ∨ rest.length < hi.toNat * 256 + lo.toNat then []
      else rest.take (hi.toNat * 256 + lo.toNat) ::
        frames (rest.drop (hi.toNat * 256 + lo.toNat)) := by
  have tail : framesWithin (hi :: lo :: rest).length.pred (rest.drop (hi.toNat * 256 + lo.toNat)) =
      frames (rest.drop (hi.toNat * 256 + lo.toNat)) := framesWithin_eq (by simp; omega)
  simp only [List.length_cons, Nat.pred_eq_sub_one, Nat.add_sub_cancel] at tail
  simp only [frames, List.length_cons, framesWithin] at tail ⊢
  rw [tail]

/-- Every string either has no whole frame at its front or goes on behind one. -/
theorem frames_induction {motive : List UInt8 → Prop}
    (stop : ∀ bs, frames bs = [] → motive bs)
    (frame : ∀ hi lo rest, hi.toNat * 256 + lo.toNat ≠ 0 →
      hi.toNat * 256 + lo.toNat ≤ rest.length →
      motive (rest.drop (hi.toNat * 256 + lo.toNat)) → motive (hi :: lo :: rest))
    (bs : List UInt8) : motive bs := by
  generalize hn : bs.length = n
  induction n using Nat.strong_induction_on generalizing bs with
  | _ n ih =>
    match bs with
    | [] => exact stop [] rfl
    | [b] => exact stop [b] rfl
    | hi :: lo :: rest =>
      by_cases none : hi.toNat * 256 + lo.toNat = 0 ∨ rest.length < hi.toNat * 256 + lo.toNat
      · exact stop _ (by rw [frames_cons, if_pos none])
      · obtain ⟨positive, whole⟩ := not_or.mp none
        refine frame hi lo rest positive (Nat.le_of_not_lt whole) (ih _ ?_ _ rfl)
        simp only [List.length_cons, List.length_drop] at hn ⊢
        omega

theorem frames_frame {hi lo : UInt8} {rest : List UInt8} (positive : hi.toNat * 256 + lo.toNat ≠ 0)
    (whole : hi.toNat * 256 + lo.toNat ≤ rest.length) :
    frames (hi :: lo :: rest) = rest.take (hi.toNat * 256 + lo.toNat) ::
      frames (rest.drop (hi.toNat * 256 + lo.toNat)) := by
  rw [frames_cons, if_neg (by omega)]

theorem frames_length {bs f : List UInt8} (h : f ∈ frames bs) : 0 < f.length ∧ f.length < 2 ^ 16 := by
  induction bs using frames_induction with
  | stop bs none => simp [none] at h
  | frame hi lo rest positive whole ih =>
    rw [frames_frame positive whole] at h
    rcases List.mem_cons.mp h with rfl | later
    · have hhi := hi.toNat_lt
      have hlo := lo.toNat_lt
      simp only [List.length_take]
      omega
    · exact ih later

/-- The bytes behind the last complete frame. -/
def leftover (bs : List UInt8) : List UInt8 :=
  bs.drop ((frames bs).map fun f => 2 + f.length).sum

theorem leftover_stop {bs : List UInt8} (stop : frames bs = []) : leftover bs = bs := by
  simp [leftover, stop]

theorem leftover_frame {hi lo : UInt8} {rest : List UInt8}
    (positive : hi.toNat * 256 + lo.toNat ≠ 0) (whole : hi.toNat * 256 + lo.toNat ≤ rest.length) :
    leftover (hi :: lo :: rest) = leftover (rest.drop (hi.toNat * 256 + lo.toNat)) := by
  have first : (rest.take (hi.toNat * 256 + lo.toNat)).length = hi.toNat * 256 + lo.toNat :=
    List.length_take_of_le whole
  simp only [leftover, frames_frame positive whole, List.map_cons, List.sum_cons, first,
    List.drop_drop]
  rw [Nat.add_assoc, Nat.add_comm 2, List.drop_succ_cons, List.drop_succ_cons]

/-- A nonzero length prefix with fewer bytes behind it than it promises. -/
def CutOff : List UInt8 → Prop
  | hi :: lo :: rest =>
    hi.toNat * 256 + lo.toNat ≠ 0 ∧ rest.length < hi.toNat * 256 + lo.toNat
  | _ => False

instance (bs : List UInt8) : Decidable (CutOff bs) := by
  unfold CutOff
  split <;> infer_instance

theorem frames_fit_default {bs f : List UInt8} (h : f ∈ frames bs) :
    2 + f.length ≤ ItchParser.defaultBufBytes := by
  have := (frames_length h).2
  have : ItchParser.defaultBufBytes = 4194304 := by decide
  omega

/-- The source hands over the string `left` in pieces of any size from one byte
to the number requested, and returns 0 once it is exhausted. -/
def ByteSource.Delivers {σ : Type} (source : ByteSource σ) (left : σ → List UInt8) : Prop :=
  ∀ s n, ∃ bs s', source.read s n = (some bs, s') ∧ left s = bs.val ++ left s' ∧
    (bs.val = [] → left s = [] ∨ n = 0)

theorem memSource_delivers : memSource.Delivers id := by
  intro left n
  refine ⟨_, _, rfl, (List.take_append_drop n left).symm, ?_⟩
  intro empty
  rcases List.take_eq_nil_iff.mp empty with zero | nil
  · exact Or.inr zero
  · exact Or.inl nil

namespace ItchParser

variable {σ : Type} {source : ByteSource σ} {left : σ → List UInt8} {p q : ItchParser σ}

/-- What is still to be framed: the window and the source behind it. -/
def unread (p : ItchParser σ) (left : σ → List UInt8) : List UInt8 := p.window ++ left p.src

theorem refill_unread (hsrc : source.Delivers left) (want turns : Nat) (h : p.Bounds) :
    (refill source want turns p).2.unread left = p.unread left := by
  induction turns generalizing p with
  | zero => rfl
  | succ turns ih =>
    unfold refill
    split
    · obtain ⟨bs, s, read, string, _⟩ := hsrc p.src (p.bufBytes - p.tail)
      rw [read]
      by_cases empty : bs.val.length = 0
      · simp only [empty, if_true]
        have nil := List.length_eq_zero_iff.mp empty
        rw [nil, List.nil_append] at string
        simp only [unread, string]
        rfl
      · simp only [empty, if_false]
        rw [ih (read_grown h s bs).bounds]
        simp only [unread, window_read h, string, List.append_assoc]
    · rfl

theorem ensure_unread (hsrc : source.Delivers left) (want : Nat) (h : p.Bounds) :
    (ensure source want p).2.unread left = p.unread left := by
  unfold ensure
  split
  · rfl
  · split
    · rfl
    · rw [refill_unread hsrc want want (compact_bounds h)]
      simp [unread]

theorem refill_refused (hsrc : source.Delivers left) (want turns : Nat) (h : p.Bounds)
    (front : p.head = 0) (ok : p.error = false) (refused : (refill source want turns p).1 = false) :
    (refill source want turns p).2.error = false ∧
      (left (refill source want turns p).2.src = [] ∨
        (refill source want turns p).2.held = p.bufBytes) := by
  induction turns generalizing p with
  | zero => simp [refill] at refused
  | succ turns ih =>
    unfold refill at refused ⊢
    by_cases short : p.tail - p.head < want
    · rw [if_pos short] at refused ⊢
      obtain ⟨bs, s, read, string, stop⟩ := hsrc p.src (p.bufBytes - p.tail)
      rw [read] at refused ⊢
      by_cases empty : bs.val.length = 0
      · simp only [empty, if_true]
        have nil := List.length_eq_zero_iff.mp empty
        rw [nil, List.nil_append] at string
        refine ⟨ok, (stop nil).imp (fun none => string ▸ none) fun full => ?_⟩
        have htl := h.tail_le
        simp only [held, front]
        omega
      · simp only [empty, if_false] at refused ⊢
        exact ih (read_grown h s bs).bounds front ok refused
    · rw [if_neg short] at refused
      simp at refused

structure Live (left : σ → List UInt8) (p : ItchParser σ) (bs : List UInt8) : Prop where
  bounds : p.Bounds
  eof : p.eof = false
  error : p.error = false
  string : p.unread left = bs

theorem start_live (left : σ → List UInt8) (s : σ) (bufBytes : Nat) :
    Live left (start s bufBytes) (left s) :=
  ⟨start_bounds s bufBytes, rfl, rfl, rfl⟩

variable {bs : List UInt8} {want : Nat}

theorem Live.refused (live : Live left p bs) (hsrc : source.Delivers left)
    (result : ensure source want p = (false, q)) :
    q.error = false ∧ Grown p q ∧ q.unread left = bs ∧ q.held < want ∧
      (left q.src = [] ∨ q.held = p.bufBytes) := by
  have served : Served want p false q := by
    simpa [result] using ensure_served source want live.bounds
  have kept : q.unread left = p.unread left := by
    simpa [result] using ensure_unread hsrc want live.bounds
  have short := (served.refused rfl).1
  have missing : ¬want ≤ p.tail - p.head := by
    have grew := served.grown.held_le
    simp only [held] at grew short
    omega
  have flags : ¬(p.eof || p.error) = true := by simp [live.eof, live.error]
  have loop : refill source want want p.compact = (false, q) := by
    rw [← result, ensure, if_neg missing, if_neg flags]
  have cause : q.error = false ∧ (left q.src = [] ∨ q.held = p.bufBytes) := by
    simpa [loop] using refill_refused hsrc want want (compact_bounds live.bounds)
      (compact_head p) (by rw [compact_error, live.error]) (by rw [loop])
  exact ⟨cause.1, served.grown, kept.trans live.string, short, cause.2⟩

theorem Live.ensure_met (live : Live left p bs) (hsrc : source.Delivers left)
    (fits : want ≤ p.bufBytes) (long : want ≤ bs.length) :
    ∃ q, ensure source want p = (true, q) ∧ Live left q bs ∧ want ≤ q.held ∧ Grown p q := by
  obtain ⟨⟨b, q⟩, result⟩ : ∃ a, ensure source want p = a := ⟨_, rfl⟩
  cases b with
  | true =>
    have served : Served want p true q := by
      simpa [result] using ensure_served source want live.bounds
    have kept : q.unread left = p.unread left := by
      simpa [result] using ensure_unread hsrc want live.bounds
    obtain ⟨enough, eof, error⟩ := served.met rfl
    exact ⟨q, result, ⟨served.grown.bounds, eof.trans live.eof, error.trans live.error,
      kept.trans live.string⟩, enough, served.grown⟩
  | false =>
    obtain ⟨_, _, whole, short, none | full⟩ := live.refused hsrc result
    · have all : q.held = bs.length := by
        rw [← whole, unread, none, List.append_nil, length_window]
      omega
    · omega

theorem Live.ensure_refused (live : Live left p bs) (hsrc : source.Delivers left)
    (short : bs.length < want) : ∃ q, ensure source want p = (false, q) := by
  obtain ⟨⟨b, q⟩, result⟩ : ∃ a, ensure source want p = a := ⟨_, rfl⟩
  cases b with
  | false => exact ⟨q, result⟩
  | true =>
    have served : Served want p true q := by
      simpa [result] using ensure_served source want live.bounds
    have kept : q.unread left = p.unread left := by
      simpa [result] using ensure_unread hsrc want live.bounds
    have bound : q.held ≤ bs.length := by
      rw [← live.string, ← kept, unread, List.length_append, length_window]
      exact Nat.le_add_right _ _
    have enough := (served.met rfl).1
    omega

theorem Live.promised {hi lo : UInt8} {rest : List UInt8} (live : Live left p (hi :: lo :: rest))
    (two : 2 ≤ p.held) :
    p.promised = hi.toNat * 256 + lo.toNat := by
  have byte : ∀ i < 2, shift p.buf p.head i = (hi :: lo :: rest).getD i 0 := by
    intro i hi
    rw [← live.string, ItchParser.unread, List.getD_append _ _ _ _ (by simp; omega)]
    exact (getD_bytes (shift p.buf p.head) (by omega : i < p.held)).symm
  rw [ItchParser.promised, loadBe16_toNat, byte 0 (by decide), byte 1 (by decide)]
  rfl

/-- One call on a whole frame: the message is the payload, and the parser waits
for the frame behind it. -/
theorem Live.next_frame {hi lo : UInt8} {rest : List UInt8} {n : Nat}
    (live : Live left p (hi :: lo :: rest)) (hsrc : source.Delivers left)
    (hn : n = hi.toNat * 256 + lo.toNat) (positive : n ≠ 0) (whole : n ≤ rest.length)
    (fits : 2 + n ≤ p.bufBytes) :
    ∃ m q, next source p = (some m, q) ∧ m.bytes = rest.take n ∧ m.len = n ∧
      Live left q (rest.drop n) ∧ q.bufBytes = p.bufBytes := by
  obtain ⟨q, first, liveq, two, grownq⟩ := live.ensure_met hsrc (by omega : 2 ≤ p.bufBytes) (by simp)
  have prefixed : q.promised = n := (liveq.promised two).trans hn.symm
  obtain ⟨r, second, liver, enough, grownr⟩ := liveq.ensure_met hsrc
    (by rw [grownq.bufBytes]; exact fits : 2 + n ≤ q.bufBytes) (by simp; omega)
  have call := next_message first (by omega) (by rw [prefixed]; exact second)
  rw [prefixed] at call
  have string : r.window ++ left r.src = hi :: lo :: rest := liver.string
  have payload : (r.window.drop 2).take n = rest.take n := by
    have cut := congrArg (fun l => (l.drop 2).take n) string
    simpa [List.drop_append, List.take_append, show 2 - r.held = 0 by omega,
      show n - (r.held - 2) = 0 by omega] using cut
  have behind : r.window.drop (2 + n) ++ left r.src = rest.drop n := by
    have cut := congrArg (List.drop (2 + n)) string
    rw [List.drop_append_of_le_length (by simpa using enough)] at cut
    rw [cut, Nat.add_comm]
    rfl
  refine ⟨_, _, call, (message_bytes enough).trans payload, rfl, ?_,
    grownr.bufBytes.trans grownq.bufBytes⟩
  refine ⟨consume_bounds liver.bounds enough, liver.eof, liver.error, ?_⟩
  rw [unread, window_consume enough]
  exact behind

/-- One call on a string without a whole frame at its front returns nothing. The
error flag goes up exactly when payload bytes of a frame cut off are left. -/
theorem Live.next_stop (live : Live left p bs) (hsrc : source.Delivers left)
    (room : 2 < p.bufBytes) (stop : frames bs = []) :
    ∃ q, next source p = (none, q) ∧
      (q.error = true ↔
        ∃ hi lo rest, bs = hi :: lo :: rest ∧ hi.toNat * 256 + lo.toNat ≠ 0 ∧ rest ≠ []) := by
  match bs with
  | [] | [_] =>
    obtain ⟨q, first⟩ := live.ensure_refused hsrc (by simp : _ < 2)
    have ok := (live.refused hsrc first).1
    exact ⟨q, next_noPrefix first, by simp [ok]⟩
  | hi :: lo :: rest =>
    obtain ⟨q, first, liveq, two, grownq⟩ :=
      live.ensure_met hsrc (by omega : 2 ≤ p.bufBytes) (by simp)
    have prefixed := liveq.promised two
    by_cases zero : q.promised = 0
    · refine ⟨_, next_marker first zero, ?_⟩
      simp [liveq.error]
      omega
    · have cut : rest.length < q.promised := by
        rw [frames_cons] at stop
        by_contra whole
        rw [if_neg (by omega)] at stop
        simp at stop
      obtain ⟨r, second⟩ := liveq.ensure_refused hsrc
        (by simp; omega : (hi :: lo :: rest).length < 2 + q.promised)
      obtain ⟨ok, _, whole, short, cause⟩ := liveq.refused hsrc second
      refine ⟨_, next_truncated first zero second, ?_⟩
      have length : r.held + (left r.src).length = rest.length + 2 := by
        simpa [unread] using congrArg List.length whole
      have leftover : 2 < r.held ↔ rest ≠ [] := by
        rw [← List.length_pos_iff]
        rcases cause with none | full
        · simp only [none, List.length_nil] at length
          omega
        · rw [grownq.bufBytes] at full
          omega
      have flag : r.cutOff.error = true ↔ 2 < r.held := by
        unfold cutOff
        by_cases more : 2 < r.held <;> simp [ok, more]
      rw [flag, leftover]
      simp
      omega

/-- Repeated calls: the messages returned before the first `nullptr`, and the
parser after it. -/
inductive Yields (source : ByteSource σ) : ItchParser σ → List Msg → ItchParser σ → Prop
  | stop {p q : ItchParser σ} : next source p = (none, q) → Yields source p [] q
  | message {p q r : ItchParser σ} {m : Msg} {ms : List Msg} :
      next source p = (some m, q) → Yields source q ms r → Yields source p (m :: ms) r

structure Counted (p : ItchParser σ) (fs : List (List UInt8)) (q : ItchParser σ) : Prop where
  total : q.total = p.total + fs.length
  counts : ∀ t, q.counts t = p.counts t + fs.countP fun f => f.head? == some t

theorem Counted.refl (p : ItchParser σ) : Counted p [] p := ⟨rfl, fun _ => rfl⟩

theorem Counted.trans {r : ItchParser σ} {fs gs : List (List UInt8)} (first : Counted p fs q)
    (second : Counted q gs r) : Counted p (fs ++ gs) r where
  total := by rw [second.total, first.total, List.length_append, Nat.add_assoc]
  counts := by
    intro t
    rw [second.counts, first.counts, List.countP_append, Nat.add_assoc]

theorem next_counted {m : Msg} (h : p.Bounds) (call : next source p = (some m, q)) :
    Counted p [m.bytes] q := by
  obtain ⟨total, counts⟩ := next_some_counters h call
  refine ⟨total, fun t => ?_⟩
  have type : m.bytes.head? = some (m.data 0) := by
    obtain ⟨n, hn⟩ := Nat.exists_eq_succ_of_ne_zero (Nat.pos_iff_ne_zero.mp (next_positive call))
    simp [Msg.bytes, bytes, hn, List.range_succ_eq_map]
  rw [counts, Function.update_apply, List.countP_singleton, type]
  by_cases ht : t = m.data 0
  · simp [ht]
  · simp [ht, Ne.symm ht]

theorem Yields.counted {ms : List Msg} (yields : Yields source p ms q) (h : p.Bounds) :
    Counted p (ms.map Msg.bytes) q := by
  induction yields with
  | stop call =>
    obtain ⟨total, counts⟩ := next_none_counters h call
    exact ⟨total, fun t => congrFun counts t⟩
  | @message p p' q m ms call later ih =>
    have bounds : p'.Bounds := by simpa [call] using next_bounds source h
    exact (next_counted h call).trans (ih bounds)

theorem Live.yields (live : Live left p bs) (hsrc : source.Delivers left)
    (room : 2 < p.bufBytes) (fits : ∀ f ∈ frames bs, 2 + f.length ≤ p.bufBytes) :
    ∃ ms q, Yields source p ms q ∧ ms.map Msg.bytes = frames bs ∧ Counted p (frames bs) q := by
  have handed : ∃ ms q, Yields source p ms q ∧ ms.map Msg.bytes = frames bs := by
    induction bs using frames_induction generalizing p with
    | stop bs stop =>
      obtain ⟨q, call, _⟩ := live.next_stop hsrc room stop
      exact ⟨[], q, .stop call, by simp [stop]⟩
    | frame hi lo rest positive whole ih =>
      rw [frames_frame positive whole] at fits ⊢
      have fit := fits _ List.mem_cons_self
      rw [List.length_take_of_le whole] at fit
      obtain ⟨m, q, call, payload, _, liveq, size⟩ :=
        live.next_frame hsrc rfl positive whole fit
      obtain ⟨ms, r, later, same⟩ := ih liveq (by omega)
        fun f hf => size ▸ fits f (List.mem_cons_of_mem _ hf)
      exact ⟨m :: ms, r, .message call later, by simp [payload, same]⟩
  obtain ⟨ms, q, yields, same⟩ := handed
  exact ⟨ms, q, yields, same, same ▸ yields.counted live.bounds⟩

theorem make_eq (s : σ) {bufBytes : Nat} (large : 64 ≤ bufBytes) :
    make s bufBytes = .ok (start s bufBytes) := if_neg (by omega)

theorem make_ok {s : σ} {bufBytes : Nat} (made : make s bufBytes = .ok p) :
    64 ≤ bufBytes ∧ p = start s bufBytes := by
  unfold make at made
  split at made
  · simp at made
  · exact ⟨by omega, (Except.ok.inj made).symm⟩

end ItchParser

open ItchParser in
/-- Framing is exact and independent of buffering: whatever the buffer size and
the pieces the source reads, the messages before the first `nullptr` are the
frames of the string. -/
theorem next_yields_frames {σ : Type} {source : ByteSource σ} {left : σ → List UInt8}
    (hsrc : source.Delivers left) (s : σ) {bufBytes : Nat} {p : ItchParser σ}
    (made : make s bufBytes = .ok p)
    (fits : ∀ f ∈ frames (left s), 2 + f.length ≤ bufBytes) :
    (∃ ms q, Yields source p ms q ∧
      ms.map Msg.bytes = frames (left s) ∧
      ms.map Msg.len = (frames (left s)).map List.length ∧
      q.total = (frames (left s)).length ∧
      ∀ t, q.counts t = (frames (left s)).countP fun f => f.head? == some t) ∧
    (∀ q, Visits source p q → q.head ≤ q.tail ∧ q.tail ≤ q.bufBytes) ∧
    ∀ f ∈ frames (left s), 2 + f.length ≤ defaultBufBytes := by
  obtain ⟨room, rfl⟩ := make_ok made
  refine ⟨?_, fun q visited => ?_, fun f => frames_fit_default⟩
  · obtain ⟨ms, q, yields, same, counted⟩ :=
      (start_live left s bufBytes).yields hsrc (by simp [start]; omega) fits
    refine ⟨ms, q, yields, same, ?_, ?_, fun t => ?_⟩
    · rw [← same, List.map_map]
      exact List.map_congr_left fun m _ => (length_bytes m.data m.len).symm
    · simpa [start] using counted.total
    · simpa [start] using counted.counts t
  · have bounds := visited.bounds (start_bounds s bufBytes)
    exact ⟨bounds.head_le, bounds.tail_le⟩

/-- Two frames and an end marker, read from memory through the smallest buffer. -/
theorem next_yields_frames_memory :
    let bs : List UInt8 := [0, 1, 65, 0, 2, 66, 67, 0, 0]
    ∃ ms q, ItchParser.Yields memSource (ItchParser.start bs 64) ms q ∧
      ms.map Msg.bytes = [[65], [66, 67]] ∧ q.total = 2 := by
  obtain ⟨⟨ms, q, yields, same, _, total, _⟩, _⟩ :=
    next_yields_frames memSource_delivers [0, 1, 65, 0, 2, 66, 67, 0, 0]
      (ItchParser.make_eq _ (Nat.le_refl 64)) (by decide)
  exact ⟨ms, q, yields, same.trans (by decide), total.trans (by decide)⟩

end ItchAggregator
