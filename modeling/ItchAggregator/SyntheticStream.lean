import ItchAggregator.BatchStream
import ItchAggregator.SyntheticBooks
import ItchAggregator.Truncation

/-! The synthetic streams are consistent for the pipeline. Whatever the draws, the run over
a generated stream ends without an error, knows every order that is cancelled, deleted or
replaced, and stamps every replace with the side the generator has on record. -/

namespace ItchAggregator

open BatchAssembler MakeSynthetic

/-! A stream of framed messages behind which the end of the session is marked. -/

theorem frames_prefixed {fs : List (List UInt8)} (fits : ∀ f ∈ fs, 0 < f.length ∧ f.length < 2 ^ 16)
    {rest : List UInt8} (stop : frames rest = []) :
    frames (fs.flatMap prefixed ++ rest) = fs ∧ leftover (fs.flatMap prefixed ++ rest) = rest := by
  induction fs with
  | nil => exact ⟨stop, leftover_stop stop⟩
  | cons f fs ih =>
    obtain ⟨own, others⟩ := List.forall_mem_cons.mp fits
    have string : (f :: fs).flatMap prefixed ++ rest =
        (UInt16.ofNat f.length >>> 8).toUInt8 :: (UInt16.ofNat f.length).toUInt8 ::
          (f ++ (fs.flatMap prefixed ++ rest)) := by
      rw [List.flatMap_cons, prefixed, be16]
      simp
    have length : (UInt16.ofNat f.length >>> 8).toUInt8.toNat * 256 +
        (UInt16.ofNat f.length).toUInt8.toNat = f.length := by
      rw [be16_toNat, UInt16.toNat_ofNat_of_lt' own.2]
    have whole : f.length ≤ (f ++ (fs.flatMap prefixed ++ rest)).length := by simp
    rw [string, frames_frame (by omega) (by omega), leftover_frame (by omega) (by omega), length,
      List.take_left' rfl, List.drop_left' rfl, (ih others).1, (ih others).2]
    exact ⟨rfl, rfl⟩

theorem frames_stream {bs : List UInt8} {fs : List (List UInt8)}
    (string : bs = fs.flatMap prefixed ++ [0, 0])
    (fits : ∀ f ∈ fs, 0 < f.length ∧ 2 + f.length ≤ 64) : frames bs = fs ∧ leftover bs = [0, 0] := by
  have lengths : ∀ f ∈ fs, 0 < f.length ∧ f.length < 2 ^ 16 := fun f hf => by
    have bounds := fits f hf
    omega
  have marker : frames [0, 0] = [] := by decide
  rw [string]
  exact frames_prefixed lengths marker

/-- A stream that keeps to the reference book is tracked without a loss. -/
structure Clean {k : LogCapacity} {σ : Type} (fs : List (List UInt8))
    (calls : List BatchAssembler.Call) (q : ItchParser σ) (a : BatchAssembler k) : Prop where
  error : q.error = false
  total : q.total = fs.length
  unknown : a.unknownCancels = OrderBook.unknownCancels fs.reverse
  unresolved : a.unresolvedReplaces = OrderBook.unresolvedReplaces fs.reverse
  shipped : BatchAssembler.total calls = (OrderBook.stamped [] fs).length
  packs : ∃ batches, List.Forall₂ BatchAssembler.Call.Packs calls batches ∧
    batches.flatten = OrderBook.stamped [] fs

section Runs

variable {k : LogCapacity} {hash : UInt64 → UInt64} {σ : Type} {source : ByteSource σ}
  {left : σ → List UInt8} {s : σ} {bufBytes : Nat} {fs : List (List UInt8)}

theorem BatchAssembler.Batches.clean (hsrc : source.Delivers left) (room : 64 ≤ bufBytes)
    (string : left s = fs.flatMap prefixed ++ [0, 0])
    (exact_ : ∀ f ∈ fs, ExactLength f) (fits : ∀ f ∈ fs, 0 < f.length ∧ 2 + f.length ≤ 64)
    (orderly : OrderBook.Orderly (capacity k / 2) [] fs) {calls : List BatchAssembler.Call}
    {last : BatchAssembler.Call} {q : ItchParser σ} {a : BatchAssembler k}
    (run : Batches source hash (ItchParser.start s bufBytes) (start k) calls last q a) :
    Clean fs calls q a := by
  obtain ⟨framed, behind⟩ := frames_stream string fits
  have bounds := ItchParser.start_bounds s bufBytes
  have live := ItchParser.start_live left s bufBytes
  have buffered : ∀ f ∈ frames (left s), 2 + f.length ≤ bufBytes := fun f hf =>
    (fits f (framed ▸ hf)).2.trans room
  obtain ⟨ms, r, yields, whole, counted⟩ := live.yields hsrc
    (show 2 < bufBytes by omega) buffered
  obtain rfl := run.final yields bounds
  rw [framed] at whole counted
  have hands : (ItchParser.start s bufBytes).Hands source fs := ⟨ms, q, yields, whole⟩
  have flag := live.yields_error hsrc (show 2 < bufBytes by omega) buffered yields
  obtain ⟨bs, _, placed, shows, _, rfl⟩ := run.placed hands bounds fun f hf =>
    (exact_ f hf).longEnough
  obtain ⟨follows, stamps⟩ := (start_follows hash k).absorbAll exact_ orderly
  rw [List.append_nil] at follows
  have flat : (bs.map Batching.Batch.items).flatten = OrderBook.stamped [] fs := by
    rw [← stamps, placed.ships, List.flatMap]
  have packs := packs_all placed shows
  refine ⟨?_, ?_, follows.unknown, follows.unresolved, ?_, _, packs, flat⟩
  · rw [Bool.eq_false_iff, Ne, flag, behind]
    decide
  · rw [counted.total]
    exact Nat.zero_add _
  · rw [total_packs packs, flat]

end Runs

theorem OrderBook.Orderly.append {limit : Nat} {older l r : List (List UInt8)}
    (left : OrderBook.Orderly limit older l)
    (right : OrderBook.Orderly limit (l.reverse ++ older) r) :
    OrderBook.Orderly limit older (l ++ r) := by
  induction l generalizing older with
  | nil => exact right
  | cons f l ih => exact ⟨left.1, ih left.2 (by simpa using right)⟩

theorem OrderBook.stamped_append (older l r : List (List UInt8)) :
    OrderBook.stamped older (l ++ r) =
      OrderBook.stamped older l ++ OrderBook.stamped (l.reverse ++ older) r := by
  induction l generalizing older with
  | nil => rfl
  | cons f l ih =>
    have behind : (f :: l).reverse ++ older = l.reverse ++ f :: older := by simp
    rw [List.cons_append, OrderBook.stamped, OrderBook.stamped, behind, ih]
    split <;> rfl

theorem OrderBook.length_stamped {older fs : List (List UInt8)}
    (ship : ∀ f ∈ fs, (Msg.ofFrame f).ships = true) :
    (OrderBook.stamped older fs).length = fs.length := by
  induction fs generalizing older with
  | nil => rfl
  | cons f fs ih =>
    obtain ⟨own, others⟩ := List.forall_mem_cons.mp ship
    rw [OrderBook.stamped]
    simp only [own, if_true, List.length_cons, ih others]

namespace MakeSynthetic

/-- A message that is neither shipped nor about an order. -/
def Quiet (f : List UInt8) : Prop := ∃ t, Carries f t none ∧ gpuRelevant t.code = false

theorem Carries.ships {f : List UInt8} {t : MsgType} {e : Option OrderEvent}
    (carries : Carries f t e) : (Msg.ofFrame f).ships = gpuRelevant t.code := by
  have first : (Msg.ofFrame f).data Ofs.type = t.code := carries.first
  have whole : (Msg.ofFrame f).len ≤ slotBytes := carries.fits.2
  rw [Msg.ships, first, decide_eq_true whole, Bool.and_true]

theorem Quiet.ships {f : List UInt8} (quiet : Quiet f) : (Msg.ofFrame f).ships = false := by
  obtain ⟨t, carries, irrelevant⟩ := quiet
  exact carries.ships.trans irrelevant

theorem Carries.exactLength {msg : List UInt8} {t : MsgType} {e : Option OrderEvent}
    (carries : Carries msg t e) : ExactLength msg := fun _ => by
  rw [carries.type, carries.length]

namespace Generator

variable {ρ : Type} {g : Generator ρ} {older fs : List (List UInt8)}

theorem quiet_ran (books : Books g older) (quiet : ∀ f ∈ fs, Quiet f) :
    Books g (fs.reverse ++ older) ∧ OrderBook.Orderly (2 ^ 23) older fs ∧
      OrderBook.stamped older fs = [] := by
  induction fs generalizing older with
  | nil => exact ⟨books, trivial, rfl⟩
  | cons f fs ih =>
    obtain ⟨own, others⟩ := List.forall_mem_cons.mp quiet
    obtain ⟨t, carries, _⟩ := id own
    obtain ⟨behind, orderly, stamped⟩ := ih (books.no_event carries.event) others
    refine ⟨by simpa using behind, ⟨fun e he => ?_, orderly⟩, ?_⟩
    · simp [carries.event] at he
    · rw [OrderBook.stamped, own.ships]
      exact stamped

structure Announced (g g' : Generator ρ) (fs : List (List UInt8)) : Prop where
  state : g' = { g with out := g.out ++ fs.flatMap prefixed }
  quiet : ∀ f ∈ fs, Quiet f

theorem directory_announced {syms : List (String × Nat)} (small : ∀ x ∈ syms, x.2 < 2 ^ 16)
    (day : g.ts < 2 ^ 48) :
    ∃ g' fs, syms.foldlM (fun (g : Generator ρ) x => do
        g.emit (← stockDirectory x.2 g.ts x.1)) g = some g' ∧
      Announced g g' fs ∧ fs.length = syms.length := by
  induction syms generalizing g with
  | nil => exact ⟨g, [], rfl, ⟨by simp, by simp⟩, rfl⟩
  | cons x syms ih =>
    obtain ⟨own, others⟩ := List.forall_mem_cons.mp small
    obtain ⟨msg, made, carries⟩ := stockDirectory_carries own day x.1
    have emitted := emit_eq g carries.short
    obtain ⟨g', fs, rest, announced, count⟩ :=
      ih (g := { g with out := g.out ++ prefixed msg }) others day
    refine ⟨g', msg :: fs, ?_, ⟨?_, ?_⟩, by simp [count]⟩
    · rw [List.foldlM_cons, made, Option.bind_eq_bind, Option.bind_eq_bind, Option.bind_some, emitted,
        Option.bind_some]
      exact rest
    · rw [announced.state]
      simp
    · exact List.forall_mem_cons.mpr ⟨⟨.stockDir, carries, by decide⟩, announced.quiet⟩

theorem preamble_announced (r : ρ) :
    ∃ g fs, preamble r = some g ∧ Announced { rng := r } g fs ∧ fs.length = nMeta := by
  have day : 34200000000000 < 2 ^ 48 := by decide
  have small : ∀ x ∈ symbols.zipIdx 1, x.2 < 2 ^ 16 := by decide
  obtain ⟨g, fs, listed, announced, count⟩ := directory_announced (g := { rng := r }) small day
  obtain ⟨msg, made, carries⟩ := systemEvent_carries 'O' day
  refine ⟨{ g with out := g.out ++ prefixed msg }, fs ++ [msg], ?_, ⟨?_, ?_⟩, ?_⟩
  · rw [preamble, listed, Option.bind_eq_bind, Option.bind_some, announced.state]
    simp only [made, Option.bind_eq_bind, Option.bind_some]
    exact emit_eq _ carries.short
  · rw [announced.state]
    simp
  · intro f mem
    rcases List.mem_append.mp mem with early | last
    · exact announced.quiet f early
    · exact List.mem_singleton.mp last ▸ ⟨.systemEvent, carries, by decide⟩
  · rw [List.length_append, count, List.length_zipIdx]
    rfl

def turns (rng : Rng ρ) (nTarget : Int) (r : ρ) : List (Generator ρ) :=
  (preamble r).elim [] fun g => g.heads rng nTarget (nTarget - nMeta).toNat

end Generator

variable {ρ : Type} {rng : Rng ρ} {nTarget : Int} {r : ρ}

structure Written (rng : Rng ρ) (nTarget : Int) (r : ρ) (g : Generator ρ)
    (fs : List (List UInt8)) : Prop where
  out : g.out = fs.flatMap prefixed ++ [0, 0]
  produced : (g.produced : Int) = max 0 (nTarget - nMeta)
  total : fs.length = g.total
  carries : ∀ f ∈ fs, ∃ t e, Carries f t e
  orderly : OrderBook.Orderly (2 ^ 23) [] fs
  unknown : OrderBook.unknownCancels fs.reverse = 0
  unresolved : OrderBook.unresolvedReplaces fs.reverse = 0
  stamped : List.Forall₂ (Generator.Recorded rng) (Generator.turns rng nTarget r)
    (OrderBook.stamped [] fs)
  shipped : (OrderBook.stamped [] fs).length = g.produced

theorem main_written (small : ∀ h ∈ Generator.turns rng nTarget r, Generator.Small rng h) :
    ∃ g fs, main rng nTarget r = some g ∧ Written rng nTarget r g fs := by
  obtain ⟨g₁, metas, preamble, announced, count⟩ := Generator.preamble_announced r
  have state := announced.state
  have turns : Generator.turns rng nTarget r = g₁.heads rng nTarget (nTarget - nMeta).toNat := by
    rw [Generator.turns, preamble, Option.elim_some]
  have opened : Generator.Books g₁ [] := by
    rw [state]
    exact ⟨Listed.nil, by simp, Nat.one_pos, rfl, rfl⟩
  have clock : Generator.Clock g₁ := by
    rw [state]
    exact ⟨show 34200000000000 < 2 ^ 48 by decide, show 1 ≤ 34200000000000 by decide,
      show 1 ≤ 34200000000000 by decide⟩
  obtain ⟨books₁, orderly₁, stamped₁⟩ := Generator.quiet_ran opened announced.quiet
  rw [List.append_nil] at books₁
  obtain ⟨g₂, fs, loop, ran, most, ended⟩ := Generator.loop_ran books₁ clock (turns ▸ small)
  obtain ⟨close, made, carries⟩ := systemEvent_carries 'C' ran.clock.day
  have quiet : ∀ f ∈ [close], Quiet f := by
    simpa using ⟨.systemEvent, carries, by decide⟩
  obtain ⟨books₂, orderly₂, stamped₂⟩ := Generator.quiet_ran ran.books quiet
  have zero : g₁.produced = 0 := by rw [state]
  have produced : g₂.produced = fs.length := by rw [ran.produced, zero, Nat.zero_add]
  have stamped : OrderBook.stamped [] (metas ++ (fs ++ [close])) =
      OrderBook.stamped metas.reverse fs := by
    rw [OrderBook.stamped_append, OrderBook.stamped_append, List.append_nil, stamped₁, stamped₂,
      List.append_nil, List.nil_append]
  have history : (metas ++ (fs ++ [close])).reverse =
      [close].reverse ++ (fs.reverse ++ metas.reverse) := by simp
  refine ⟨{ g₂ with out := g₂.out ++ prefixed close ++ [0, 0] }, metas ++ (fs ++ [close]), ?_,
    ⟨?_, ?_, ?_, ?_, ?_, ?_, ?_, ?_, ?_⟩⟩
  · rw [main, preamble, Option.bind_eq_bind, Option.bind_some, loop, Option.bind_eq_bind,
      Option.bind_some, made, Option.bind_some, Generator.emit_eq _ carries.short]
    rfl
  · simp [ran.out, state]
  · dsimp only
    omega
  · simp [Generator.total, count, produced]
    omega
  · intro f mem
    simp only [List.mem_append, List.mem_singleton] at mem
    rcases mem with early | run | rfl
    · obtain ⟨t, carries, _⟩ := announced.quiet f early
      exact ⟨t, none, carries⟩
    · obtain ⟨t, e, carries, _⟩ := ran.carries f run
      exact ⟨t, e, carries⟩
    · exact ⟨_, _, carries⟩
  · exact orderly₁.append (by simpa using ran.orderly.append orderly₂)
  · rw [history]
    exact books₂.unknown
  · rw [history]
    exact books₂.unresolved
  · rw [stamped, turns]
    exact ran.stamped
  · rw [stamped, OrderBook.length_stamped fun f mem => ?_]
    · exact produced.symm
    · obtain ⟨t, e, carries, relevant⟩ := ran.carries f mem
      exact carries.ships.trans relevant

theorem Written.fits {g : Generator ρ} {fs : List (List UInt8)}
    (written : Written rng nTarget r g fs) : ∀ f ∈ fs, 0 < f.length ∧ 2 + f.length ≤ 64 := by
  intro f hf
  obtain ⟨t, e, carries⟩ := written.carries f hf
  have fits := carries.fits
  have size : slotBytes = 48 := rfl
  omega

theorem Written.exactLength {g : Generator ρ} {fs : List (List UInt8)}
    (written : Written rng nTarget r g fs) : ∀ f ∈ fs, ExactLength f := by
  intro f hf
  obtain ⟨t, e, carries⟩ := written.carries f hf
  exact carries.exactLength

/-- Synthetic streams are consistent for the pipeline. Whatever the random calls return in
their ranges, and for every target: while the live list and the timestamps stay small,
`main` writes a stream over which the calls of `fill` come to an end; whatever the pieces
it is read in, the buffer and the destinations, the parser has then seen no error and the
messages `main` reports, no cancel, delete or replace was of an order unknown, and as many
messages were shipped as the loop produced. They are the messages of its turns, in order,
and each replace is stamped with the side that the live list of its turn records. -/
theorem synthetic_consistent (rng : Rng ρ) (nTarget : Int) (r : ρ)
    (small : ∀ h ∈ Generator.turns rng nTarget r, Generator.Small rng h) :
    ∃ g, main rng nTarget r = some g ∧ (g.produced : Int) = max 0 (nTarget - nMeta) ∧
      ∀ {σ : Type} {source : ByteSource σ} {left : σ → List UInt8}, source.Delivers left →
        ∀ {s : σ} {bufBytes : Nat} {p : ItchParser σ}, left s = g.out →
          ItchParser.make s bufBytes = .ok p →
        (∀ dsts : Nat → Ptr, ∃ calls last q a,
          Batches source OrderHash.mix p (start 24) calls last q a ∧
          ∀ i c, (calls ++ [last])[i]? = some c → c.dst = dsts i) ∧
        ∀ calls last q a, Batches source OrderHash.mix p (start 24) calls last q a →
          q.error = false ∧ a.unknownCancels = 0 ∧ a.unresolvedReplaces = 0 ∧
          q.total = nMeta + g.produced + 1 ∧ BatchAssembler.total calls = g.produced ∧
          ∃ batches, List.Forall₂ BatchAssembler.Call.Packs calls batches ∧
            List.Forall₂ (Generator.Recorded rng) (Generator.turns rng nTarget r)
              batches.flatten := by
  obtain ⟨g, fs, result, written⟩ := main_written small
  refine ⟨g, result, written.produced, ?_⟩
  intro σ source left hsrc s bufBytes p string made
  obtain ⟨room, rfl⟩ := ItchParser.make_ok made
  constructor
  · intro dsts
    have framed := (frames_stream (string.trans written.out) written.fits).1
    have fits : ∀ f ∈ frames (left s), 2 + f.length ≤ bufBytes := fun f hf =>
      (written.fits f (framed ▸ hf)).2.trans room
    obtain ⟨ms, q, yields, _⟩ := ItchParser.hands_frames hsrc s room fits
    exact exists_batches yields (ItchParser.start_bounds s bufBytes) (start 24) dsts
  · intro calls last q a run
    have orderly : OrderBook.Orderly (capacity 24 / 2) [] fs := written.orderly
    have clean := run.clean hsrc room (string.trans written.out) written.exactLength written.fits
      orderly
    obtain ⟨batches, packs, flat⟩ := clean.packs
    exact ⟨clean.error, clean.unknown.trans written.unknown,
      clean.unresolved.trans written.unresolved, clean.total.trans written.total,
      clean.shipped.trans written.shipped, batches, packs, flat ▸ written.stamped⟩

def tape : Rng (List Nat) where
  randint draws lo hi range :=
    (if here : lo ≤ draws.headD lo ∧ draws.headD lo ≤ hi then ⟨draws.headD lo, here⟩
      else ⟨lo, Nat.le_refl lo, range⟩, draws.tail)
  randrange draws n range :=
    (if here : draws.headD 0 < n then ⟨draws.headD 0, here⟩ else ⟨0, range⟩, draws.tail)
  random draws :=
    (if here : draws.headD 0 < 2 ^ 53 then ⟨draws.headD 0, here⟩ else 0, draws.tail)

/-- An add and its replace. -/
theorem synthetic_consistent_replace :
    let draws := [5, 3, 20000, 9, 0, 0, 0, 6, 7, 30000, 20, 0x1a000000000000, 0]
    ∃ g calls last q a, main tape 19 draws = some g ∧ g.produced = 2 ∧
      Batches memSource OrderHash.mix (ItchParser.start g.out 64) (start 24) calls last q a ∧
      q.total = 20 ∧ a.unresolvedReplaces = 0 ∧ BatchAssembler.total calls = 2 := by
  intro draws
  have small : ∀ h ∈ Generator.turns tape 19 draws, Generator.Small tape h := by decide +kernel
  obtain ⟨g, result, produced, consistent⟩ := synthetic_consistent tape 19 draws small
  have two : g.produced = 2 := by
    have count : nMeta = 17 := rfl
    omega
  obtain ⟨exist, every⟩ := consistent memSource_delivers (s := g.out) rfl
    (ItchParser.make_eq g.out (Nat.le_refl 64))
  obtain ⟨calls, last, q, a, run, _⟩ := exist fun _ _ => 0
  obtain ⟨_, _, resolved, total, shipped, _⟩ := every calls last q a run
  exact ⟨g, calls, last, q, a, result, two, run, total.trans (by rw [two]; rfl), resolved,
    shipped.trans two⟩

end MakeSynthetic

end ItchAggregator
