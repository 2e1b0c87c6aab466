import ItchAggregator.AssemblerStates

/-! The end of the stream is permanent. A parser that has returned `nullptr` calls its
source no more, whatever that would still deliver; a call of `fill` that met this end
leaves an assembler that no later call changes. -/

namespace ItchAggregator

/-- A call of `next`, with the source as it then answers. -/
def ItchParser.Calls {σ : Type} (p q : ItchParser σ) : Prop :=
  ∃ source : ByteSource σ, (p.next source).2 = q

theorem ItchParser.Ended.calls {σ : Type} {p q : ItchParser σ} (ended : p.Ended)
    (later : Relation.ReflTransGen Calls p q) : q = p := by
  induction later with
  | refl => rfl
  | tail _ call ih =>
    obtain ⟨source, rfl⟩ := call
    rw [ih, ended source]

namespace BatchAssembler

variable {k : LogCapacity} {σ : Type}

def Fills (hash : UInt64 → UInt64) (x y : ItchParser σ × BatchAssembler k) : Prop :=
  ∃ (source : ByteSource σ) (turns : Nat) (dst : Ptr) (f : Filling k),
    fill source hash turns x.1 x.2 dst = some (y.1, f) ∧ f.asm = y.2

structure Unmoved (a a' : BatchAssembler k) : Prop where
  orders : a'.orders = a.orders
  symbols : a'.symbols = a.symbols
  unresolvedReplaces : a'.unresolvedReplaces = a.unresolvedReplaces
  unknownCancels : a'.unknownCancels = a.unknownCancels

theorem Unmoved.refl (a : BatchAssembler k) : Unmoved a a := ⟨rfl, rfl, rfl, rfl⟩

theorem fill_ended {p : ItchParser σ} (ended : p.Ended) (source : ByteSource σ)
    (hash : UInt64 → UInt64) (turns : Nat) (a : BatchAssembler k) (dst : Ptr) :
    fill source hash (turns + 1) p a dst = some (p, .enter a dst) :=
  fillLoop_ended (show 0 < batchMsgs by decide) (ended source)

theorem Unmoved.enter {a a' : BatchAssembler k} (unmoved : Unmoved a a') (dst : Ptr) :
    Unmoved a (Filling.enter a' dst).asm :=
  ⟨unmoved.orders, unmoved.symbols, unmoved.unresolvedReplaces, unmoved.unknownCancels⟩

theorem fills_ended {hash : UInt64 → UInt64} {p : ItchParser σ} {a : BatchAssembler k}
    {y : ItchParser σ × BatchAssembler k} (ended : p.Ended)
    (later : Relation.ReflTransGen (Fills hash) (p, a) y) : y.1 = p ∧ Unmoved a y.2 := by
  induction later with
  | refl => exact ⟨rfl, .refl a⟩
  | tail _ call ih =>
    obtain ⟨source, turns, dst, f, result, asm⟩ := call
    rw [ih.1] at result
    cases turns with
    | zero => cases result
    | succ turns =>
      rw [fill_ended ended] at result
      obtain ⟨parser, rfl⟩ := Prod.mk.inj (Option.some.inj result)
      exact ⟨parser.symm, asm ▸ ih.2.enter dst⟩

theorem Passes.bounds {source : ByteSource σ} {hash : UInt64 → UInt64} {p₀ p : ItchParser σ}
    {a₀ : BatchAssembler k} {seen : List Msg} {f : Filling k} {stop : Bool}
    (passes : Passes source hash p₀ a₀ seen p f stop) (bounds : p₀.Bounds) : p.Bounds := by
  induction passes with
  | enter dst => exact bounds
  | message _ _ call ih => simpa [call] using ItchParser.next_bounds source ih
  | broken dst _ ih => exact ih
  | full dst _ _ ih => exact ih
  | ended dst _ _ call ih => simpa [call] using ItchParser.next_bounds source ih

end BatchAssembler

open BatchAssembler in
/-- Once `next` has returned `nullptr`, in whatever state, every later call returns it
and leaves the parser as it is, source, counters and error flag included, without a call
of the source. Once a call of `fill` has met it, every later one returns an empty batch
and leaves orders, symbols and counters alone. -/
theorem end_of_stream_permanent (hash : UInt64 → UInt64) (k : LogCapacity) {σ : Type}
    {source : ByteSource σ} {s : σ} {bufBytes : Nat} {p : ItchParser σ}
    (made : ItchParser.make s bufBytes = .ok p) :
    (∀ q stop, ItchParser.Visits source p q → q.next source = (none, stop) →
      ∀ later, Relation.ReflTransGen ItchParser.Calls stop later →
        later = stop ∧ ∀ source', later.next source' = (none, later)) ∧
    ∀ seen q f stop, Passes source hash p (start k) seen q f false →
      f.batchMeta.nMsgs < batchMsgs → q.next source = (none, stop) →
        (∀ turns, fillLoop source hash (turns + 1) q f = some (stop, f)) ∧
        ∀ q' a', Relation.ReflTransGen (Fills hash) (stop, f.asm) (q', a') →
          q' = stop ∧ Unmoved f.asm a' ∧
          ∀ source' turns dst, ∃ f', fill source' hash (turns + 1) q' a' dst = some (stop, f') ∧
            f'.batchMeta.nMsgs = 0 ∧ Unmoved f.asm f'.asm := by
  obtain ⟨_, rfl⟩ := ItchParser.make_ok made
  have bounds := ItchParser.start_bounds s bufBytes
  constructor
  · intro q stop visited call later calls
    have ended : stop.Ended := by
      have ended := ItchParser.next_none_ended (visited.bounds bounds) (congrArg Prod.fst call)
      rwa [call] at ended
    obtain rfl := ended.calls calls
    exact ⟨rfl, ended⟩
  · intro seen q f stop passes room call
    have ended : stop.Ended := by
      have ended := ItchParser.next_none_ended (passes.bounds bounds) (congrArg Prod.fst call)
      rwa [call] at ended
    refine ⟨fun turns => fillLoop_ended room call, fun q' a' fills => ?_⟩
    obtain ⟨parser, unmoved⟩ := fills_ended ended fills
    dsimp only at parser unmoved
    subst parser
    exact ⟨rfl, unmoved, fun source' turns dst =>
      ⟨_, fill_ended ended source' hash turns a' dst, rfl, unmoved.enter dst⟩⟩

/-- An end marker with a delete behind it. -/
theorem end_of_stream_permanent_marker :
    let bs : List UInt8 := [0, 0, 0, 19, 68, 0, 7, 0, 0, 0, 0, 0, 0, 0, 1, 0, 0, 0, 0, 0, 0, 0, 1]
    let stop := ((ItchParser.start bs 64).next memSource).2
    stop.eof = true ∧ stop.held = 23 ∧
      ∀ source' : ByteSource (List UInt8), stop.next source' = (none, stop) := by
  intro bs stop
  have call : (ItchParser.start bs 64).next memSource = (none, stop) := Prod.ext (by decide) rfl
  have made : ItchParser.make bs 64 = .ok (.start bs 64) := rfl
  have permanent := (end_of_stream_permanent OrderHash.mix 24 made).1 _ stop .here call
  exact ⟨by decide, by decide, (permanent stop .refl).2⟩

end ItchAggregator
