import ItchAggregator.SnapshotWindows

/-! What an empty quote side of a snapshot means. The best quotes of a window are kept by
strict comparisons against the sentinels, in the prices' own values: a bid at the price
of the sentinel leaves the field as it is without one. -/

namespace ItchAggregator

namespace CpuEvent

/-- The messages aggregated since the last snapshot or reset, after one more event. -/
def windowStep (window : List Shipped) : CpuEvent → List Shipped
  | .batch b => window ++ b.messages
  | .reset | .snapshot _ => []

def window (t : List CpuEvent) : List Shipped := t.foldl windowStep []

variable {acc acc' : HostAccum} {t u : List CpuEvent}

theorem Runs.split (runs : Runs acc (t ++ u) acc') :
    ∃ mid, Runs acc t mid ∧ Runs mid u acc' := by
  induction t generalizing acc with
  | nil => exact ⟨acc, .nil acc, runs⟩
  | cons e t ih =>
    cases runs with
    | reset later =>
      obtain ⟨mid, first, second⟩ := ih later
      exact ⟨mid, .reset first, second⟩
    | batch b later =>
      obtain ⟨mid, first, second⟩ := ih later
      exact ⟨mid, .batch b first, second⟩
    | snapshot later =>
      obtain ⟨mid, first, second⟩ := ih later
      exact ⟨mid, .snapshot first, second⟩

theorem Runs.tallied (runs : Runs acc t acc') {day w : List Shipped} (tallied : Tallied acc day w) :
    ∃ day', Tallied acc' day' (t.foldl windowStep w) := by
  induction runs generalizing day w with
  | nil => exact ⟨day, tallied⟩
  | reset _ ih => exact ih .reset
  | batch b _ ih => exact ih (tallied.slotBatch b)
  | snapshot _ ih => exact ih tallied.snapshot

end CpuEvent

/-! The best of a list, from a bound below it. -/

section Best

variable {α : Type*} [LinearOrder α] {b : α} {l : List α}

theorem foldl_max_spec (b : α) (l : List α) :
    b ≤ l.foldl max b ∧ (∀ x ∈ l, x ≤ l.foldl max b) ∧ (l.foldl max b = b ∨ l.foldl max b ∈ l) := by
  induction l generalizing b with
  | nil => simp
  | cons x l ih =>
    obtain ⟨above, bounds, attained⟩ := ih (max b x)
    rw [List.foldl_cons]
    refine ⟨(le_max_left b x).trans above, ?_, ?_⟩
    · intro y hy
      rcases List.mem_cons.mp hy with rfl | hy
      · exact (le_max_right b y).trans above
      · exact bounds y hy
    · rcases attained with start | inside
      · rcases max_choice b x with left | right
        · exact Or.inl (start.trans left)
        · rw [start, right]
          exact Or.inr List.mem_cons_self
      · exact Or.inr (List.mem_cons_of_mem x inside)

theorem foldl_max_eq_iff : l.foldl max b = b ↔ ∀ x ∈ l, x ≤ b := by
  obtain ⟨above, bounds, attained⟩ := foldl_max_spec b l
  constructor
  · intro same x hx
    exact same ▸ bounds x hx
  · intro below
    rcases attained with start | inside
    · exact start
    · exact le_antisymm (below _ inside) above

theorem foldl_max_greatest (below : ∀ x ∈ l, b ≤ x) (some_ : l ≠ []) :
    IsGreatest {x | x ∈ l} (l.foldl max b) := by
  obtain ⟨above, bounds, attained⟩ := foldl_max_spec b l
  refine ⟨?_, fun x hx => bounds x hx⟩
  rcases attained with start | inside
  · obtain ⟨x, hx⟩ := List.exists_mem_of_ne_nil l some_
    have same : l.foldl max b = x := le_antisymm (start.trans_le (below x hx)) (bounds x hx)
    exact same ▸ hx
  · exact inside

end Best

theorem le_askEmpty_of_quote {side : UInt8} {s : Sym} {ms : List Shipped} {x : Nat}
    (mem : x ∈ quotesOf side s ms) : x ≤ askEmpty.toNat := by
  obtain ⟨m, _, quote⟩ := List.mem_filterMap.mp mem
  have price : x = m.price := by
    unfold Shipped.quoteOn at quote
    split at quote <;> first | cases quote | skip
    all_goals
      split at quote
      · exact (Option.some.inj quote).symm
      · cases quote
  have bound := ShowsSlot.price_lt m
  rw [price]
  exact Nat.le_of_lt_succ bound

open CpuEvent

/-- The quotes of every snapshot of a run, for every symbol: an empty side means that no
quote of the window was better than the sentinel's own price, and any quotes there are
have their best price in the field. -/
theorem quotes_best (t u : List CpuEvent) (rows : Sym → Snapshot) (acc : HostAccum)
    (runs : Runs .reset (t ++ .snapshot rows :: u) acc) (s : Sym) :
    let bids := quotesOf 'B'.toUInt8 s (window t)
    let asks := quotesOf 'S'.toUInt8 s (window t)
    ((rows s).bid = bidEmpty ↔ ∀ price ∈ bids, price = bidEmpty.toNat) ∧
      (bids ≠ [] → IsGreatest {price | price ∈ bids} (rows s).bid.toNat) ∧
      ((rows s).ask = askEmpty ↔ ∀ price ∈ asks, price = askEmpty.toNat) ∧
      (asks ≠ [] → IsLeast {price | price ∈ asks} (rows s).ask.toNat) := by
  intro bids asks
  obtain ⟨mid, first, second⟩ := runs.split
  obtain ⟨day, tallied⟩ := first.tallied Tallied.reset
  cases second with
  | snapshot _ =>
    have bid : ((cpuSnapshot mid).1 s).bid.toNat = bids.foldl max bidEmpty.toNat := tallied.bid s
    have ask : ((cpuSnapshot mid).1 s).ask.toNat = asks.foldl min askEmpty.toNat := tallied.ask s
    have below : ∀ price ∈ asks, price ≤ askEmpty.toNat := fun _ => le_askEmpty_of_quote
    refine ⟨?_, ?_, ?_, ?_⟩
    · rw [← UInt32.toNat_inj, bid, foldl_max_eq_iff]
      exact forall₂_congr fun _ _ => Nat.le_zero
    · intro some_
      rw [bid]
      exact foldl_max_greatest (fun _ _ => Nat.zero_le _) some_
    · rw [← UInt32.toNat_inj, ask]
      refine (@foldl_max_eq_iff Natᵒᵈ _ _ _).trans (forall₂_congr fun price mem => ?_)
      exact ⟨fun le => Nat.le_antisymm (below price mem) le, fun same => same.ge⟩
    · intro some_
      rw [ask]
      exact @foldl_max_greatest Natᵒᵈ _ _ _ below some_

/-- A bid at a price above zero. -/
theorem quotes_best_bid :
    let add : List UInt8 := [65, 0, 7, 0, 0, 0, 0, 0, 0, 0, 1, 0, 0, 0, 0, 0, 0, 0, 1, 66, 0, 0, 0, 50,
      65, 65, 80, 76, 32, 32, 32, 32, 0, 0, 0, 5]
    let b : SlotBatch := ⟨ptrOf add, 1⟩
    let rows := (cpuSnapshot (cpuAggregate b.raw b.nMsgs .reset)).1
    ∃ acc, Runs .reset ([.batch b] ++ .snapshot rows :: []) acc ∧
      IsGreatest {price | price ∈ quotesOf 'B'.toUInt8 7 (window [.batch b])} (rows 7).bid.toNat := by
  intro add b rows
  have runs : Runs .reset ([.batch b] ++ .snapshot rows :: []) _ := .batch b (.snapshot (.nil _))
  have some_ : quotesOf 'B'.toUInt8 7 (window [.batch b]) ≠ [] := by decide +kernel
  exact ⟨_, runs, (quotes_best _ _ rows _ runs 7).2.1 some_⟩

/-- A bid at price zero and an ask at the highest price a message can carry: both sides of
the snapshot show their sentinels. -/
theorem quotes_at_sentinels :
    let add (side price : UInt8) : List UInt8 := [65, 0, 7, 0, 0, 0, 0, 0, 0, 0, 1, 0, 0, 0, 0, 0, 0,
      0, 1, side, 0, 0, 0, 50, 65, 65, 80, 76, 32, 32, 32, 32, price, price, price, price, 0, 0, 0, 0,
      0, 0, 0, 0, 0, 0, 0, 0]
    let b : SlotBatch := ⟨ptrOf (add 66 0 ++ add 83 255), 2⟩
    let rows := (cpuSnapshot (cpuAggregate b.raw b.nMsgs .reset)).1
    (∃ acc, Runs .reset [.batch b, .snapshot rows] acc) ∧
      ¬((rows 7).bid = bidEmpty ↔ quotesOf 'B'.toUInt8 7 (window [.batch b]) = []) ∧
      ¬((rows 7).ask = askEmpty ↔ quotesOf 'S'.toUInt8 7 (window [.batch b]) = []) := by
  intro add b rows
  exact ⟨⟨_, .batch b (.snapshot (.nil _))⟩, by decide +kernel, by decide +kernel⟩

end ItchAggregator
