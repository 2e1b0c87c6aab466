import ItchAggregator.OrderBook
import ItchAggregator.SyntheticMessages

/-! The generator's live list and the reference book of the messages it has sent are one
book, kept in two ways. Every turn sends one message; it fits the book it meets, and the
list after the turn lists the book after the message. -/

namespace ItchAggregator

open OrderBook (Fits after)
open SwapPop (Lists)

namespace OrderMap

variable (m : OrderMap) (ref : UInt64)

theorem find_insert (o : Order) :
    (find (Finmap.insert ref o m)) = Function.update m.find ref (some o) := by
  funext x
  rw [find_insert_ite, Function.update_apply]

theorem find_erase : (find (Finmap.erase ref m)) = Function.update m.find ref none := by
  funext x
  rw [find_erase_ite, Function.update_apply]

end OrderMap

namespace MakeSynthetic

theorem between_lt {lo hi n : Nat} (v : Between lo hi) (bound : hi < n) : v.val < n :=
  v.property.2.trans_lt bound

namespace Resting

def key (o : Resting) : UInt64 := .ofNat o.ref

def order (o : Resting) : Order :=
  ⟨.ofNat o.locate, o.side.toUInt8, .ofNat o.shares, .ofNat o.price⟩

end Resting

abbrev Listed (m : OrderMap) (live : List Resting) : Prop :=
  Lists Resting.key Resting.order m.find live

namespace Listed

variable {m : OrderMap} {live : List Resting}

theorem card (listed : Listed m live) : m.keys.card = live.length := by
  have keys : m.keys = (live.map Resting.key).toFinset := by
    ext x
    rw [Finmap.mem_keys, OrderMap.mem_iff_find, Ne, listed.find_none, not_not, List.mem_toFinset]
  rw [keys, List.toFinset_card_of_nodup listed.once, List.length_map]

theorem mem_iff (listed : Listed m live) {ref : UInt64} : ref ∈ m ↔ ref ∈ live.map Resting.key := by
  rw [OrderMap.mem_iff_find, Ne, listed.find_none, not_not]

theorem nil : Listed ∅ [] := Lists.nil _ _

theorem add (listed : Listed m live) {o : Resting} (fresh : o.key ∉ m) :
    Listed (OrderBook.apply m (.add o.key o.order)) (live ++ [o]) := by
  rw [listed.mem_iff] at fresh
  have pushed := listed.push fresh
  rwa [← OrderMap.find_insert] at pushed

variable (k : Fin live.length)

theorem delete (listed : Listed m live) :
    Listed (OrderBook.apply m (.delete (live.get k).key)) (SwapPop.swapPop live k) := by
  have popped := listed.swapPop k
  rwa [← OrderMap.find_erase] at popped

theorem replace (listed : Listed m live) {o : Resting} (fresh : o.key ∉ m) {shares price : UInt32}
    (same : o.order = ⟨(live.get k).order.locate, (live.get k).order.side, shares, price⟩) :
    Listed (OrderBook.apply m (.replace (live.get k).key o.key shares price)) (live.set k o) := by
  rw [listed.mem_iff] at fresh
  have changed := listed.set k (e := o) fun _ => fresh
  rw [← OrderMap.find_erase, ← OrderMap.find_insert] at changed
  simp only [OrderBook.apply, listed.find_mem (List.get_mem live k), ← same]
  exact changed

theorem cancel_whole (listed : Listed m live) {canceled : Nat}
    (whole : (live.get k).shares.val ≤ canceled) (small : canceled < 2 ^ 32) :
    Listed (OrderBook.apply m (.cancel (live.get k).key (.ofNat canceled)))
      (SwapPop.swapPop live k) := by
  have below : (live.get k).order.shares ≤ UInt32.ofNat canceled :=
    (UInt32.ofNat_le_iff_le (whole.trans_lt small) small).mpr whole
  have popped := listed.swapPop k
  rw [← OrderMap.find_erase] at popped
  rw [OrderBook.apply, OrderMap.reduce, listed.find_mem (List.get_mem live k)]
  simp only [below, if_true]
  exact popped

theorem cancel_part (listed : Listed m live) {canceled : Nat}
    (part : canceled < (live.get k).shares.val) {o : Resting}
    (same : o = { live.get k with shares := o.shares })
    (less : o.shares.val = (live.get k).shares - canceled) :
    Listed (OrderBook.apply m (.cancel (live.get k).key (.ofNat canceled))) (live.set k o) := by
  have small : (live.get k).shares.val < UInt32.size := between_lt _ (by decide)
  have kept : ¬(live.get k).order.shares ≤ UInt32.ofNat canceled := by
    rw [Resting.order, UInt32.ofNat_le_iff_le small (part.trans small)]
    exact part.not_ge
  have key : o.key = (live.get k).key := by rw [same]; rfl
  have order : o.order =
      { (live.get k).order with shares := (live.get k).order.shares - UInt32.ofNat canceled } := by
    rw [same, Resting.order, Resting.order, less, UInt32.ofNat_sub part.le]
  have changed := listed.set k (e := o) fun other => absurd key other
  rw [key, Function.update_idem, ← OrderMap.find_insert, order] at changed
  rw [OrderBook.apply, OrderMap.reduce, listed.find_mem (List.get_mem live k)]
  simp only [kept, if_false]
  exact changed

end Listed

def prefixed (msg : List UInt8) : List UInt8 := be16 (.ofNat msg.length) ++ msg

namespace Generator

variable {ρ : Type} {rng : Rng ρ} {g : Generator ρ} {older : List (List UInt8)}

theorem emit_eq (g : Generator ρ) {msg : List UInt8} (short : msg.length < 2 ^ 16) :
    g.emit msg = some { g with out := g.out ++ prefixed msg } := by
  simp [emit, be_two short, prefixed]

def side? (g : Generator ρ) (ref : Nat) : Option Char :=
  (g.live.find? fun o => o.ref = ref).map Resting.side

/-- The two books agree behind the messages `older`, the most recent one first, and the
next references are fresh. -/
structure Books (g : Generator ρ) (older : List (List UInt8)) : Prop where
  listed : Listed (after older) g.live
  named : ∀ o ∈ g.live, 0 < o.ref ∧ o.ref < g.nextRef
  positive : 0 < g.nextRef
  unknown : OrderBook.unknownCancels older = 0
  unresolved : OrderBook.unresolvedReplaces older = 0

/-- A message more is out; what else a branch leaves alone. -/
structure Emits (g g' : Generator ρ) (msg : List UInt8) : Prop where
  out : g'.out = g.out ++ prefixed msg
  produced : g'.produced = g.produced
  ts : g'.ts = g.ts
  nextRef : g.nextRef ≤ g'.nextRef ∧ g'.nextRef ≤ g.nextRef + 1
  matchNo : g'.matchNo ≤ g.matchNo + 1

structure Sends (g g' : Generator ρ) (older : List (List UInt8)) (msg : List UInt8) : Prop
    extends Emits g g' msg where
  carries : ∃ t e, Carries msg t e ∧ gpuRelevant t.code = true
  fits : ∀ e ∈ orderEvent? (ptrOf msg), Fits (2 ^ 23) (after older) e
  books : Books g' (msg :: older)
  side : ∀ orig new shares price, orderEvent? (ptrOf msg) = some (.replace orig new shares price) →
    (g.side? orig.toNat).map Char.toUInt8 = some (OrderBook.tag older msg)

def Known (book : OrderMap) : OrderEvent → Prop
  | .add .. => True
  | .cancel ref _ | .delete ref | .replace ref .. => ref ∈ book

theorem counts_known {msg : List UInt8}
    (known : ∀ e ∈ orderEvent? (ptrOf msg), Known (after older) e) :
    OrderBook.unknownCancels (msg :: older) = OrderBook.unknownCancels older ∧
      OrderBook.unresolvedReplaces (msg :: older) = OrderBook.unresolvedReplaces older := by
  rw [OrderBook.unknownCancels, OrderBook.unresolvedReplaces]
  cases event : orderEvent? (ptrOf msg) with
  | none => exact ⟨rfl, rfl⟩
  | some e =>
    have here := known e event
    cases e with
    | add ref o => exact ⟨rfl, rfl⟩
    | cancel ref canceled => exact ⟨congrArg _ (if_pos here), rfl⟩
    | delete ref => exact ⟨congrArg _ (if_pos here), rfl⟩
    | replace orig new shares price => exact ⟨rfl, congrArg _ (if_pos here)⟩

theorem Sends.of_event {g' : Generator ρ} {msg : List UInt8} {t : MsgType} {e : OrderEvent}
    (emits : Emits g g' msg) (carries : Carries msg t (some e)) (books : Books g older)
    (fits : Fits (2 ^ 23) (after older) e) (known : Known (after older) e)
    (listed : Listed (OrderBook.apply (after older) e) g'.live)
    (named : ∀ o ∈ g'.live, 0 < o.ref ∧ o.ref < g'.nextRef)
    (side : ∀ orig new shares price, e = .replace orig new shares price →
      (g.side? orig.toNat).map Char.toUInt8 = some (OrderBook.tag older msg)) :
    Sends g g' older msg := by
  have own : ∀ x ∈ orderEvent? (ptrOf msg), x = e := fun x hx => by
    rw [carries.event, Option.mem_some_iff] at hx
    exact hx.symm
  have counts := counts_known fun x hx => own x hx ▸ known
  refine ⟨emits, ⟨t, some e, carries, carries.relevant⟩, fun x hx => own x hx ▸ fits, ⟨?_, named,
    books.positive.trans_le emits.nextRef.1, counts.1.trans books.unknown,
    counts.2.trans books.unresolved⟩, fun _ _ _ _ event => side _ _ _ _ (own _ event).symm⟩
  rw [after, carries.event]
  exact listed

theorem Books.no_event {msg : List UInt8} (books : Books g older)
    (event : orderEvent? (ptrOf msg) = none) : Books g (msg :: older) := by
  have known : ∀ e ∈ orderEvent? (ptrOf msg), Known (after older) e := by simp [event]
  have counts := counts_known known
  refine ⟨?_, books.named, books.positive, counts.1.trans books.unknown,
    counts.2.trans books.unresolved⟩
  rw [after, event]
  exact books.listed

theorem Books.congr {g' : Generator ρ} (books : Books g older) (live : g'.live = g.live)
    (nextRef : g.nextRef ≤ g'.nextRef) : Books g' older := by
  refine ⟨live ▸ books.listed, fun o mem => ?_, books.positive.trans_le nextRef, books.unknown,
    books.unresolved⟩
  have named := books.named o (live ▸ mem)
  exact ⟨named.1, named.2.trans_le nextRef⟩

theorem Sends.of_trade {g' : Generator ρ} {msg : List UInt8} {t : MsgType}
    (emits : Emits g g' msg) (carries : Carries msg t none) (relevant : gpuRelevant t.code = true)
    (books : Books g older) (live : g'.live = g.live) : Sends g g' older msg := by
  have none : ∀ e, e ∉ orderEvent? (ptrOf msg) := fun e he => by simp [carries.event] at he
  exact ⟨emits, ⟨t, _, carries, relevant⟩, fun e he => absurd he (none e),
    (books.no_event carries.event).congr live emits.nextRef.1,
    fun _ _ _ _ event => absurd event (none _)⟩

/-- The values of a turn fit their fields, and the table has room for one order more. -/
structure Fitting (g : Generator ρ) : Prop where
  room : g.live.length < 2 ^ 23
  day : g.ts < 2 ^ 48
  refs : g.nextRef < g.ts
  trades : g.matchNo < g.ts

theorem Fitting.next_small (fitting : Fitting g) : g.nextRef < 2 ^ 64 := by
  have clock := fitting.refs
  have day := fitting.day
  omega

theorem Fitting.match_small (fitting : Fitting g) : g.matchNo < 2 ^ 64 := by
  have clock := fitting.trades
  have day := fitting.day
  omega

section Turns

variable (books : Books g older) (fitting : Fitting g)

include books fitting

theorem ref_small {o : Resting} (mem : o ∈ g.live) : o.ref < 2 ^ 64 := by
  have below := (books.named o mem).2
  have clock := fitting.refs
  have day := fitting.day
  omega

theorem key_nonzero {o : Resting} (mem : o ∈ g.live) : o.key ≠ 0 := by
  have named := (books.named o mem).1
  have value : o.key.toNat = o.ref := UInt64.toNat_ofNat_of_lt' (ref_small books fitting mem)
  intro zero
  rw [zero] at value
  exact absurd value named.ne

theorem next_fresh : UInt64.ofNat g.nextRef ≠ 0 ∧ UInt64.ofNat g.nextRef ∉ after older := by
  have value : (UInt64.ofNat g.nextRef).toNat = g.nextRef :=
    UInt64.toNat_ofNat_of_lt' fitting.next_small
  constructor
  · intro zero
    rw [zero] at value
    exact absurd value books.positive.ne
  · rw [books.listed.mem_iff]
    intro listed
    obtain ⟨o, mem, same⟩ := List.mem_map.mp listed
    have other : o.key.toNat = o.ref := UInt64.toNat_ofNat_of_lt' (ref_small books fitting mem)
    have below := (books.named o mem).2
    rw [← same, other] at value
    omega

theorem add_sends (rng : Rng ρ) (d : Draw) :
    ∃ g' msg, g.add rng d = some g' ∧ Sends g g' older msg := by
  let side := pickSide rng g.rng
  let mpid := rng.random side.2
  let o : Resting := ⟨g.nextRef, d.locate, side.1, d.shares, d.price⟩
  have fresh := next_fresh books fitting
  obtain ⟨msg, made, carries⟩ := addOrder_carries (between_lt d.locate (by decide)) fitting.day
    (below mpid.1 0xccccccccccccd 2) side.1 (symbolOf d.locate) fitting.next_small
    (between_lt d.shares (by decide)) (between_lt d.price (by decide))
  let g' : Generator ρ := { g with
    rng := mpid.2, out := g.out ++ prefixed msg, live := g.live ++ [o], nextRef := g.nextRef + 1 }
  have result : g.add rng d = some g' := by
    simp only [add]
    rw [made]
    simp [emit_eq _ carries.short, g', o, mpid, side]
  have emits : Emits g g' msg := ⟨rfl, rfl, rfl, ⟨Nat.le_succ _, Nat.le_refl _⟩, Nat.le_succ _⟩
  refine ⟨g', msg, result, .of_event emits carries books ⟨fresh.1, fresh.2, ?_⟩ trivial
    (books.listed.add (o := o) fresh.2) ?_ (fun _ _ _ _ other => by cases other)⟩
  · rw [books.listed.card]
    exact fitting.room
  · intro p mem
    rcases List.mem_append.mp mem with earlier | new
    · exact ⟨(books.named p earlier).1, (books.named p earlier).2.trans (Nat.lt_succ_self _)⟩
    · obtain rfl := List.mem_singleton.mp new
      exact ⟨books.positive, Nat.lt_succ_self _⟩

theorem cancel_sends (rng : Rng ρ) (resting : 0 < g.live.length) :
    ∃ g' msg, g.cancel rng resting = some g' ∧ Sends g g' older msg := by
  let k := rng.randrange g.rng g.live.length resting
  let o := g.live.get k.1
  let canceled := rng.randint k.2 1 o.shares o.shares.property.1
  have mem : o ∈ g.live := List.get_mem g.live k.1
  have small : canceled.1.val < 2 ^ 32 :=
    between_lt canceled.1 (between_lt o.shares (by decide))
  obtain ⟨msg, made, carries⟩ := orderCancel_carries (between_lt o.locate (by decide)) fitting.day
    (ref_small books fitting mem) small
  have known : o.key ∈ after older := books.listed.mem_iff.mpr (List.mem_map_of_mem mem)
  have fits : Fits (2 ^ 23) (after older) (.cancel o.key (.ofNat canceled.1)) :=
    key_nonzero books fitting mem
  let sent (live : List Resting) : Generator ρ :=
    { g with rng := canceled.2, out := g.out ++ prefixed msg, live := live }
  have emits : ∀ live, Emits g (sent live) msg := fun _ =>
    ⟨rfl, rfl, rfl, ⟨Nat.le_refl _, Nat.le_succ _⟩, Nat.le_succ _⟩
  by_cases whole : o.shares.val ≤ canceled.1
  · have result : g.cancel rng resting = some (sent (SwapPop.swapPop g.live k.1)) := by
      simp only [cancel]
      rw [made, Option.bind_eq_bind, Option.bind_some, emit_eq _ carries.short]
      exact dif_pos whole
    exact ⟨_, msg, result, .of_event (emits _) carries books fits known
      (books.listed.cancel_whole k.1 whole small)
      (fun p here => books.named p (SwapPop.mem_of_swapPop here))
      (fun _ _ _ _ other => by cases other)⟩
  · have left : 1 ≤ o.shares.val - canceled.1 ∧ o.shares.val - canceled.1 ≤ 1000 := by
      have range := o.shares.property
      omega
    let p : Resting := { o with shares := ⟨_, left⟩ }
    have result : g.cancel rng resting = some (sent (g.live.set k.1 p)) := by
      simp only [cancel]
      rw [made, Option.bind_eq_bind, Option.bind_some, emit_eq _ carries.short]
      exact dif_neg whole
    refine ⟨_, msg, result, .of_event (emits _) carries books fits known
      (books.listed.cancel_part k.1 (Nat.lt_of_not_le whole) (o := p) rfl rfl) (fun q here => ?_)
      (fun _ _ _ _ other => by cases other)⟩
    rcases List.mem_or_eq_of_mem_set here with old | rfl
    · exact books.named q old
    · exact books.named o mem

theorem delete_sends (rng : Rng ρ) (resting : 0 < g.live.length) :
    ∃ g' msg, g.delete rng resting = some g' ∧ Sends g g' older msg := by
  let k := rng.randrange g.rng g.live.length resting
  let o := g.live.get k.1
  have mem : o ∈ g.live := List.get_mem g.live k.1
  obtain ⟨msg, made, carries⟩ := orderDelete_carries (between_lt o.locate (by decide)) fitting.day
    (ref_small books fitting mem)
  let g' : Generator ρ := { g with
    rng := k.2, out := g.out ++ prefixed msg, live := SwapPop.swapPop g.live k.1 }
  have result : g.delete rng resting = some g' := by
    simp only [delete]
    rw [made]
    simp [emit_eq _ carries.short, g', k]
  have emits : Emits g g' msg := ⟨rfl, rfl, rfl, ⟨Nat.le_refl _, Nat.le_succ _⟩, Nat.le_succ _⟩
  exact ⟨g', msg, result, .of_event emits carries books (key_nonzero books fitting mem)
    (books.listed.mem_iff.mpr (List.mem_map_of_mem mem)) (books.listed.delete k.1)
    (fun p here => books.named p (SwapPop.mem_of_swapPop here))
    (fun _ _ _ _ other => by cases other)⟩

omit fitting in
theorem side_eq {o : Resting} (mem : o ∈ g.live) : g.side? o.ref = some o.side := by
  unfold side?
  cases found : g.live.find? fun p => p.ref = o.ref with
  | none => simpa using List.find?_eq_none.mp found o mem
  | some p =>
    have same : p.ref = o.ref := by simpa using List.find?_some found
    have one : p = o := List.inj_on_of_nodup_map books.listed.once
      (List.mem_of_find?_eq_some found) mem (congrArg UInt64.ofNat same)
    rw [one]
    rfl

theorem replace_sends (rng : Rng ρ) (d : Draw) (resting : 0 < g.live.length) :
    ∃ g' msg, g.replace rng d resting = some g' ∧ Sends g g' older msg := by
  let k := rng.randrange g.rng g.live.length resting
  let o := g.live.get k.1
  let p : Resting := ⟨g.nextRef, o.locate, o.side, d.shares, d.price⟩
  have mem : o ∈ g.live := List.get_mem g.live k.1
  have fresh := next_fresh books fitting
  have small := ref_small books fitting mem
  have known : o.key ∈ after older := books.listed.mem_iff.mpr (List.mem_map_of_mem mem)
  obtain ⟨msg, made, carries⟩ := orderReplace_carries (between_lt o.locate (by decide)) fitting.day
    small fitting.next_small (between_lt d.shares (by decide)) (between_lt d.price (by decide))
  let g' : Generator ρ := { g with
    rng := k.2, out := g.out ++ prefixed msg, live := g.live.set k.1 p, nextRef := g.nextRef + 1 }
  have result : g.replace rng d resting = some g' := by
    simp only [replace]
    rw [made]
    simp [emit_eq _ carries.short, g', o, k, p]
  have emits : Emits g g' msg := ⟨rfl, rfl, rfl, ⟨Nat.le_succ _, Nat.le_refl _⟩, Nat.le_succ _⟩
  refine ⟨g', msg, result, .of_event emits carries books
    ⟨key_nonzero books fitting mem, fresh.1, fresh.2, ?_⟩ known
    (books.listed.replace k.1 (o := p) fresh.2 rfl) (fun q here => ?_) ?_⟩
  · rw [books.listed.card]
    exact fitting.room
  · rcases List.mem_or_eq_of_mem_set here with old | rfl
    · exact ⟨(books.named q old).1, (books.named q old).2.trans (Nat.lt_succ_self _)⟩
    · exact ⟨books.positive, Nat.lt_succ_self _⟩
  · rintro orig new shares price event
    obtain ⟨rfl, rfl, rfl, rfl⟩ := OrderEvent.replace.inj event
    have value : (UInt64.ofNat o.ref).toNat = o.ref := UInt64.toNat_ofNat_of_lt' small
    have side := OrderBook.find_side (books.listed.find_mem mem)
    rw [value, side_eq books mem, OrderBook.tag, carries.event]
    exact congrArg some (side.trans (if_pos known).symm)

theorem nonCross_sends (rng : Rng ρ) (d : Draw) :
    ∃ g' msg, g.nonCross rng d = some g' ∧ Sends g g' older msg := by
  let side := pickSide rng g.rng
  obtain ⟨msg, made, carries⟩ := trade_carries (between_lt d.locate (by decide)) fitting.day side.1
    (symbolOf d.locate) (between_lt d.shares (by decide)) (between_lt d.price (by decide))
    fitting.match_small
  let g' : Generator ρ := { g with
    rng := side.2, out := g.out ++ prefixed msg, matchNo := g.matchNo + 1 }
  have result : g.nonCross rng d = some g' := by
    simp only [nonCross]
    rw [made]
    simp [emit_eq _ carries.short, g', side]
  have emits : Emits g g' msg := ⟨rfl, rfl, rfl, ⟨Nat.le_refl _, Nat.le_succ _⟩, Nat.le_refl _⟩
  exact ⟨g', msg, result, .of_trade emits carries (by decide) books rfl⟩

theorem cross_sends (d : Draw) : ∃ g' msg, g.cross d = some g' ∧ Sends g g' older msg := by
  obtain ⟨msg, made, carries⟩ := crossTrade_carries (between_lt d.locate (by decide)) fitting.day
    (symbolOf d.locate) (between_lt d.shares (by decide)) (between_lt d.price (by decide))
    fitting.match_small
  let g' : Generator ρ := { g with out := g.out ++ prefixed msg, matchNo := g.matchNo + 1 }
  have result : g.cross d = some g' := by
    simp only [cross]
    rw [made]
    simp [emit_eq _ carries.short, g']
  have emits : Emits g g' msg := ⟨rfl, rfl, rfl, ⟨Nat.le_refl _, Nat.le_succ _⟩, Nat.le_refl _⟩
  exact ⟨g', msg, result, .of_trade emits carries (by decide) books rfl⟩

theorem act_sends (rng : Rng ρ) (d : Draw) :
    ∃ g' msg, g.act rng d = some g' ∧ Sends g g' older msg := by
  unfold act
  split
  · exact add_sends books fitting rng d
  · rename_i others
    have resting : 0 < g.live.length := by omega
    dsimp only
    split
    · exact cancel_sends books fitting rng resting
    split
    · exact delete_sends books fitting rng resting
    split
    · exact replace_sends books fitting rng d resting
    split
    · exact nonCross_sends books fitting rng d
    · exact cross_sends books fitting d

end Turns

/-! Turns and runs. -/

/-- The counters grow no faster than the clock, and the clock fits its field. -/
structure Clock (g : Generator ρ) : Prop where
  day : g.ts < 2 ^ 48
  refs : g.nextRef ≤ g.ts
  trades : g.matchNo ≤ g.ts

/-- The list is below the table's limit, and the turn's timestamp fits its field. -/
def Small (rng : Rng ρ) (g : Generator ρ) : Prop :=
  g.live.length < 2 ^ 23 ∧ (g.draw rng).1.ts < 2 ^ 48

instance (rng : Rng ρ) (g : Generator ρ) : Decidable (Small rng g) :=
  inferInstanceAs (Decidable (_ ∧ _))

structure Turned (g g' : Generator ρ) (older : List (List UInt8)) (msg : List UInt8) : Prop where
  out : g'.out = g.out ++ prefixed msg
  produced : g'.produced = g.produced + 1
  clock : Clock g'
  carries : ∃ t e, Carries msg t e ∧ gpuRelevant t.code = true
  fits : ∀ e ∈ orderEvent? (ptrOf msg), Fits (2 ^ 23) (after older) e
  books : Books g' (msg :: older)
  side : ∀ orig new shares price, orderEvent? (ptrOf msg) = some (.replace orig new shares price) →
    (g.side? orig.toNat).map Char.toUInt8 = some (OrderBook.tag older msg)

theorem turn_turned (books : Books g older) (clock : Clock g) (small : Small rng g) :
    ∃ g' msg, g.turn rng = some g' ∧ Turned g g' older msg := by
  have later : g.ts < (g.draw rng).1.ts :=
    Nat.lt_add_of_pos_right (rng.randint g.rng 1 5000 (by decide)).1.property.1
  have fitting : Fitting (g.draw rng).1 :=
    ⟨small.1, small.2, clock.refs.trans_lt later, clock.trades.trans_lt later⟩
  have drawn : Books (g.draw rng).1 older := books.congr rfl (Nat.le_refl _)
  obtain ⟨g', msg, acted, sends⟩ := act_sends drawn fitting rng (g.draw rng).2
  refine ⟨{ g' with produced := g'.produced + 1 }, msg, ?_, ⟨sends.out,
    congrArg (· + 1) sends.produced, ⟨sends.ts.trans_lt small.2, ?_, ?_⟩, sends.carries, sends.fits,
    sends.books.congr rfl (Nat.le_refl _), sends.side⟩⟩
  · rw [turn, acted]
    rfl
  · exact (sends.nextRef.2.trans fitting.refs).trans_eq sends.ts.symm
  · exact (sends.matchNo.trans fitting.trades).trans_eq sends.ts.symm

def heads (rng : Rng ρ) (nTarget : Int) : (turns : Nat) → Generator ρ → List (Generator ρ)
  | 0, _ => []
  | turns + 1, g =>
    if (g.produced : Int) < nTarget - nMeta then
      g :: match g.turn rng with
        | some g' => heads rng nTarget turns g'
        | none => []
    else []

/-- The message is the turn's, and the slot of a replace shows the side that the list
records for its original. -/
structure Recorded (rng : Rng ρ) (g : Generator ρ) (u : Shipped) : Prop where
  sent : ∃ g', g.turn rng = some g' ∧ g'.out = g.out ++ prefixed u.frame
  side : u.type = MsgType.orderReplace.code →
    (g.side? (loadBe64 (shift (ptrOf u.frame) Ofs.replaceOrigRef)).toNat).map Char.toUInt8 =
      some (u.slot.getD slotSideTag 0)

/-- Some turns of the loop: the messages sent, and what the book stamps on them. -/
structure Ran (rng : Rng ρ) (g g' : Generator ρ) (older fs : List (List UInt8))
    (hs : List (Generator ρ)) : Prop where
  out : g'.out = g.out ++ fs.flatMap prefixed
  produced : g'.produced = g.produced + fs.length
  clock : Clock g'
  carries : ∀ f ∈ fs, ∃ t e, Carries f t e ∧ gpuRelevant t.code = true
  orderly : OrderBook.Orderly (2 ^ 23) older fs
  books : Books g' (fs.reverse ++ older)
  stamped : List.Forall₂ (Recorded rng) hs (OrderBook.stamped older fs)

theorem Turned.recorded {g' : Generator ρ} {msg : List UInt8} (turned : Turned g g' older msg)
    (turn : g.turn rng = some g') :
    (Msg.ofFrame msg).ships = true ∧
      Recorded rng g ((Msg.ofFrame msg).shipped (OrderBook.tag older msg)) := by
  obtain ⟨t, e, carries, relevant⟩ := turned.carries
  have frame : ((Msg.ofFrame msg).shipped (OrderBook.tag older msg)).frame = msg :=
    Msg.bytes_ofFrame msg
  have whole : (Msg.ofFrame msg).len ≤ slotBytes := carries.fits.2
  have first : (Msg.ofFrame msg).data Ofs.type = t.code := carries.first
  refine ⟨Msg.ships_iff.mpr ⟨first ▸ relevant, whole⟩, ⟨g', turn, ?_⟩, fun replace => ?_⟩
  · rw [frame]
    exact turned.out
  · rw [Shipped.slot_tag (frame.symm ▸ whole) replace, frame]
    rw [Shipped.type, frame, carries.type] at replace
    have event : orderEvent? (ptrOf msg) =
        some (.replace (loadBe64 (shift (ptrOf msg) Ofs.replaceOrigRef))
          (loadBe64 (shift (ptrOf msg) Ofs.replaceNewRef))
          (loadBe32 (shift (ptrOf msg) Ofs.replaceShares))
          (loadBe32 (shift (ptrOf msg) Ofs.replacePrice))) := by
      rw [orderEvent?, carries.first, replace, msgType?_code]
    exact turned.side _ _ _ _ event

theorem loop_ran {nTarget : Int} {turns : Nat} (books : Books g older) (clock : Clock g)
    (small : ∀ h ∈ g.heads rng nTarget turns, Small rng h) :
    ∃ g' fs, g.loop rng nTarget turns = some g' ∧
      Ran rng g g' older fs (g.heads rng nTarget turns) ∧
      fs.length ≤ turns ∧
      (nTarget - nMeta ≤ g.produced + turns → nTarget - nMeta ≤ g'.produced) := by
  induction turns generalizing g older with
  | zero =>
    exact ⟨g, [], rfl, ⟨by simp, rfl, clock, by simp, trivial, books, .nil⟩, Nat.zero_le _,
      fun enough => by simpa using enough⟩
  | succ turns ih =>
    unfold heads at small
    unfold loop heads
    by_cases more : (g.produced : Int) < nTarget - nMeta
    · rw [if_pos more] at small ⊢
      rw [if_pos more]
      obtain ⟨g₁, msg, turn, turned⟩ := turn_turned books clock (small g List.mem_cons_self)
      rw [turn] at small ⊢
      obtain ⟨g', fs, loop, ran, most, ended⟩ := ih turned.books turned.clock fun h mem =>
        small h (List.mem_cons_of_mem g mem)
      refine ⟨g', msg :: fs, loop, ⟨?_, ?_, ran.clock, ?_, ⟨turned.fits, ran.orderly⟩, ?_, ?_⟩,
        Nat.succ_le_succ most, fun enough => ?_⟩
      · rw [ran.out, turned.out, List.flatMap_cons, List.append_assoc]
      · rw [ran.produced, turned.produced, List.length_cons]
        omega
      · exact List.forall_mem_cons.mpr ⟨turned.carries, ran.carries⟩
      · simpa using ran.books
      · obtain ⟨ships, recorded⟩ := turned.recorded turn
        rw [OrderBook.stamped]
        simp only [ships, if_true]
        exact .cons recorded ran.stamped
      · exact ended (by rw [turned.produced]; omega)
    · rw [if_neg more] at small ⊢
      rw [if_neg more]
      exact ⟨g, [], rfl, ⟨by simp, rfl, clock, by simp, trivial, books, .nil⟩, Nat.zero_le _,
        fun _ => by omega⟩

end Generator

end MakeSynthetic

end ItchAggregator
