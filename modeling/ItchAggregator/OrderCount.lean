import ItchAggregator.LiveOrders

/-! `size()` against the live orders. Reference zero marks an empty slot, so that an
accepted insert of it is counted and never found; every other call keeps the count. -/

namespace ItchAggregator

namespace OrderHash

variable {k : LogCapacity} {hash : UInt64 → UInt64} {h : OrderHash k} {ref : UInt64}

def Exact (h : OrderHash k) : Prop := h.size.toNat = h.occupied

theorem Exact.insert (exact_ : Exact h) (sound : Sound hash h) (locate : UInt16) (side : UInt8)
    (shares price : UInt32) (counts : ref ≠ 0 ∨ ¬h.size.toNat < capacity k / 2) :
    Exact (h.insert hash ref locate side shares price).2 := by
  by_cases accepts : Accepts hash h ref
  · obtain ⟨absent, room⟩ := accepts
    obtain ⟨h', result, _, size, bound, _⟩ :=
      sound.insert_accepted locate side shares price room absent
    have grown := (bound (counts.resolve_right (not_not_intro room))).1
    unfold Exact at *
    rw [result]
    change h'.size.toNat = h'.occupied
    omega
  · rwa [sound.insert_refused _ _ _ _ accepts]

theorem Exact.reduce (exact_ : Exact h) (sound : Sound hash h) (ref : UInt64) (canceled : UInt32) :
    Exact (h.reduce hash ref canceled).2 := by
  cases found : h.find hash ref with
  | none => rwa [sound.reduce_unknown canceled found]
  | some e =>
    unfold Exact at *
    by_cases all : e.shares ≤ canceled
    · obtain ⟨h', result, _, size, counted, _⟩ := sound.reduce_all found all
      rw [result]
      change h'.size.toNat = h'.occupied
      omega
    · obtain ⟨h', result, _, size, counted, _⟩ := sound.reduce_part found all
      rw [result, size, counted, exact_]

theorem Exact.erase (exact_ : Exact h) (sound : Sound hash h) (ref : UInt64) :
    Exact (h.erase hash ref).2 := by
  cases found : h.find hash ref with
  | none => rwa [sound.erase_unknown found]
  | some e =>
    obtain ⟨h', result, _, size, counted, _⟩ := sound.erase_live found
    unfold Exact at *
    rw [result]
    change h'.size.toNat = h'.occupied
    omega

end OrderHash

namespace BatchAssembler

open OrderHash (Sound Exact Accepts live)

variable {k : LogCapacity} {σ : Type} {source : ByteSource σ} {hash : UInt64 → UInt64}
  {a : BatchAssembler k} {m : Msg} {e : OrderEvent}

/-- The insert that `fill` makes for an event: its reference, and what it returns. -/
def insertion (hash : UInt64 → UInt64) (a : BatchAssembler k) :
    OrderEvent → Option (UInt64 × (Bool × OrderHash k))
  | .add ref o => some (ref, a.orders.insert hash ref o.locate o.side o.shares o.price)
  | .replace orig new shares price =>
    (a.orders.find hash orig).map fun o =>
      (new, a.orders.insert hash new o.locate o.side shares price)
  | .cancel _ _ | .delete _ => none

theorem resolveEvent_insertion {ref : UInt64} {r : Bool × OrderHash k}
    (inserts : insertion hash a e = some (ref, r)) :
    (resolveEvent hash a e).2.orders =
      match e with
      | .replace orig _ _ _ => (r.2.erase hash orig).2
      | _ => r.2 := by
  cases e with
  | add ref' o =>
    obtain ⟨rfl, rfl⟩ := Prod.mk.inj (Option.some.inj inserts)
    rfl
  | replace orig new shares price =>
    obtain ⟨o, found, same⟩ := Option.map_eq_some_iff.mp inserts
    obtain ⟨rfl, rfl⟩ := Prod.mk.inj same
    simp only [resolveEvent, found]
  | cancel | delete => simp [insertion] at inserts

/-- The message is an add of reference zero, or the replace of a live order by it, and
the table has room for one more. -/
def CountsZero (hash : UInt64 → UInt64) (a : BatchAssembler k) (m : Msg) : Prop :=
  m.ships = true ∧ a.orders.size.toNat < capacity k / 2 ∧
    ∃ e, orderEvent? m.data = some e ∧
      match e with
      | .add ref _ => ref = 0
      | .replace orig new _ _ => new = 0 ∧ a.orders.find hash orig ≠ none
      | _ => False

/-- An insert that the message makes binds its reference if it returns true, and finds
the table at its load limit only when that many orders are live. -/
def InsertHolds (hash : UInt64 → UInt64) (a : BatchAssembler k) (m : Msg) : Prop :=
  ∀ e ref r, m.ships = true → orderEvent? m.data = some e → insertion hash a e = some (ref, r) →
    (r.1 = true → r.2.find hash ref ≠ none) ∧
      ((mask k + 1) / 2 < (a.orders.size + 1).toNat →
        (live hash a.orders).ncard = capacity k / 2)

theorem nonzero_insertion (counts : ¬CountsZero hash a m) (ships : m.ships = true)
    (event : orderEvent? m.data = some e) {ref : UInt64} {r : Bool × OrderHash k}
    (inserts : insertion hash a e = some (ref, r)) :
    ref ≠ 0 ∨ ¬a.orders.size.toNat < capacity k / 2 := by
  by_contra! zero
  refine counts ⟨ships, zero.2, e, event, ?_⟩
  cases e with
  | add ref' o =>
    obtain ⟨rfl, _⟩ := Prod.mk.inj (Option.some.inj inserts)
    exact zero.1
  | replace orig new shares price =>
    obtain ⟨o, found, same⟩ := Option.map_eq_some_iff.mp inserts
    obtain ⟨rfl, _⟩ := Prod.mk.inj same
    exact ⟨zero.1, by simp [found]⟩
  | cancel | delete => simp [insertion] at inserts

theorem exact_resolveEvent (exact_ : Exact a.orders) (sound : Sound hash a.orders)
    (ships : m.ships = true) (event : orderEvent? m.data = some e)
    (counts : ¬CountsZero hash a m) : Exact (resolveEvent hash a e).2.orders := by
  cases e with
  | add ref o => exact exact_.insert sound _ _ _ _ (nonzero_insertion counts ships event rfl)
  | cancel ref canceled => exact exact_.reduce sound ref canceled
  | delete ref => exact exact_.erase sound ref
  | replace orig new shares price =>
    cases found : a.orders.find hash orig with
    | none => simpa only [resolveEvent, found] using exact_
    | some o =>
      have inserts : insertion hash a (.replace orig new shares price) =
          some (new, a.orders.insert hash new o.locate o.side shares price) := by
        rw [insertion, found, Option.map_some]
      have nonzero := nonzero_insertion counts ships event inserts
      simp only [resolveEvent, found]
      exact (exact_.insert sound _ _ _ _ nonzero).erase (sound.insert ..) orig

theorem exact_absorb (exact_ : Exact a.orders) (sound : Sound hash a.orders)
    (counts : ¬CountsZero hash a m) : Exact (absorb hash a m).orders := by
  unfold absorb
  split
  · rename_i ships
    rw [resolve_eq]
    cases event : orderEvent? m.data with
    | none => exact exact_
    | some e => exact exact_resolveEvent exact_ sound ships event counts
  · split <;> exact exact_

theorem insertHolds (exact_ : Exact a.orders) (sound : Sound hash a.orders)
    (counts : ¬CountsZero hash a m) : InsertHolds hash a m := by
  intro e ref r ships event inserts
  have nonzero := nonzero_insertion counts ships event inserts
  have bound : ∀ locate side shares price, r = a.orders.insert hash ref locate side shares price →
      r.1 = true → r.2.find hash ref ≠ none := by
    rintro locate side shares price rfl accepted
    obtain ⟨absent, room⟩ := (sound.insert_fst ref locate side shares price).mp accepted
    obtain ⟨h', result, _, _, finds, _⟩ :=
      sound.insert_accepted locate side shares price room absent
    rw [result]
    change h'.find hash ref ≠ none
    rw [(finds (nonzero.resolve_right (not_not_intro room))).2, if_pos rfl]
    simp
  refine ⟨?_, fun full => ?_⟩
  · cases e with
    | add ref' o =>
      obtain ⟨rfl, rfl⟩ := Prod.mk.inj (Option.some.inj inserts)
      exact bound _ _ _ _ rfl
    | replace orig new shares price =>
      obtain ⟨o, found, same⟩ := Option.map_eq_some_iff.mp inserts
      obtain ⟨rfl, rfl⟩ := Prod.mk.inj same
      exact bound _ _ _ _ rfl
    | cancel | delete => simp [insertion] at inserts
  · rw [OrderHash.mask_succ, sound.size_succ] at full
    have half := sound.size_le
    rw [sound.ncard_live, ← exact_]
    omega

theorem CountsZero.not_insertHolds (counts : CountsZero hash a m) (sound : Sound hash a.orders) :
    ¬InsertHolds hash a m := by
  obtain ⟨ships, room, e, event, zero⟩ := counts
  intro holds
  have unfound : ∀ locate side shares price,
      insertion hash a e = some (0, a.orders.insert hash 0 locate side shares price) → False := by
    intro locate side shares price inserts
    have accepted := (sound.insert_fst 0 locate side shares price).mpr ⟨sound.find_zero, room⟩
    exact (holds e 0 _ ships event inserts).1 accepted (sound.insert ..).find_zero
  cases e with
  | add ref o =>
    obtain rfl : ref = 0 := zero
    exact unfound _ _ _ _ rfl
  | replace orig new shares price =>
    obtain ⟨rfl, found⟩ := zero
    obtain ⟨o, found⟩ := Option.ne_none_iff_exists'.mp found
    exact unfound o.locate o.side shares price (by simp [insertion, found])
  | cancel | delete => exact zero

/-- The size is the number of live orders, in every state of a run and for every insert
it makes, exactly when no message counts a reference of zero. -/
theorem size_counts_live_iff (hash : UInt64 → UInt64) (k : LogCapacity) (p : ItchParser σ) :
    (∀ seen q f stop, Passes source hash p (start k) seen q f stop →
      f.asm.orders.size.toNat = (live hash f.asm.orders).ncard ∧
        ∀ m q', stop = false → f.batchMeta.nMsgs < batchMsgs → q.next source = (some m, q') →
          InsertHolds hash f.asm m) ↔
    ∀ seen q f, Passes source hash p (start k) seen q f false → f.batchMeta.nMsgs < batchMsgs →
      ∀ m q', q.next source = (some m, q') → ¬CountsZero hash f.asm m := by
  constructor
  · intro holds seen q f passes room m q' call counts
    exact counts.not_insertHolds passes.sound ((holds seen q f false passes).2 m q' rfl room call)
  · intro nonzero seen q f stop passes
    have exact_ : Exact f.asm.orders := by
      induction passes with
      | enter dst => exact (OrderHash.empty_refines hash k).full
      | message before room call ih =>
        rw [Exact, onMessage_orders]
        exact exact_absorb ih before.sound (nonzero _ _ _ before room _ _ call)
      | broken _ _ ih => exact ih
      | full _ _ _ ih => exact ih
      | ended _ _ _ _ ih => exact ih
    refine ⟨exact_.trans passes.sound.ncard_live.symm, ?_⟩
    rintro m q' rfl room call
    exact insertHolds exact_ passes.sound (nonzero seen q f passes room m q' call)

/-- An add of reference zero: one order counted, none live. -/
theorem size_counts_zero :
    let add : List UInt8 := [0, 36, 65, 0, 7, 0, 0, 0, 0, 0, 0, 0, 1, 0, 0, 0, 0, 0, 0, 0, 0, 66,
      0, 0, 0, 50, 65, 65, 80, 76, 32, 32, 32, 32, 0, 18, 214, 128]
    (∀ f ∈ frames add, ExactLength f) ∧
      ∃ seen q f stop,
        Passes memSource OrderHash.mix (ItchParser.start add 64) (start 24) seen q f stop ∧
        f.asm.orders.size = 1 ∧ (live OrderHash.mix f.asm.orders).ncard = 0 := by
  intro add
  have exact_ : ∀ f ∈ frames add, ExactLength f := by decide
  refine ⟨exact_, ?_⟩
  obtain ⟨seen, q, f, m, q', passes, room, call, frame, event, orders⟩ :=
    exists_passes_frame OrderHash.mix
      (ItchParser.hands_frames memSource_delivers add (Nat.le_refl 64) (by decide))
      (ItchParser.start_bounds _ _) (fun f hf => (exact_ f hf).longEnough) (start 24)
      (show (frames add)[0]? = some (add.drop 2) by decide)
  have is_add : orderEvent? m.data = some (.add 0 ⟨7, 66, 50, 1234560⟩) := event.trans (by decide)
  have ships : m.ships = true := by
    have type : m.bytes.headD 0 = m.data Ofs.type := Msg.headD_bytes (ItchParser.next_positive call)
    rw [frame] at type
    rw [Msg.ships_iff, ← type, ← length_bytes m.data m.len, ← Msg.bytes, frame]
    decide
  refine ⟨_, _, _, _, passes.message room call, ?_⟩
  have none : f.asm.orders = .empty 24 := orders
  obtain ⟨h', result, sound', size, _, zero⟩ := passes.sound.insert_accepted 7 66 50 1234560
    (by rw [none]; decide) passes.sound.find_zero
  have after : (onMessage OrderHash.mix f m).2.asm.orders = h' := by
    rw [onMessage_orders, absorb, if_pos ships, resolve_eq, is_add]
    exact congrArg Prod.snd result
  rw [after, sound'.ncard_live, (zero rfl).1]
  rw [none] at size ⊢
  exact ⟨UInt64.toNat_inj.mp size, (OrderHash.empty_refines OrderHash.mix 24).full.symm⟩

end BatchAssembler

end ItchAggregator
