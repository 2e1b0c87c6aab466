import ItchAggregator.LiveOrders

/-! What a replace leaves of the table. Its insert is refused when the new reference
is live or the load is at its limit, the order about to go being counted; the
original is erased all the same. -/

namespace ItchAggregator

namespace OrderHash

variable {k : LogCapacity} {hash : UInt64 → UInt64} {h : OrderHash k} {orig new : UInt64}
  {shares price : UInt32} {o : OrderInfo}

/-- What a replace of the live order `o` is to make of the table `h`: the order is
replaced, or the new reference cannot be inserted and nothing happens. -/
structure AllOrNothing (hash : UInt64 → UInt64) (h : OrderHash k) (orig new : UInt64)
    (shares price : UInt32) (o : OrderInfo) (h' : OrderHash k) : Prop where
  outcome : h'.find hash orig = none ∧
      h'.find hash new = some ⟨new, shares, price, o.locate, o.side, 0⟩ ∨
    (h.find hash new ≠ none ∨ new = orig ∨ capacity k / 2 ≤ h.size.toNat) ∧ h' = h
  others : ∀ x, x ≠ orig → x ≠ new → h'.find hash x = h.find hash x
  kept : (live hash h).ncard ≤ (live hash h').ncard

def replaced (hash : UInt64 → UInt64) (h : OrderHash k) (orig new : UInt64)
    (shares price : UInt32) (o : OrderInfo) : OrderHash k :=
  ((h.insert hash new o.locate o.side shares price).2.erase hash orig).2

theorem Sound.replaced_accepted (shares price : UInt32) (sound : Sound hash h) (nonzero : new ≠ 0)
    (found : h.find hash orig = some o) (accepts : Accepts hash h new) :
    AllOrNothing hash h orig new shares price o (replaced hash h orig new shares price o) := by
  obtain ⟨absent, room⟩ := accepts
  have ne : orig ≠ new := by
    rintro rfl
    simp [absent] at found
  obtain ⟨h₁, inserted, sound₁, _, bound, _⟩ :=
    sound.insert_accepted o.locate o.side shares price room absent
  obtain ⟨grown, finds₁⟩ := bound nonzero
  have still : h₁.find hash orig = some o := by rw [finds₁, if_neg ne, found]
  obtain ⟨h₂, erased, sound₂, _, shrunk, finds₂⟩ := sound₁.erase_live still
  have after : replaced hash h orig new shares price o = h₂ := by rw [replaced, inserted, erased]
  rw [after]
  refine ⟨Or.inl ⟨?_, ?_⟩, fun x other fresh => ?_, ?_⟩
  · rw [finds₂, if_pos rfl]
  · rw [finds₂, if_neg ne.symm, finds₁, if_pos rfl]
  · rw [finds₂, if_neg other, finds₁, if_neg fresh]
  · rw [sound.ncard_live, sound₂.ncard_live]
    omega

/-- A refused replace takes the original out. -/
theorem Sound.replaced_refused (shares price : UInt32) (sound : Sound hash h)
    (found : h.find hash orig = some o) (refused : ¬Accepts hash h new) :
    (live hash (replaced hash h orig new shares price o)).ncard + 1 = (live hash h).ncard ∧
      ∀ x, (replaced hash h orig new shares price o).find hash x =
        if x = orig then none else h.find hash x := by
  obtain ⟨h', erased, sound', _, shrunk, finds⟩ := sound.erase_live found
  have after : replaced hash h orig new shares price o = h' := by
    rw [replaced, sound.insert_refused _ _ _ _ refused, erased]
  rw [after, sound.ncard_live, sound'.ncard_live]
  exact ⟨shrunk, finds⟩

theorem Sound.allOrNothing_iff (sound : Sound hash h) (nonzero : new ≠ 0)
    (found : h.find hash orig = some o) :
    AllOrNothing hash h orig new shares price o (replaced hash h orig new shares price o) ↔
      Accepts hash h new := by
  refine ⟨fun whole => ?_, sound.replaced_accepted shares price nonzero found⟩
  by_contra refused
  have fewer := (sound.replaced_refused shares price found refused).1
  have kept := whole.kept
  omega

end OrderHash

namespace BatchAssembler

open OrderHash (AllOrNothing Accepts live replaced)

variable {k : LogCapacity} {σ : Type} {source : ByteSource σ} {hash : UInt64 → UInt64}
  {f : Filling k} {m : Msg} {orig new : UInt64} {shares price : UInt32} {o : OrderInfo}

theorem onMessage_replace (event : orderEvent? m.data = some (.replace orig new shares price))
    (length : m.len = msgLength MsgType.orderReplace.code)
    (found : f.asm.orders.find hash orig = some o) :
    (onMessage hash f m).2.asm.orders = replaced hash f.asm.orders orig new shares price o := by
  have type : msgType? (m.data Ofs.type) = some .orderReplace := by
    unfold orderEvent? at event
    cases type : msgType? (m.data Ofs.type) with
    | none => simp [type] at event
    | some t => cases t <;> simp_all
  have ships : m.ships = true := by
    rw [Msg.ships_iff, msgType?_eq_some.mp type, length]
    decide
  rw [onMessage_orders, absorb, if_pos ships, resolve_eq, event]
  simp only [resolveEvent, found]
  rfl

/-- A replace is all or nothing exactly when its insert is accepted: in every state of
every run, for a well-formed replace of a live order. -/
theorem replace_allOrNothing_iff {p q : ItchParser σ} {seen : List Msg} {stop : Bool}
    (passes : Passes source hash p (start k) seen q f stop)
    (event : orderEvent? m.data = some (.replace orig new shares price))
    (length : m.len = msgLength MsgType.orderReplace.code)
    (nonzero : new ≠ 0) (found : f.asm.orders.find hash orig = some o) :
    AllOrNothing hash f.asm.orders orig new shares price o (onMessage hash f m).2.asm.orders ↔
      f.asm.orders.find hash new = none ∧ f.asm.orders.size.toNat < capacity k / 2 := by
  rw [onMessage_replace event length found]
  exact passes.sound.allOrNothing_iff nonzero found

/-- An add and its replace by a new reference. -/
theorem replace_allOrNothing_fresh :
    let add : List UInt8 := [0, 36, 65, 0, 7, 0, 0, 0, 0, 0, 0, 0, 1, 0, 0, 0, 0, 0, 0, 0, 1, 66,
      0, 0, 0, 50, 65, 65, 80, 76, 32, 32, 32, 32, 0, 18, 214, 128]
    let replace : List UInt8 := [0, 35, 85, 0, 7, 0, 0, 0, 0, 0, 0, 0, 2, 0, 0, 0, 0, 0, 0, 0, 1,
      0, 0, 0, 0, 0, 0, 0, 2, 0, 0, 0, 80, 0, 18, 228, 144]
    ∃ seen q f m q',
      Passes memSource OrderHash.mix (ItchParser.start (add ++ replace) 64) (start 24) seen q f
        false ∧
      q.next memSource = (some m, q') ∧ m.bytes = replace.drop 2 ∧
      AllOrNothing OrderHash.mix f.asm.orders 1 2 80 1238160 ⟨1, 50, 1234560, 7, 66, 0⟩
        (onMessage OrderHash.mix f m).2.asm.orders := by
  intro add replace
  obtain ⟨seen, q, f, m, q', passes, _, call, frame, event, orders⟩ :=
    exists_passes_frame OrderHash.mix
      (ItchParser.hands_frames memSource_delivers (add ++ replace) (Nat.le_refl 64) (by decide))
      (ItchParser.start_bounds _ _) (by decide) (start 24)
      (show (frames (add ++ replace))[1]? = some (replace.drop 2) by decide)
  have is_replace : orderEvent? m.data = some (.replace 1 2 80 1238160) :=
    event.trans (by decide)
  have length : m.len = 35 :=
    (length_bytes m.data m.len).symm.trans (congrArg List.length frame)
  have found : f.asm.orders.find OrderHash.mix 1 = some ⟨1, 50, 1234560, 7, 66, 0⟩ := by
    rw [orders]
    decide +kernel
  refine ⟨seen, q, f, m, q', passes, call, frame, ?_⟩
  rw [replace_allOrNothing_iff passes is_replace length (by decide) found, orders]
  exact ⟨by decide +kernel, by decide +kernel⟩

/-- An add and its replace by the same reference: the order is lost. -/
theorem replace_loses_order :
    let add : List UInt8 := [0, 36, 65, 0, 7, 0, 0, 0, 0, 0, 0, 0, 1, 0, 0, 0, 0, 0, 0, 0, 1, 66,
      0, 0, 0, 50, 65, 65, 80, 76, 32, 32, 32, 32, 0, 18, 214, 128]
    let replace : List UInt8 := [0, 35, 85, 0, 7, 0, 0, 0, 0, 0, 0, 0, 2, 0, 0, 0, 0, 0, 0, 0, 1,
      0, 0, 0, 0, 0, 0, 0, 1, 0, 0, 0, 80, 0, 18, 228, 144]
    ∃ seen q f m q',
      Passes memSource OrderHash.mix (ItchParser.start (add ++ replace) 64) (start 24) seen q f
        false ∧
      q.next memSource = (some m, q') ∧ m.bytes = replace.drop 2 ∧
      f.asm.orders.find OrderHash.mix 1 = some ⟨1, 50, 1234560, 7, 66, 0⟩ ∧
      (onMessage OrderHash.mix f m).2.asm.orders.find OrderHash.mix 1 = none ∧
      ¬AllOrNothing OrderHash.mix f.asm.orders 1 1 80 1238160 ⟨1, 50, 1234560, 7, 66, 0⟩
        (onMessage OrderHash.mix f m).2.asm.orders := by
  intro add replace
  obtain ⟨seen, q, f, m, q', passes, _, call, frame, event, orders⟩ :=
    exists_passes_frame OrderHash.mix
      (ItchParser.hands_frames memSource_delivers (add ++ replace) (Nat.le_refl 64) (by decide))
      (ItchParser.start_bounds _ _) (by decide) (start 24)
      (show (frames (add ++ replace))[1]? = some (replace.drop 2) by decide)
  have found : f.asm.orders.find OrderHash.mix 1 = some ⟨1, 50, 1234560, 7, 66, 0⟩ := by
    rw [orders]
    decide +kernel
  have is_replace : orderEvent? m.data = some (.replace 1 1 80 1238160) :=
    event.trans (by decide)
  have length : m.len = 35 :=
    (length_bytes m.data m.len).symm.trans (congrArg List.length frame)
  have refused : ¬Accepts OrderHash.mix f.asm.orders 1 := fun accepts => by
    simp [accepts.1] at found
  have after := onMessage_replace is_replace length found
  refine ⟨seen, q, f, m, q', passes, call, frame, found, ?_, ?_⟩
  · rw [after, (passes.sound.replaced_refused _ _ found refused).2, if_pos rfl]
  · rw [after, passes.sound.allOrNothing_iff (by decide) found]
    exact refused

end BatchAssembler

end ItchAggregator
