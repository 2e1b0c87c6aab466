import ItchAggregator.OrderBook

/-! The live orders of the table, along the states of a run. The table stays sound
whatever references the messages carry, so that the occupied slots are as many as
the references it finds; what is left to see is how a message changes their number. -/

namespace ItchAggregator

namespace OrderHash

variable {k : LogCapacity} {hash : UInt64 → UInt64} {h : OrderHash k}

/-- The references that `find` finds. -/
def live (hash : UInt64 → UInt64) (h : OrderHash k) : Set UInt64 :=
  {ref | h.find hash ref ≠ none}

theorem Sound.ncard_live (sound : Sound hash h) : (live hash h).ncard = h.occupied := by
  let refs := (Finset.univ.image fun i => (h.slots i).ref).filter fun ref => h.find hash ref ≠ none
  have mem : ∀ ref, ref ∈ refs ↔ h.find hash ref ≠ none := by
    intro ref
    simp only [refs, Finset.mem_filter, Finset.mem_image, Finset.mem_univ, true_and,
      and_iff_right_iff_imp]
    intro found
    obtain ⟨e, is_some⟩ := Option.ne_none_iff_exists'.mp found
    obtain ⟨⟨i, entry⟩, same⟩ := sound.find_eq_some.mp is_some
    exact ⟨i, by rw [(view_eq_some.mp entry).1, same]⟩
  have coe : live hash h = ↑refs := by
    ext ref
    rw [Finset.mem_coe, mem]
    rfl
  rw [coe, Set.ncard_coe_finset, sound.card_live mem]

/-! Every call keeps the table sound. -/

theorem Sound.insert (sound : Sound hash h) (ref : UInt64) (locate : UInt16) (side : UInt8)
    (shares price : UInt32) : Sound hash (h.insert hash ref locate side shares price).2 := by
  by_cases room : h.size.toNat + 1 ≤ capacity k / 2
  · cases found : h.find hash ref with
    | none =>
      obtain ⟨h', result, sound', _⟩ := sound.insert_accepted locate side shares price room found
      rw [result]
      exact sound'
    | some e => rwa [sound.insert_duplicate _ _ _ _ (by simp [found])]
  · rwa [sound.insert_full _ _ _ _ (by omega)]

theorem Sound.reduce (sound : Sound hash h) (ref : UInt64) (canceled : UInt32) :
    Sound hash (h.reduce hash ref canceled).2 := by
  cases found : h.find hash ref with
  | none => rwa [sound.reduce_unknown canceled found]
  | some e =>
    by_cases all : e.shares ≤ canceled
    · obtain ⟨h', result, sound', _⟩ := sound.reduce_all found all
      rw [result]
      exact sound'
    · obtain ⟨h', result, sound', _⟩ := sound.reduce_part found all
      rw [result]
      exact sound'

theorem Sound.erase (sound : Sound hash h) (ref : UInt64) : Sound hash (h.erase hash ref).2 := by
  cases found : h.find hash ref with
  | none => rwa [sound.erase_unknown found]
  | some e =>
    obtain ⟨h', result, sound', _⟩ := sound.erase_live found
    rw [result]
    exact sound'

/-- The insert is accepted: the reference is not live and the load allows one more. -/
def Accepts (hash : UInt64 → UInt64) (h : OrderHash k) (ref : UInt64) : Prop :=
  h.find hash ref = none ∧ h.size.toNat < capacity k / 2

theorem Sound.insert_fst (sound : Sound hash h) (ref : UInt64) (locate : UInt16) (side : UInt8)
    (shares price : UInt32) :
    (h.insert hash ref locate side shares price).1 = true ↔ Accepts hash h ref := by
  by_cases room : h.size.toNat + 1 ≤ capacity k / 2
  · cases found : h.find hash ref with
    | none =>
      obtain ⟨h', result, _⟩ := sound.insert_accepted locate side shares price room found
      rw [result]
      exact iff_of_true rfl ⟨found, room⟩
    | some e =>
      rw [sound.insert_duplicate _ _ _ _ (by simp [found])]
      exact iff_of_false Bool.false_ne_true fun accepts => by simp [accepts.1] at found
  · rw [sound.insert_full _ _ _ _ (by omega)]
    exact iff_of_false Bool.false_ne_true fun accepts => room accepts.2

theorem Sound.insert_refused (sound : Sound hash h) {ref : UInt64} (locate : UInt16) (side : UInt8)
    (shares price : UInt32) (refused : ¬Accepts hash h ref) :
    h.insert hash ref locate side shares price = (false, h) := by
  by_cases full : capacity k / 2 < h.size.toNat + 1
  · exact sound.insert_full _ _ _ _ full
  · exact sound.insert_duplicate _ _ _ _ fun absent => refused ⟨absent, by omega⟩

end OrderHash

namespace BatchAssembler

open OrderHash (Sound)

variable {k : LogCapacity} {σ : Type} {source : ByteSource σ} {hash : UInt64 → UInt64}
  {a : BatchAssembler k} {f : Filling k} {m : Msg}

theorem resolveEvent_sound (sound : Sound hash a.orders) (e : OrderEvent) :
    Sound hash (resolveEvent hash a e).2.orders := by
  cases e with
  | add ref o => exact sound.insert ..
  | cancel ref canceled => exact sound.reduce ..
  | delete ref => exact sound.erase ..
  | replace orig new shares price =>
    cases found : a.orders.find hash orig with
    | none => simpa only [resolveEvent, found] using sound
    | some o =>
      simp only [resolveEvent, found]
      exact (sound.insert ..).erase orig

theorem absorb_sound (sound : Sound hash a.orders) (m : Msg) :
    Sound hash (absorb hash a m).orders := by
  unfold absorb
  split
  · rw [resolve_eq]
    split
    · exact resolveEvent_sound sound _
    · exact sound
  · split <;> exact sound

/-- The order table moves with the messages whatever the batches are. -/
theorem onMessage_orders :
    (onMessage hash f m).2.asm.orders = (absorb hash f.asm m).orders := by
  by_cases opens : m.opens = true
  · rw [absorb_opens opens]
    by_cases empty : f.batchMeta.nMsgs = 0
    · rw [onMessage_opens_empty opens empty]
    · rw [onMessage_opens_break opens empty]
  · by_cases ships : m.ships = true
    · rw [onMessage_ships ships]
      rfl
    · rw [onMessage_passes (Bool.eq_false_iff.mpr opens) (Bool.eq_false_iff.mpr ships)]

theorem Passes.sound {p₀ p : ItchParser σ} {seen : List Msg} {stop : Bool}
    (passes : Passes source hash p₀ (start k) seen p f stop) : Sound hash f.asm.orders := by
  induction passes with
  | enter dst => exact OrderHash.empty_sound hash k
  | message _ _ _ ih =>
    rw [onMessage_orders]
    exact absorb_sound ih _
  | broken _ _ ih => exact ih
  | full _ _ _ ih => exact ih
  | ended _ _ _ _ ih => exact ih

/-- Every frame handed out is the next message in some state with room, and the table of
that state is the one of the frames before. -/
theorem exists_passes_frame (hash : UInt64 → UInt64) {p : ItchParser σ} {fs : List (List UInt8)}
    (hands : p.Hands source fs) (bounds : p.Bounds) (long : ∀ f ∈ fs, LongEnough f)
    (a : BatchAssembler k) {n : Nat} {frame : List UInt8} (here : fs[n]? = some frame) :
    ∃ seen q f m q', Passes source hash p a seen q f false ∧ f.batchMeta.nMsgs < batchMsgs ∧
      q.next source = (some m, q') ∧ m.bytes = frame ∧ orderEvent? m.data = orderEvent? (ptrOf frame) ∧
      f.asm.orders = (absorbAll hash a ((fs.take n).map Msg.ofFrame)).orders := by
  obtain ⟨ms, r, yields, rfl⟩ := hands
  rw [List.getElem?_map, Option.map_eq_some_iff] at here
  obtain ⟨m, here, rfl⟩ := here
  obtain ⟨inside, is_m⟩ := List.getElem?_eq_some_iff.mp here
  obtain ⟨q, f, stop, passes⟩ :
      ∃ q f stop, Passes source hash p a (ms.take n) q f stop :=
    exists_passes yields bounds a (Nat.le_of_lt inside)
  have kept := passes.kept yields bounds
  obtain ⟨rest, split, ahead⟩ := kept.ahead
  have tail : ms.take n ++ rest = ms.take n ++ m :: ms.drop (n + 1) := by
    rw [← split, ← is_m, ← List.drop_eq_getElem_cons, List.take_append_drop]
  rw [List.append_cancel_left_eq] at tail
  subst tail
  obtain ⟨q', call⟩ : ∃ q', q.next source = (some m, q') := by
    cases ahead with
    | message call _ => exact ⟨_, call⟩
  have positive : ∀ x ∈ ms, 0 < x.len := yields.positive
  have orders : f.asm.orders =
      (absorbAll hash a (((ms.map Msg.bytes).take n).map Msg.ofFrame)).orders := by
    rw [← List.map_take, List.map_map]
    have frames : absorbAll hash a ((ms.take n).map (Msg.ofFrame ∘ Msg.bytes)) =
        absorbAll hash a (ms.take n) :=
      absorbAll_frames (fun x hx => positive x (List.mem_of_mem_take hx))
        fun x hx => long _ (List.mem_map_of_mem (List.mem_of_mem_take hx))
    have same := congrArg BatchAssembler.orders kept.asm
    rw [frames]
    exact same
  have mem : m ∈ ms := List.mem_of_getElem? here
  have event := orderEvent?_same
    (Msg.same_ofFrame (positive m mem) (long _ (List.mem_map_of_mem mem)))
  have empty : (Filling.enter f.asm fun _ => 0).batchMeta.nMsgs < batchMsgs := Nat.two_pow_pos 13
  cases stop with
  | true => exact ⟨_, _, _, m, q', passes.broken fun _ => 0, empty, call, rfl, event, orders⟩
  | false =>
    by_cases room : f.batchMeta.nMsgs < batchMsgs
    · exact ⟨_, _, _, m, q', passes, room, call, rfl, event, orders⟩
    · exact ⟨_, _, _, m, q', passes.full (fun _ => 0) room, empty, call, rfl, event, orders⟩

end BatchAssembler

end ItchAggregator
