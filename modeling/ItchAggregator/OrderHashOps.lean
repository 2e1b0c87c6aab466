import ItchAggregator.OrderHash

/-! What each operation of the order table does to the entries it holds, for any
hash function and any references. The slots are read as a linear-probing table
whose empty positions are the slots with `ref` zero. -/

namespace ItchAggregator.OrderHash

open LinearProbing (ProbeInv Distinct Holds count OnPath seek shiftBack)

variable {k : LogCapacity} {hash : UInt64 → UInt64} {h : OrderHash k}

def view (slots : Fin (capacity k) → OrderInfo) : LinearProbing.Table (capacity k) OrderInfo :=
  fun i => if (slots i).ref = 0 then none else some (slots i)

def home (hash : UInt64 → UInt64) (k : LogCapacity) (e : OrderInfo) : Fin (capacity k) :=
  bucket hash k e.ref

theorem masked_succ (i : Fin (capacity k)) : masked k (i.val + 1) = LinearProbing.succ i := by
  have hi := i.isLt
  have wrapped : (masked k (i.val + 1)).val = (i.val + 1) % capacity k :=
    Nat.and_two_pow_sub_one_eq_mod _ _
  apply Fin.ext
  rw [LinearProbing.succ_val, wrapped]
  by_cases inside : i.val + 1 < capacity k
  · rw [if_pos inside, Nat.mod_eq_of_lt inside]
  · rw [if_neg inside, show i.val + 1 = capacity k by omega, Nat.mod_self]

theorem reachable_iff {a hole i : Fin (capacity k)} :
    reachable a hole i = true ↔ OnPath a i hole := by
  unfold reachable OnPath
  split <;> simp only [Bool.and_eq_true, Bool.or_eq_true, decide_eq_true_eq, Fin.le_def,
    Fin.lt_def] at * <;> omega

section View

variable {slots : Fin (capacity k) → OrderInfo} {i : Fin (capacity k)} {e : OrderInfo}

theorem view_eq_some : view slots i = some e ↔ slots i = e ∧ e.ref ≠ 0 := by
  unfold view
  split
  · simp only [reduceCtorEq, false_iff, not_and, not_not]
    rintro rfl
    assumption
  · simp only [Option.some.injEq, iff_self_and]
    rintro rfl
    assumption

theorem view_eq_none : view slots i = none ↔ (slots i).ref = 0 := by
  unfold view
  split <;> simp_all

theorem view_update (ne : e.ref ≠ 0) :
    view (Function.update slots i e) = Function.update (view slots) i (some e) := by
  funext j
  by_cases hj : j = i
  · subst hj
    simp [view, ne]
  · simp [view, hj]

theorem view_update_zero (zero : e.ref = 0) :
    view (Function.update slots i e) = Function.update (view slots) i none := by
  funext j
  by_cases hj : j = i
  · subst hj
    simp [view, zero]
  · simp [view, hj]

theorem view_clear : view (clear slots i) = Function.update (view slots) i none :=
  view_update_zero rfl

end View

theorem probe_eq_seek (h : OrderHash k) (ref : UInt64) (visits : Nat) (i : Fin (capacity k)) :
    h.probe ref visits i = seek (fun e => e.ref == ref) (view h.slots) visits i := by
  induction visits generalizing i with
  | zero => rfl
  | succ visits ih =>
    unfold probe seek
    by_cases empty : (h.slots i).ref = 0
    · rw [if_pos empty, view_eq_none.mpr empty]
    · rw [if_neg empty, view_eq_some.mpr ⟨rfl, empty⟩, ih, masked_succ]
      simp

theorem shiftLoop_eq_shiftBack (visits : Nat) (slots : Fin (capacity k) → OrderInfo)
    (hole i : Fin (capacity k)) :
    (shiftLoop hash visits slots hole i).map view =
      shiftBack (home hash k) visits (view slots) hole i := by
  induction visits generalizing slots hole i with
  | zero => rfl
  | succ visits ih =>
    unfold shiftLoop shiftBack
    simp only [masked_succ]
    by_cases empty : (slots (LinearProbing.succ i)).ref = 0
    · rw [if_pos empty, view_eq_none.mpr empty]
      rfl
    · rw [if_neg empty, view_eq_some.mpr ⟨rfl, empty⟩]
      simp only [reachable_iff]
      by_cases crosses : OnPath (home hash k (slots (LinearProbing.succ i)))
          (LinearProbing.succ i) hole
      · have crosses' : OnPath (bucket hash k (slots (LinearProbing.succ i)).ref)
            (LinearProbing.succ i) hole := crosses
        rw [if_pos crosses, if_pos crosses', ih, view_clear, view_update empty]
      · have crosses' : ¬OnPath (bucket hash k (slots (LinearProbing.succ i)).ref)
            (LinearProbing.succ i) hole := crosses
        rw [if_neg crosses, if_neg crosses', ih]

def occupied (h : OrderHash k) : Nat := count (view h.slots)

/-- The invariant of the table, for any references the operations were given: the
probe chains are whole, a reference occurs once, and the load is at most half. -/
structure Sound (hash : UInt64 → UInt64) (h : OrderHash k) : Prop where
  path : ProbeInv (home hash k) (view h.slots)
  distinct : Distinct OrderInfo.ref (view h.slots)
  occupied_le : h.occupied ≤ h.size.toNat
  size_le : h.size.toNat ≤ capacity k / 2

theorem view_empty (k : LogCapacity) : view (empty k).slots = fun _ => none := by
  funext i
  simp [view, empty]

theorem empty_sound (hash : UInt64 → UInt64) (k : LogCapacity) : Sound hash (empty k) where
  path := view_empty k ▸ LinearProbing.probeInv_empty _
  distinct := view_empty k ▸ LinearProbing.distinct_empty _
  occupied_le := by
    rw [occupied, view_empty, LinearProbing.count_empty]
    exact Nat.zero_le _
  size_le := Nat.zero_le _

theorem Sound.room (sound : Sound hash h) : h.occupied < capacity k := by
  have := sound.occupied_le
  have := sound.size_le
  have := capacity_pos k
  omega

theorem Sound.lookup_cases (sound : Sound hash h) (ref : UInt64) :
    (∃ i e, h.lookup hash ref = .found i ∧ view h.slots i = some e ∧ e.ref = ref) ∨
      ∃ i, h.lookup hash ref = .vacant i ∧
        LinearProbing.Answer (fun e : OrderInfo => e.ref == ref) (view h.slots)
          (bucket hash k ref) (.vacant i) ∧
        ∀ e, Holds (view h.slots) e → e.ref ≠ ref := by
  rw [lookup, probe_eq_seek]
  exact LinearProbing.seek_key sound.path sound.room fun e he => by rw [home, he]

theorem Sound.find_eq_some (sound : Sound hash h) {ref : UInt64} {e : OrderInfo} :
    h.find hash ref = some e ↔ Holds (view h.slots) e ∧ e.ref = ref := by
  unfold find
  rcases sound.lookup_cases ref with ⟨i, d, result, entry, is_ref⟩ | ⟨i, result, _, absent⟩
  · rw [result]
    have slot := (view_eq_some.mp entry).1
    simp only [Option.some.injEq, slot]
    constructor
    · rintro rfl
      exact ⟨⟨i, entry⟩, is_ref⟩
    · rintro ⟨held, same⟩
      exact sound.distinct.holds_eq ⟨i, entry⟩ held (is_ref.trans same.symm)
  · rw [result]
    simp only [reduceCtorEq, false_iff, not_and]
    exact absent e

theorem Sound.find_eq_none (sound : Sound hash h) {ref : UInt64} :
    h.find hash ref = none ↔ ∀ e, Holds (view h.slots) e → e.ref ≠ ref := by
  constructor
  · intro none e held same
    simp [sound.find_eq_some.mpr ⟨held, same⟩] at none
  · intro absent
    rw [Option.eq_none_iff_forall_ne_some]
    intro e found
    obtain ⟨held, same⟩ := sound.find_eq_some.mp found
    exact absent e held same

theorem Sound.find_zero (sound : Sound hash h) : h.find hash 0 = none := by
  rw [sound.find_eq_none]
  rintro e ⟨i, entry⟩
  exact (view_eq_some.mp entry).2

/-! The operations, one lemma for each outcome. -/

theorem mask_succ (k : LogCapacity) : mask k + 1 = capacity k := by
  have := capacity_pos k
  unfold mask
  omega

theorem Sound.size_succ (sound : Sound hash h) : (h.size + 1).toNat = h.size.toNat + 1 := by
  have half := sound.size_le
  have wide : capacity k ≤ 2 ^ 63 := Nat.pow_le_pow_right (by decide) (by omega)
  rw [UInt64.toNat_add, show (1 : UInt64).toNat = 1 from rfl, Nat.mod_eq_of_lt (by omega)]

theorem find_changed {h' : OrderHash k} (sound : Sound hash h) (sound' : Sound hash h')
    {ref : UInt64} {new : Option OrderInfo} (is_ref : ∀ e, new = some e → e.ref = ref)
    (holds : ∀ d, Holds (view h'.slots) d ↔
      new = some d ∨ Holds (view h.slots) d ∧ d.ref ≠ ref) (x : UInt64) :
    h'.find hash x = if x = ref then new else h.find hash x := by
  apply Option.ext
  intro d
  by_cases hx : x = ref
  · subst hx
    rw [if_pos rfl, sound'.find_eq_some, holds]
    constructor
    · rintro ⟨is_new | ⟨_, other⟩, same⟩
      · exact is_new
      · exact absurd same other
    · exact fun is_new => ⟨Or.inl is_new, is_ref d is_new⟩
  · rw [if_neg hx, sound'.find_eq_some, sound.find_eq_some, holds]
    constructor
    · rintro ⟨is_new | ⟨held, _⟩, rfl⟩
      · exact absurd (is_ref d is_new) hx
      · exact ⟨held, rfl⟩
    · rintro ⟨held, rfl⟩
      exact ⟨Or.inr ⟨held, hx⟩, rfl⟩

theorem Sound.insert_full (locate : UInt16) (side : UInt8) (shares price : UInt32) {ref : UInt64}
    (sound : Sound hash h) (full : capacity k / 2 < h.size.toNat + 1) :
    h.insert hash ref locate side shares price = (false, h) := by
  rw [insert, if_pos (by rw [mask_succ, sound.size_succ]; exact full)]

theorem Sound.insert_duplicate (locate : UInt16) (side : UInt8) (shares price : UInt32)
    {ref : UInt64} (sound : Sound hash h) (live : h.find hash ref ≠ none) :
    h.insert hash ref locate side shares price = (false, h) := by
  unfold insert
  split
  · rfl
  · rcases sound.lookup_cases ref with ⟨i, d, result, _⟩ | ⟨i, result, _, absent⟩
    · rw [result]
    · exact absurd (sound.find_eq_none.mpr absent) live

/-- Every accepted insert counts; one of a nonzero reference binds it, one of
reference zero leaves the entries as they were. -/
theorem Sound.insert_accepted (locate : UInt16) (side : UInt8) (shares price : UInt32)
    {ref : UInt64} (sound : Sound hash h) (room : h.size.toNat + 1 ≤ capacity k / 2)
    (absent : h.find hash ref = none) :
    ∃ h', h.insert hash ref locate side shares price = (true, h') ∧ Sound hash h' ∧
      h'.size.toNat = h.size.toNat + 1 ∧
      (ref ≠ 0 → h'.occupied = h.occupied + 1 ∧ ∀ x, h'.find hash x =
        if x = ref then some ⟨ref, shares, price, locate, side, 0⟩ else h.find hash x) ∧
      (ref = 0 → h'.occupied = h.occupied ∧ ∀ x, h'.find hash x = h.find hash x) := by
  have fresh := sound.find_eq_none.mp absent
  obtain ⟨i, result, answer, _⟩ : ∃ i, h.lookup hash ref = .vacant i ∧
      LinearProbing.Answer (fun e : OrderInfo => e.ref == ref) (view h.slots)
        (bucket hash k ref) (.vacant i) ∧ ∀ e, Holds (view h.slots) e → e.ref ≠ ref := by
    rcases sound.lookup_cases ref with ⟨i, d, _, entry, is_ref⟩ | vacant
    · exact absurd is_ref (fresh d ⟨i, entry⟩)
    · exact vacant
  have vacant : view h.slots i = none := answer.2
  set e : OrderInfo := ⟨ref, shares, price, locate, side, 0⟩ with he
  have accepted : h.insert hash ref locate side shares price =
      (true, ⟨h.size + 1, Function.update h.slots i e⟩) := by
    rw [insert, if_neg (by rw [mask_succ, sound.size_succ]; omega), result]
  refine ⟨_, accepted, ?_⟩
  by_cases zero : ref = 0
  · -- the slot written is still an empty one
    have same : view (Function.update h.slots i e) = view h.slots := by
      rw [view_update_zero zero, ← vacant, Function.update_eq_self]
    have sound' : Sound hash ⟨h.size + 1, Function.update h.slots i e⟩ := by
      refine ⟨same ▸ sound.path, same ▸ sound.distinct, ?_, ?_⟩
      · have := sound.occupied_le
        rw [occupied, same, sound.size_succ]
        exact Nat.le_succ_of_le this
      · rw [sound.size_succ]
        exact room
    refine ⟨sound', sound.size_succ, fun ne => absurd zero ne, fun _ => ⟨?_, fun x => ?_⟩⟩
    · rw [occupied, same, occupied]
    · apply Option.ext
      intro d
      rw [sound'.find_eq_some, sound.find_eq_some, same]
  · have seen : view (Function.update h.slots i e) =
        Function.update (view h.slots) i (some e) := view_update zero
    have counted : occupied ⟨h.size + 1, Function.update h.slots i e⟩ = h.occupied + 1 := by
      rw [occupied, seen, LinearProbing.count_insert vacant]
      rfl
    have sound' : Sound hash ⟨h.size + 1, Function.update h.slots i e⟩ := by
      refine ⟨seen ▸ sound.path.insert answer, seen ▸ sound.distinct.insert fresh i, ?_, ?_⟩
      · rw [counted, sound.size_succ]
        exact Nat.succ_le_succ sound.occupied_le
      · rw [sound.size_succ]
        exact room
    refine ⟨sound', sound.size_succ, fun _ => ⟨counted, ?_⟩, fun is_zero => absurd is_zero zero⟩
    refine find_changed sound sound' (fun d is_new => Option.some.inj is_new ▸ rfl) fun d => ?_
    rw [seen, LinearProbing.holds_insert vacant, Option.some.injEq, eq_comm]
    exact or_congr_right ⟨fun held => ⟨held, fresh d held⟩, And.left⟩

theorem Sound.shiftLoop_total (sound : Sound hash h) {i : Fin (capacity k)} {e : OrderInfo}
    (entry : view h.slots i = some e) :
    ∃ slots, shiftLoop hash (capacity k) (clear h.slots i) i i = some slots ∧
      ProbeInv (home hash k) (view slots) ∧
      ∃ σ : Equiv.Perm (Fin (capacity k)),
        view slots = Function.update (view h.slots) i none ∘ σ := by
  obtain ⟨free, empty⟩ := LinearProbing.exists_free sound.room
  have ne : free ≠ i := by
    rintro rfl
    simp [empty] at entry
  obtain ⟨t, run, path, σ, perm⟩ := LinearProbing.shiftBack_total sound.path empty i ne
  have loop : (shiftLoop hash (capacity k) (clear h.slots i) i i).map view = some t := by
    rw [shiftLoop_eq_shiftBack, view_clear, run]
  obtain ⟨slots, result, seen⟩ := Option.map_eq_some_iff.mp loop
  exact ⟨slots, result, seen ▸ path, σ, seen.trans perm⟩

/-- A deletion takes out one entry and restores the invariant. -/
theorem Sound.eraseAt_spec (sound : Sound hash h) {i : Fin (capacity k)} {e : OrderInfo}
    (entry : view h.slots i = some e) :
    Sound hash (h.eraseAt hash i) ∧ (h.eraseAt hash i).size.toNat + 1 = h.size.toNat ∧
      (h.eraseAt hash i).occupied + 1 = h.occupied ∧
      ∀ x, (h.eraseAt hash i).find hash x = if x = e.ref then none else h.find hash x := by
  obtain ⟨slots, result, path, σ, perm⟩ := sound.shiftLoop_total entry
  have erased : h.eraseAt hash i = ⟨h.size - 1, slots⟩ := by
    rw [eraseAt, result, Option.getD_some]
  have held : 0 < h.occupied := by
    have := LinearProbing.count_remove entry
    unfold occupied
    omega
  have positive : 1 ≤ h.size.toNat := Nat.le_trans held sound.occupied_le
  have size : (h.size - 1).toNat + 1 = h.size.toNat := by
    rw [UInt64.toNat_sub_of_le h.size 1 (UInt64.le_iff_toNat_le.mpr positive),
      show (1 : UInt64).toNat = 1 from rfl]
    omega
  have counted : occupied ⟨h.size - 1, slots⟩ + 1 = h.occupied := by
    rw [occupied, perm, LinearProbing.count_comp]
    exact LinearProbing.count_remove entry
  have sound' : Sound hash ⟨h.size - 1, slots⟩ := by
    refine ⟨path, ?_, ?_, ?_⟩
    · rw [perm]
      exact (sound.distinct.remove i).comp σ
    · have := sound.occupied_le
      simp only
      omega
    · have := sound.size_le
      simp only
      omega
  rw [erased]
  refine ⟨sound', size, counted, find_changed sound sound' (by simp) fun d => ?_⟩
  rw [perm, LinearProbing.holds_comp, sound.distinct.holds_remove entry]
  simp

theorem Sound.erase_unknown (sound : Sound hash h) {ref : UInt64} (absent : h.find hash ref = none) :
    h.erase hash ref = (false, h) := by
  unfold erase
  rcases sound.lookup_cases ref with ⟨i, d, _, entry, is_ref⟩ | ⟨i, result, _⟩
  · exact absurd is_ref (sound.find_eq_none.mp absent d ⟨i, entry⟩)
  · rw [result]

theorem Sound.erase_live (sound : Sound hash h) {ref : UInt64} {e : OrderInfo}
    (live : h.find hash ref = some e) :
    ∃ h', h.erase hash ref = (true, h') ∧ Sound hash h' ∧ h'.size.toNat + 1 = h.size.toNat ∧
      h'.occupied + 1 = h.occupied ∧
      ∀ x, h'.find hash x = if x = ref then none else h.find hash x := by
  obtain ⟨held, is_ref⟩ := sound.find_eq_some.mp live
  rcases sound.lookup_cases ref with ⟨i, d, result, entry, same⟩ | ⟨_, _, _, absent⟩
  · refine ⟨h.eraseAt hash i, by rw [erase, result], ?_⟩
    exact same ▸ sound.eraseAt_spec entry
  · exact absurd is_ref (absent e held)

theorem Sound.reduce_unknown (sound : Sound hash h) {ref : UInt64} (canceled : UInt32)
    (absent : h.find hash ref = none) : h.reduce hash ref canceled = (false, h) := by
  unfold reduce
  rcases sound.lookup_cases ref with ⟨i, d, _, entry, is_ref⟩ | ⟨i, result, _⟩
  · exact absurd is_ref (sound.find_eq_none.mp absent d ⟨i, entry⟩)
  · rw [result]

theorem Sound.reduce_all (sound : Sound hash h) {ref : UInt64} {e : OrderInfo} {canceled : UInt32}
    (live : h.find hash ref = some e) (all : e.shares ≤ canceled) :
    ∃ h', h.reduce hash ref canceled = (true, h') ∧ Sound hash h' ∧
      h'.size.toNat + 1 = h.size.toNat ∧ h'.occupied + 1 = h.occupied ∧
      ∀ x, h'.find hash x = if x = ref then none else h.find hash x := by
  obtain ⟨held, is_ref⟩ := sound.find_eq_some.mp live
  rcases sound.lookup_cases ref with ⟨i, d, result, entry, same⟩ | ⟨_, _, _, absent⟩
  · have is_e : h.slots i = e := (view_eq_some.mp entry).1.trans
      (sound.distinct.holds_eq ⟨i, entry⟩ held (same.trans is_ref.symm))
    refine ⟨h.eraseAt hash i, by simp only [reduce, result, is_e, all, if_true], ?_⟩
    exact same ▸ sound.eraseAt_spec entry
  · exact absurd is_ref (absent e held)

theorem Sound.reduce_part (sound : Sound hash h) {ref : UInt64} {e : OrderInfo}
    {canceled : UInt32} (live : h.find hash ref = some e) (part : ¬e.shares ≤ canceled) :
    ∃ h', h.reduce hash ref canceled = (true, h') ∧ Sound hash h' ∧ h'.size = h.size ∧
      h'.occupied = h.occupied ∧
      ∀ x, h'.find hash x =
        if x = ref then some { e with shares := e.shares - canceled } else h.find hash x := by
  obtain ⟨held, is_ref⟩ := sound.find_eq_some.mp live
  rcases sound.lookup_cases ref with ⟨i, d, result, entry, same⟩ | ⟨_, _, _, absent⟩
  · obtain rfl := sound.distinct.holds_eq ⟨i, entry⟩ held (same.trans is_ref.symm)
    obtain ⟨slot, nonzero⟩ := view_eq_some.mp entry
    set d' : OrderInfo := { d with shares := d.shares - canceled } with hd'
    have seen : view (Function.update h.slots i d') =
        Function.update (view h.slots) i (some d') := view_update nonzero
    have counted : occupied ⟨h.size, Function.update h.slots i d'⟩ = h.occupied := by
      rw [occupied, seen, LinearProbing.count_modify entry]
      rfl
    have sound' : Sound hash ⟨h.size, Function.update h.slots i d'⟩ := by
      refine ⟨seen ▸ sound.path.modify entry rfl, seen ▸ sound.distinct.modify entry rfl, ?_,
        sound.size_le⟩
      rw [counted]
      exact sound.occupied_le
    refine ⟨_, by simp only [reduce, result, slot, part, if_false, ← hd'], sound', rfl, counted, ?_⟩
    refine find_changed sound sound' (fun f is_new => Option.some.inj is_new ▸ is_ref) fun f => ?_
    rw [seen, sound.distinct.holds_modify entry, Option.some.injEq, is_ref, eq_comm]
  · exact absurd is_ref (absent e held)

end ItchAggregator.OrderHash
