import Mathlib

/-! Open addressing with linear probing and backward-shift deletion, on a cyclic
table over any entry type. A table maps positions to entries, `home` gives the
position where the search for an entry starts. The one invariant is that no
position between an entry's home and its place is empty; a deletion restores it
by moving entries back into the hole, so its result is a permutation of the
table it started from. All position arithmetic is linear in the values. -/

namespace ItchAggregator.LinearProbing

variable {c : Nat} {α : Type}

def succ (i : Fin c) : Fin c :=
  if h : i.val + 1 < c then ⟨i.val + 1, h⟩ else ⟨0, i.pos⟩

theorem succ_val (i : Fin c) : (succ i).val = if i.val + 1 < c then i.val + 1 else 0 := by
  unfold succ
  split <;> simp_all

/-- `x` lies on the probe path from `a` up to, not including, `b`. -/
def OnPath (a b x : Fin c) : Prop :=
  a.val ≤ b.val ∧ a.val ≤ x.val ∧ x.val < b.val ∨
    b.val < a.val ∧ (a.val ≤ x.val ∨ x.val < b.val)

instance (a b x : Fin c) : Decidable (OnPath a b x) := by
  unfold OnPath
  infer_instance

theorem not_onPath_self (a x : Fin c) : ¬OnPath a a x := by
  unfold OnPath
  omega

theorem not_onPath_end (a b : Fin c) : ¬OnPath a b b := by
  unfold OnPath
  omega

theorem onPath_total (a x y : Fin c) : OnPath a x y ∨ x = y ∨ OnPath a y x := by
  unfold OnPath
  rw [Fin.ext_iff]
  omega

theorem onPath_succ {a b x : Fin c} (open_ : succ b ≠ a) :
    OnPath a (succ b) x ↔ OnPath a b x ∨ x = b := by
  have hs := succ_val b
  have hb := b.isLt
  have ha := a.isLt
  have hx := x.isLt
  rw [Ne, Fin.ext_iff] at open_
  rw [Fin.ext_iff]
  unfold OnPath
  split at hs <;> omega

/-- The number of steps from `i` forward to `x`; a full turn when they agree. -/
def ahead (i x : Fin c) : Nat := if i.val < x.val then x.val - i.val else x.val + c - i.val

theorem ahead_pos (i x : Fin c) : 0 < ahead i x := by
  have := i.isLt
  unfold ahead
  split <;> omega

theorem ahead_succ {i x : Fin c} (far : succ i ≠ x) : ahead (succ i) x + 1 = ahead i x := by
  have hs := succ_val i
  have hi := i.isLt
  have hx := x.isLt
  rw [Ne, Fin.ext_iff] at far
  unfold ahead
  split at hs <;> split <;> split <;> omega

theorem ahead_lt {i x : Fin c} (ne : i ≠ x) : ahead i x < c := by
  have hi := i.isLt
  have hx := x.isLt
  rw [Ne, Fin.ext_iff] at ne
  unfold ahead
  split <;> omega

abbrev Table (c : Nat) (α : Type) := Fin c → Option α

/-- No empty position between an entry's home and its place. -/
def ProbeInv (home : α → Fin c) (t : Table c α) : Prop :=
  ∀ j e, t j = some e → ∀ x, OnPath (home e) j x → t x ≠ none

theorem probeInv_empty (home : α → Fin c) : ProbeInv home (fun _ => none) := by
  intro j e h
  simp at h

/-! The search loop. -/

inductive Outcome (c : Nat)
  | found (i : Fin c)
  | vacant (i : Fin c)
  | endless
  deriving DecidableEq

/-- Walk forward to the first hit or the first empty position, within `visits`
positions. -/
def seek (hit : α → Bool) (t : Table c α) : Nat → Fin c → Outcome c
  | 0, _ => .endless
  | visits + 1, i =>
    match t i with
    | none => .vacant i
    | some e => if hit e then .found i else seek hit t visits (succ i)

def Passed (hit : α → Bool) (t : Table c α) (h i : Fin c) : Prop :=
  ∀ x, OnPath h i x → ∃ e, t x = some e ∧ hit e = false

def Answer (hit : α → Bool) (t : Table c α) (h : Fin c) : Outcome c → Prop
  | .found i => Passed hit t h i ∧ ∃ e, t i = some e ∧ hit e = true
  | .vacant i => Passed hit t h i ∧ t i = none
  | .endless => False

variable {home : α → Fin c} {t : Table c α} {hit : α → Bool}

/-- An empty position stops the walk before it gets around. -/
theorem seek_answer {free : Fin c} (empty : t free = none) {h : Fin c} :
    ∀ (visits : Nat) (i : Fin c), Passed hit t h i → (i = free ∨ ahead i free < visits) →
      0 < visits → Answer hit t h (seek hit t visits i) := by
  intro visits
  induction visits with
  | zero => intro i _ _ pos; exact absurd pos (Nat.lt_irrefl 0)
  | succ visits ih =>
    intro i passed near _
    unfold seek
    split
    case h_1 none => exact ⟨passed, none⟩
    case h_2 e entry =>
      by_cases is_hit : hit e = true
      · rw [if_pos is_hit]
        exact ⟨passed, e, entry, is_hit⟩
      · rw [if_neg is_hit]
        have ne : i ≠ free := by
          rintro rfl
          simp [empty] at entry
        have step : Passed hit t h (succ i) := by
          intro x onpath
          by_cases closed : succ i = h
          · exact absurd onpath (closed ▸ not_onPath_self _ _)
          · rcases (onPath_succ closed).mp onpath with before | rfl
            · exact passed x before
            · exact ⟨e, entry, Bool.eq_false_iff.mpr is_hit⟩
        have near' := near.resolve_left ne
        by_cases arrived : succ i = free
        · refine ih _ step (Or.inl arrived) ?_
          have := ahead_pos i free
          omega
        · have shorter := ahead_succ arrived
          exact ih _ step (Or.inr (by omega)) (by omega)

/-- With one empty position, `c` visits are enough from anywhere. -/
theorem seek_total {free : Fin c} (empty : t free = none) (h : Fin c) :
    Answer hit t h (seek hit t c h) := by
  refine seek_answer empty c h (fun x onpath => absurd onpath (not_onPath_self _ _)) ?_ h.pos
  by_cases here : h = free
  · exact Or.inl here
  · exact Or.inr (ahead_lt here)

/-- Under the invariant a search from its home finds every entry that is hit, or
an earlier hit. -/
theorem vacant_no_hit (inv : ProbeInv home t) {h i j : Fin c} {e : α}
    (answer : Answer hit t h (.vacant i)) (entry : t j = some e) (start : home e = h) :
    hit e = false := by
  obtain ⟨passed, none⟩ := answer
  rcases onPath_total h i j with before | rfl | behind
  · obtain ⟨e', entry', miss⟩ := passed j before
    rw [entry] at entry'
    exact Option.some.inj entry' ▸ miss
  · simp [none] at entry
  · exact absurd none (inv j e entry i (start ▸ behind))

theorem ProbeInv.insert (inv : ProbeInv home t) {i : Fin c} {e : α}
    (answer : Answer hit t (home e) (.vacant i)) :
    ProbeInv home (Function.update t i (some e)) := by
  intro j e' entry x onpath
  by_cases hx : x = i
  · simp [hx]
  · rw [Function.update_of_ne hx]
    by_cases hj : j = i
    · subst hj
      rw [Function.update_self] at entry
      obtain ⟨_, occupied, _⟩ := answer.1 x (Option.some.inj entry ▸ onpath)
      simp [occupied]
    · rw [Function.update_of_ne hj] at entry
      exact inv j e' entry x onpath

theorem ProbeInv.modify (inv : ProbeInv home t) {i : Fin c} {e e' : α} (entry : t i = some e)
    (same : home e' = home e) : ProbeInv home (Function.update t i (some e')) := by
  intro j d entry' x onpath
  by_cases hx : x = i
  · simp [hx]
  · rw [Function.update_of_ne hx]
    by_cases hj : j = i
    · subst hj
      rw [Function.update_self] at entry'
      obtain rfl := Option.some.inj entry'
      exact inv j e entry x (same ▸ onpath)
    · rw [Function.update_of_ne hj] at entry'
      exact inv j d entry' x onpath

/-! The deletion loop. -/

/-- Walk forward from the hole `hole`, which is empty; move back into it any entry
whose path crosses it, and go on with the position that entry left. -/
def shiftBack (home : α → Fin c) : Nat → Table c α → (hole i : Fin c) → Option (Table c α)
  | 0, _, _, _ => none
  | visits + 1, t, hole, i =>
    match t (succ i) with
    | none => some t
    | some e =>
      if OnPath (home e) (succ i) hole then
        shiftBack home visits
          (Function.update (Function.update t hole (some e)) (succ i) none) (succ i) (succ i)
      else shiftBack home visits t hole (succ i)

/-- `j` lies behind the hole and not beyond `i`. -/
def Scanned (hole i j : Fin c) : Prop :=
  hole.val ≤ i.val ∧ hole.val < j.val ∧ j.val ≤ i.val ∨
    i.val < hole.val ∧ (hole.val < j.val ∨ j.val ≤ i.val)

theorem not_scanned_self (i j : Fin c) : ¬Scanned i i j := by
  unfold Scanned
  omega

theorem scanned_succ {hole i j : Fin c} (h : Scanned hole (succ i) j) :
    Scanned hole i j ∨ j = succ i := by
  have hs := succ_val i
  have hi := i.isLt
  have hh := hole.isLt
  have hj := j.isLt
  rw [Fin.ext_iff]
  unfold Scanned at h ⊢
  split at hs <;> omega

theorem scanned_around {hole i j : Fin c} (closed : succ i = hole) (ne : j ≠ hole) :
    Scanned hole i j := by
  have hs := succ_val i
  have hi := i.isLt
  have hh := hole.isLt
  have hj := j.isLt
  rw [Fin.ext_iff] at closed
  rw [Ne, Fin.ext_iff] at ne
  unfold Scanned
  split at hs <;> omega

/-- A path through the hole that does not end among the scanned positions also
crosses the next position. -/
theorem onPath_beyond {a hole i j : Fin c} (through : OnPath a j hole)
    (unscanned : ¬Scanned hole i j) (ne : j ≠ hole) (ne' : j ≠ succ i) (open_ : succ i ≠ hole) :
    OnPath a j (succ i) := by
  have hs := succ_val i
  have hi := i.isLt
  have hh := hole.isLt
  have hj := j.isLt
  have ha := a.isLt
  rw [Ne, Fin.ext_iff] at ne ne' open_
  unfold Scanned at unscanned
  unfold OnPath at through ⊢
  split at hs <;> omega

theorem onPath_of_onPath_hole {a hole i x : Fin c} (through : OnPath a i hole)
    (h : OnPath a hole x) : OnPath a i x := by
  unfold OnPath at through h ⊢
  omega

/-- The state of the deletion loop: the invariant holds but for the hole, and no
entry scanned since the hole was made has its path through it. -/
structure Repair (home : α → Fin c) (t : Table c α) (hole i : Fin c) : Prop where
  empty : t hole = none
  path : ∀ j e, t j = some e → ∀ x, OnPath (home e) j x → t x ≠ none ∨ x = hole
  clear : ∀ j e, t j = some e → Scanned hole i j → ¬OnPath (home e) j hole

variable {hole i : Fin c} {e : α}

theorem Repair.start (inv : ProbeInv home t) (hole : Fin c) :
    Repair home (Function.update t hole none) hole hole where
  empty := Function.update_self ..
  path := by
    intro j e entry x onpath
    have hj : j ≠ hole := by
      rintro rfl
      simp at entry
    rw [Function.update_of_ne hj] at entry
    by_cases hx : x = hole
    · exact Or.inr hx
    · exact Or.inl (by rw [Function.update_of_ne hx]; exact inv j e entry x onpath)
  clear := fun j _ _ scanned => absurd scanned (not_scanned_self _ _)

theorem Repair.finish (r : Repair home t hole i) (stop : t (succ i) = none) :
    ProbeInv home t := by
  intro j e entry x onpath absent
  obtain rfl := (r.path j e entry x onpath).resolve_left (fun h => h absent)
  have ne : j ≠ x := by
    rintro rfl
    exact not_onPath_end _ _ onpath
  by_cases closed : succ i = x
  · exact r.clear j e entry (scanned_around closed ne) onpath
  · have unscanned : ¬Scanned x i j := fun h => r.clear j e entry h onpath
    have ne' : j ≠ succ i := by
      rintro rfl
      simp [stop] at entry
    have beyond := onPath_beyond onpath unscanned ne ne' closed
    exact (r.path j e entry _ beyond).elim (fun h => h stop) closed

theorem Repair.skip (r : Repair home t hole i) (entry : t (succ i) = some e)
    (avoids : ¬OnPath (home e) (succ i) hole) : Repair home t hole (succ i) where
  empty := r.empty
  path := r.path
  clear := by
    intro j e' entry' scanned
    rcases scanned_succ scanned with before | rfl
    · exact r.clear j e' entry' before
    · rw [entry] at entry'
      exact Option.some.inj entry' ▸ avoids

theorem Repair.move (r : Repair home t hole i) (entry : t (succ i) = some e)
    (through : OnPath (home e) (succ i) hole) :
    Repair home (Function.update (Function.update t hole (some e)) (succ i) none)
      (succ i) (succ i) where
  empty := Function.update_self ..
  path := by
    intro j e' entry' x onpath
    by_cases hx : x = succ i
    · exact Or.inr hx
    refine Or.inl ?_
    rw [Function.update_of_ne hx]
    by_cases hole_x : x = hole
    · simp [hole_x]
    rw [Function.update_of_ne hole_x]
    have hj : j ≠ succ i := by
      rintro rfl
      simp at entry'
    rw [Function.update_of_ne hj] at entry'
    by_cases moved : j = hole
    · -- the moved entry now needs only the part of its path before the hole
      subst moved
      rw [Function.update_self] at entry'
      obtain rfl := Option.some.inj entry'
      exact (r.path _ _ entry x (onPath_of_onPath_hole through onpath)).resolve_right hole_x
    · rw [Function.update_of_ne moved] at entry'
      exact (r.path j e' entry' x onpath).resolve_right hole_x
  clear := fun j _ _ scanned => absurd scanned (not_scanned_self _ _)

theorem move_eq_swap (empty : t hole = none) (entry : t i = some e) :
    Function.update (Function.update t hole (some e)) i none = t ∘ Equiv.swap hole i := by
  funext x
  by_cases hx : x = i
  · subst hx
    simp [empty]
  · rw [Function.update_of_ne hx]
    by_cases hh : x = hole
    · subst hh
      simp [entry]
    · simp [Function.update_of_ne hh, Equiv.swap_apply_of_ne_of_ne hh hx]

/-- The deletion loop ends at the first empty position, restores the invariant and
only permutes the table. -/
theorem shiftBack_spec {free : Fin c} :
    ∀ (visits : Nat) (t : Table c α) (hole i : Fin c), Repair home t hole i → t free = none →
      free ≠ hole → ahead i free ≤ visits →
      ∃ t', shiftBack home visits t hole i = some t' ∧ ProbeInv home t' ∧
        ∃ σ : Equiv.Perm (Fin c), t' = t ∘ σ := by
  intro visits
  induction visits with
  | zero =>
    intro t hole i _ _ _ near
    have := ahead_pos i free
    omega
  | succ visits ih =>
    intro t hole i r empty ne near
    unfold shiftBack
    cases entry : t (succ i) with
    | none => exact ⟨t, rfl, r.finish entry, Equiv.refl _, rfl⟩
    | some e =>
      have far : succ i ≠ free := by
        intro arrived
        rw [arrived, empty] at entry
        simp at entry
      have nearer := ahead_succ far
      by_cases through : OnPath (home e) (succ i) hole
      · simp only [through, if_true]
        rw [move_eq_swap r.empty entry]
        have moved := r.move entry through
        rw [move_eq_swap r.empty entry] at moved
        obtain ⟨t', run, inv, σ, perm⟩ := ih _ (succ i) (succ i) moved
          (by simp [Equiv.swap_apply_of_ne_of_ne ne far.symm, empty]) far.symm (by omega)
        refine ⟨t', run, inv, σ.trans (Equiv.swap hole (succ i)), ?_⟩
        rw [perm]
        rfl
      · simp only [through, if_false]
        exact ih t hole (succ i) (r.skip entry through) empty ne (by omega)

/-- Deleting the entry at `hole` from a table that has another empty position:
`c` visits are enough, and the result permutes the table with the entry taken
out. -/
theorem shiftBack_total (inv : ProbeInv home t) {free : Fin c} (empty : t free = none)
    (hole : Fin c) (ne : free ≠ hole) :
    ∃ t', shiftBack home c (Function.update t hole none) hole hole = some t' ∧ ProbeInv home t' ∧
      ∃ σ : Equiv.Perm (Fin c), t' = Function.update t hole none ∘ σ :=
  shiftBack_spec c _ hole hole (Repair.start inv hole) (by rw [Function.update_of_ne ne, empty])
    ne (Nat.le_of_lt (ahead_lt ne.symm))

/-! What a table holds, whatever the positions. -/

def Holds (t : Table c α) (e : α) : Prop := ∃ i, t i = some e

theorem holds_comp (σ : Equiv.Perm (Fin c)) : Holds (t ∘ σ) e ↔ Holds t e := by
  constructor
  · rintro ⟨i, entry⟩
    exact ⟨σ i, entry⟩
  · rintro ⟨i, entry⟩
    exact ⟨σ.symm i, by simpa using entry⟩

theorem holds_insert (vacant : t i = none) {d : α} :
    Holds (Function.update t i (some e)) d ↔ d = e ∨ Holds t d := by
  constructor
  · rintro ⟨j, entry⟩
    by_cases hj : j = i
    · subst hj
      rw [Function.update_self] at entry
      exact Or.inl (Option.some.inj entry).symm
    · rw [Function.update_of_ne hj] at entry
      exact Or.inr ⟨j, entry⟩
  · rintro (rfl | ⟨j, entry⟩)
    · exact ⟨i, Function.update_self ..⟩
    · have hj : j ≠ i := by
        rintro rfl
        simp [vacant] at entry
      exact ⟨j, by rw [Function.update_of_ne hj, entry]⟩

variable {K : Type} {key : α → K}

def Distinct (key : α → K) (t : Table c α) : Prop :=
  ∀ i j d e, t i = some d → t j = some e → key d = key e → i = j

theorem distinct_empty (key : α → K) : Distinct key (fun _ : Fin c => none) := by
  intro _ _ _ _ h
  simp at h

theorem Distinct.comp (distinct : Distinct key t) (σ : Equiv.Perm (Fin c)) :
    Distinct key (t ∘ σ) :=
  fun _ _ d e hd he same => σ.injective (distinct _ _ d e hd he same)

theorem Distinct.holds_eq (distinct : Distinct key t) {d : α} (hd : Holds t d) (he : Holds t e)
    (same : key d = key e) : d = e := by
  obtain ⟨i, hi⟩ := hd
  obtain ⟨j, hj⟩ := he
  obtain rfl := distinct i j d e hi hj same
  exact Option.some.inj (hi.symm.trans hj)

theorem Distinct.insert (distinct : Distinct key t) (fresh : ∀ d, Holds t d → key d ≠ key e)
    (i : Fin c) : Distinct key (Function.update t i (some e)) := by
  intro a b d d' ha hb same
  by_cases hai : a = i <;> by_cases hbi : b = i
  · exact hai.trans hbi.symm
  · subst hai
    rw [Function.update_self] at ha
    rw [Function.update_of_ne hbi] at hb
    exact absurd (Option.some.inj ha ▸ same).symm (fresh d' ⟨b, hb⟩)
  · subst hbi
    rw [Function.update_self] at hb
    rw [Function.update_of_ne hai] at ha
    exact absurd (same.trans (congrArg key (Option.some.inj hb).symm)) (fresh d ⟨a, ha⟩)
  · rw [Function.update_of_ne hai] at ha
    rw [Function.update_of_ne hbi] at hb
    exact distinct a b d d' ha hb same

theorem Distinct.remove (distinct : Distinct key t) (i : Fin c) :
    Distinct key (Function.update t i none) := by
  intro a b d d' ha hb
  have hai : a ≠ i := by
    rintro rfl
    simp at ha
  have hbi : b ≠ i := by
    rintro rfl
    simp at hb
  rw [Function.update_of_ne hai] at ha
  rw [Function.update_of_ne hbi] at hb
  exact distinct a b d d' ha hb

theorem Distinct.holds_remove (distinct : Distinct key t) (entry : t i = some e) {d : α} :
    Holds (Function.update t i none) d ↔ Holds t d ∧ key d ≠ key e := by
  constructor
  · rintro ⟨j, hj⟩
    have hji : j ≠ i := by
      rintro rfl
      simp at hj
    rw [Function.update_of_ne hji] at hj
    exact ⟨⟨j, hj⟩, fun same => hji (distinct j i d e hj entry same)⟩
  · rintro ⟨⟨j, hj⟩, other⟩
    have hji : j ≠ i := by
      rintro rfl
      rw [entry] at hj
      exact other (congrArg key (Option.some.inj hj).symm)
    exact ⟨j, by rw [Function.update_of_ne hji, hj]⟩

theorem update_eq_remove_insert (t : Table c α) (i : Fin c) (o : Option α) :
    Function.update t i o = Function.update (Function.update t i none) i o := by simp

theorem Distinct.modify (distinct : Distinct key t) (entry : t i = some e) {e' : α}
    (same : key e' = key e) : Distinct key (Function.update t i (some e')) := by
  rw [update_eq_remove_insert]
  refine (distinct.remove i).insert (fun d hd => ?_) i
  rw [same]
  exact ((distinct.holds_remove entry).mp hd).2

theorem Distinct.holds_modify (distinct : Distinct key t) (entry : t i = some e) {d e' : α} :
    Holds (Function.update t i (some e')) d ↔ d = e' ∨ Holds t d ∧ key d ≠ key e := by
  rw [update_eq_remove_insert, holds_insert (Function.update_self ..),
    distinct.holds_remove entry]

def count (t : Table c α) : Nat := (Finset.univ.filter fun i => (t i).isSome).card

theorem count_empty : count (fun _ : Fin c => (none : Option α)) = 0 := by simp [count]

theorem count_comp (σ : Equiv.Perm (Fin c)) : count (t ∘ σ) = count t := by
  unfold count
  refine Finset.card_bij (fun i _ => σ i) ?_ (fun a _ b _ h => σ.injective h) ?_
  · intro i hi
    simpa using hi
  · intro j hj
    exact ⟨σ.symm j, by simpa using hj, by simp⟩

theorem count_insert (vacant : t i = none) :
    count (Function.update t i (some e)) = count t + 1 := by
  have grown : (Finset.univ.filter fun j => (Function.update t i (some e) j).isSome) =
      insert i (Finset.univ.filter fun j => (t j).isSome) := by
    ext j
    by_cases hj : j = i
    · subst hj
      simp
    · simp [hj]
  rw [count, grown, Finset.card_insert_of_notMem (by simp [vacant])]
  rfl

theorem count_remove (entry : t i = some e) : count (Function.update t i none) + 1 = count t := by
  have back : count t = count (Function.update (Function.update t i none) i (some e)) := by
    rw [Function.update_idem, ← entry, Function.update_eq_self]
  rw [back, count_insert (Function.update_self ..)]

theorem count_modify (entry : t i = some e) (e' : α) :
    count (Function.update t i (some e')) = count t := by
  rw [update_eq_remove_insert, count_insert (Function.update_self ..), count_remove entry]

theorem exists_free (room : count t < c) : ∃ free, t free = none := by
  by_contra full
  have all : (Finset.univ.filter fun i => (t i).isSome) = Finset.univ := by
    ext i
    simp only [Finset.mem_filter, Finset.mem_univ, true_and, iff_true]
    exact Option.isSome_iff_ne_none.mpr fun h => full ⟨i, h⟩
  rw [count, all, Finset.card_univ, Fintype.card_fin] at room
  exact absurd room (Nat.lt_irrefl c)

/-- A search by key in a table that is not full: it stops at the entry of that
key, or at an empty position where such an entry may be written. -/
theorem seek_key [DecidableEq K] (inv : ProbeInv home t) (room : count t < c) {k : K} {h : Fin c}
    (start : ∀ e, key e = k → home e = h) :
    (∃ i e, seek (fun e => key e == k) t c h = .found i ∧ t i = some e ∧ key e = k) ∨
      ∃ i, seek (fun e => key e == k) t c h = .vacant i ∧
        Answer (fun e => key e == k) t h (.vacant i) ∧ ∀ e, Holds t e → key e ≠ k := by
  obtain ⟨free, empty⟩ := exists_free room
  have answer : Answer (fun e => key e == k) t h (seek (fun e => key e == k) t c h) :=
    seek_total empty h
  generalize seek (fun e => key e == k) t c h = outcome at answer ⊢
  cases outcome with
  | found i =>
    obtain ⟨_, e, entry, is_key⟩ := answer
    exact Or.inl ⟨i, e, rfl, entry, by simpa using is_key⟩
  | vacant i =>
    refine Or.inr ⟨i, rfl, answer, ?_⟩
    rintro e ⟨j, entry⟩ is_key
    have miss := vacant_no_hit inv answer entry (start e is_key)
    simp [is_key] at miss
  | endless => exact absurd answer id

end ItchAggregator.LinearProbing
