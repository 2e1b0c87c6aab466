import Mathlib

/-! Records laid out field by field in an array of cells. A record is written one field
after the other; when its fields lie apart, each one can be read back. -/

namespace ItchAggregator.PackedRecord

variable {α : Type}

/-- A field: where it starts, and its cells. -/
structure Piece (α : Type) where
  offset : Nat
  cells : List α

namespace Piece

def store (f : Piece α) (m : Nat → α) : Nat → α := fun i =>
  if h : f.offset ≤ i ∧ i < f.offset + f.cells.length then
    f.cells.get ⟨i - f.offset, by omega⟩
  else m i

def Shown (m : Nat → α) (f : Piece α) : Prop := ∀ i v, f.cells[i]? = some v → m (f.offset + i) = v

def Apart (f g : Piece α) : Prop :=
  f.offset + f.cells.length ≤ g.offset ∨ g.offset + g.cells.length ≤ f.offset

variable {f g : Piece α} {m m' : Nat → α}

theorem store_inside {i : Nat} {v : α} (here : f.cells[i]? = some v) :
    f.store m (f.offset + i) = v := by
  obtain ⟨bound, rfl⟩ := List.getElem?_eq_some_iff.mp here
  rw [store, dif_pos (by omega)]
  simp

theorem store_outside {i : Nat} (outside : i < f.offset ∨ f.offset + f.cells.length ≤ i) :
    f.store m i = m i := dif_neg (by omega)

theorem shown_store (m : Nat → α) (f : Piece α) : Shown (f.store m) f := fun _ _ here =>
  store_inside here

theorem Shown.store (shown : Shown m f) (apart : Apart f g) : Shown (g.store m) f := by
  intro i v here
  have bound := (List.getElem?_eq_some_iff.mp here).1
  rw [store_outside (by unfold Apart at apart; omega)]
  exact shown i v here

theorem Shown.congr (shown : Shown m f)
    (same : ∀ i < f.cells.length, m' (f.offset + i) = m (f.offset + i)) : Shown m' f := by
  intro i v here
  rw [same i (List.getElem?_eq_some_iff.mp here).1]
  exact shown i v here

theorem Shown.store_eq (shown : Shown m f) : f.store m = m := by
  funext i
  by_cases inside : f.offset ≤ i ∧ i < f.offset + f.cells.length
  · obtain ⟨d, rfl⟩ := Nat.exists_eq_add_of_le inside.1
    have here := List.getElem?_eq_getElem (l := f.cells) (i := d) (by omega)
    rw [store_inside here, shown d _ here]
  · exact store_outside (by omega)

theorem store_append (a : Nat) (l r : List α) (m : Nat → α) :
    (Piece.mk (a + l.length) r).store ((Piece.mk a l).store m) = (Piece.mk a (l ++ r)).store m := by
  funext i
  by_cases right : a + l.length ≤ i ∧ i < a + l.length + r.length
  · obtain ⟨d, rfl⟩ := Nat.exists_eq_add_of_le right.1
    have bound : d < r.length := by omega
    have whole : (l ++ r)[l.length + d]? = some r[d] := by
      rw [List.getElem?_append_right (by omega), Nat.add_sub_cancel_left,
        List.getElem?_eq_getElem bound]
    rw [store_inside (f := ⟨a + l.length, r⟩) (List.getElem?_eq_getElem bound), Nat.add_assoc]
    exact (store_inside (f := ⟨a, l ++ r⟩) whole).symm
  · rw [store_outside (f := ⟨a + l.length, r⟩) (by simp only; omega)]
    by_cases left : a ≤ i ∧ i < a + l.length
    · obtain ⟨d, rfl⟩ := Nat.exists_eq_add_of_le left.1
      have bound : d < l.length := by omega
      have whole : (l ++ r)[d]? = some l[d] := by
        rw [List.getElem?_append_left bound, List.getElem?_eq_getElem bound]
      rw [store_inside (f := ⟨a, l⟩) (List.getElem?_eq_getElem bound)]
      exact (store_inside (f := ⟨a, l ++ r⟩) whole).symm
    · rw [store_outside (f := ⟨a, l⟩) (by simp only; omega),
        store_outside (f := ⟨a, l ++ r⟩) (by simp only [List.length_append]; omega)]

end Piece

def storeAll (fs : List (Piece α)) (m : Nat → α) : Nat → α := fs.foldl (fun m f => f.store m) m

theorem shown_storeAll {fs : List (Piece α)} (apart : fs.Pairwise Piece.Apart) (m : Nat → α) :
    ∀ f ∈ fs, Piece.Shown (storeAll fs m) f := by
  induction fs using List.reverseRecOn with
  | nil => simp
  | append_singleton fs g ih =>
    obtain ⟨earlier, _, last⟩ := List.pairwise_append.mp apart
    intro f mem
    rw [storeAll, List.foldl_append]
    rcases List.mem_append.mp mem with before | here
    · exact (ih earlier f before).store (last f before g (List.mem_singleton.mpr rfl))
    · obtain rfl := List.mem_singleton.mp here
      exact Piece.shown_store _ f

theorem shown_flatten {ls : List (List α)} {l : List α} {n : Nat} (here : ls[n]? = some l) (d : α) :
    Piece.Shown (fun i => ls.flatten.getD i d) ⟨(ls.take n).flatten.length, l⟩ := by
  intro i v inside
  obtain ⟨bound, own⟩ := List.getElem?_eq_some_iff.mp here
  have split : ls.flatten = (ls.take n).flatten ++ (l ++ (ls.drop (n + 1)).flatten) := by
    rw [← own, ← List.flatten_cons, ← List.drop_eq_getElem_cons bound, ← List.flatten_append,
      List.take_append_drop]
  have short : i < l.length := (List.getElem?_eq_some_iff.mp inside).1
  change ls.flatten.getD ((ls.take n).flatten.length + i) d = v
  rw [split, List.getD_eq_getElem?_getD, List.getElem?_append_right (Nat.le_add_right _ _),
    Nat.add_sub_cancel_left, List.getElem?_append_left short, inside]
  rfl

end ItchAggregator.PackedRecord
