import Mathlib

/-! An unordered list with random access. Its entries have keys; while no key occurs
twice, the list stands for a partial map, and pushing, overwriting and removing an entry
are the map's operations, whatever order the removals leave the list in. -/

namespace ItchAggregator.SwapPop

variable {α κ β : Type}

/-- Move the last entry to the place `k` and drop the last place. -/
def swapPop (l : List α) (k : Fin l.length) : List α :=
  (l.set k (l.get ⟨l.length - 1, Nat.sub_lt (Fin.pos k) Nat.one_pos⟩)).dropLast

open scoped List in
theorem perm_swapPop (l : List α) (k : Fin l.length) : l.Perm (l.get k :: swapPop l k) := by
  obtain ⟨init, last, rfl⟩ : ∃ init last, l = init ++ [last] :=
    ⟨l.dropLast, l.getLast (List.length_pos_iff.mp (Fin.pos k)),
      (List.dropLast_append_getLast _).symm⟩
  have ends : (init ++ [last]).get ⟨(init ++ [last]).length - 1,
      Nat.sub_lt (Fin.pos k) Nat.one_pos⟩ = last := by simp
  unfold swapPop
  rw [ends]
  have bound : k.val < init.length + 1 := k.isLt.trans_eq (by simp)
  by_cases inside : k.val < init.length
  · have here : (init ++ [last]).get k = init[k.val] := by simp [List.getElem_append_left inside]
    rw [here, List.set_append_left _ _ inside, List.dropLast_concat]
    calc init ++ [last] ~ last :: init := List.perm_append_singleton last init
      _ ~ last :: init[k.val] :: init.eraseIdx k :=
        (List.getElem_cons_eraseIdx_perm inside).symm.cons last
      _ ~ init[k.val] :: last :: init.eraseIdx k := List.Perm.swap _ _ _
      _ ~ init[k.val] :: init.set k last := (List.set_perm_cons_eraseIdx inside last).symm.cons _
  · have final : k.val = init.length := by omega
    have here : (init ++ [last]).get k = last := by simp [final]
    rw [here, List.set_append_right _ _ (by omega), final, Nat.sub_self, List.set_cons_zero,
      List.dropLast_concat]
    exact List.perm_append_singleton last init

theorem mem_of_swapPop {l : List α} {k : Fin l.length} {e : α} (mem : e ∈ swapPop l k) : e ∈ l :=
  (perm_swapPop l k).mem_iff.mpr (List.mem_cons_of_mem _ mem)

/-- `l` lists the entries of the map `find`, each once. -/
structure Lists (key : α → κ) (val : α → β) (find : κ → Option β) (l : List α) : Prop where
  once : (l.map key).Nodup
  finds : ∀ x v, find x = some v ↔ ∃ e ∈ l, key e = x ∧ val e = v

namespace Lists

variable {key : α → κ} {val : α → β} {find : κ → Option β} {l l' : List α} {e : α}

theorem nil (key : α → κ) (val : α → β) : Lists key val (fun _ => none) [] :=
  ⟨List.nodup_nil, by simp⟩

theorem perm (lists : Lists key val find l) (same : l.Perm l') : Lists key val find l' where
  once := (same.map key).nodup_iff.mp lists.once
  finds := fun x v => by simp only [lists.finds, same.mem_iff]

theorem find_mem (lists : Lists key val find l) (mem : e ∈ l) : find (key e) = some (val e) :=
  (lists.finds _ _).mpr ⟨e, mem, rfl, rfl⟩

theorem find_none (lists : Lists key val find l) {x : κ} :
    find x = none ↔ x ∉ l.map key := by
  constructor
  · rintro absent mem
    obtain ⟨e, here, rfl⟩ := List.mem_map.mp mem
    simp [lists.find_mem here] at absent
  · intro absent
    by_contra found
    obtain ⟨v, found⟩ := Option.ne_none_iff_exists'.mp found
    obtain ⟨e, here, rfl, _⟩ := (lists.finds x v).mp found
    exact absent (List.mem_map_of_mem here)

theorem others (fresh : key e ∉ l.map key) {v : β} : ¬∃ d ∈ l, key d = key e ∧ val d = v := by
  rintro ⟨d, mem, same, _⟩
  exact fresh (same ▸ List.mem_map_of_mem mem)

variable [DecidableEq κ]

theorem cons (lists : Lists key val find l) (fresh : key e ∉ l.map key) :
    Lists key val (Function.update find (key e) (some (val e))) (e :: l) where
  once := List.nodup_cons.mpr ⟨fresh, lists.once⟩
  finds := fun x v => by
    by_cases own : x = key e
    · subst own
      simp [others fresh]
    · simp [Function.update_of_ne own, lists.finds, Ne.symm own]

theorem of_cons (lists : Lists key val find (e :: l)) :
    Lists key val (Function.update find (key e) none) l where
  once := (List.nodup_cons.mp lists.once).2
  finds := fun x v => by
    have fresh := (List.nodup_cons.mp lists.once).1
    by_cases own : x = key e
    · subst own
      simp [others fresh]
    · simp [Function.update_of_ne own, lists.finds, Ne.symm own]

theorem push (lists : Lists key val find l) (fresh : key e ∉ l.map key) :
    Lists key val (Function.update find (key e) (some (val e))) (l ++ [e]) :=
  (lists.cons fresh).perm (List.perm_append_singleton e l).symm

theorem swapPop (lists : Lists key val find l) (k : Fin l.length) :
    Lists key val (Function.update find (key (l.get k)) none) (swapPop l k) :=
  (lists.perm (perm_swapPop l k)).of_cons

theorem set (lists : Lists key val find l) (k : Fin l.length)
    (fresh : key e ≠ key (l.get k) → key e ∉ l.map key) :
    Lists key val
      (Function.update (Function.update find (key (l.get k)) none) (key e) (some (val e)))
      (l.set k e) := by
  have rest : l.Perm (l.get k :: l.eraseIdx k) := (List.getElem_cons_eraseIdx_perm k.isLt).symm
  have others := lists.perm rest
  refine (others.of_cons.cons (e := e) fun mem => ?_).perm
    (List.set_perm_cons_eraseIdx k.isLt e).symm
  by_cases own : key e = key (l.get k)
  · exact (List.nodup_cons.mp others.once).1 (own ▸ mem)
  · refine fresh own ((rest.map key).mem_iff.mpr ?_)
    exact List.mem_cons_of_mem _ mem

end Lists

end ItchAggregator.SwapPop
