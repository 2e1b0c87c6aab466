import Mathlib

/-! Byte memory seen through a pointer, with the copies of the C library.
A `uint8_t*` is a total byte function of the distance from it; what lies behind
the end of an allocation is whatever the function says, so nothing is assumed
about it and a read past the end is visible as a dependence on it. -/

namespace ItchAggregator

/-- The bytes seen from a pointer, by distance from it. -/
abbrev Ptr := Nat → UInt8

def shift (p : Ptr) (n : Nat) : Ptr := fun i => p (n + i)

@[simp] theorem shift_apply (p : Ptr) (n i : Nat) : shift p n i = p (n + i) := rfl

@[simp] theorem shift_zero (p : Ptr) : shift p 0 = p := by
  funext i
  simp

theorem shift_shift (p : Ptr) (a b : Nat) : shift (shift p a) b = shift p (a + b) := by
  funext i
  simp [Nat.add_assoc]

def bytes (p : Ptr) (n : Nat) : List UInt8 := (List.range n).map p

/-- A byte list as memory; zeros follow it. -/
def ptrOf (l : List UInt8) : Ptr := fun i => l.getD i 0

@[simp] theorem length_bytes (p : Ptr) (n : Nat) : (bytes p n).length = n := by simp [bytes]

theorem getD_bytes (p : Ptr) {n i : Nat} (h : i < n) : (bytes p n).getD i 0 = p i := by
  simp [bytes, List.getD, h]

theorem ptrOf_bytes (p : Ptr) {n i : Nat} (h : i < n) : ptrOf (bytes p n) i = p i :=
  getD_bytes p h

theorem bytes_ptrOf (l : List UInt8) : bytes (ptrOf l) l.length = l := by
  apply List.ext_getElem
  · simp
  · intro i _ h
    simp [bytes, ptrOf, List.getD, h]

theorem bytes_congr {p q : Ptr} {n : Nat} (h : ∀ i < n, p i = q i) : bytes p n = bytes q n := by
  apply List.map_congr_left
  intro i hi
  exact h i (List.mem_range.mp hi)

theorem bytes_add (p : Ptr) (m n : Nat) : bytes p (m + n) = bytes p m ++ bytes (shift p m) n := by
  simp only [bytes, List.range_add, List.map_append, List.map_map]
  rfl

def store (m : Ptr) (a : Nat) (b : UInt8) : Ptr := Function.update m a b

theorem store_apply (m : Ptr) (a : Nat) (b : UInt8) (i : Nat) :
    store m a b i = if i = a then b else m i := by
  simp [store, Function.update_apply]

/-- `memcpy(dst + a, src, n)`, and `memmove` too: the source is read before the
first write. -/
def memcpy (dst : Ptr) (a : Nat) (src : Ptr) (n : Nat) : Ptr :=
  fun i => if a ≤ i ∧ i < a + n then src (i - a) else dst i

def memset (dst : Ptr) (a : Nat) (b : UInt8) (n : Nat) : Ptr :=
  memcpy dst a (fun _ => b) n

theorem memcpy_inside (dst : Ptr) {a : Nat} (src : Ptr) {n i : Nat} (h : i < n) :
    memcpy dst a src n (a + i) = src i := by
  simp [memcpy, h]

theorem memcpy_outside (dst : Ptr) {a : Nat} (src : Ptr) {n i : Nat} (h : i < a ∨ a + n ≤ i) :
    memcpy dst a src n i = dst i := by
  rw [memcpy, if_neg (by omega)]

end ItchAggregator
