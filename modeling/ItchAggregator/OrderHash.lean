import ItchAggregator.Library.LinearProbing

/-! The open-addressing table of live orders. The capacity is a power of two that
fits the 64-bit constructor argument; a slot is empty when its `ref` is zero, so
clearing one leaves its other fields as they were. `hash` stands in the place of
`mix` in every operation. -/

namespace ItchAggregator

structure OrderInfo where
  ref : UInt64
  shares : UInt32
  price : UInt32
  locate : UInt16
  side : UInt8
  pad : UInt8
  deriving DecidableEq, Repr

abbrev LogCapacity := Fin 64

instance LogCapacity.neZero : NeZero 64 := ⟨by decide⟩

def capacity (k : LogCapacity) : Nat := 2 ^ k.val

theorem capacity_pos (k : LogCapacity) : 0 < capacity k := Nat.two_pow_pos _

def mask (k : LogCapacity) : Nat := capacity k - 1

structure OrderHash (k : LogCapacity) where
  size : UInt64
  slots : Fin (capacity k) → OrderInfo

namespace OrderHash

variable {k : LogCapacity}

def empty (k : LogCapacity) : OrderHash k := ⟨0, fun _ => ⟨0, 0, 0, 0, 0, 0⟩⟩

def masked (k : LogCapacity) (n : Nat) : Fin (capacity k) :=
  ⟨n &&& mask k, by
    rw [mask, capacity, Nat.and_two_pow_sub_one_eq_mod]
    exact Nat.mod_lt _ (Nat.two_pow_pos _)⟩

/-- The splitmix64 finalizer. -/
def mix (x : UInt64) : UInt64 :=
  let x := x + 0x9e3779b97f4a7c15
  let x := (x ^^^ (x >>> 30)) * 0xbf58476d1ce4e5b9
  let x := (x ^^^ (x >>> 27)) * 0x94d049bb133111eb
  x ^^^ (x >>> 31)

def bucket (hash : UInt64 → UInt64) (k : LogCapacity) (ref : UInt64) : Fin (capacity k) :=
  masked k (hash ref).toNat

/-- The probe loop that insert, find, reduce and erase share. The source puts no
bound on it; `endless` is the turn past the last visit, and no table the
operations build reaches it. -/
def probe (h : OrderHash k) (ref : UInt64) :
    Nat → Fin (capacity k) → LinearProbing.Outcome (capacity k)
  | 0, _ => .endless
  | visits + 1, i =>
    if (h.slots i).ref = 0 then .vacant i
    else if (h.slots i).ref = ref then .found i
    else probe h ref visits (masked k (i.val + 1))

def lookup (hash : UInt64 → UInt64) (h : OrderHash k) (ref : UInt64) :
    LinearProbing.Outcome (capacity k) :=
  h.probe ref (capacity k) (bucket hash k ref)

def insert (hash : UInt64 → UInt64) (h : OrderHash k) (ref : UInt64) (locate : UInt16)
    (side : UInt8) (shares price : UInt32) : Bool × OrderHash k :=
  -- refuse more than half load
  if (mask k + 1) / 2 < (h.size + 1).toNat then (false, h)
  else
    match h.lookup hash ref with
    | .vacant i =>
      (true,
        { size := h.size + 1
          slots := Function.update h.slots i ⟨ref, shares, price, locate, side, 0⟩ })
    | _ => (false, h)

def find (hash : UInt64 → UInt64) (h : OrderHash k) (ref : UInt64) : Option OrderInfo :=
  match h.lookup hash ref with
  | .found i => some (h.slots i)
  | _ => none

/-- Is `hole` in the cyclic probe interval from `home` up to `i`? -/
def reachable (home hole i : Fin (capacity k)) : Bool :=
  if home ≤ i then decide (home ≤ hole) && decide (hole < i)
  else decide (home ≤ hole) || decide (hole < i)

def clear (slots : Fin (capacity k) → OrderInfo) (i : Fin (capacity k)) :
    Fin (capacity k) → OrderInfo :=
  Function.update slots i { slots i with ref := 0 }

/-- The two nested loops of `erase_at`, one slot visit a turn: the scan goes on
past an entry that may stay, and restarts behind the hole an entry leaves when it
moves. `none` when the visits run out. -/
def shiftLoop (hash : UInt64 → UInt64) :
    Nat → (Fin (capacity k) → OrderInfo) → (hole i : Fin (capacity k)) →
      Option (Fin (capacity k) → OrderInfo)
  | 0, _, _, _ => none
  | visits + 1, slots, hole, i =>
    let i := masked k (i.val + 1)
    if (slots i).ref = 0 then some slots
    else if reachable (bucket hash k (slots i).ref) hole i then
      shiftLoop hash visits (clear (Function.update slots hole (slots i)) i) i i
    else shiftLoop hash visits slots hole i

def eraseAt (hash : UInt64 → UInt64) (h : OrderHash k) (hole : Fin (capacity k)) :
    OrderHash k where
  size := h.size - 1
  slots := (shiftLoop hash (capacity k) (clear h.slots hole) hole hole).getD h.slots

def reduce (hash : UInt64 → UInt64) (h : OrderHash k) (ref : UInt64) (canceled : UInt32) :
    Bool × OrderHash k :=
  match h.lookup hash ref with
  | .found i =>
    (true,
      if (h.slots i).shares ≤ canceled then h.eraseAt hash i
      else
        { h with
          slots := Function.update h.slots i
            { h.slots i with shares := (h.slots i).shares - canceled } })
  | _ => (false, h)

def erase (hash : UInt64 → UInt64) (h : OrderHash k) (ref : UInt64) : Bool × OrderHash k :=
  match h.lookup hash ref with
  | .found i => (true, h.eraseAt hash i)
  | _ => (false, h)

end OrderHash

end ItchAggregator
