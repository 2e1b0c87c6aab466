import ItchAggregator.Library.SwapPop
import ItchAggregator.MessageTypes

/-! The generator of synthetic streams. It keeps the resting orders it has added in a
flat list, and draws each message and the order it refers to at random. A step is `none`
where Python raises an `OverflowError`. -/

namespace ItchAggregator.MakeSynthetic

open SwapPop (swapPop)

/-- The values `randint(lo, hi)` may return. -/
abbrev Between (lo hi : Nat) := {n : Nat // lo ≤ n ∧ n ≤ hi}

/-- A value of `random()`, in multiples of 2^-53. -/
abbrev Roll := Fin (2 ^ 53)

/-- `roll < x` for the double `x = m / 2^(53 + e)`. -/
def below (roll : Roll) (m e : Nat) : Bool := roll.val * 2 ^ e < m

/-- `random.Random`: calls that answer within their range and change the state. Any
sequence of answers in range is that of some such generator. -/
structure Rng (ρ : Type) where
  randint : ρ → (lo hi : Nat) → lo ≤ hi → Between lo hi × ρ
  randrange : ρ → (n : Nat) → 0 < n → Fin n × ρ
  random : ρ → Roll × ρ

def symbols : List String :=
  ["AAPL", "MSFT", "AMZN", "GOOG", "TSLA", "NVDA", "META", "NFLX",
    "AMD", "INTC", "SPY", "QQQ", "JPM", "BAC", "XOM", "WMT"]

/-- `value.to_bytes(width, "big")`. -/
def be (width value : Nat) : Option (List UInt8) :=
  if value < 256 ^ width then
    some ((List.range width).reverse.map fun i => UInt8.ofNat (value / 256 ^ i))
  else none

def encode (s : String) : List UInt8 := s.toList.map Char.toUInt8

def header (mtype : Char) (locate ts : Nat) : Option (List UInt8) := do
  return [mtype.toUInt8] ++ (← be 2 locate) ++ (← be 2 0) ++ (← be 6 ts)

def stockField (sym : String) : List UInt8 :=
  let ascii := encode sym
  (ascii ++ List.replicate (8 - ascii.length) ' '.toUInt8).take 8

/-! The messages, field by field. -/

def stockDirectory (loc ts : Nat) (sym : String) : Option (List UInt8) := do
  let b := (← header 'R' loc ts) ++ stockField sym
  return b ++ List.replicate (39 - b.length) 0

def systemEvent (ts : Nat) (event : Char) : Option (List UInt8) := do
  return (← header 'S' 0 ts) ++ [event.toUInt8]

def addOrder (mpid : Bool) (locate ts ref : Nat) (side : Char) (shares : Nat) (sym : String)
    (price : Nat) : Option (List UInt8) := do
  return (← header (if mpid then 'F' else 'A') locate ts) ++ (← be 8 ref) ++ [side.toUInt8] ++
    (← be 4 shares) ++ stockField sym ++ (← be 4 price) ++ if mpid then encode "MPID" else []

def orderCancel (loc ts ref canceled : Nat) : Option (List UInt8) := do
  return (← header 'X' loc ts) ++ (← be 8 ref) ++ (← be 4 canceled)

def orderDelete (loc ts ref : Nat) : Option (List UInt8) := do
  return (← header 'D' loc ts) ++ (← be 8 ref)

def orderReplace (loc ts ref nextRef shares price : Nat) : Option (List UInt8) := do
  return (← header 'U' loc ts) ++ (← be 8 ref) ++ (← be 8 nextRef) ++ (← be 4 shares) ++
    (← be 4 price)

def trade (locate ts : Nat) (side : Char) (shares : Nat) (sym : String) (price matchNo : Nat) :
    Option (List UInt8) := do
  return (← header 'P' locate ts) ++ (← be 8 0) ++ [side.toUInt8] ++ (← be 4 shares) ++
    stockField sym ++ (← be 4 price) ++ (← be 8 matchNo)

def crossTrade (locate ts shares : Nat) (sym : String) (price matchNo : Nat) :
    Option (List UInt8) := do
  return (← header 'Q' locate ts) ++ (← be 8 shares) ++ stockField sym ++ (← be 4 price) ++
    (← be 8 matchNo) ++ ['O'.toUInt8]

/-! The loop. -/

/-- An entry of `live`, with the ranges its values were drawn from. -/
structure Resting where
  ref : Nat
  locate : Between 1 symbols.length
  side : Char
  shares : Between 1 1000
  price : Between 10000 4000000

structure Generator (ρ : Type) where
  rng : ρ
  out : List UInt8 := []
  ts : Nat := 34200000000000
  live : List Resting := []
  nextRef : Nat := 1
  matchNo : Nat := 1
  produced : Nat := 0

/-- What a turn of the loop draws before it branches. -/
structure Draw where
  locate : Between 1 symbols.length
  price : Between 10000 4000000
  shares : Between 1 1000
  roll : Roll

def symbolOf (locate : Between 1 symbols.length) : String :=
  symbols.get ⟨locate.val - 1, by have range := locate.property; omega⟩

def nMeta : Nat := symbols.length + 1

namespace Generator

variable {ρ : Type}

def emit (g : Generator ρ) (msg : List UInt8) : Option (Generator ρ) := do
  return { g with out := g.out ++ (← be 2 msg.length) ++ msg }

def preamble (r : ρ) : Option (Generator ρ) := do
  let g ← (symbols.zipIdx 1).foldlM (fun (g : Generator ρ) x => do
    g.emit (← stockDirectory x.2 g.ts x.1)) { rng := r }
  g.emit (← systemEvent g.ts 'O')

def draw (rng : Rng ρ) (g : Generator ρ) : Generator ρ × Draw :=
  let step := rng.randint g.rng 1 5000 (by decide)
  let locate := rng.randint step.2 1 symbols.length (by decide)
  let price := rng.randint locate.2 10000 4000000 (by decide)
  let shares := rng.randint price.2 1 1000 (by decide)
  let roll := rng.random shares.2
  ({ g with ts := g.ts + step.1.val, rng := roll.2 }, ⟨locate.1, price.1, shares.1, roll.1⟩)

def pickSide (rng : Rng ρ) (r : ρ) : Char × ρ :=
  let roll := rng.random r
  (if below roll.1 0x10000000000000 0 then 'B' else 'S', roll.2)

def add (rng : Rng ρ) (g : Generator ρ) (d : Draw) : Option (Generator ρ) := do
  let side := pickSide rng g.rng
  let mpid := rng.random side.2
  let msg ← addOrder (below mpid.1 0xccccccccccccd 2) d.locate g.ts g.nextRef side.1 d.shares
    (symbolOf d.locate) d.price
  let g ← { g with rng := mpid.2 }.emit msg
  return { g with
    live := g.live ++ [⟨g.nextRef, d.locate, side.1, d.shares, d.price⟩]
    nextRef := g.nextRef + 1 }

def cancel (rng : Rng ρ) (g : Generator ρ) (resting : 0 < g.live.length) :
    Option (Generator ρ) := do
  let k := rng.randrange g.rng g.live.length resting
  let o := g.live.get k.1
  let canceled := rng.randint k.2 1 o.shares o.shares.property.1
  let g' ← { g with rng := canceled.2 }.emit (← orderCancel o.locate g.ts o.ref canceled.1)
  if whole : o.shares.val ≤ canceled.1 then
    -- swap-pop: full cancel
    return { g' with live := swapPop g.live k.1 }
  else
    have left : 1 ≤ o.shares.val - canceled.1 ∧ o.shares.val - canceled.1 ≤ 1000 := by
      have range := o.shares.property
      omega
    return { g' with live := g.live.set k.1 { o with shares := ⟨_, left⟩ } }

def delete (rng : Rng ρ) (g : Generator ρ) (resting : 0 < g.live.length) :
    Option (Generator ρ) := do
  let k := rng.randrange g.rng g.live.length resting
  let o := g.live.get k.1
  let g' ← { g with rng := k.2 }.emit (← orderDelete o.locate g.ts o.ref)
  return { g' with live := swapPop g.live k.1 }

def replace (rng : Rng ρ) (g : Generator ρ) (d : Draw) (resting : 0 < g.live.length) :
    Option (Generator ρ) := do
  let k := rng.randrange g.rng g.live.length resting
  let o := g.live.get k.1
  let g' ← { g with rng := k.2 }.emit
    (← orderReplace o.locate g.ts o.ref g.nextRef d.shares d.price)
  return { g' with
    live := g.live.set k.1 ⟨g.nextRef, o.locate, o.side, d.shares, d.price⟩
    nextRef := g.nextRef + 1 }

def nonCross (rng : Rng ρ) (g : Generator ρ) (d : Draw) : Option (Generator ρ) := do
  let side := pickSide rng g.rng
  let g ← { g with rng := side.2 }.emit
    (← trade d.locate g.ts side.1 d.shares (symbolOf d.locate) d.price g.matchNo)
  return { g with matchNo := g.matchNo + 1 }

def cross (g : Generator ρ) (d : Draw) : Option (Generator ρ) := do
  let g ← g.emit (← crossTrade d.locate g.ts d.shares (symbolOf d.locate) d.price g.matchNo)
  return { g with matchNo := g.matchNo + 1 }

def act (rng : Rng ρ) (g : Generator ρ) (d : Draw) : Option (Generator ρ) :=
  if first : below d.roll 0x1ccccccccccccd 1 ∨ g.live.length = 0 then g.add rng d
  else
    have resting : 0 < g.live.length := by omega
    if below d.roll 0x13333333333333 0 then g.cancel rng resting
    else if below d.roll 0x18000000000000 0 then g.delete rng resting
    else if below d.roll 0x1b333333333333 0 then g.replace rng d resting
    else if below d.roll 0x1f0a3d70a3d70a 0 then g.nonCross rng d
    else g.cross d

def turn (rng : Rng ρ) (g : Generator ρ) : Option (Generator ρ) := do
  let x := g.draw rng
  let g ← x.1.act rng x.2
  return { g with produced := g.produced + 1 }

/-- The loop, `turns` of it at most; every turn produces a message. -/
def loop (rng : Rng ρ) (nTarget : Int) : (turns : Nat) → Generator ρ → Option (Generator ρ)
  | 0, g => some g
  | turns + 1, g =>
    if (g.produced : Int) < nTarget - nMeta then do loop rng nTarget turns (← g.turn rng)
    else some g

def total (g : Generator ρ) : Nat := nMeta + g.produced + 1

end Generator

/-- `main` up to the compression of `out`. -/
def main {ρ : Type} (rng : Rng ρ) (nTarget : Int) (r : ρ) : Option (Generator ρ) := do
  let g ← Generator.preamble r
  let g ← g.loop rng nTarget (nTarget - nMeta).toNat
  let g ← g.emit (← systemEvent g.ts 'C')
  return { g with out := g.out ++ (← be 2 0) }

end ItchAggregator.MakeSynthetic
