import ItchAggregator.MessageTypes

/-! The framing layer: a byte source is pulled through a fixed refill buffer and
cut at two-byte big-endian length prefixes. The state is the class's own: window
`head..tail` of the buffer, the two sticky flags and the counters. -/

namespace ItchAggregator

/-- `read(dst, n)`: -1 is `none`, otherwise the bytes written to `dst`, at most
`n` of them; no bytes is the end of file. -/
structure ByteSource (σ : Type) where
  read : σ → (n : Nat) → Option {bs : List UInt8 // bs.length ≤ n} × σ

def memSource : ByteSource (List UInt8) where
  read left n := (some ⟨left.take n, List.length_take_le n left⟩, left.drop n)

structure ItchParser (σ : Type) where
  src : σ
  buf : Ptr
  bufBytes : Nat
  head : Nat
  tail : Nat
  eof : Bool
  error : Bool
  total : Nat
  counts : UInt8 → Nat

/-- A message as `next` hands it out: the pointer sees the rest of the buffer
behind the `len` bytes of the frame. -/
structure Msg where
  data : Ptr
  len : Nat

def Msg.bytes (m : Msg) : List UInt8 := ItchAggregator.bytes m.data m.len

namespace ItchParser

variable {σ : Type}

def start (src : σ) (bufBytes : Nat) : ItchParser σ where
  src := src
  buf := fun _ => 0
  bufBytes := bufBytes
  head := 0
  tail := 0
  eof := false
  error := false
  total := 0
  counts := fun _ => 0

def make (src : σ) (bufBytes : Nat) : Except String (ItchParser σ) :=
  if bufBytes < 64 then .error "parser buffer too small" else .ok (start src bufBytes)

def defaultBufBytes : Nat := 4 <<< 20

/-- The top-up loop of `ensure`. Every turn but the last adds a byte, so `want`
turns are enough; with no turn left the window already holds `want` bytes. -/
def refill (source : ByteSource σ) (want : Nat) : Nat → ItchParser σ → Bool × ItchParser σ
  | 0, p => (true, p)
  | turns + 1, p =>
    if p.tail - p.head < want then
      match source.read p.src (p.bufBytes - p.tail) with
      | (none, s) => (false, { p with src := s, error := true })
      | (some bs, s) =>
        if bs.val.length = 0 then (false, { p with src := s, eof := true })
        else
          refill source want turns
            { p with
              src := s
              buf := memcpy p.buf p.tail (ptrOf bs.val) bs.val.length
              tail := p.tail + bs.val.length }
    else (true, p)

def compact (p : ItchParser σ) : ItchParser σ :=
  if 0 < p.head then
    { p with
      buf := memcpy p.buf 0 (shift p.buf p.head) (p.tail - p.head)
      tail := p.tail - p.head
      head := 0 }
  else p

def ensure (source : ByteSource σ) (want : Nat) (p : ItchParser σ) : Bool × ItchParser σ :=
  if want ≤ p.tail - p.head then (true, p)
  else if p.eof || p.error then (false, p)
  else refill source want want (compact p)

def next (source : ByteSource σ) (p : ItchParser σ) : Option Msg × ItchParser σ :=
  match ensure source 2 p with
  | (false, p) => (none, p)
  | (true, p) =>
    let n := (loadBe16 (shift p.buf p.head)).toNat
    -- the end-of-session marker stays in the buffer
    if n = 0 then (none, { p with eof := true })
    else
      match ensure source (2 + n) p with
      | (false, p) =>
        (none, if !p.error && decide (2 < p.tail - p.head) then { p with error := true } else p)
      | (true, p) =>
        let msg := shift p.buf (p.head + 2)
        (some ⟨msg, n⟩,
          { p with
            head := p.head + (2 + n)
            total := p.total + 1
            counts := Function.update p.counts (msg 0) (p.counts (msg 0) + 1) })

end ItchParser

/-! Locate code to ticker, from the Stock Directory messages. -/

structure SymbolTable where
  names : Nat → Ptr

namespace SymbolTable

def empty : SymbolTable := ⟨fun _ _ => 0⟩

/-- The copy loop of `update`, `left` turns before the eighth character. -/
def copyTicker (rMsg : Ptr) : (left n : Nat) → Ptr → Ptr
  | 0, n, dst => store dst n 0
  | left + 1, n, dst =>
    let c := rMsg (Ofs.dirStock + n)
    if c = ' '.toUInt8 ∨ c = 0 then store dst n 0
    else copyTicker rMsg left (n + 1) (store dst n c)

def update (t : SymbolTable) (rMsg : Ptr) : SymbolTable :=
  let locate := (loadBe16 (shift rMsg Ofs.locate)).toNat
  if maxSymbols ≤ locate then t
  else ⟨Function.update t.names locate (copyTicker rMsg 8 0 (t.names locate))⟩

def name (t : SymbolTable) (locate : Nat) : List UInt8 :=
  if locate < maxSymbols then (bytes (t.names locate) 9).takeWhile (· != 0) else []

end SymbolTable

end ItchAggregator
