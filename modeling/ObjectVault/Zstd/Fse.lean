import ObjectVault.Zstd.Bits

namespace ObjectVault.Zstd

/-- One state of an entropy decoder: the symbol it stands for, and the next state as a base to which
some bits are added. -/
structure Cell where
  symbol : Nat
  bits : Nat
  base : Nat
deriving Inhabited

/-- The states of an entropy decoder, `2 ^ log` of them. -/
structure FseTable where
  log : Nat
  cells : Array Cell

/-- How often each symbol occurs, in parts of `2 ^ log`. A symbol of less than one part has `-1`. -/
structure Distribution where
  log : Nat
  counts : List Int

namespace Distribution

/-- Reads two bits again and again while they are three, and gives their sum. -/
def zeroRun : (fuel : Nat) → Bits → Nat × Bits
  | 0, bits => (0, bits)
  | fuel + 1, bits =>
    let n := lowFirst (bits.take 2)
    if n = 3 then
      let (more, rest) := zeroRun fuel (bits.drop 2)
      (3 + more, rest)
    else (n, bits.drop 2)

/-- Reads counts until no part is left. `left` is one more than the parts to distribute. A value
that needs fewer bits than the largest one is written with one bit less. -/
def readCounts : (fuel left : Nat) → Bits → Option (List Int × Bits)
  | 0, _, _ => none
  | fuel + 1, left, bits =>
    if left ≤ 1 then some ([], bits)
    else
      let width := left.log2 + 1
      let threshold := 1 <<< (width - 1)
      let spare := 2 * threshold - 1 - left
      let small := lowFirst (bits.take (width - 1))
      let large := lowFirst (bits.take width)
      let (value, rest) :=
        if small < spare then (small, bits.drop (width - 1))
        else (if large ≥ threshold then large - spare else large, bits.drop width)
      let count : Int := (value : Int) - 1
      if left < count.natAbs + 1 then none
      else if count = 0 then
        let (zeros, rest) := zeroRun fuel rest
        (readCounts fuel left rest).map fun (cs, rest) =>
          (0 :: (List.replicate zeros 0 ++ cs), rest)
      else
        (readCounts fuel (left - count.natAbs) rest).map fun (cs, rest) => (count :: cs, rest)

/-- Reads a distribution of at most `symbols` symbols and `2 ^ maxLog` parts; gives the bytes behind
it too. -/
def read (maxLog symbols : Nat) (bytes : Bytes) : Option (Distribution × Bytes) := do
  let bits := forwardBits (bytes.take 128)
  let log := lowFirst (bits.take 4) + 5
  if log > maxLog then none
  else
    let (counts, rest) ← readCounts (bits.length + 2) (1 <<< log + 1) (bits.drop 4)
    let used := bits.length - rest.length
    if counts.length > symbols || used > 8 * bytes.length then none
    else some (⟨log, counts⟩, bytes.drop ((used + 7) / 8))

/-- The symbols of less than one part, which take the last states, the first symbol the very last.
-/
def rare (d : Distribution) : List Nat :=
  (List.range d.counts.length).filter fun s => d.counts.getD s 0 == -1

/-- Every other symbol as often as it has parts. -/
def frequent (d : Distribution) : List Nat :=
  (List.range d.counts.length).flatMap fun s => List.replicate (d.counts.getD s 0).toNat s

/-- The next place below `limit` in steps that visit all of them. -/
def nextPlace (size step limit : Nat) : (fuel place : Nat) → Nat
  | 0, place => place
  | fuel + 1, place =>
    let next := (place + step) % size
    if next < limit then next else nextPlace size step limit fuel next

def spread (d : Distribution) : Array Nat :=
  let size := 1 <<< d.log
  let step := size / 2 + size / 8 + 3
  let rare := d.rare
  let limit := size - rare.length
  let (symbols, _) := d.frequent.foldl
    (fun (symbols, place) s =>
      (symbols.setIfInBounds place s, nextPlace size step limit size place))
    (Array.replicate size 0, 0)
  (rare.foldl (fun (symbols, place) s => (symbols.setIfInBounds place s, place - 1))
    (symbols, size - 1)).1

/-- The decoder of a distribution. The states of one symbol, in order, count up from its parts. -/
def table (d : Distribution) : FseTable :=
  let start := (d.counts.map Int.natAbs).toArray
  let (cells, _) := d.spread.foldl
    (fun (cells, next) s =>
      let n : Nat := next.getD s 1
      let bits := d.log - n.log2
      (cells.push ⟨s, bits, n <<< bits - 1 <<< d.log⟩, next.setIfInBounds s (n + 1)))
    ((#[] : Array Cell), start)
  ⟨d.log, cells⟩

end Distribution

namespace FseTable

/-- The decoder of a single symbol, which needs no bits. -/
def single (symbol : Nat) : FseTable :=
  ⟨0, #[⟨symbol, 0, 0⟩]⟩

def cell (t : FseTable) (state : Nat) : Cell :=
  t.cells.getD state default

def start (t : FseTable) (bits : Bits) : Option (Nat × Bits) :=
  readHighFirst t.log bits

def next (t : FseTable) (state : Nat) (bits : Bits) : Option (Nat × Bits) :=
  let c := t.cell state
  (readHighFirst c.bits bits).map fun (n, rest) => (c.base + n, rest)

end FseTable
end ObjectVault.Zstd
