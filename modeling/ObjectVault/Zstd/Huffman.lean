import ObjectVault.Zstd.Fse

namespace ObjectVault.Zstd

/-- A prefix code: for each row of `log` bits the symbol that it begins with and the length of its
code. -/
structure HuffmanTable where
  log : Nat
  cells : Array (Nat × Nat)

namespace HuffmanTable

def directWeights (count : Nat) (bytes : Bytes) : List Nat :=
  (bytes.flatMap fun b => [b.toNat / 16, b.toNat % 16]).take count

/-- Reads weights from two decoders in turn until the bits run out; then the symbol of the other
decoder is the last one. -/
def fseWeights (t : FseTable) : (fuel : Nat) → (state other : Nat) → Bits → Option (List Nat)
  | 0, _, _, _ => none
  | fuel + 1, state, other, bits =>
    let c := t.cell state
    match t.next state bits with
    | none => some [c.symbol, (t.cell other).symbol]
    | some (next, bits) => (fseWeights t fuel other next bits).map (c.symbol :: ·)

/-- Reads the weights of all symbols but the last, and gives the bytes behind them. -/
def readWeights : Bytes → Option (List Nat × Bytes)
  | [] => none
  | head :: rest =>
    if head < 128 then do
      let size := head.toNat
      if rest.length < size then none
      else
        let (d, coded) ← Distribution.read 6 256 (rest.take size)
        let t := d.table
        let bits ← backwardBits coded
        let (first, bits) ← t.start bits
        let (second, bits) ← t.start bits
        let weights ← fseWeights t 256 first second bits
        some (weights, rest.drop size)
    else
      let count := head.toNat - 127
      let size := (count + 1) / 2
      if rest.length < size then none
      else some (directWeights count (rest.take size), rest.drop size)

/-- A weight `w` stands for `2 ^ (w - 1)` rows, and no weight for none. -/
def share (w : Nat) : Nat :=
  if w = 0 then 0 else 1 <<< (w - 1)

/-- The code of the weights. The last symbol has what is missing to a power of two. -/
def ofWeights (weights : List Nat) : Option HuffmanTable :=
  let total := (weights.map share).foldl (· + ·) 0
  let log := total.log2 + 1
  let missing := 1 <<< log - total
  if total = 0 || log > 12 || weights.any (· > 12) || weights.length > 255 then none
  else if 1 <<< missing.log2 ≠ missing then none
  else
    let all := weights ++ [missing.log2 + 1]
    if (all.filter (· == 1)).length < 2 || (all.filter (· == 1)).length % 2 = 1 then none
    else
      let cells := (List.range log).flatMap fun i =>
        (List.range all.length).flatMap fun s =>
          if all.getD s 0 = i + 1 then List.replicate (1 <<< i) (s, log - i) else []
      some ⟨log, cells.toArray⟩

def read (bytes : Bytes) : Option (HuffmanTable × Bytes) := do
  let (weights, rest) ← readWeights bytes
  let t ← ofWeights weights
  some (t, rest)

/-- Reads `count` symbols; there must be no bit too many or too few. -/
def decode (t : HuffmanTable) : (count : Nat) → Bits → Option Bytes
  | 0, bits => if bits.isEmpty then some [] else none
  | count + 1, bits =>
    let row := bits.take t.log
    let (symbol, length) := t.cells.getD (highFirst row <<< (t.log - row.length)) (0, 0)
    if length = 0 || bits.length < length then none
    else (decode t count (bits.drop length)).map (UInt8.ofNat symbol :: ·)

end HuffmanTable
end ObjectVault.Zstd
