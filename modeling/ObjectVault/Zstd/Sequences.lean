import ObjectVault.Zstd.Fse

namespace ObjectVault.Zstd

/-- Some literals, then a match: `length` bytes that stand `offset` bytes back. An offset up to
three means a recent one. -/
structure Sequence where
  literals : Nat
  offset : Nat
  length : Nat

/-- The least value and the number of extra bits of each code of a literal length. -/
def literalCodes : List (Nat × Nat) :=
  (List.range 16).map (·, 0) ++
    [(16, 1), (18, 1), (20, 1), (22, 1), (24, 2), (28, 2), (32, 3), (40, 3), (48, 4), (64, 6),
      (128, 7), (256, 8), (512, 9), (1024, 10), (2048, 11), (4096, 12), (8192, 13), (16384, 14),
      (32768, 15), (65536, 16)]

/-- The least value and the number of extra bits of each code of a match length. -/
def matchCodes : List (Nat × Nat) :=
  (List.range 32).map (· + 3, 0) ++
    [(35, 1), (37, 1), (39, 1), (41, 1), (43, 2), (47, 2), (51, 3), (59, 3), (67, 4), (83, 4),
      (99, 5), (131, 7), (259, 8), (515, 9), (1027, 10), (2051, 11), (4099, 12), (8195, 13),
      (16387, 14), (32771, 15), (65539, 16)]

def literalDefault : Distribution :=
  ⟨6, [4, 3, 2, 2, 2, 2, 2, 2, 2, 2, 2, 2, 2, 1, 1, 1, 2, 2, 2, 2, 2, 2, 2, 2, 2, 3, 2, 1, 1, 1, 1,
    1, -1, -1, -1, -1]⟩

def offsetDefault : Distribution :=
  ⟨5, [1, 1, 1, 1, 1, 1, 2, 2, 2, 1, 1, 1, 1, 1, 1, 1, 1, 1, 1, 1, 1, 1, 1, 1, -1, -1, -1, -1, -1]⟩

def matchDefault : Distribution :=
  ⟨6, [1, 4, 3, 2, 2, 2, 2, 2, 2, 1, 1, 1, 1, 1, 1, 1, 1, 1, 1, 1, 1, 1, 1, 1, 1, 1, 1, 1, 1, 1, 1,
    1, 1, 1, 1, 1, 1, 1, 1, 1, 1, 1, 1, 1, 1, 1, -1, -1, -1, -1, -1, -1, -1]⟩

/-- The decoders of the three parts of a sequence. -/
structure SequenceTables where
  literals : Option FseTable
  offsets : Option FseTable
  matchLengths : Option FseTable

/-- Reads a decoder by its mode: the default one, one symbol, a distribution, or the last one. -/
def readTable (mode maxLog symbols : Nat) (fallback : Distribution) (last : Option FseTable)
    (bytes : Bytes) : Option (FseTable × Bytes) :=
  match mode with
  | 0 => some (fallback.table, bytes)
  | 1 =>
    match bytes with
    | [] => none
    | b :: rest => if b.toNat < symbols then some (.single b.toNat, rest) else none
  | 2 => (Distribution.read maxLog symbols bytes).map fun (d, rest) => (d.table, rest)
  | _ => last.map (·, bytes)

/-- The number of sequences and the bytes behind it. -/
def readCount : Bytes → Option (Nat × Bytes)
  | [] => none
  | a :: rest =>
    if a < 128 then some (a.toNat, rest)
    else match rest with
      | [] => none
      | b :: rest =>
        if a < 255 then some ((a.toNat - 128) * 256 + b.toNat, rest)
        else match rest with
          | [] => none
          | c :: rest => some (b.toNat + 256 * c.toNat + 0x7F00, rest)

/-- Reads `count` sequences. The next states are read between two sequences but not after the last
one, and no bit is left in the end. -/
def readSequences (ls os ms : FseTable) :
    (count : Nat) → (l o m : Nat) → Bits → Option (List Sequence)
  | 0, _, _, _, _ => some []
  | count + 1, l, o, m, bits => do
    let code := (os.cell o).symbol
    if code > 31 then none
    else
      let (extra, bits) ← readHighFirst code bits
      let (matchBase, matchBits) ← matchCodes[(ms.cell m).symbol]?
      let (matchExtra, bits) ← readHighFirst matchBits bits
      let (literalBase, literalBits) ← literalCodes[(ls.cell l).symbol]?
      let (literalExtra, bits) ← readHighFirst literalBits bits
      let s : Sequence := ⟨literalBase + literalExtra, 1 <<< code + extra, matchBase + matchExtra⟩
      if count = 0 then (if bits.isEmpty then some [s] else none)
      else
        let (l, bits) ← ls.next l bits
        let (m, bits) ← ms.next m bits
        let (o, bits) ← os.next o bits
        return s :: (← readSequences ls os ms count l o m bits)

/-- The sequences of a block and the decoders for later blocks. -/
def readSequenceSection (tables : SequenceTables) (bytes : Bytes) :
    Option (List Sequence × SequenceTables) := do
  let (count, rest) ← readCount bytes
  if count = 0 then (if rest.isEmpty then some ([], tables) else none)
  else
    match rest with
    | [] => none
    | modes :: rest =>
      let mode (i : Nat) := (modes.toNat >>> i) % 4
      if mode 0 ≠ 0 then none
      else
        let (ls, rest) ← readTable (mode 6) 9 36 literalDefault tables.literals rest
        let (os, rest) ← readTable (mode 4) 8 32 offsetDefault tables.offsets rest
        let (ms, rest) ← readTable (mode 2) 9 53 matchDefault tables.matchLengths rest
        let bits ← backwardBits rest
        let (l, bits) ← ls.start bits
        let (o, bits) ← os.start bits
        let (m, bits) ← ms.start bits
        let sequences ← readSequences ls os ms count l o m bits
        some (sequences, ⟨some ls, some os, some ms⟩)

end ObjectVault.Zstd
