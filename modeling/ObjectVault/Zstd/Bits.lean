import ObjectVault.Bytes

namespace ObjectVault.Zstd

/-- Bits in the order in which they are read. -/
abbrev Bits := List Bool

/-- The bits of a byte, the lowest first. -/
def byteBits (b : UInt8) : Bits :=
  (List.range 8).map fun i => b.toNat.testBit i

/-- The bits of the bytes from the lowest bit of the first byte on. -/
def forwardBits (bytes : Bytes) : Bits :=
  bytes.flatMap byteBits

/-- The bits of the bytes from the highest bit of the last byte down, behind the set bit that marks
their beginning. -/
def backwardBits (bytes : Bytes) : Option Bits :=
  match bytes.reverse with
  | [] => none
  | last :: rest =>
    match (byteBits last).reverse.dropWhile (· == false) with
    | [] => none
    | _ :: bits => some (bits ++ rest.flatMap fun b => (byteBits b).reverse)

def lowFirst : Bits → Nat
  | [] => 0
  | b :: bits => b.toNat + 2 * lowFirst bits

def highFirst (bits : Bits) : Nat :=
  bits.foldl (fun n b => 2 * n + b.toNat) 0

/-- Reads a number of `count` bits, the highest first. -/
def readHighFirst (count : Nat) (bits : Bits) : Option (Nat × Bits) :=
  let taken := bits.take count
  if taken.length < count then none else some (highFirst taken, bits.drop count)

end ObjectVault.Zstd
