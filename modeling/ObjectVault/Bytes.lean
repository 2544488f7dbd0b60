namespace ObjectVault

/-- The content of a file or a payload. -/
abbrev Bytes := List UInt8

namespace Bytes

/-- The first `count` bytes of the number, the least significant first. -/
def littleEndian : (count : Nat) → Nat → Bytes
  | 0, _ => []
  | count + 1, n => UInt8.ofNat (n % 256) :: littleEndian count (n / 256)

/-- The number whose least significant byte comes first. -/
def ofLittleEndian : Bytes → Nat
  | [] => 0
  | b :: rest => b.toNat + 256 * ofLittleEndian rest

/-- The last `count` bytes of the number, the most significant first. -/
def bigEndian (count n : Nat) : Bytes :=
  (littleEndian count n).reverse

/-- The number whose most significant byte comes first. -/
def ofBigEndian (bytes : Bytes) : Nat :=
  ofLittleEndian bytes.reverse

theorem length_littleEndian (count n : Nat) : (littleEndian count n).length = count := by
  induction count generalizing n with
  | zero => rfl
  | succ count ih => simp [littleEndian, ih]

theorem length_bigEndian (count n : Nat) : (bigEndian count n).length = count := by
  simp [bigEndian, length_littleEndian]

/-- The digit of a number below sixteen, in upper case. -/
def hexDigit (n : Nat) : Char :=
  if n < 10 then Char.ofNat (48 + n) else Char.ofNat (55 + n)

def hex (bytes : Bytes) : String :=
  .ofList (bytes.flatMap fun b => [hexDigit (b.toNat / 16), hexDigit (b.toNat % 16)])

end Bytes
end ObjectVault
