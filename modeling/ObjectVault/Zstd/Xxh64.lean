import ObjectVault.Bytes

namespace ObjectVault.Xxh64

def prime1 : UInt64 := 0x9E3779B185EBCA87
def prime2 : UInt64 := 0xC2B2AE3D27D4EB4F
def prime3 : UInt64 := 0x165667B19E3779F9
def prime4 : UInt64 := 0x85EBCA77C2B2AE63
def prime5 : UInt64 := 0x27D4EB2F165667C5

def rotate (x n : UInt64) : UInt64 :=
  (x <<< n) ||| (x >>> (64 - n))

def round (sum input : UInt64) : UInt64 :=
  rotate (sum + input * prime2) 31 * prime1

def word (bytes : Bytes) : UInt64 :=
  .ofNat (Bytes.ofLittleEndian bytes)

/-- Takes `count` stripes of thirty-two bytes into four sums. -/
def stripes : (count : Nat) → Bytes → (a b c d : UInt64) → UInt64 × UInt64 × UInt64 × UInt64
  | 0, _, a, b, c, d => (a, b, c, d)
  | count + 1, bytes, a, b, c, d =>
    stripes count (bytes.drop 32) (round a (word (bytes.take 8)))
      (round b (word ((bytes.drop 8).take 8))) (round c (word ((bytes.drop 16).take 8)))
      (round d (word ((bytes.drop 24).take 8)))

/-- Takes the bytes behind the last stripe into the hash: eight, then four, then one at a time. -/
def tail : (fuel : Nat) → UInt64 → Bytes → UInt64
  | 0, sum, _ => sum
  | fuel + 1, sum, bytes =>
    if bytes.length ≥ 8 then
      tail fuel (rotate (sum ^^^ round 0 (word (bytes.take 8))) 27 * prime1 + prime4) (bytes.drop 8)
    else if bytes.length ≥ 4 then
      tail fuel (rotate (sum ^^^ (word (bytes.take 4) * prime1)) 23 * prime2 + prime3)
        (bytes.drop 4)
    else match bytes with
      | [] => sum
      | b :: rest => tail fuel (rotate (sum ^^^ (b.toUInt64 * prime5)) 11 * prime1) rest

def finish (x : UInt64) : UInt64 :=
  let x := (x ^^^ (x >>> 33)) * prime2
  let x := (x ^^^ (x >>> 29)) * prime3
  x ^^^ (x >>> 32)

def hash (bytes : Bytes) : UInt64 :=
  let merge (sum part : UInt64) := (sum ^^^ round 0 part) * prime1 + prime4
  let count := bytes.length / 32
  let start :=
    if count = 0 then prime5
    else
      let (a, b, c, d) := stripes count bytes (prime1 + prime2) prime2 0 (0 - prime1)
      let sum := rotate a 1 + rotate b 7 + rotate c 12 + rotate d 18
      merge (merge (merge (merge sum a) b) c) d
  finish (tail 32 (start + .ofNat bytes.length) (bytes.drop (32 * count)))

end ObjectVault.Xxh64
