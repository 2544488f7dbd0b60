import ObjectVault.Cipher.Aes

namespace ObjectVault.Gcm

/-- A polynomial over two elements of degree below 128. The leading bit is the constant term. -/
structure Poly where
  hi : UInt64
  lo : UInt64
deriving DecidableEq

def Poly.zero : Poly := ⟨0, 0⟩

def Poly.add (x y : Poly) : Poly :=
  ⟨x.hi ^^^ y.hi, x.lo ^^^ y.lo⟩

/-- The product with the indeterminate, modulo the polynomial of the field. -/
def Poly.shift (x : Poly) : Poly :=
  let hi := x.hi >>> 1
  let lo := (x.lo >>> 1) ||| (x.hi <<< 63)
  if x.lo &&& 1 == 0 then ⟨hi, lo⟩ else ⟨hi ^^^ 0xE100000000000000, lo⟩

/-- The coefficient of power `i`. -/
def Poly.coefficient (x : Poly) (i : Nat) : Bool :=
  let word := if i < 64 then x.hi else x.lo
  (word >>> (63 - i % 64).toUInt64) &&& 1 == 1

/-- The product in the field of `2 ^ 128` elements. -/
def Poly.mul (x y : Poly) : Poly :=
  (Nat.fold 128 (fun i _ (sum, power) =>
    (if x.coefficient i then sum.add power else sum, Poly.shift power)) (Poly.zero, y)).1

/-- The polynomial of up to sixteen bytes, filled up with zeros. -/
def Poly.ofBytes (bytes : Bytes) : Poly :=
  let word (bs : Bytes) : UInt64 :=
    .ofNat (Bytes.ofBigEndian (bs ++ List.replicate (8 - bs.length) 0))
  ⟨word (bytes.take 8), word ((bytes.drop 8).take 8)⟩

def Poly.bytes (x : Poly) : Bytes :=
  Bytes.bigEndian 8 x.hi.toNat ++ Bytes.bigEndian 8 x.lo.toNat

/-- Takes `count` blocks of sixteen bytes into the hash. -/
def absorb (key : Poly) : (count : Nat) → Poly → Bytes → Poly
  | 0, sum, _ => sum
  | count + 1, sum, bytes =>
    absorb key count ((sum.add (.ofBytes (bytes.take 16))).mul key) (bytes.drop 16)

def blocks (length : Nat) : Nat :=
  (length + 15) / 16

/-- The hash of a ciphertext with nothing else to authenticate. -/
def hash (key : Poly) (bytes : Bytes) : Poly :=
  let sum := absorb key (blocks bytes.length) .zero bytes
  (sum.add ⟨0, .ofNat (8 * bytes.length)⟩).mul key

def counterBlock (nonce : Bytes) (counter : Nat) : Bytes :=
  nonce ++ Bytes.bigEndian 4 counter

/-- The bytes that a message of the given length is combined with. -/
def keystream (keys : List (Array UInt8)) (nonce : Bytes) (length : Nat) : Bytes :=
  ((List.range (blocks length)).flatMap fun i =>
    Aes.encrypt keys (counterBlock nonce (i + 2))).take length

/-- Combines a message with the keystream; done twice it gives the message back. -/
def crypt (keys : List (Array UInt8)) (nonce message : Bytes) : Bytes :=
  List.zipWith (· ^^^ ·) message (keystream keys nonce message.length)

def tag (keys : List (Array UInt8)) (nonce ciphertext : Bytes) : Bytes :=
  let key := Poly.ofBytes (Aes.encrypt keys (List.replicate 16 0))
  List.zipWith (· ^^^ ·) (Aes.encrypt keys (counterBlock nonce 1)) (hash key ciphertext).bytes

end ObjectVault.Gcm
