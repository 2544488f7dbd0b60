import ObjectVault.Bytes

namespace ObjectVault.Sha256

/-- The eight working words. -/
structure State where
  a : UInt32
  b : UInt32
  c : UInt32
  d : UInt32
  e : UInt32
  f : UInt32
  g : UInt32
  h : UInt32
deriving DecidableEq

def State.words (s : State) : List UInt32 :=
  [s.a, s.b, s.c, s.d, s.e, s.f, s.g, s.h]

def initial : State :=
  ⟨0x6A09E667, 0xBB67AE85, 0x3C6EF372, 0xA54FF53A, 0x510E527F, 0x9B05688C, 0x1F83D9AB, 0x5BE0CD19⟩

def roundConstants : Array UInt32 :=
  #[0x428A2F98, 0x71374491, 0xB5C0FBCF, 0xE9B5DBA5, 0x3956C25B, 0x59F111F1, 0x923F82A4, 0xAB1C5ED5,
    0xD807AA98, 0x12835B01, 0x243185BE, 0x550C7DC3, 0x72BE5D74, 0x80DEB1FE, 0x9BDC06A7, 0xC19BF174,
    0xE49B69C1, 0xEFBE4786, 0x0FC19DC6, 0x240CA1CC, 0x2DE92C6F, 0x4A7484AA, 0x5CB0A9DC, 0x76F988DA,
    0x983E5152, 0xA831C66D, 0xB00327C8, 0xBF597FC7, 0xC6E00BF3, 0xD5A79147, 0x06CA6351, 0x14292967,
    0x27B70A85, 0x2E1B2138, 0x4D2C6DFC, 0x53380D13, 0x650A7354, 0x766A0ABB, 0x81C2C92E, 0x92722C85,
    0xA2BFE8A1, 0xA81A664B, 0xC24B8B70, 0xC76C51A3, 0xD192E819, 0xD6990624, 0xF40E3585, 0x106AA070,
    0x19A4C116, 0x1E376C08, 0x2748774C, 0x34B0BCB5, 0x391C0CB3, 0x4ED8AA4A, 0x5B9CCA4F, 0x682E6FF3,
    0x748F82EE, 0x78A5636F, 0x84C87814, 0x8CC70208, 0x90BEFFFA, 0xA4506CEB, 0xBEF9A3F7, 0xC67178F2]

def rotate (x n : UInt32) : UInt32 :=
  (x >>> n) ||| (x <<< (32 - n))

/-- The sixty-four words that a block of sixteen gives rise to. -/
def schedule (block : Array UInt32) : Array UInt32 :=
  Nat.fold 48 (fun i _ w =>
    let x := w.getD (i + 1) 0
    let y := w.getD (i + 14) 0
    let s0 := rotate x 7 ^^^ rotate x 18 ^^^ (x >>> 3)
    let s1 := rotate y 17 ^^^ rotate y 19 ^^^ (y >>> 10)
    w.push (w.getD i 0 + s0 + w.getD (i + 9) 0 + s1)) block

def State.round (s : State) (k w : UInt32) : State :=
  let s1 := rotate s.e 6 ^^^ rotate s.e 11 ^^^ rotate s.e 25
  let choice := (s.e &&& s.f) ^^^ ((~~~ s.e) &&& s.g)
  let t1 := s.h + s1 + choice + k + w
  let s0 := rotate s.a 2 ^^^ rotate s.a 13 ^^^ rotate s.a 22
  let majority := (s.a &&& s.b) ^^^ (s.a &&& s.c) ^^^ (s.b &&& s.c)
  ⟨t1 + (s0 + majority), s.a, s.b, s.c, s.d + t1, s.e, s.f, s.g⟩

def State.add (s t : State) : State :=
  ⟨s.a + t.a, s.b + t.b, s.c + t.c, s.d + t.d, s.e + t.e, s.f + t.f, s.g + t.g, s.h + t.h⟩

/-- Takes a block of sixteen words into the state. -/
def State.absorb (s : State) (block : Array UInt32) : State :=
  let w := schedule block
  s.add (Nat.fold 64 (fun i _ t => t.round (roundConstants.getD i 0) (w.getD i 0)) s)

/-- The words of a row of bytes, four bytes each. -/
def wordsOfBytes : Bytes → List UInt32
  | a :: b :: c :: d :: rest =>
    ((a.toUInt32 <<< 24) ||| (b.toUInt32 <<< 16) ||| (c.toUInt32 <<< 8) ||| d.toUInt32) ::
      wordsOfBytes rest
  | _ => []

/-- Takes whole blocks of sixty-four bytes into the state. -/
def State.absorbBlocks : (count : Nat) → State → List UInt32 → State
  | 0, s, _ => s
  | count + 1, s, ws => absorbBlocks count (s.absorb (ws.take 16).toArray) (ws.drop 16)

/-- The end of a message of `length` bytes: a set bit, zeros, and the length in bits. -/
def padding (length : Nat) : Bytes :=
  0x80 :: List.replicate ((119 - length % 64) % 64) 0 ++ Bytes.bigEndian 8 (8 * length)

/-- The state after the rest of a message, of which `before` bytes are in the state already. -/
def State.finish (s : State) (before : Nat) (message : Bytes) : State :=
  let ws := wordsOfBytes (message ++ padding (before + message.length))
  s.absorbBlocks (ws.length / 16) ws

def State.bytes (s : State) : Bytes :=
  s.words.flatMap fun w => Bytes.bigEndian 4 w.toNat

theorem State.length_bytes (s : State) : s.bytes.length = 32 := by
  simp [bytes, words, Bytes.length_bigEndian]

/-- The SHA-256 hash of a message, thirty-two bytes. -/
def hash (message : Bytes) : Bytes :=
  (initial.finish 0 message).bytes

def digest (message : Bytes) : String :=
  Bytes.hex (hash message)

end ObjectVault.Sha256
