import ObjectVault.Checksum.Sha256

namespace ObjectVault

/-- A key for message authentication, as the two hash states that it begins with. -/
structure MacKey where
  inner : Sha256.State
  outer : Sha256.State

namespace MacKey

/-- The state after one block: the key, filled up with zeros, combined with a byte. -/
def padded (key : Bytes) (byte : UInt8) : Sha256.State :=
  let block := key ++ List.replicate (64 - key.length) 0
  Sha256.initial.absorb (Sha256.wordsOfBytes (block.map (· ^^^ byte))).toArray

/-- A key longer than a block is replaced by its hash. -/
def ofBytes (key : Bytes) : MacKey :=
  let key := if key.length > 64 then Sha256.hash key else key
  ⟨padded key 0x36, padded key 0x5C⟩

def authenticate (key : MacKey) (message : Bytes) : Sha256.State :=
  key.outer.finish 64 (key.inner.finish 64 message).bytes

/-- The block that ends a message of one block and a hash. -/
def hashBlock (s : Sha256.State) : Array UInt32 :=
  #[s.a, s.b, s.c, s.d, s.e, s.f, s.g, s.h, 0x80000000, 0, 0, 0, 0, 0, 0, 768]

def authenticateHash (key : MacKey) (s : Sha256.State) : Sha256.State :=
  key.outer.absorb (hashBlock (key.inner.absorb (hashBlock s)))

end MacKey

namespace Sha256.State

def xor (s t : State) : State :=
  ⟨s.a ^^^ t.a, s.b ^^^ t.b, s.c ^^^ t.c, s.d ^^^ t.d, s.e ^^^ t.e, s.f ^^^ t.f, s.g ^^^ t.g,
    s.h ^^^ t.h⟩

end Sha256.State

/-- Authenticates `last` again and again and combines all results with `sum`. -/
def stretch (key : MacKey) : (rounds : Nat) → (last sum : Sha256.State) → Sha256.State
  | 0, _, sum => sum
  | rounds + 1, last, sum =>
    let next := key.authenticateHash last
    stretch key rounds next (sum.xor next)

/-- The key of thirty-two bytes that a password and a salt give after some iterations. -/
def deriveKey (password salt : Bytes) (iterations : Nat) : Bytes :=
  let key := MacKey.ofBytes password
  let first := key.authenticate (salt ++ [0, 0, 0, 1])
  (stretch key (iterations - 1) first first).bytes

theorem length_deriveKey (password salt : Bytes) (iterations : Nat) :
    (deriveKey password salt iterations).length = 32 := by
  unfold deriveKey
  apply Sha256.State.length_bytes

end ObjectVault
