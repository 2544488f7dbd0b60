import ObjectVault.Cipher.Gcm
import ObjectVault.Cipher.KeyDerivation

namespace ObjectVault

/-- An expanded key that seals and opens payloads. -/
structure SealKey where
  rounds : List (Array UInt8)

namespace SealKey

def ofBytes (key : Bytes) : SealKey :=
  ⟨Aes.roundKeys key⟩

def nonceLength : Nat := 12

def tagLength : Nat := 16

def sealPayload (key : SealKey) (nonce plaintext : Bytes) : Bytes :=
  let ciphertext := Gcm.crypt key.rounds nonce plaintext
  nonce ++ ciphertext ++ Gcm.tag key.rounds nonce ciphertext

/-- The plaintext of a sealed payload, if its tag is right. -/
def openPayload? (key : SealKey) (payload : Bytes) : Option Bytes :=
  if payload.length < nonceLength + tagLength then none
  else
    let nonce := payload.take nonceLength
    let rest := payload.drop nonceLength
    let ciphertext := rest.take (rest.length - tagLength)
    let tag := rest.drop (rest.length - tagLength)
    if tag = Gcm.tag key.rounds nonce ciphertext then
      some (Gcm.crypt key.rounds nonce ciphertext)
    else none

end SealKey
end ObjectVault
