import ObjectVault.Archive.Access

namespace ObjectVault
open ObjectVault.Text

namespace Gcm

/-- Combining with the same bytes twice gives a message back. -/
theorem zipWith_xor_twice {message stream : Bytes} (long : message.length ≤ stream.length) :
    List.zipWith (· ^^^ ·) (List.zipWith (· ^^^ ·) message stream) stream = message := by
  induction message generalizing stream with
  | nil => rfl
  | cons b message ih =>
    cases stream with
    | nil => exact absurd long (by simp)
    | cons k stream =>
      have back : b ^^^ k ^^^ k = b := by rw [UInt8.xor_assoc, UInt8.xor_self, UInt8.xor_zero]
      simp only [List.zipWith_cons_cons, back, ih (by simpa using long)]

/-- Blocks of sixteen bytes in a row. -/
theorem length_flatMap_blocks {block : Nat → Bytes} (width : ∀ k, (block k).length = 16)
    (count : Nat) : ((List.range count).flatMap block).length = 16 * count := by
  simp [List.length_flatMap, width, List.map_const', Nat.mul_comm]

theorem length_keystream (keys : List (Array UInt8)) (nonce : Bytes) (length : Nat) :
    (keystream keys nonce length).length = length := by
  rw [keystream, List.length_take, length_flatMap_blocks fun k => Aes.length_encrypt keys _, blocks]
  omega

theorem length_crypt (keys : List (Array UInt8)) (nonce message : Bytes) :
    (crypt keys nonce message).length = message.length := by
  rw [crypt, List.length_zipWith, length_keystream, Nat.min_self]

theorem crypt_crypt (keys : List (Array UInt8)) (nonce message : Bytes) :
    crypt keys nonce (crypt keys nonce message) = message := by
  rw [crypt, length_crypt, crypt]
  exact zipWith_xor_twice (Nat.le_of_eq (length_keystream keys nonce message.length).symm)

theorem length_tag (keys : List (Array UInt8)) (nonce ciphertext : Bytes) :
    (tag keys nonce ciphertext).length = SealKey.tagLength := by
  simp [tag, Aes.length_encrypt, Poly.bytes, Bytes.length_bigEndian, SealKey.tagLength]

end Gcm

namespace SealKey

theorem length_sealPayload (key : SealKey) {nonce : Bytes} (size : nonce.length = nonceLength)
    (plaintext : Bytes) :
    (key.sealPayload nonce plaintext).length = 12 + plaintext.length + 16 := by
  rw [sealPayload, List.length_append, List.length_append, Gcm.length_crypt, Gcm.length_tag, size]
  rfl

/-- A payload of three parts is opened if the last one is the tag of the middle one. -/
theorem openPayload?_append (key : SealKey) {nonce ciphertext tag : Bytes}
    (size : nonce.length = nonceLength) (width : tag.length = tagLength) :
    key.openPayload? (nonce ++ ciphertext ++ tag) =
      if tag = Gcm.tag key.rounds nonce ciphertext then some (Gcm.crypt key.rounds nonce ciphertext)
      else none := by
  have enough : ¬ (nonce ++ ciphertext ++ tag).length < nonceLength + tagLength := by
    rw [List.length_append, List.length_append]
    omega
  have front : (ciphertext ++ tag).length - tagLength = ciphertext.length := by
    rw [List.length_append]
    omega
  rw [openPayload?, if_neg enough]
  simp only [List.append_assoc, List.take_left' size, List.drop_left' size, front, List.take_left,
    List.drop_left]

/-- Opening undoes sealing under the same key. -/
theorem openPayload?_sealPayload (key : SealKey) {nonce : Bytes} (size : nonce.length = nonceLength)
    (plaintext : Bytes) : key.openPayload? (key.sealPayload nonce plaintext) = some plaintext := by
  rw [sealPayload, key.openPayload?_append size (Gcm.length_tag _ _ _), if_pos rfl,
    Gcm.crypt_crypt]

end SealKey

namespace Access

theorem openMember_unlocked (key : SealKey) (member : String) (payload : Bytes) :
    (Access.unlocked key).openMember member payload =
      match key.openPayload? payload with
      | some plaintext => .ok plaintext
      | none => .error (.decryption member) := by
  simp only [openMember, Access.key, bind, Except.bind]
  cases key.openPayload? payload <;> rfl

/-- A key opens for every member what it sealed. -/
theorem openMember_sealPayload {access : Access} {member : String} {key : SealKey}
    (own : access.key member = .ok key) {nonce : Bytes} (size : nonce.length = SealKey.nonceLength)
    (plaintext : Bytes) (other : String) :
    access.openMember other (key.sealPayload nonce plaintext) = .ok plaintext := by
  cases access with
  | unlocked key' =>
    cases own
    rw [openMember_unlocked, key.openPayload?_sealPayload size plaintext]
  | noPassword => cases own
  | noKeyHeader => cases own
  | noIterations => cases own

end Access
end ObjectVault
