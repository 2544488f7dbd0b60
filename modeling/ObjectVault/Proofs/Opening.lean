import ObjectVault.Proofs.Digits
import ObjectVault.Proofs.KeptKeys
import ObjectVault.Proofs.Sealing
import ObjectVault.Proofs.WholeKeys
import Mathlib.Data.List.Nodup

namespace ObjectVault
open ObjectVault.Text

namespace Gcm

/-- The longest message for one nonce: its blocks take all counters of four bytes but the first
two. -/
def lengthLimit : Nat := 16 * (2 ^ 32 - 2)

theorem counterBlock_inj {nonce nonce' : Bytes} {i j : Nat} (same : nonce.length = nonce'.length)
    (h : i < 2 ^ 32) (h' : j < 2 ^ 32) (eq : counterBlock nonce i = counterBlock nonce' j) :
    nonce = nonce' ∧ i = j := by
  obtain ⟨front, back⟩ := List.append_inj eq same
  refine ⟨front, ?_⟩
  have numbers := congrArg Bytes.ofBigEndian back
  rw [Bytes.ofBigEndian_bigEndian, Bytes.ofBigEndian_bigEndian] at numbers
  omega

/-- The blocks that are encrypted for a message: zeros for the key of the hash, one block for the
tag, and one for each block of the keystream. -/
def inputs (nonce : Bytes) (length : Nat) : List Bytes :=
  List.replicate 16 0 :: (List.range (blocks length + 1)).map fun i => counterBlock nonce (i + 1)

/-- Within the limit no block is encrypted twice, because no counter begins again. -/
theorem nodup_inputs {nonce : Bytes} (size : nonce.length = SealKey.nonceLength) {length : Nat}
    (within : length ≤ lengthLimit) : (inputs nonce length).Nodup := by
  have few : blocks length + 1 < 2 ^ 32 := by
    rw [lengthLimit] at within
    rw [blocks]
    omega
  have zeros : List.replicate 16 0 = counterBlock (List.replicate 12 0) 0 := by decide
  unfold inputs
  rw [List.nodup_cons]
  constructor
  · intro mem
    obtain ⟨i, below, eq⟩ := List.mem_map.mp mem
    have small := List.mem_range.mp below
    rw [zeros] at eq
    have zero := (counterBlock_inj size (by omega) (by omega) eq).2
    omega
  · apply List.Nodup.map_on ?_ List.nodup_range
    intro i below j below' eq
    have small := List.mem_range.mp below
    have small' := List.mem_range.mp below'
    have next := (counterBlock_inj rfl (by omega) (by omega) eq).2
    omega

/-- The byte of the keystream with the given number. -/
def streamByte (keys : List (Array UInt8)) (nonce : Bytes) (i : Nat) : UInt8 :=
  (Aes.encrypt keys (counterBlock nonce (i / 16 + 2))).getD (i % 16) 0

/-- A byte of blocks in a row stands in the block that its number leads to. -/
theorem getElem?_flatMap_blocks {block : Nat → Bytes} (width : ∀ k, (block k).length = 16)
    {count i : Nat} (inside : i < 16 * count) :
    ((List.range count).flatMap block)[i]? = some ((block (i / 16)).getD (i % 16) 0) := by
  induction count with
  | zero => omega
  | succ count ih =>
    rw [List.range_succ, List.flatMap_append]
    by_cases before : i < 16 * count
    · rw [List.getElem?_append_left (by rwa [length_flatMap_blocks width]), ih before]
    · have number : i / 16 = count := by omega
      have place : i - 16 * count = i % 16 := by omega
      have found : i % 16 < (block count).length := by
        rw [width]
        omega
      rw [List.getElem?_append_right (by rw [length_flatMap_blocks width]; omega),
        length_flatMap_blocks width, place, number,
        List.flatMap_singleton, List.getD_eq_getElem?_getD, List.getElem?_eq_getElem found,
        Option.getD_some]

theorem getElem?_keystream (keys : List (Array UInt8)) (nonce : Bytes) {length i : Nat}
    (inside : i < length) :
    (keystream keys nonce length)[i]? = some (streamByte keys nonce i) := by
  have covered : i < 16 * blocks length := by
    rw [blocks]
    omega
  rw [keystream, List.getElem?_take_of_lt inside,
    getElem?_flatMap_blocks (fun k => Aes.length_encrypt keys _) covered]
  rfl

/-- Each byte is combined with the byte of the keystream that has its number. -/
theorem getElem?_crypt (keys : List (Array UInt8)) (nonce message : Bytes) (i : Nat) :
    (crypt keys nonce message)[i]? = message[i]?.map (· ^^^ streamByte keys nonce i) := by
  by_cases inside : i < message.length
  · rw [crypt, List.getElem?_zipWith, getElem?_keystream keys nonce inside,
      List.getElem?_eq_getElem inside]
    rfl
  · rw [List.getElem?_eq_none (by rw [length_crypt]; omega), List.getElem?_eq_none (by omega)]
    rfl

end Gcm

namespace Bytes

/-- The bytes before a place and those from there on. A place behind the end is out of range. -/
def cut? (bytes : Bytes) (place : Nat) : Option (Bytes × Bytes) :=
  if place ≤ bytes.length then some (bytes.take place, bytes.drop place) else none

theorem cut?_append {front : Bytes} {place : Nat} (size : front.length = place) (back : Bytes) :
    cut? (front ++ back) place = some (front, back) := by
  have within : place ≤ (front ++ back).length := by
    rw [List.length_append]
    omega
  rw [cut?, if_pos within, List.take_left' size, List.drop_left' size]

end Bytes

namespace SealKey
variable {key : SealKey} {nonce plaintext payload : Bytes}

/-- How a payload holds a plaintext: behind the nonce stands each byte combined with its byte of the
keystream, and then the tag of what was combined. -/
structure Holds (key : SealKey) (nonce plaintext payload : Bytes) : Prop where
  length : payload.length = 12 + plaintext.length + 16
  front : payload.take 12 = nonce
  ciphertext : ∀ i < plaintext.length,
    payload[12 + i]? = plaintext[i]?.map (· ^^^ Gcm.streamByte key.rounds nonce i)
  tag : payload.drop (12 + plaintext.length) =
    Gcm.tag key.rounds nonce ((payload.drop 12).take plaintext.length)

theorem holds_sealPayload (key : SealKey) (size : nonce.length = nonceLength)
    (plaintext : Bytes) : key.Holds nonce plaintext (key.sealPayload nonce plaintext) := by
  have size' : nonce.length = 12 := size
  have behind : (key.sealPayload nonce plaintext).drop 12 =
      Gcm.crypt key.rounds nonce plaintext ++
        Gcm.tag key.rounds nonce (Gcm.crypt key.rounds nonce plaintext) := by
    rw [sealPayload, List.append_assoc, List.drop_left' size']
  have width := Gcm.length_crypt key.rounds nonce plaintext
  refine ⟨key.length_sealPayload size plaintext, ?_, fun i inside => ?_, ?_⟩
  · rw [sealPayload, List.append_assoc, List.take_left' size']
  · rw [← List.getElem?_drop, behind, List.getElem?_append_left (by omega), Gcm.getElem?_crypt]
  · rw [← List.drop_drop, behind, List.drop_left' width, List.take_left' width]

/-- A payload is too short, or it has a nonce and a tag with something between them. -/
theorem short_or_parts (payload : Bytes) :
    payload.length < nonceLength + tagLength ∨
      ∃ nonce ciphertext tag : Bytes, nonce.length = nonceLength ∧ tag.length = tagLength ∧
        payload = nonce ++ ciphertext ++ tag := by
  by_cases short : payload.length < nonceLength + tagLength
  · exact .inl short
  · refine .inr ⟨payload.take nonceLength,
      (payload.drop nonceLength).take (payload.length - nonceLength - tagLength),
      (payload.drop nonceLength).drop (payload.length - nonceLength - tagLength), ?_, ?_, ?_⟩
    · rw [List.length_take]
      omega
    · rw [List.length_drop, List.length_drop]
      omega
    · rw [List.append_assoc, List.take_append_drop, List.take_append_drop]

theorem openPayload?_of_short (key : SealKey) (short : payload.length < nonceLength + tagLength) :
    key.openPayload? payload = none :=
  if_pos short

/-- What can be opened was sealed. -/
theorem eq_sealPayload_of_open (opened : key.openPayload? payload = some plaintext) :
    ∃ nonce, nonce.length = nonceLength ∧ payload = key.sealPayload nonce plaintext := by
  rcases short_or_parts payload with short | ⟨nonce, ciphertext, tag, size, width, rfl⟩
  · rw [key.openPayload?_of_short short] at opened
    cases opened
  · rw [key.openPayload?_append size width] at opened
    split at opened
    · next right =>
      cases opened
      exact ⟨nonce, size, by rw [sealPayload, Gcm.crypt_crypt, ← right]⟩
    · cases opened

/-- Opening in steps: first the nonce is cut off and then the tag, if there are enough bytes for it.
Nothing comes of a cut that is out of range. -/
def openStepwise (key : SealKey) (member : String) (payload : Bytes) :
    Option (Except ArchiveError Bytes) :=
  if payload.length < nonceLength then some (.error (.decryption member))
  else do
    let (nonce, rest) ← payload.cut? nonceLength
    if rest.length < tagLength then some (.error (.decryption member))
    else do
      let (ciphertext, tag) ← rest.cut? (rest.length - tagLength)
      if tag = Gcm.tag key.rounds nonce ciphertext then
        some (.ok (Gcm.crypt key.rounds nonce ciphertext))
      else some (.error (.decryption member))

end SealKey

namespace Access
variable {key : SealKey} {payload : Bytes}

theorem openMember_of_short (key : SealKey) (member : String)
    (short : payload.length < SealKey.nonceLength + SealKey.tagLength) :
    (Access.unlocked key).openMember member payload = .error (.decryption member) := by
  rw [openMember_unlocked, key.openPayload?_of_short short]

/-- A payload was sealed with a key and is opened, or it is refused under the name of its member. -/
theorem opened_or_refused (key : SealKey) (member : String) (payload : Bytes) :
    (∃ nonce plaintext, nonce.length = SealKey.nonceLength ∧
        payload = key.sealPayload nonce plaintext ∧
        (Access.unlocked key).openMember member payload = .ok plaintext) ∨
      (Access.unlocked key).openMember member payload = .error (.decryption member) := by
  rw [openMember_unlocked]
  cases opened : key.openPayload? payload with
  | none => exact .inr rfl
  | some plaintext =>
    obtain ⟨nonce, size, sealed⟩ := SealKey.eq_sealPayload_of_open opened
    exact .inl ⟨nonce, plaintext, size, sealed, rfl⟩

/-- No cut is out of range, however short the payload is. -/
theorem openStepwise_eq (key : SealKey) (member : String) (payload : Bytes) :
    key.openStepwise member payload = some ((Access.unlocked key).openMember member payload) := by
  rcases SealKey.short_or_parts payload with short | ⟨nonce, ciphertext, tag, size, width, rfl⟩
  · rw [openMember_of_short key member short, SealKey.openStepwise]
    split
    · rfl
    · next front =>
      rw [Bytes.cut?, if_pos (by omega)]
      refine if_pos ?_
      rw [List.length_drop]
      omega
  · have front : ¬ (nonce ++ ciphertext ++ tag).length < SealKey.nonceLength := by
      rw [List.length_append, List.length_append]
      omega
    have back : ¬ (ciphertext ++ tag).length < SealKey.tagLength := by
      rw [List.length_append]
      omega
    have place : ciphertext.length = (ciphertext ++ tag).length - SealKey.tagLength := by
      rw [List.length_append]
      omega
    rw [openMember_unlocked, key.openPayload?_append size width, SealKey.openStepwise,
      if_neg front, List.append_assoc, Bytes.cut?_append size]
    simp only [Option.bind_eq_bind, Option.bind_some, if_neg back, Bytes.cut?_append place]
    split <;> rfl

end Access

/-- Opening undoes sealing. A password and a header of at least one iteration give a whole key, and
it is found by every handle that has the password and meets the header. Under a nonce this key seals
each plaintext within the limit as the nonce, the ciphertext and the tag, where no block is
encrypted twice; and with the key that the password and the header give again, the payload is opened
as the plaintext. Whatever the key, a payload was sealed with it and is opened, or it is refused
under the name of its member, as every payload is that is too short for a nonce and a tag; and no
cut of a payload is out of range. -/
theorem opening_undoes_sealing :
    (∀ (password : String) (header : KeyHeader), header.iterations ≠ 0 →
      ∃ key, Access.ofHeader password header = .unlocked key ∧ key.Whole ∧
        (∀ (handle : Handle) (contents : Contents), handle.Sound →
          handle.archive.password = some password → contents.manifest.key = some header →
          handle.access contents = .unlocked key) ∧
        ∀ nonce plaintext : Bytes, nonce.length = 12 → plaintext.length ≤ Gcm.lengthLimit →
          key.Holds nonce plaintext (key.sealPayload nonce plaintext) ∧
          (Gcm.inputs nonce plaintext.length).Nodup ∧
          ∀ member, (Access.ofHeader password header).openMember member
            (key.sealPayload nonce plaintext) = .ok plaintext) ∧
    ∀ (key : SealKey) (member : String) (payload : Bytes),
      ((∃ nonce plaintext, nonce.length = 12 ∧ payload = key.sealPayload nonce plaintext ∧
          (Access.unlocked key).openMember member payload = .ok plaintext) ∨
        (Access.unlocked key).openMember member payload = .error (.decryption member)) ∧
      (payload.length < 28 →
        (Access.unlocked key).openMember member payload = .error (.decryption member)) ∧
      key.openStepwise member payload = some ((Access.unlocked key).openMember member payload) := by
  constructor
  · intro password header counts
    obtain ⟨key, derived, whole⟩ := Access.exists_ofHeader password counts
    refine ⟨key, derived, whole, fun handle contents sound locked found => ?_,
      fun nonce plaintext size within => ?_⟩
    · rw [sound.access_of_header locked found, derived]
    · refine ⟨key.holds_sealPayload size plaintext, Gcm.nodup_inputs size within, fun member => ?_⟩
      have own : (Access.unlocked key).key member = .ok key := rfl
      rw [derived]
      exact Access.openMember_sealPayload own size plaintext member
  · intro key member payload
    exact ⟨Access.opened_or_refused key member payload, Access.openMember_of_short key member,
      Access.openStepwise_eq key member payload⟩

/-- A header of ten iterations. -/
def KeyHeader.tenIterations : KeyHeader :=
  ⟨List.replicate 16 7, 10⟩

/-- A handle that kept the key of a password and of this header. -/
def Handle.tenIterations : Handle :=
  (opened ⟨"storage.vault", some "secret", 10⟩).keeping
    (Contents.empty.withKeyHeader .tenIterations)

/-- Seventeen letters take two blocks, the second one in part, and three bytes are no payload. -/
theorem opening_undoes_sealing_letters :
    KeyHeader.tenIterations.iterations ≠ 0 ∧ Handle.tenIterations.Sound ∧
      (List.replicate 12 9 : Bytes).length = 12 ∧
      (encodeUtf8 "seventeen letters").length ≤ Gcm.lengthLimit ∧
      ∃ key, Access.ofHeader "secret" .tenIterations = .unlocked key ∧
        (key.sealPayload (List.replicate 12 9) (encodeUtf8 "seventeen letters")).length = 45 ∧
        (Handle.tenIterations.access (Contents.empty.withKeyHeader .tenIterations)).openMember "x"
            (key.sealPayload (List.replicate 12 9) (encodeUtf8 "seventeen letters")) =
          .ok (encodeUtf8 "seventeen letters") ∧
        (Access.unlocked key).openMember "x" [1, 2, 3] = .error (.decryption "x") ∧
        key.openStepwise "x" [1, 2, 3] = some (.error (.decryption "x")) := by
  have follows := Handle.follows_keeping (.opened ⟨"storage.vault", some "secret", 10⟩)
    (Contents.empty.withKeyHeader .tenIterations)
  have sound : Handle.tenIterations.Sound := follows.sound (Handle.sound_opened _)
  have counts : KeyHeader.tenIterations.iterations ≠ 0 := by decide
  have size : (List.replicate 12 9 : Bytes).length = 12 := by decide
  have letters : (encodeUtf8 "seventeen letters").length = 17 := by decide +kernel
  have within : (encodeUtf8 "seventeen letters").length ≤ Gcm.lengthLimit := by
    rw [letters]
    decide
  obtain ⟨given, every⟩ := opening_undoes_sealing
  obtain ⟨key, derived, -, found, seals⟩ := given "secret" .tenIterations counts
  obtain ⟨holds, -, opens⟩ := seals _ _ size within
  obtain ⟨-, short, stepwise⟩ := every key "x" [1, 2, 3]
  have refused := short (by decide)
  refine ⟨counts, sound, size, within, key, derived, ?_, ?_, refused, ?_⟩
  · rw [holds.length, letters]
  · rw [found _ _ sound (congrArg Archive.password follows.archive) rfl, ← derived]
    exact opens "x"
  · rw [stepwise, refused]

end ObjectVault
