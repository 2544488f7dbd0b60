import ObjectVault.Bytes

namespace ObjectVault.Text

/-- Where a byte sequence stops being UTF-8: `length` is the size of the wrong sequence, or `none`
if the input ends inside a sequence that was right so far. -/
structure Utf8Fault where
  start : Nat
  length : Option Nat
deriving DecidableEq, Repr

def Utf8Fault.message (fault : Utf8Fault) : String :=
  match fault.length with
  | some n => s!"invalid utf-8 sequence of {n} bytes from index {fault.start}"
  | none => s!"incomplete utf-8 byte sequence from index {fault.start}"

/-- What the beginning of a byte sequence holds: a whole character of `n` bytes, `n` bytes that no
character starts with, or the beginning of a character that is cut off. -/
inductive Utf8Head
  | whole (n : Nat)
  | wrong (n : Nat)
  | cut

/-- The range of the second byte and the number of bytes after it, by the first byte. -/
def utf8Followers (first : UInt8) : Option (UInt8 × UInt8 × Nat) :=
  if 0xC2 ≤ first && first ≤ 0xDF then some (0x80, 0xBF, 0)
  else if first == 0xE0 then some (0xA0, 0xBF, 1)
  else if first == 0xED then some (0x80, 0x9F, 1)
  else if 0xE1 ≤ first && first ≤ 0xEF then some (0x80, 0xBF, 1)
  else if first == 0xF0 then some (0x90, 0xBF, 2)
  else if 0xF1 ≤ first && first ≤ 0xF3 then some (0x80, 0xBF, 2)
  else if first == 0xF4 then some (0x80, 0x8F, 2)
  else none

/-- Reads `more` continuation bytes after `seen` bytes of a character. -/
def utf8Tail : (more seen : Nat) → Bytes → Utf8Head
  | 0, seen, _ => .whole seen
  | _ + 1, _, [] => .cut
  | more + 1, seen, b :: rest =>
    if 0x80 ≤ b && b ≤ 0xBF then utf8Tail more (seen + 1) rest else .wrong seen

def utf8Head : Bytes → Utf8Head
  | [] => .cut
  | first :: rest =>
    if first < 0x80 then .whole 1
    else match utf8Followers first, rest with
      | none, _ => .wrong 1
      | some _, [] => .cut
      | some (lo, hi, more), second :: rest =>
        if lo ≤ second && second ≤ hi then utf8Tail more 2 rest else .wrong 1

/-- The first fault of the bytes, which begin at index `start`. -/
def utf8Fault : (fuel start : Nat) → Bytes → Utf8Fault
  | 0, start, _ => ⟨start, none⟩
  | fuel + 1, start, bytes =>
    match utf8Head bytes with
    | .whole n => utf8Fault fuel (start + n) (bytes.drop n)
    | .wrong n => ⟨start, some n⟩
    | .cut => ⟨start, none⟩

def decodeUtf8 (bytes : Bytes) : Except Utf8Fault String :=
  match String.fromUTF8? ⟨bytes.toArray⟩ with
  | some text => .ok text
  | none => .error (utf8Fault bytes.length 0 bytes)

def encodeUtf8 (text : String) : Bytes :=
  text.toUTF8.data.toList

theorem decodeUtf8_encodeUtf8 (text : String) : decodeUtf8 (encodeUtf8 text) = .ok text := by
  have h : String.fromUTF8? ⟨(encodeUtf8 text).toArray⟩ = some text := by
    simp only [encodeUtf8, Array.toArray_toList]
    exact dif_pos text.isValidUTF8
  simp only [decodeUtf8, h]

/-- Reads bytes as text with the replacement character for each wrong or cut sequence. -/
def lossyChars : (fuel : Nat) → Bytes → List Char
  | 0, _ => []
  | _ + 1, [] => []
  | fuel + 1, bytes =>
    match utf8Head bytes with
    | .whole n =>
      (((decodeUtf8 (bytes.take n)).toOption.getD "").toList) ++ lossyChars fuel (bytes.drop n)
    | .wrong n => '\uFFFD' :: lossyChars fuel (bytes.drop n)
    | .cut => ['\uFFFD']

/-- The text that the bytes encode, with the replacement character where they encode none. -/
def lossyUtf8 (bytes : Bytes) : String :=
  match decodeUtf8 bytes with
  | .ok text => text
  | .error _ => .ofList (lossyChars bytes.length bytes)

theorem lossyUtf8_encodeUtf8 (text : String) : lossyUtf8 (encodeUtf8 text) = text := by
  rw [lossyUtf8, decodeUtf8_encodeUtf8]

theorem encodeUtf8_ofList (cs : List Char) :
    encodeUtf8 (.ofList cs) = cs.flatMap String.utf8EncodeChar := by
  rw [encodeUtf8, String.toUTF8, String.toByteArray_ofList, List.utf8Encode,
    List.data_toByteArray]

theorem length_encodeUtf8_ofList (cs : List Char) :
    (encodeUtf8 (.ofList cs)).length ≤ 4 * cs.length := by
  rw [encodeUtf8_ofList]
  induction cs with
  | nil => simp
  | cons c cs ih =>
    have size := c.utf8Size_le_four
    simp only [List.flatMap_cons, List.length_append, List.length_cons,
      String.length_utf8EncodeChar]
    omega

theorem encodeUtf8_append (s t : String) : encodeUtf8 (s ++ t) = encodeUtf8 s ++ encodeUtf8 t := by
  rw [← String.ofList_toList (s := s), ← String.ofList_toList (s := t), ← String.ofList_append,
    encodeUtf8_ofList, encodeUtf8_ofList, encodeUtf8_ofList, List.flatMap_append]

/-- Bytes below 128 are the characters of the same numbers. -/
theorem decodeUtf8_ascii {bytes : Bytes} (h : ∀ b ∈ bytes, b < 128) :
    decodeUtf8 bytes = .ok (.ofList (bytes.map fun b => Char.ofNat b.toNat)) := by
  have all : ∀ n, n < 128 → String.utf8EncodeChar (Char.ofNat n) = [UInt8.ofNat n] := by decide
  have single : ∀ b : UInt8, b < 128 → String.utf8EncodeChar (Char.ofNat b.toNat) = [b] := by
    intro b lt
    rw [all b.toNat (UInt8.lt_iff_toNat_lt.mp lt), UInt8.ofNat_toNat]
  have encoded : encodeUtf8 (.ofList (bytes.map fun b => Char.ofNat b.toNat)) = bytes := by
    rw [encodeUtf8_ofList]
    induction bytes with
    | nil => rfl
    | cons b bytes ih =>
      rw [List.map_cons, List.flatMap_cons, single b (h b List.mem_cons_self),
        ih fun c hc => h c (List.mem_cons_of_mem _ hc), List.singleton_append]
  rw [← encoded, decodeUtf8_encodeUtf8, encoded]

def byteCount (cs : List Char) : Nat :=
  cs.foldl (fun n c => n + c.utf8Size) 0

def lineEnds (cs : List Char) : Nat :=
  cs.count '\n'

def lastLine (cs : List Char) : List Char :=
  (cs.reverse.takeWhile (· != '\n')).reverse

end ObjectVault.Text
