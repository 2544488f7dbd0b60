import ObjectVault.Bytes
import ObjectVault.Container.Fault
import ObjectVault.Text.Blank
import ObjectVault.Text.Utf8

namespace ObjectVault.Container
open ObjectVault.Text

/-- A header takes one block and a content takes whole blocks. -/
def blockSize : Nat := 512

/-- The length of the blocks that a content takes. -/
def roundedUp (size : Nat) : Nat :=
  (size + (blockSize - 1)) / blockSize * blockSize

/-- A run of bytes of a header. -/
structure Field where
  start : Nat
  width : Nat

namespace Field

def name : Field := ⟨0, 100⟩

def size : Field := ⟨124, 12⟩

def checksum : Field := ⟨148, 8⟩

def kind : Field := ⟨156, 1⟩

def format : Field := ⟨257, 8⟩

def folder : Field := ⟨345, 155⟩

def read (field : Field) (block : Bytes) : Bytes :=
  (block.drop field.start).take field.width

end Field

/-- A text in a field ends at the first zero. -/
def upToZero (bytes : Bytes) : Bytes :=
  bytes.takeWhile (· != 0)

def isOctalDigit (c : Char) : Bool :=
  '0' ≤ c && c ≤ '7'

def ofOctalDigits (cs : List Char) : Option Nat :=
  if cs.isEmpty || !cs.all isOctalDigit then none
  else some (cs.foldl (fun n c => 8 * n + (c.toNat - 48)) 0)

/-- A number in octal digits, which may have blanks around it and a plus sign in front. -/
def readOctal (bytes : Bytes) : Option Nat :=
  match decodeUtf8 (upToZero bytes) with
  | .error _ => none
  | .ok text =>
    match trim text.toList with
    | '+' :: digits => ofOctalDigits digits
    | digits => ofOctalDigits digits

/-- A size in octal digits, or, behind a first byte of 128 or more, in the last eight bytes. -/
def readSize (bytes : Bytes) : Option Nat :=
  if bytes.headD 0 ≥ 128 then some (Bytes.ofBigEndian (bytes.drop 4)) else readOctal bytes

def byteSum (bytes : Bytes) : Nat :=
  bytes.foldl (fun sum b => sum + b.toNat) 0

/-- The sum of the bytes of a header, with blanks in place of the sum itself. -/
def headerSum (front back : Bytes) : Nat :=
  byteSum front + Field.checksum.width * 32 + byteSum back

/-- The two revisions of the format that have extensions. -/
inductive Format
  | plain
  | extended
  | foldered
deriving DecidableEq

def Format.mark : Format → Bytes
  | plain => []
  | extended => encodeUtf8 "ustar  \x00"
  | foldered => encodeUtf8 "ustar\x0000"

def Format.ofBlock (block : Bytes) : Format :=
  let mark := Field.format.read block
  if mark = extended.mark then extended else if mark = foldered.mark then foldered else plain

/-- What a header says of the content behind it. -/
structure Header where
  name : Bytes
  size : Nat
  kind : UInt8
  format : Format

namespace Header

/-- The name of a header, in its folder if the format has one. -/
def nameOf (format : Format) (block : Bytes) : Bytes :=
  let name := upToZero (Field.name.read block)
  let folder := upToZero (Field.folder.read block)
  if format = .foldered && !folder.isEmpty then folder ++ [47] ++ name else name

def number (field : String) (bytes : Bytes) (read : Bytes → Option Nat) :
    Except ContainerFault Nat :=
  match read bytes with
  | some n => .ok n
  | none => .error (.brokenNumber field (lossyUtf8 (upToZero bytes)))

def ofBlock (block : Bytes) : Except ContainerFault Header := do
  let sum ← number "cksum" (Field.checksum.read block) readOctal
  let back := block.drop (Field.checksum.start + Field.checksum.width)
  if headerSum (block.take Field.checksum.start) back ≠ sum then throw .headerChecksum
  let size ← number "size" (Field.size.read block) readSize
  let format := Format.ofBlock block
  return ⟨nameOf format block, size, (Field.kind.read block).headD 0, format⟩

/-- The last octal digits of a number, as many as asked for. -/
def octal : (digits : Nat) → Nat → Bytes
  | 0, _ => []
  | digits + 1, n => octal digits (n / 8) ++ [UInt8.ofNat (48 + n % 8)]

def padded (width : Nat) (bytes : Bytes) : Bytes :=
  bytes ++ List.replicate (width - bytes.length) 0

/-- Eleven octal digits and a zero, or eight bytes for a size that has more digits. -/
def sizeBytes (size : Nat) : Bytes :=
  if size < 1 <<< 33 then octal 11 size ++ [0] else [128, 0, 0, 0] ++ Bytes.bigEndian 8 size

/-- The part of a header before its sum: name, permissions, size and time. -/
def front (name : Bytes) (size : Nat) : Bytes :=
  padded Field.name.width name ++ octal 7 0o644 ++ List.replicate 17 0 ++ sizeBytes size ++
    octal 11 0 ++ [0]

/-- The part of a header behind its sum: an ordinary file. -/
def back : Bytes :=
  padded 356 (List.replicate 101 0 ++ Format.extended.mark)

def block (name : Bytes) (size : Nat) : Bytes :=
  front name size ++ octal 7 (headerSum (front name size) back) ++ [0] ++ back

end Header
end ObjectVault.Container
