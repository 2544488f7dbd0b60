import ObjectVault.Checksum.Sha256

namespace ObjectVault

namespace Crc32

def polynomial : UInt32 := 0xEDB88320

def shift (register : UInt32) : UInt32 :=
  if register &&& 1 == 1 then (register >>> 1) ^^^ polynomial else register >>> 1

/-- Takes a byte into the register, the lowest bit first. -/
def absorb (register : UInt32) (byte : UInt8) : UInt32 :=
  shift (shift (shift (shift (shift (shift (shift (shift (register ^^^ byte.toUInt32))))))))

/-- The 32-bit cyclic redundancy check of the bytes. -/
def checksum (bytes : Bytes) : UInt32 :=
  bytes.foldl absorb 0xFFFFFFFF ^^^ 0xFFFFFFFF

def digest (bytes : Bytes) : String :=
  Bytes.hex (Bytes.bigEndian 4 (checksum bytes).toNat)

end Crc32

/-- The checksums that the vault records. -/
inductive HashMethod
  | crc32
  | sha256
deriving DecidableEq

namespace HashMethod

def name : HashMethod → String
  | crc32 => "CRC32"
  | sha256 => "SHA256"

/-- The field of a record that holds the checksum. -/
def key : HashMethod → String
  | crc32 => "crc32"
  | sha256 => "sha256"

def digits : HashMethod → Nat
  | crc32 => 8
  | sha256 => 64

def all : List HashMethod :=
  [crc32, sha256]

def ofName? (name : String) : Option HashMethod :=
  all.find? (·.name == name)

def ofDigits? (count : Nat) : Option HashMethod :=
  all.find? (·.digits == count)

def digest : HashMethod → Bytes → String
  | crc32, bytes => Crc32.digest bytes
  | sha256, bytes => Sha256.digest bytes

end HashMethod

/-- The known checksums of some content. -/
structure Checksums where
  crc32 : Option String
  sha256 : Option String
deriving DecidableEq

namespace Checksums

def ofBytes (bytes : Bytes) : Checksums :=
  ⟨some (Crc32.digest bytes), some (Sha256.digest bytes)⟩

def single : HashMethod → String → Checksums
  | .crc32, digest => ⟨some digest, none⟩
  | .sha256, digest => ⟨none, some digest⟩

/-- The checksum that is shown, the shorter one if both are known. -/
def short (sums : Checksums) : Option String :=
  sums.crc32.or sums.sha256

def isEmpty (sums : Checksums) : Bool :=
  sums.crc32.isNone && sums.sha256.isNone

end Checksums

/-- What a command did to one subject: the checksums before and after it. -/
structure ResultRecord where
  subject : String
  old : Option Checksums
  new : Option Checksums
deriving DecidableEq

end ObjectVault
