import ObjectVault.Bytes
import ObjectVault.Checksum.Basic
import ObjectVault.Json.Basic
import ObjectVault.Table

namespace ObjectVault

/-- How the key of an archive comes from its password. -/
structure KeyHeader where
  salt : Bytes
  iterations : UInt32
deriving DecidableEq

/-- What the manifest says of a member. Size and checksums are those of the plaintext. -/
structure MemberEntry where
  size : UInt64
  crc32 : String
  sha256 : String
  encrypted : Bool
deriving DecidableEq

/-- The table of contents of an archive. -/
structure Manifest where
  version : UInt32
  writer : String
  key : Option KeyHeader
  members : Table MemberEntry

namespace KeyHeader

def toJson (header : KeyHeader) : Json :=
  .object [("salt", .array (header.salt.map fun b => .nat b.toNat)),
    ("iterations", .nat header.iterations.toNat)]

def ofJson (j : Json) : Option KeyHeader := do
  let [some salt, some iterations] ← j.record ["salt", "iterations"] | none
  let bytes ← (← salt.array?).mapM (Json.natBelow? UInt8.size)
  return ⟨bytes.map .ofNat, .ofNat (← iterations.natBelow? UInt32.size)⟩

end KeyHeader

namespace MemberEntry

def describe (plaintext : Bytes) (encrypted : Bool) : MemberEntry :=
  ⟨.ofNat plaintext.length, HashMethod.crc32.digest plaintext, HashMethod.sha256.digest plaintext,
    encrypted⟩

def checksums (entry : MemberEntry) : Checksums :=
  ⟨some entry.crc32, some entry.sha256⟩

def toJson (entry : MemberEntry) : Json :=
  .object [("size", .nat entry.size.toNat), ("crc32", .string entry.crc32),
    ("sha256", .string entry.sha256), ("encrypted", .bool entry.encrypted)]

def ofJson (j : Json) : Option MemberEntry := do
  let [some size, some crc32, some sha256, some encrypted] ←
    j.record ["size", "crc32", "sha256", "encrypted"] | none
  return ⟨.ofNat (← size.natBelow? UInt64.size), ← crc32.string?, ← sha256.string?,
    ← encrypted.bool?⟩

end MemberEntry

namespace Manifest

def currentVersion : UInt32 := 1

def empty : Manifest :=
  ⟨currentVersion, "0.1.0", none, ∅⟩

def membersJson (members : Table MemberEntry) : Json :=
  .object (members.entries.map fun (path, entry) => (path, entry.toJson))

/-- The members of an object. A repeated member has its last entry. -/
def membersOfJson : Json → Option (Table MemberEntry)
  | .object fields =>
    (fields.mapM fun field => (MemberEntry.ofJson field.2).map (field.1, ·)).map Table.ofList
  | _ => none

def toJson (manifest : Manifest) : Json :=
  .object <|
    [("format_version", .nat manifest.version.toNat), ("writer_version", .string manifest.writer)]
    ++ Json.present "kdf" KeyHeader.toJson manifest.key
    ++ [("members", membersJson manifest.members)]

/-- Reads a manifest; the key header and the members may be absent. -/
def ofJson (j : Json) : Option Manifest := do
  let [some version, some writer, key, members] ←
    j.record ["format_version", "writer_version", "kdf", "members"] | none
  return ⟨.ofNat (← version.natBelow? UInt32.size), ← writer.string?,
    ← Json.optional KeyHeader.ofJson key, ← (members.map membersOfJson).getD (some ∅)⟩

end Manifest
end ObjectVault
