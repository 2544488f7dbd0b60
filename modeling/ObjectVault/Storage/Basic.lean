import ObjectVault.Archive.Basic
import ObjectVault.Checksum.Basic
import ObjectVault.Codec.Default
import ObjectVault.Storage.Error

namespace ObjectVault.Storage

/-- A value with the checksums of the bytes that it was read from. -/
structure Loaded where
  value : Value
  checksums : Checksums

def contains (archive : Archive) (path : String) (d : Directory) : Except StorageError Bool :=
  (archive.contains path d).mapError .archive

def list (archive : Archive) (folder : String) (d : Directory) :
    Except StorageError (List String) :=
  (archive.list folder d).mapError .archive

/-- Reads a member and converts its bytes to a value. -/
def load (archive : Archive) (path : String) (importer : Option Converter) (d : Directory) :
    Except StorageError Loaded := do
  let bytes ← (archive.read path d).mapError .archive
  let value ← (Codec.importWith importer bytes).mapError .codec
  return ⟨value, .ofBytes bytes⟩

/-- The checksum of a member as it is stored now. -/
def digest (archive : Archive) (path : String) (method : HashMethod) (d : Directory) :
    Except StorageError String :=
  ((archive.read path d).map method.digest).mapError .archive

def checkIntegrity (archive : Archive) (d : Directory) : Except StorageError Unit :=
  (archive.checkIntegrity d).mapError .archive

/-- The checksums of a member, if there is one at the path. -/
def checksumsAt (archive : Archive) (path : String) (d : Directory) :
    Except StorageError (Option Checksums) := do
  let manifest ← (archive.manifest d).mapError .archive
  return (manifest.members.get? path).map (·.checksums)

/-- Converts a value to bytes and stores them as a member. -/
def store (archive : Archive) (path : String) (value : Value) (exporter : Option Converter)
    (subject : String) : HostM StorageError ResultRecord := do
  let old ← HostM.look (checksumsAt archive path)
  let bytes ← HostM.look fun _ => (Codec.exportWith exporter value).mapError .codec
  let entry ← (archive.write path bytes).mapError .archive
  return ⟨subject, old, some entry.checksums⟩

def delete (archive : Archive) (path : String) : HostM StorageError ResultRecord := do
  let entry ← (archive.delete path).mapError .archive
  return ⟨path, some entry.checksums, none⟩

end ObjectVault.Storage
