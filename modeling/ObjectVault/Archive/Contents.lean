import ObjectVault.Archive.Error
import ObjectVault.Archive.Manifest
import ObjectVault.Container.Reader
import ObjectVault.Json.Reader
import ObjectVault.Json.Writer

namespace ObjectVault
open ObjectVault.Text

/-- Everything an archive holds. The payload of an encrypted member is sealed. -/
structure Contents where
  manifest : Manifest
  payloads : Table Bytes

namespace Contents

def empty : Contents :=
  ⟨.empty, ∅⟩

def manifestName : String := "vault/MANIFEST.json"

def dataFolder : String := "vault/data/"

/-- The member that an entry is the payload of. -/
def memberOf? (name : String) : Option String :=
  if dataFolder.toList.isPrefixOf name.toList then
    some (.ofList (name.toList.drop dataFolder.toList.length))
  else none

/-- The content of the last entry that is a manifest. -/
def manifestData (entries : List Container.Entry) : Option Bytes :=
  (entries.reverse.find? (·.name = manifestName)).map (·.data)

/-- The payloads of all entries below the folder of the payloads. -/
def payloadsOf (entries : List Container.Entry) : Table Bytes :=
  .ofList (entries.filterMap fun entry => (memberOf? entry.name).map (·, entry.data))

def readManifest (data : Bytes) : Option Manifest :=
  match decodeUtf8 data with
  | .ok text => (Json.ofText text).bind Manifest.ofJson
  | .error _ => none

def check (contents : Contents) : Except ArchiveError Unit :=
  let members := contents.manifest.members
  if contents.manifest.version ≠ Manifest.currentVersion then
    .error (.unsupportedVersion contents.manifest.version.toNat)
  else match members.keys.find? (!contents.payloads.contains ·) with
    | some member => .error (.invalid (.noPayload member))
    | none =>
      match contents.payloads.keys.find? (!members.contains ·) with
      | some member => .error (.invalid (.unlisted member))
      | none => .ok ()

def ofEntries (entries : List Container.Entry) : Except ArchiveError Contents :=
  match manifestData entries with
  | none => .error (.invalid .noManifest)
  | some data =>
    match readManifest data with
    | none => .error .manifest
    | some manifest => do
      let contents : Contents := ⟨manifest, payloadsOf entries⟩
      contents.check
      return contents

def ofBytes (bytes : Bytes) : Except ArchiveError Contents :=
  match Container.ofBytes bytes with
  | .error fault => .error (.container fault)
  | .ok entries => ofEntries entries

/-- The manifest and the payloads in the order of their paths. -/
def entries (contents : Contents) : List Container.Entry :=
  ⟨manifestName, encodeUtf8 contents.manifest.toJson.pretty⟩ ::
    contents.payloads.entries.map fun (member, data) => ⟨dataFolder ++ member, data⟩

def stream (contents : Contents) : Except ArchiveError Bytes :=
  (Container.stream contents.entries).mapError fun (path, fault) => .entryName path fault

def bytes (contents : Contents) : Except ArchiveError Bytes :=
  contents.stream.map Zstd.deflate

end Contents
end ObjectVault
