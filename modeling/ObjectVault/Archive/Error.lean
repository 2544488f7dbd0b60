import ObjectVault.Container.Fault
import ObjectVault.Directory.Basic

namespace ObjectVault

/-- What is wrong with an archive that is a container. -/
inductive ArchiveFault
  | noManifest
  | noPayload (member : String)
  | unlisted (member : String)
  | noKeyHeader
  | noIterations
deriving DecidableEq

def ArchiveFault.message : ArchiveFault → String
  | .noManifest => "missing MANIFEST.json"
  | .noPayload member => s!"manifest lists '{member}' but the archive has no payload for it"
  | .unlisted member => s!"payload '{member}' is not listed in the manifest"
  | .noKeyHeader => "encrypted member without kdf header"
  | .noIterations => "kdf iteration count is zero"

/-- Why an archive could not be read or rewritten. -/
inductive ArchiveError
  | memberNotFound (member : String)
  | invalid (fault : ArchiveFault)
  | checksumMismatch (member expected actual : String)
  | unsupportedVersion (version : Nat)
  | passwordRequired (member : String)
  | decryption (member : String)
  | container (fault : ContainerFault)
  | entryName (path : String) (fault : NameFault)
  | file (fault : FileFault)
  | manifest
deriving DecidableEq

def ArchiveError.message : ArchiveError → String
  | .memberNotFound member => "Member not found: " ++ member
  | .invalid fault => "Invalid archive: " ++ fault.message
  | .checksumMismatch member expected actual =>
    s!"Checksum mismatch for {member}: expected {expected}, got {actual}"
  | .unsupportedVersion version => s!"Unsupported format version: {version}. Supported: 1"
  | .passwordRequired member => "Member is encrypted, password required: " ++ member
  | .decryption member => "Cannot decrypt member: " ++ member
  | .container fault => "Archive error: " ++ fault.message
  | .entryName path fault =>
    s!"Archive error: set path '{path}': {fault.message} when setting path for {path}"
  | .file fault => "IO error: " ++ fault.message
  | .manifest => "JSON error: the manifest cannot be read"

end ObjectVault
