import ObjectVault.Archive.Error
import ObjectVault.Codec.Error
import ObjectVault.Value.Basic

namespace ObjectVault

/-- Why a name could not be resolved or an object could not be stored or loaded. -/
inductive StorageError
  | nameNotFound (name : String)
  | attributeNotFound (object part : String)
  | invalidFrame (fault : FrameFault)
  | codec (error : CodecError)
  | archive (error : ArchiveError)
  | file (fault : FileFault)
  | notMetadata
deriving DecidableEq

def StorageError.message : StorageError → String
  | .nameNotFound name => s!"'{name}' is not defined"
  | .attributeNotFound object part => s!"'{object}' has no attribute '{part}'"
  | .invalidFrame fault => "invalid frame: " ++ fault.reason
  | .codec error => error.message
  | .archive (.memberNotFound member) => s!"There is no item named '{member}' in the archive"
  | .archive (.checksumMismatch member expected actual) =>
    s!"integrity check failed for '{member}': expected CRC32 {expected}, got {actual}"
  | .archive (.passwordRequired member) =>
    s!"File '{member}' is encrypted, password required for extraction"
  | .archive (.decryption member) =>
    s!"cannot decrypt '{member}': wrong password or corrupted data"
  | .archive (.file fault) => "I/O error: " ++ fault.message
  | .archive .manifest => "serialization error: the manifest cannot be read"
  | .archive error => "archive error: " ++ error.message
  | .file fault => "I/O error: " ++ fault.message
  | .notMetadata => "serialization error: not a metadata record"

end ObjectVault
