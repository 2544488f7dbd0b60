import ObjectVault.Json.Fault
import ObjectVault.Text.Utf8
import ObjectVault.Value.Basic

namespace ObjectVault

/-- Why a value could not be written or bytes could not be read. -/
inductive CodecError
  | notText (fault : Text.Utf8Fault)
  | neitherFormat (fault : Text.Utf8Fault)
  | emptyTable
  | openCell
  | cellCount (row found expected : Nat)
  | invalidFrame (fault : FrameFault)
  | cannotExport (name : String)
  | cannotImport (name : String)
  | notJson (fault : Json.Fault)
deriving DecidableEq

namespace CodecError

def reason : CodecError → String
  | notText fault => "not valid UTF-8: " ++ fault.message
  | neitherFormat fault => "neither JSON nor UTF-8 text: " ++ fault.message
  | emptyTable => "empty TSV input"
  | openCell => "unterminated quoted cell"
  | cellCount row found expected => s!"row {row} has {found} cells, expected {expected}"
  | invalidFrame fault => fault.reason
  | cannotExport name => s!"'{name}' is an importer and cannot export values"
  | cannotImport name => s!"'{name}' is an exporter and cannot import bytes"
  | notJson fault => fault.message

def message : CodecError → String
  | notJson fault => "serialization error: " ++ fault.message
  | invalidFrame fault => "invalid frame: " ++ fault.reason
  | error => "codec error: " ++ error.reason

end CodecError
end ObjectVault
