import ObjectVault.Codec.Error
import ObjectVault.Value.Basic

namespace ObjectVault

/-- A named conversion between values and bytes, in one of the two directions. -/
inductive Converter
  | exporter (name : String) (write : Value → Except CodecError Bytes)
  | importer (name : String) (read : Bytes → Except CodecError Value)

namespace Converter

def name : Converter → String
  | exporter name _ => name
  | importer name _ => name

def exports : Converter → Bool
  | exporter .. => true
  | importer .. => false

def kind : Converter → String
  | exporter .. => "exporter"
  | importer .. => "importer"

def encode : Converter → Value → Except CodecError Bytes
  | exporter _ write, v => write v
  | importer name _, _ => .error (.cannotExport name)

def decode : Converter → Bytes → Except CodecError Value
  | importer _ read, bytes => read bytes
  | exporter name _, _ => .error (.cannotImport name)

def text : Converter → String
  | exporter name _ => s!"Exporter({name})"
  | importer name _ => s!"Importer({name})"

end Converter
end ObjectVault
