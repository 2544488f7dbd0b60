import ObjectVault.Codec.Converter
import ObjectVault.Codec.Tsv
import ObjectVault.Json.Diagnosis

namespace ObjectVault.Codec
open ObjectVault.Text

/-- The document that bytes hold as a value. -/
def ofJsonBytes (bytes : Bytes) : Option Value :=
  match decodeUtf8 bytes with
  | .ok text => (Json.ofText text).bind (Value.ofJson Value.maxNesting)
  | .error _ => none

def writeJson (v : Value) : Bytes :=
  encodeUtf8 v.toJson.pretty

/-- Why bytes are no document. Bytes that are no text are at fault where the text ends. -/
def jsonFault (bytes : Bytes) : Json.Fault :=
  match decodeUtf8 bytes with
  | .ok text => Json.faultOf Value.maxNesting text.toList
  | .error fault =>
    match decodeUtf8 (bytes.take fault.start) with
    | .ok text => Json.Cause.codePoint.behind text.toList
    | .error _ => Json.Cause.codePoint.behind []

def readJson (bytes : Bytes) : Except CodecError Value :=
  match ofJsonBytes bytes with
  | some v => .ok v
  | none => .error (.notJson (jsonFault bytes))

def readText (bytes : Bytes) : Except CodecError Value :=
  match decodeUtf8 bytes with
  | .ok text => .ok (.string text)
  | .error fault => .error (.notText fault)

/-- A frame is written as a table, every other value as a document. -/
def exportDefault : Value → Except CodecError Bytes
  | .frame frame => .ok (encodeUtf8 (Tsv.ofFrame frame))
  | v => .ok (writeJson v)

/-- Bytes that are a document are that value; all others are read as a table. -/
def importDefault (bytes : Bytes) : Except CodecError Value :=
  match ofJsonBytes bytes with
  | some v => .ok v
  | none =>
    match decodeUtf8 bytes with
    | .ok text => (Tsv.ofText text).map .frame
    | .error fault => .error (.neitherFormat fault)

/-- Converts with the given exporter, or by default. -/
def exportWith : Option Converter → Value → Except CodecError Bytes
  | some converter, v => converter.encode v
  | none, v => exportDefault v

/-- Converts with the given importer, or by default. -/
def importWith : Option Converter → Bytes → Except CodecError Value
  | some converter, bytes => converter.decode bytes
  | none, bytes => importDefault bytes

def jsonDumps : Converter :=
  .exporter "json.dumps" fun v => .ok (writeJson v)

def jsonLoads : Converter :=
  .importer "json.loads" readJson

def plainText : Converter :=
  .importer "text" readText

def defaultExporter : Converter :=
  .exporter "default_exporter" exportDefault

def defaultImporter : Converter :=
  .importer "default_importer" importDefault

end ObjectVault.Codec
