import ObjectVault.Command.Arguments
import ObjectVault.Command.Error
import ObjectVault.Decimal.Integer

namespace ObjectVault
open ObjectVault.Command

/-- How a vault is opened. -/
structure Settings where
  path : String
  encryptionVariable : Option String
  secure : Bool
  timestamp : Bool
  metadata : Bool
  allowedDuration : UInt64
deriving DecidableEq

namespace Settings

def default : Settings :=
  ⟨"storage.vault", none, true, true, true, 30⟩

/-- The settings by their names. -/
inductive Key
  | path
  | encryptionVariable
  | secure
  | timestamp
  | metadata
  | allowedDuration
deriving DecidableEq

namespace Key

def all : List Key :=
  [path, encryptionVariable, secure, timestamp, metadata, allowedDuration]

def name : Key → String
  | path => "path"
  | encryptionVariable => "encryption_variable"
  | secure => "secure"
  | timestamp => "timestamp"
  | metadata => "metadata"
  | allowedDuration => "allowed_duration"

/-- The setting of a name or of the letter that a name begins with. -/
def ofKeyword? (keyword : String) : Option Key :=
  all.find? fun key => key.name == keyword || key.name.toList.take 1 == keyword.toList

end Key

inductive Flag
  | is (b : Bool)
  | other (text : String)

/-- A switch is written as `True` or `False`. -/
def flag (text : String) : Flag :=
  if text = "True" then .is true else if text = "False" then .is false else .other text

def switch (key : Key) (value : String) : Except CommandError Bool :=
  match flag value with
  | .is b => .ok b
  | .other text => .error (.rejected (.notBoolean key.name text))

def seconds (value : String) : Except CommandError UInt64 :=
  match Decimal.readUInt64 value.toList with
  | some n => .ok n
  | none => .error (.rejected (.notSeconds value))

/-- The settings with one of them given by its text. -/
def set (settings : Settings) (key : Key) (value : String) : Except CommandError Settings :=
  match key with
  | .path =>
    match unquote value with
    | .ok path => .ok { settings with path }
    | .error fault => .error (.malformed fault)
  | .encryptionVariable => .ok { settings with encryptionVariable := some value }
  | .secure => (switch key value).map fun secure => { settings with secure }
  | .timestamp => (switch key value).map fun timestamp => { settings with timestamp }
  | .metadata => (switch key value).map fun metadata => { settings with metadata }
  | .allowedDuration => (seconds value).map fun allowedDuration => { settings with allowedDuration }

/-- The settings with those of the arguments over them, in the order of the keywords: a full name
comes after its letter. Other keywords are passed over. -/
def withArguments (settings : Settings) (arguments : Arguments) : Except CommandError Settings :=
  arguments.entries.foldlM (fun settings (keyword, value) =>
    match Key.ofKeyword? keyword with
    | some key => settings.set key value
    | none => .ok settings) settings

def withLine (settings : Settings) (line : String) : Except CommandError Settings :=
  match Arguments.ofLine line with
  | .ok arguments => settings.withArguments arguments
  | .error fault => .error (.malformed fault)

end Settings
end ObjectVault
