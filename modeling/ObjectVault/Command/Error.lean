import ObjectVault.Command.Arguments
import ObjectVault.Storage.Error
import ObjectVault.Toml.Fault

namespace ObjectVault

/-- Why a vault cannot be opened or used. -/
inductive ConfigurationFault
  | notOpen
  | unsetVariable (name : String)
  | unreadableFile (path : String) (fault : FileFault)
  | brokenFile (path : String) (fault : Toml.Fault)
  | brokenText (fault : Toml.Fault)
deriving DecidableEq

def ConfigurationFault.message : ConfigurationFault → String
  | .notOpen => "Please setup the storage with open_vault first."
  | .unsetVariable name => s!"Encryption variable '{name}' is not set in the environment"
  | .unreadableFile path fault => s!"Failed to read config file '{path}': {fault.message}"
  | .brokenFile path fault => s!"Failed to parse config file '{path}': {fault.message}"
  | .brokenText fault => "Failed to parse settings: " ++ fault.message

/-- Why a well-formed value is refused. -/
inductive Rejection
  | wildcardName
  | wildcardPath (path : String)
  | hashLength
  | hashMethod (name : String)
  | storeAlias (names : List String)
  | importAlias (names : List String)
  | importerForStore (name : String)
  | exporterForImport (name : String)
  | notStorable (name kind : String)
  | notA (rule kind : String)
  | incomplete (shortfalls : String)
  | disallowed (reason : String)
  | unknownAction (keyword : String)
  | notBoolean (key value : String)
  | notSeconds (value : String)
deriving DecidableEq

def Rejection.message : Rejection → String
  | .wildcardName => "wildcard '*' is not supported, list the names explicitly"
  | .wildcardPath path =>
    s!"wildcards are not supported in '{path}', delete members one by one"
  | .hashLength => "Hash needs to have either 8 (CRC32) or 64 (SHA256) characters"
  | .hashMethod name => s!"unknown hash method '{name}'"
  | .storeAlias names => "'as' renames a single variable, got " ++ ", ".intercalate names
  | .importAlias names => "'as' renames a single import, got " ++ ", ".intercalate names
  | .importerForStore name =>
    s!"'{name}' is an importer, storing needs a function that exports values"
  | .exporterForImport name =>
    s!"'{name}' is an exporter, importing needs a function that reads bytes"
  | .notStorable name kind => s!"'{name}' is a {kind}, only values can be stored"
  | .notA rule kind => s!"'{rule}': not a {kind}"
  | .incomplete shortfalls => "incomplete command: " ++ shortfalls
  | .disallowed reason => reason
  | .unknownAction keyword => s!"unknown action '{keyword}'"
  | .notBoolean key value => s!"{key} must be True or False, got '{value}'"
  | .notSeconds value =>
    s!"allowed_duration must be a whole number of seconds, got '{value}'"

/-- Why a command failed. -/
inductive CommandError
  | configuration (fault : ConfigurationFault)
  | unmatched (action suggestions : String)
  | malformed (fault : Command.Malformed)
  | rejected (cause : Rejection)
  | invalidIdentifier (kind name : String)
  | nameNotFound (kind name : String)
  | notCallable (name : String)
  | checksumMismatch (subject method expected calculated : String)
  | storage (error : StorageError)
deriving DecidableEq

def CommandError.message : CommandError → String
  | .configuration fault => fault.message
  | .unmatched _ suggestions => "No command matched. Did you mean:" ++ suggestions
  | .malformed fault => fault.message
  | .rejected cause => cause.message
  | .invalidIdentifier kind name => s!"'{name}' is not a valid {kind} name"
  | .nameNotFound kind name => s!"{kind} '{name}' is not defined in the global namespace"
  | .notCallable name => s!"'{name}' is not a function"
  | .checksumMismatch subject method expected calculated =>
    s!"{method} checksum of '{subject}' is {calculated}, expected {expected}"
  | .storage error => error.message

end ObjectVault
