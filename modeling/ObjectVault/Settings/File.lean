import ObjectVault.Directory.Basic
import ObjectVault.Settings.Basic
import ObjectVault.Toml.Node
import ObjectVault.Toml.Reader

namespace ObjectVault.Settings
open ObjectVault.Toml

/-- The settings with one of them given by what a document says under its name. -/
def setNode (settings : Settings) (key : Key) (node : Node) : Except Mismatch Settings :=
  match key with
  | .path => node.text.map fun path => { settings with path }
  | .encryptionVariable =>
    node.text.map fun name => { settings with encryptionVariable := some name }
  | .secure => node.truth.map fun secure => { settings with secure }
  | .timestamp => node.truth.map fun timestamp => { settings with timestamp }
  | .metadata => node.truth.map fun metadata => { settings with metadata }
  | .allowedDuration => node.count.map fun allowedDuration => { settings with allowedDuration }

/-- The settings that a document gives over those that count without it. Other fields are passed
over. -/
def ofFields (fields : Fields) : Except Mismatch Settings :=
  fields.foldlM (fun settings (name, node) =>
    match Key.all.find? (·.name == name) with
    | some key => settings.setNode key node
    | none => .ok settings) default

def ofDocument (document : String) : Except Toml.Fault Settings := do
  (ofFields (← fieldsOf document)).mapError (·.fault document.toList)

def ofText (document : String) : Except CommandError Settings :=
  (ofDocument document).mapError fun fault => .configuration (.brokenText fault)

def ofFile (path : String) (d : Directory) : Except CommandError Settings :=
  match d.readText path with
  | .error fault => .error (.configuration (.unreadableFile path fault))
  | .ok document =>
    (ofDocument document).mapError fun fault => .configuration (.brokenFile path fault)

/-- The settings file that is read if no other is named. -/
def fileName : String := "vault.toml"

/-- A settings file that sets every setting to what counts without it. -/
def defaultText : String :=
  "# Data vault configuration\n" ++
  "#\n" ++
  "# Archive file, relative to the working directory\n" ++
  "path = \"storage.vault\"\n" ++
  "\n" ++
  "# Environment variable holding the archive password (unset: no encryption)\n" ++
  "# encryption_variable = \"VAULT_KEY\"\n" ++
  "\n" ++
  "# Warn when no encryption variable is set\n" ++
  "secure = true\n" ++
  "\n" ++
  "# Print a short stamp with checksums and time after each command\n" ++
  "timestamp = true\n" ++
  "\n" ++
  "# Write full metadata records to the metadata log\n" ++
  "metadata = true\n" ++
  "\n" ++
  "# Expected upper bound for one command, in seconds (logged, not enforced)\n" ++
  "allowed_duration = 30\n"

end ObjectVault.Settings
