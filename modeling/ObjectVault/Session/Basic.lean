import ObjectVault.Archive.Basic
import ObjectVault.Settings.Basic

namespace ObjectVault

/-- A vault that is open. -/
structure Session where
  settings : Settings
  archive : Archive

namespace Session

def noEncryption : String :=
  "Encryption variable not set - no encryption will be used."

/-- A secure vault without a password deserves a warning. -/
def warnings (session : Session) : List String :=
  if session.settings.secure && session.settings.encryptionVariable.isNone then [noEncryption]
  else []

/-- Opens the vault of some settings, with the password that the environment holds. -/
def ofSettings (settings : Settings) (environment : Table String) : Except CommandError Session :=
  let archive := fun password => Archive.mk settings.path password Archive.defaultIterations
  match settings.encryptionVariable with
  | none => .ok ⟨settings, archive none⟩
  | some name =>
    match environment.get? name with
    | some password => .ok ⟨settings, archive (some password)⟩
    | none => .error (.configuration (.unsetVariable name))

/-- Opens the vault of some settings with those of a line over them. -/
def ofLine (base : Settings) (line : String) (environment : Table String) :
    Except CommandError Session := do
  ofSettings (← base.withLine line) environment

end Session
end ObjectVault
