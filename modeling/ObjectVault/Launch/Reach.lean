import ObjectVault.Launch.Program

namespace ObjectVault.Launch

/-- The paths and the variables that a step of a run may use. -/
structure Reach where
  paths : List String
  environment : List String

namespace Reach

def none : Reach :=
  ⟨[], []⟩

def join (a b : Reach) : Reach :=
  ⟨a.paths ++ b.paths, a.environment ++ b.environment⟩

/-- A vault uses its file, the file that it writes first, and the variable with its password. -/
def ofSettings (settings : Settings) : Reach :=
  ⟨[settings.path, Archive.temporaryPath settings.path], settings.encryptionVariable.toList⟩

/-- What is looked at before the settings are known. -/
def ofFlags (flags : Flags) : Reach :=
  ⟨Settings.fileName :: (flags.get? .config).toList, []⟩

def ofStart (flags : Flags) (d : Directory) : Reach :=
  match settingsOf flags d with
  | .ok settings => (ofFlags flags).join (ofSettings settings)
  | .error _ => ofFlags flags

def ofRequest (settings : Settings) : Shell.Request → Reach
  | .openVault line =>
    match settings.withLine line with
    | .ok settings => ofSettings settings
    | .error _ => none
  | .load _ file => ⟨[file], []⟩
  | _ => none

/-- What a line uses: the open vault, the log, and what the line asks for. -/
def ofLine (shell : Shell) (line : String) : Reach :=
  let opened := (shell.session.map fun session => ofSettings session.settings).getD none
  let asked := match Shell.Request.ofLine line with
    | .ok request => ofRequest shell.settings request
    | .error _ => none
  (opened.join ⟨shell.log.toList, []⟩).join asked

/-- As many random bytes as a line can use up: each name in it may be a member that needs a nonce,
and the archive may need a salt. -/
def randomBytes (line : String) : Nat :=
  (line.length + 1) * (Archive.saltLength + SealKey.nonceLength)

end Reach
end ObjectVault.Launch
