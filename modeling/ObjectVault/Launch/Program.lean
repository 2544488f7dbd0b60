import ObjectVault.Launch.Usage
import ObjectVault.Settings.File
import ObjectVault.Shell.Script

namespace ObjectVault.Launch

/-- What a run of the program leaves: the exit code, the lines of both outputs and the host. -/
structure Finish where
  exitCode : Nat
  shown : List String
  complaints : List String
  host : Host

/-- The settings file that the flags name, or the usual one if it is there. -/
def settingsFile (flags : Flags) (d : Directory) : Option String :=
  (flags.get? .config).or (if d.has Settings.fileName then some Settings.fileName else none)

/-- The settings of the file, with the flags over them. -/
def settingsOf (flags : Flags) (d : Directory) : Except CommandError Settings := do
  let settings ← match settingsFile flags d with
    | some path => Settings.ofFile path d
    | none => .ok .default
  return {
    path := (flags.get? .vault).getD settings.path
    encryptionVariable := (flags.get? .encryptionVariable).or settings.encryptionVariable
    secure := settings.secure && !flags.has .insecure
    timestamp := settings.timestamp && !flags.has .noTimestamp
    metadata := settings.metadata && !flags.has .noMetadata
    allowedDuration := settings.allowedDuration }

/-- A vault is opened at once if a file or a flag says which one. -/
def opensAtOnce (flags : Flags) (d : Directory) : Bool :=
  (settingsFile flags d).isSome || (flags.get? .vault).isSome ||
    (flags.get? .encryptionVariable).isSome

/-- The shell at the beginning, with the warnings of the vault that is opened. -/
def startShell (flags : Flags) (host : Host) : Except CommandError (Shell × List String) := do
  let settings ← settingsOf flags host.directory
  let log := flags.get? .metadataLog
  if opensAtOnce flags host.directory then
    let session ← Session.ofSettings settings host.environment
    return (.start settings log (some session) host, session.warnings)
  else return (.start settings log none host, [])

/-- Runs the program on its arguments and its input. -/
def run (arguments : List String) (input : Bytes) (host : Host) : Finish :=
  match Flags.ofArguments arguments with
  | .error .helpAsked => ⟨0, helpLines, [], host⟩
  | .error fault => ⟨2, [], fault.lines, host⟩
  | .ok flags =>
    match startShell flags host with
    | .error e => ⟨1, [], [Shell.errorLine e.message], host⟩
    | .ok (shell, warnings) =>
      let transcript := shell.runLines (Shell.inputLines input)
      { exitCode := transcript.exitCode
        shown := transcript.shown
        complaints := warnings ++ transcript.failures
        host := transcript.shell.world.host }

end ObjectVault.Launch
