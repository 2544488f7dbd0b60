import ObjectVault.Launch.Reach
import Std.Time.DateTime.Timestamp

namespace ObjectVault.Launch

/-- Adds what lies at a place of the file system. -/
def loadPlace (d : Directory) (place : Location) : IO Directory := do
  let path := (← IO.currentDir) / Directory.key place
  if ← path.isDir then return { d with folders := d.folders ++ [place] }
  match ← (IO.FS.readBinFile path).toBaseIO with
  | .ok bytes => return { d with files := d.files.insert (Directory.key place) bytes.toList }
  | .error _ => return d

/-- What the file system holds along some paths. -/
def loadDirectory (paths : List String) : IO Directory :=
  (paths.flatMap Directory.placesAlong).eraseDups.foldlM loadPlace .empty

/-- Brings the file system from one state to another: folders first, then files. -/
def storeDirectory (old new : Directory) : IO Unit := do
  for place in new.folders do
    if !old.folders.contains place then IO.FS.createDir (Directory.key place)
  for (path, bytes) in new.files.entries do
    if old.files.get? path != some bytes then
      IO.FS.writeBinFile path (ByteArray.mk bytes.toArray)
  for (path, _) in old.files.entries do
    if !new.files.contains path then IO.FS.removeFile path

def loadEnvironment (names : List String) : IO (Table String) :=
  names.foldlM (fun environment name => do
    match ← IO.getEnv name with
    | some value => return environment.insert name value
    | none => return environment) ∅

/-- The part of the machine within reach, with new random bytes. -/
def loadHost (reach : Reach) (count : Nat) : IO Host := do
  let drawn ← IO.getRandomBytes (.ofNat count)
  let now ← Std.Time.Timestamp.now
  return {
    directory := ← loadDirectory reach.paths
    environment := ← loadEnvironment reach.environment
    random := fun i => drawn[i]?.getD 0
    drawn := 0
    now := now.toNanosecondsSinceUnixEpoch.val / 1000 }

/-- The bytes of the next line with the line feed that ends it, if the input has more. -/
partial def readLine (input : IO.FS.Stream) (before : Bytes) : IO Bytes := do
  match (← input.read 1).toList with
  | [] => return before.reverse
  | b :: _ => if b = 10 then return (b :: before).reverse else readLine input (b :: before)

/-- Replies to the lines of the input, one by one. -/
partial def serve (input : IO.FS.Stream) (shell : Shell) (failed : Bool) : IO Bool := do
  match Shell.inputLines (← readLine input []) with
  | [] => return failed
  | line :: _ =>
    let host ← loadHost (.ofLine shell line) (Reach.randomBytes line)
    let reply := { shell with world := { shell.world with host } }.reply line
    storeDirectory host.directory reply.shell.world.host.directory
    reply.shown.forM fun shown => IO.println shown
    reply.failures.forM fun failure => IO.eprintln failure
    (← IO.getStdout).flush
    let failed := failed || !reply.failures.isEmpty
    if reply.quits then return failed else serve input reply.shell failed

def refuse (code : UInt32) (lines : List String) : IO UInt32 := do
  lines.forM fun line => IO.eprintln line
  return code

end ObjectVault.Launch

open ObjectVault ObjectVault.Launch

/-- Runs the shell on its arguments and the standard input. -/
def main (arguments : List String) : IO UInt32 := do
  match Flags.ofArguments arguments with
  | .error .helpAsked =>
    helpLines.forM fun line => IO.println line
    return 0
  | .error fault => refuse 2 fault.lines
  | .ok flags =>
    let reach := Reach.ofStart flags (← loadDirectory (Reach.ofFlags flags).paths)
    match startShell flags (← loadHost reach 0) with
    | .error e => refuse 1 [Shell.errorLine e.message]
    | .ok (shell, warnings) =>
      warnings.forM fun warning => IO.eprintln warning
      return if ← serve (← IO.getStdin) shell false then 1 else 0
