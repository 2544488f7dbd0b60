import ObjectVault.Shell.Basic

namespace ObjectVault.Shell
open ObjectVault.Text

/-- What a run of lines did: the shell after it, the lines shown and the lines of failures. -/
structure Transcript where
  shell : Shell
  shown : List String
  failures : List String

def errorLine (message : String) : String :=
  "(error) " ++ message

def isIdle (line : String) : Bool :=
  match trim line.toList with
  | [] => true
  | c :: _ => c == '#'

/-- What a line of the input did: the shell after it, the lines shown, the lines of failures, and
whether it ends the run. -/
structure Reply where
  shell : Shell
  shown : List String
  failures : List String
  quits : Bool

def reply (shell : Shell) (line : String) : Reply :=
  if isIdle line then ⟨shell, [], [], false⟩
  else match Request.ofLine line with
    | .error fault => ⟨shell, [], [errorLine fault.message], false⟩
    | .ok .quit => ⟨shell, [], [], true⟩
    | .ok request =>
      let outcome := shell.execute request
      ⟨outcome.shell, outcome.shown,
        (outcome.failure.map fun e => errorLine e.message).toList, false⟩

/-- Runs lines up to one that quits. A line that fails does not keep the later ones from running. -/
def runLines (shell : Shell) : List String → Transcript
  | [] => ⟨shell, [], []⟩
  | line :: rest =>
    let reply := shell.reply line
    if reply.quits then ⟨reply.shell, reply.shown, reply.failures⟩
    else
      let after := runLines reply.shell rest
      { after with
        shown := reply.shown ++ after.shown
        failures := reply.failures ++ after.failures }

/-- The exit code of a run: whether any line failed. -/
def Transcript.exitCode (t : Transcript) : Nat :=
  if t.failures.isEmpty then 0 else 1

/-- The lines of the input up to the first that is no text. -/
def inputLines (input : Bytes) : List String :=
  let parts := input.splitOn 10
  let lines := if parts.getLast? = some [] then parts.dropLast else parts
  (lines.map decodeUtf8).takeWhile (·.toBool) |>.filterMap (·.toOption)

end ObjectVault.Shell
