import ObjectVault.Command.Arguments
import ObjectVault.Scope.Basic

namespace ObjectVault.Shell
open ObjectVault.Command ObjectVault.Text

/-- What a line of the shell asks for. -/
inductive Request
  | openVault (line : String)
  | vault (command : String)
  | bind (name literal : String)
  | load (name file : String)
  | display (name : String)
  | list (folder : Option String)
  | bindings
  | help (keyword : Option String)
  | clear
  | quit
deriving DecidableEq

/-- Why a line asks for nothing. -/
inductive LineFault
  | emptyVault
  | showUsage
  | letUsage
  | loadUsage
  | notIdentifier (name : String)
  | noValue (name : String)
  | malformed (fault : Malformed)
  | unknown (word : String)
deriving DecidableEq

def LineFault.message : LineFault → String
  | .emptyVault => "vault needs a command, try 'help'"
  | .showUsage => "Usage: show <name>"
  | .letUsage => "Usage: let <name> = <value>"
  | .loadUsage => "Usage: load <name> from '<file.tsv>'"
  | .notIdentifier name => s!"'{name}' is not a valid identifier"
  | .noValue name => s!"no value given for '{name}'"
  | .malformed fault => fault.message
  | .unknown word => "Unknown command: " ++ word

/-- The words that commands of the vault begin with. -/
def commandWords : List String :=
  ["store", "import", "from", "del", "assert"]

def nonempty (text : String) : Option String :=
  if text.isEmpty then none else some text

/-- The name and the literal on the two sides of the first equals sign. -/
def letRequest (rest : List Char) : Except LineFault Request :=
  let name := String.ofList (trim (rest.takeWhile (· != '=')))
  let literal := String.ofList (trim ((rest.dropWhile (· != '=')).drop 1))
  if !rest.contains '=' then .error .letUsage
  else if !isIdentifier name then .error (.notIdentifier name)
  else if literal.isEmpty then .error (.noValue name)
  else .ok (.bind name literal)

theorem letRequest_eq_ok {rest : List Char} {request : Request}
    (read : letRequest rest = .ok request) :
    ∃ name literal, request = .bind name literal ∧ isIdentifier name = true := by
  rw [letRequest] at read
  split at read
  · cases read
  · split at read
    · cases read
    · next valid =>
      split at read
      · cases read
      · cases read
        exact ⟨_, _, rfl, by simpa using valid⟩

def loadRequest (rest : String) : Except LineFault Request :=
  match tokens rest with
  | .error fault => .error (.malformed fault)
  | .ok [name, "from", file] =>
    if !isIdentifier name then .error (.notIdentifier name)
    else match unquote file with
      | .ok path => .ok (.load name path)
      | .error fault => .error (.malformed fault)
  | .ok _ => .error .loadUsage

theorem loadRequest_eq_ok {rest : String} {request : Request}
    (read : loadRequest rest = .ok request) :
    ∃ name file, request = .load name file ∧ isIdentifier name = true := by
  rw [loadRequest] at read
  split at read
  · cases read
  · split at read
    · cases read
    · next valid =>
      split at read
      · cases read
        exact ⟨_, _, rfl, by simpa using valid⟩
      · cases read
  · cases read

def firstWord (line : String) : String :=
  .ofList ((trim line.toList).takeWhile (!isBlank ·))

/-- Reads a line: its first word says what it asks for. What follows a word that takes nothing is
not looked at. -/
def Request.ofLine (line : String) : Except LineFault Request :=
  let trimmed := trim line.toList
  let restChars := trim (trimmed.dropWhile (!isBlank ·))
  let rest := String.ofList restChars
  match firstWord line with
  | "quit" | "exit" => .ok .quit
  | "clear" => .ok .clear
  | "vars" => .ok .bindings
  | "help" => .ok (.help (nonempty rest))
  | "ls" => .ok (.list (nonempty rest))
  | "open_vault" => .ok (.openVault rest)
  | "vault" => if rest.isEmpty then .error .emptyVault else .ok (.vault rest)
  | "show" => if rest.isEmpty then .error .showUsage else .ok (.display rest)
  | "let" => letRequest restChars
  | "load" => loadRequest rest
  | word =>
    if commandWords.contains word then .ok (.vault (.ofList trimmed))
    else .error (.unknown word)

end ObjectVault.Shell
