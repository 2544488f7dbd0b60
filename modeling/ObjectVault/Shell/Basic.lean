import ObjectVault.Codec.Default
import ObjectVault.Session.Run
import ObjectVault.Shell.Display
import ObjectVault.Shell.Line
import ObjectVault.Shell.Literal

namespace ObjectVault
open ObjectVault.Command

/-- A shell: the settings that a vault is opened with, the log, the open vault and the world. -/
structure Shell where
  settings : Settings
  log : Option String
  session : Option Session
  world : World

/-- What a request did: the shell after it, the lines shown, and why it failed, if it did. -/
structure Outcome where
  shell : Shell
  shown : List String
  failure : Option CommandError

namespace Shell

/-- The converters that are bound from the start. -/
def builtins : Scope :=
  .ofList [
    ("json", .module [("dumps", .converter Codec.jsonDumps),
      ("loads", .converter Codec.jsonLoads)]),
    ("text", .converter Codec.plainText)]

def start (settings : Settings) (log : Option String) (session : Option Session) (host : Host) :
    Shell :=
  ⟨settings, log, session, ⟨host, builtins, []⟩⟩

def prompt (shell : Shell) : String :=
  match shell.session with
  | some session => s!"datavault:{session.settings.path}> "
  | none => "datavault> "

def helpText : String :=
  "\n# shell\n" ++
  "\t - open_vault [-p <path>] [-e <variable>] [-s True|False] [-t True|False] [-m True|False]\n" ++
  "\t - vault <command>\n" ++
  "\t - let <name> = <value>\n" ++
  "\t - load <name> from '<file.tsv>'\n" ++
  "\t - show <name>\n" ++
  "\t - ls [<folder>]\n" ++
  "\t - vars\n" ++
  "\t - help [<keyword>]\n" ++
  "\t - quit"

def shows (shell : Shell) (lines : List String) : Outcome :=
  ⟨shell, lines, none⟩

def fails (shell : Shell) (error : CommandError) : Outcome :=
  ⟨shell, [], some error⟩

def directory (shell : Shell) : Directory :=
  shell.world.host.directory

def bind (shell : Shell) (name : String) (v : Value) : Shell :=
  { shell with world := { shell.world with scope := shell.world.scope.insert name (.value v) } }

def openVault (shell : Shell) (line : String) : Outcome :=
  match Session.ofLine shell.settings line shell.world.host.environment with
  | .error e => shell.fails e
  | .ok session =>
    { shell with session := some session }.shows
      (session.warnings ++ ["Opened vault " ++ session.settings.path])

def runCommand (shell : Shell) (command : String) : Outcome :=
  let (result, world) :=
    Session.run shell.session shell.log command { shell.world with reports := [] }
  { shell := { shell with world }
    shown := world.reports.filterMap (·.stamp)
    failure := match result with
      | .ok _ => none
      | .error e => some e }

def loadFrame (shell : Shell) (name file : String) : Outcome :=
  match shell.directory.readText file with
  | .error fault => shell.fails (.storage (.file fault))
  | .ok text =>
    match Tsv.ofText text with
    | .error e => shell.fails (.storage (.codec e))
    | .ok frame =>
      (shell.bind name (.frame frame)).shows
        [s!"Loaded {frame.shape.1} rows x {frame.shape.2} columns into {name}"]

/-- The text of what a name is bound to: a value, or the names in a module or a folder. -/
def shownBinding (name : String) (d : Directory) : Binding → Except CommandError String
  | .value v => .ok (valueText v)
  | .module members => .ok (listText (members.map Prod.fst))
  | .view folder => ((folder.children d).mapError .storage).map listText
  | b => .ok (bindingText name b)

def display (shell : Shell) (name : String) : Outcome :=
  let context := shell.world.context
  let after := { shell with
    world := { shell.world with scope := (context.afterLookup name).scope } }
  match (context.lookup "variable" name).bind (shownBinding name shell.directory) with
  | .ok text => after.shows [text]
  | .error e => after.fails e

def list (shell : Shell) (folder : Option String) : Outcome :=
  match shell.session with
  | none => shell.fails (.configuration .notOpen)
  | some session =>
    match Storage.list session.archive (folder.getD "") shell.directory with
    | .ok members => shell.shows [listText members]
    | .error e => shell.fails (.storage e)

def help (shell : Shell) (keyword : Option String) : Outcome :=
  match Session.help keyword with
  | .ok text => shell.shows (if keyword.isNone then [text, helpText] else [text])
  | .error e => shell.fails e

/-- Does what a line asks for. To clear and to quit are matters of the terminal. -/
def execute (shell : Shell) : Request → Outcome
  | .openVault line => shell.openVault line
  | .vault command => shell.runCommand command
  | .bind name literal => (shell.bind name (valueOf literal)).shows []
  | .load name file => shell.loadFrame name file
  | .display name => shell.display name
  | .list folder => shell.list folder
  | .bindings =>
    shell.shows ["\n".intercalate
      (shell.world.scope.entries.map fun (name, b) => bindingText name b)]
  | .help keyword => shell.help keyword
  | .clear | .quit => shell.shows []

end Shell
end ObjectVault
