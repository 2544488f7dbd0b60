import ObjectVault.Command.Error
import ObjectVault.Command.Form
import ObjectVault.Host
import ObjectVault.Report.Metadata
import ObjectVault.Text.Blank

namespace ObjectVault.Report
open ObjectVault.Text

def logLine (m : Metadata) : String :=
  m.toJson.compact ++ "\n"

/-- Adds a record to a log, one line for each record. -/
def appendToLog (path : String) (m : Metadata) : HostM StorageError Unit :=
  HostM.change .file (·.append path (encodeUtf8 (logLine m)))

/-- The lines of a text. A line ends with a line feed, before which a carriage return may stand. -/
def textLines (cs : List Char) : List (List Char) :=
  let parts := cs.splitOn '\n'
  let ended := parts.dropLast.map fun line =>
    if line.getLast? = some '\r' then line.dropLast else line
  ended ++ (parts.getLast?.toList.filter (!·.isEmpty))

/-- The records of the lines that are not blank. -/
def readLog (text : String) : Except StorageError (List Metadata) :=
  ((textLines text.toList).filter fun line => !(trim line).isEmpty).mapM fun line =>
    match Metadata.ofText (.ofList line) with
    | some m => .ok m
    | none => .error .notMetadata

def log (path : String) (d : Directory) : Except StorageError (List Metadata) := do
  match d.readText path with
  | .ok text => readLog text
  | .error fault => throw (.file fault)

/-- A record in one line: the subject with the checksums that are known. -/
def recordText (record : ResultRecord) : String :=
  match [record.old, record.new].filterMap (·.bind Checksums.short) with
  | [] => s!"`{record.subject}`"
  | sums => s!"`{record.subject}` (" ++ " → ".intercalate sums ++ ")"

/-- A text that begins with a letter in upper case. -/
def capitalized (text : String) : String :=
  match text.toList with
  | [] => ""
  | first :: rest => .ofList (first.toUpper :: rest)

/-- What is shown after a command: a line, or a list if there are several results. -/
def stampText (action : Command.Action) (m : Metadata) : String :=
  let many := m.result.length > 1
  capitalized action.pastTense ++ (if many then ":\n\n - " else " ") ++
    "\n - ".intercalate (m.result.map recordText) ++ (if many then "\n\n" else " ") ++
    "at " ++ m.shownTime.getD ""

end ObjectVault.Report
