import ObjectVault.Command.Form
import ObjectVault.Command.World

namespace ObjectVault.Command.Form

/-- The path of a member in a folder. -/
def memberPath (folder name : String) : String :=
  folder ++ "/" ++ name

def need (arguments : Arguments) (keyword : String) : RunM String :=
  RunM.wellFormed (arguments.need keyword)

def needMember (arguments : Arguments) (folder name : String) : RunM String := do
  return memberPath (← need arguments folder) (← need arguments name)

/-- The path that a keyword has as a literal. -/
def needPath (arguments : Arguments) (keyword : String) : RunM String := do
  RunM.wellFormed (unquote (← need arguments keyword))

def needNames (arguments : Arguments) (keyword : String) : RunM (List String) := do
  match names (← need arguments keyword) with
  | .ok listed => return listed
  | .error e => throw e

/-- The converter that a command names, which has to convert the right way. -/
def converter (arguments : Arguments) (toBytes : Bool) : RunM (Option Converter) := do
  match arguments.get? "with" with
  | none => return none
  | some name =>
    match ← RunM.lookup "function" name with
    | .converter c =>
      if c.exports == toBytes then return some c
      else throw (.rejected (if toBytes then .importerForStore name else .exporterForImport name))
    | _ => throw (.notCallable name)

/-- Stores variables under paths, one after the other and each path once. -/
def storeEach (archive : Archive) (exporter : Option Converter) (done : List String) :
    List (String × String) → RunM (List ResultRecord)
  | [] => return []
  | (path, variableName) :: rest => do
    if done.contains path then storeEach archive exporter done rest
    else
      let value ← RunM.valueOf variableName
      let record ← RunM.onStorage (Storage.store archive path value exporter variableName)
      return record :: (← storeEach archive exporter (path :: done) rest)

def storeAll (archive : Archive) (arguments : Arguments) (targets : List (String × String)) :
    RunM (List ResultRecord) := do
  let exporter ← converter arguments true
  storeEach archive exporter [] targets

def loadOne (archive : Archive) (importer : Option Converter) (target : String × String) :
    RunM ResultRecord := do
  let (path, name) := target
  let loaded ← RunM.onStorage (HostM.look (Storage.load archive path importer))
  RunM.bind name (.value loaded.value)
  return ⟨name, none, some loaded.checksums⟩

def loadAll (archive : Archive) (arguments : Arguments) (targets : List (String × String)) :
    RunM (List ResultRecord) := do
  let importer ← converter arguments false
  targets.mapM (loadOne archive importer)

/-- The names of an import with what they are bound to: a single one may have an alias. -/
def importTargets (folder : String) (listed : List String) (rename : Option String) :
    RunM (List (String × String)) :=
  match rename, listed with
  | some other, [name] => return [(memberPath folder name, other)]
  | some _, _ => throw (.rejected (.importAlias listed))
  | none, _ => return listed.map fun name => (memberPath folder name, name)

/-- The name and the folder of a view. With an alias, dots lead to folders in folders. -/
def viewTarget (folder : String) (rename : Option String) : String × String :=
  match rename with
  | some name => (name, .ofList (folder.toList.map fun c => if c = '.' then '/' else c))
  | none =>
    let head := String.ofList (folder.toList.takeWhile (· != '.'))
    (head, head)

def remove (archive : Archive) (path : String) : RunM (List ResultRecord) := do
  if path.toList.contains '*' then throw (.rejected (.wildcardPath path))
  return [← RunM.onStorage (Storage.delete archive path)]

/-- The method of a hash: the one that is named, or the one that gives as many digits. -/
def hashMethod (arguments : Arguments) (expected : String) : RunM HashMethod :=
  match arguments.get? "with" with
  | some name =>
    match HashMethod.ofName? name with
    | some method => return method
    | none => throw (.rejected (.hashMethod name))
  | none =>
    match HashMethod.ofDigits? expected.utf8ByteSize with
    | some method => return method
    | none => throw (.rejected .hashLength)

/-- Compares the hash of a member with the expected one; letters count alike in both cases. -/
def compareHash (archive : Archive) (arguments : Arguments) (path : String) :
    RunM (List ResultRecord) := do
  let expected ← need arguments "is"
  let method ← hashMethod arguments expected
  let calculated ← RunM.onStorage (HostM.look (Storage.digest archive path method))
  if calculated.toLower ≠ expected.toLower then
    throw (.checksumMismatch path method.name expected calculated)
  return [⟨path, some (.single method calculated), none⟩]

def run (form : Form) (archive : Archive) (arguments : Arguments) : RunM (List ResultRecord) := do
  match form with
  | storeAs =>
    match ← needNames arguments "store" with
    | [name] => storeAll archive arguments [(← needMember arguments "in" "as", name)]
    | listed => throw (.rejected (.storeAlias listed))
  | storeNames =>
    let folder ← need arguments "in"
    let listed ← needNames arguments "store"
    storeAll archive arguments (listed.map fun name => (memberPath folder name, name))
  | storeAt =>
    let path ← needPath arguments "in"
    storeAll archive arguments [(path, ← need arguments "store")]
  | importAs =>
    let path ← needMember arguments "from" "import"
    loadAll archive arguments [(path, ← need arguments "as")]
  | importNames =>
    let folder ← need arguments "from"
    let listed ← needNames arguments "import"
    loadAll archive arguments (← importTargets folder listed (arguments.get? "as"))
  | importAt =>
    let path ← needPath arguments "import"
    loadAll archive arguments [(path, ← need arguments "as")]
  | importFolder =>
    let (name, folder) := viewTarget (← need arguments "import") (arguments.get? "as")
    RunM.bind name (.view (.ofFolder archive folder))
    return [⟨name, none, none⟩]
  | deleteName => remove archive (← needMember arguments "from" "del")
  | deleteAt => remove archive (← needPath arguments "del")
  | verifyName => compareHash archive arguments (← needMember arguments "in" "assert")
  | verifyAt => compareHash archive arguments (← needPath arguments "assert")

end ObjectVault.Command.Form

namespace ObjectVault.Command.Action

/-- Chooses the form of a command, checks the arguments and runs it. -/
def perform (action : Action) (archive : Archive) (arguments : Arguments) :
    RunM (List ResultRecord) := do
  let context := (← get).context
  RunM.noteLookups (namesLookedUp context arguments action.forms)
  match action.choose context arguments with
  | none => throw (action.unmatched context arguments)
  | some form =>
    match form.signature.validate context arguments with
    | .error e => throw e
    | .ok () => form.run archive arguments

end ObjectVault.Command.Action
