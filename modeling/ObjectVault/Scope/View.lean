import ObjectVault.Storage.Basic

namespace ObjectVault

/-- A folder of an archive that is read bit by bit. Values that were read are kept, and some names
have an importer of their own. -/
structure View where
  archive : Archive
  folder : String
  kept : Table Value
  importers : Table Converter

/-- What lies in a folder under a name. -/
inductive Child
  | value (v : Value)
  | folder (view : View)

namespace View

def ofFolder (archive : Archive) (folder : String) : View :=
  ⟨archive, folder, ∅, ∅⟩

def firstPart (path : String) : String :=
  .ofList (path.toList.takeWhile (· != '/'))

/-- The names in the folder, in their order and each once. -/
def children (view : View) (d : Directory) : Except StorageError (List String) := do
  let members ← Storage.list view.archive view.folder d
  let names := (members.map firstPart).filter (· != "")
  return (Table.ofList (names.map (·, ()))).keys

def path (view : View) (name : String) : String :=
  view.folder ++ "/" ++ name

/-- A folder of the name, if some member lies below it. -/
def subfolder? (view : View) (name : String) (d : Directory) :
    Except StorageError (Option View) := do
  let members ← Storage.list view.archive view.folder d
  let lead := name.toList ++ ['/']
  return if members.any (lead.isPrefixOf ·.toList) then
      some (ofFolder view.archive (view.path name))
    else none

/-- What lies under the name: a value that was kept, else a member, else a folder. -/
def child? (view : View) (name : String) (d : Directory) : Except StorageError (Option Child) :=
  match view.kept.get? name with
  | some v => .ok (some (.value v))
  | none => do
    if ← Storage.contains view.archive (view.path name) d then
      let loaded ← Storage.load view.archive (view.path name) (view.importers.get? name) d
      return some (.value loaded.value)
    else
      return (← view.subfolder? name d).map .folder

/-- The view after a look under the name: a value that was read is kept. -/
def afterLook (view : View) (name : String) (d : Directory) : View :=
  match view.child? name d with
  | .ok (some (.value v)) => { view with kept := view.kept.insert name v }
  | _ => view

def withImporters (view : View) (importers : Table Converter) : View :=
  { view with importers }

def cleared (view : View) : View :=
  { view with kept := ∅ }

end View
end ObjectVault
