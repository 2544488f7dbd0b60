import ObjectVault.Scope.View
import ObjectVault.Text.Letter

namespace ObjectVault

namespace Command
open ObjectVault.Text

/-- A letter or an underscore, then letters, numerals and underscores. -/
def isIdentifier (text : String) : Bool :=
  match text.toList with
  | [] => false
  | first :: rest => (isLetter first || first == '_') && rest.all isWordChar

def dottedParts (name : String) : List String :=
  (name.toList.splitOn '.').map String.ofList

/-- A name whose parts between the dots are identifiers. -/
def isDottedIdentifier (name : String) : Bool :=
  (dottedParts name).all isIdentifier

end Command

/-- What a name stands for. The members of a module stand in the order of their names. -/
inductive Binding
  | value (v : Value)
  | converter (c : Converter)
  | module (members : List (String × Binding))
  | view (view : View)

namespace Binding

def kind : Binding → String
  | value v => v.kind
  | converter c => c.kind
  | module _ => "module"
  | view _ => "vault folder"

def ofChild : Child → Binding
  | .value v => value v
  | .folder f => view f

/-- What the binding has under a name: a member, a field, or what lies in its folder. -/
def attribute? (b : Binding) (name : String) (d : Directory) :
    Except StorageError (Option Binding) :=
  match b with
  | value (.object fields) => .ok ((fields.lookup name).map value)
  | value _ | converter _ => .ok none
  | module members => .ok (members.lookup name)
  | view folder => (folder.child? name d).map (·.map ofChild)

end Binding

abbrev Scope := Table Binding

namespace Scope

/-- Follows the parts of a dotted name from a binding. `walked` are the parts before them. -/
def follow (d : Directory) (walked : String) (b : Binding) :
    List String → Except StorageError Binding
  | [] => .ok b
  | part :: rest => do
    match ← b.attribute? part d with
    | none => throw (.attributeNotFound walked part)
    | some next => follow d (walked ++ "." ++ part) next rest

/-- What a name stands for. A name that is bound as a whole stands for that; else its first part
does, and each part behind a dot is under what stands before it. -/
def resolve (scope : Scope) (d : Directory) (name : String) : Except StorageError Binding :=
  match scope.get? name, Command.dottedParts name with
  | some b, _ => .ok b
  | none, [] => .error (.nameNotFound name)
  | none, head :: rest =>
    match scope.get? head with
    | none => .error (.nameNotFound name)
    | some b => follow d head b rest

/-- The scope after a name was resolved: a view keeps the value that was read through it. -/
def afterResolve (scope : Scope) (d : Directory) (name : String) : Scope :=
  if scope.contains name then scope
  else match Command.dottedParts name with
    | head :: part :: _ =>
      match scope.get? head with
      | some (.view folder) => scope.insert head (.view (folder.afterLook part d))
      | _ => scope
    | _ => scope

end Scope
end ObjectVault
