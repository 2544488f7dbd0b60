import ObjectVault.Command.Arguments
import ObjectVault.Command.Error
import ObjectVault.Scope.Basic
import ObjectVault.Text.Blank

namespace ObjectVault.Command
open ObjectVault.Text

/-- What the names in a command refer to: the bound names, and the files that views look into. -/
structure Context where
  scope : Scope
  directory : Directory

namespace Context

/-- What a name of some kind stands for in a command. -/
def lookup (context : Context) (kind name : String) : Except CommandError Binding :=
  if !isDottedIdentifier name then .error (.invalidIdentifier kind name)
  else match context.scope.resolve context.directory name with
    | .ok b => .ok b
    | .error (.nameNotFound _) | .error (.attributeNotFound _ _) =>
      .error (.nameNotFound kind name)
    | .error e => .error (.storage e)

/-- The context after a name was looked up. -/
def afterLookup (context : Context) (name : String) : Context :=
  if isDottedIdentifier name then
    { context with scope := context.scope.afterResolve context.directory name }
  else context

end Context

/-- The names between the commas of a list. -/
def listedNames (list : String) : List String :=
  (list.toList.splitOn ',').map fun name => .ofList (trim name)

/-- The names of a list, none of which may stand for all names. -/
def names (list : String) : Except CommandError (List String) :=
  if (listedNames list).contains "*" then .error (.rejected .wildcardName)
  else .ok (listedNames list)

/-- What the value of a keyword has to be. -/
inductive Rule
  | folder
  | path
  | oneVariable
  | someVariables
  | function
  | oneIdentifier
  | someIdentifiers
  | hashMethod
  | hash
deriving DecidableEq

namespace Rule

def name : Rule → String
  | folder => "module"
  | path => "path"
  | oneVariable => "one_variable"
  | someVariables => "one_or_many_variables"
  | function => "function"
  | oneIdentifier => "valid_id"
  | someIdentifiers => "one_or_many_valid_id"
  | hashMethod => "hash_method"
  | hash => "hash"

/-- Whether the value is a literal in quotes. -/
def isLiteral (value : String) : Except CommandError Bool :=
  match unquote value with
  | .ok text => .ok (text != value)
  | .error fault => .error (.malformed fault)

def checkIdentifier (name : String) : Except CommandError Unit :=
  if isIdentifier name then .ok () else .error (.invalidIdentifier "identifier" name)

def checkVariable (context : Context) (name : String) : Except CommandError Unit := do
  let _ ← context.lookup "variable" name

/-- Whether a value has the right form. What is wrong with a name or a hash is an error. -/
def check (context : Context) (rule : Rule) (value : String) : Except CommandError Bool :=
  match rule with
  | folder => (isLiteral value).map (!·)
  | path => isLiteral value
  | oneVariable => do
    checkVariable context value
    return true
  | someVariables => do
    (← names value).forM (checkVariable context)
    return true
  | function => do
    match ← context.lookup "function" value with
    | .converter _ => return true
    | _ => throw (.notCallable value)
  | oneIdentifier => do
    checkIdentifier value
    return true
  | someIdentifiers => do
    (← names value).forM checkIdentifier
    return true
  | hashMethod => .ok (HashMethod.ofName? value).isSome
  | hash =>
    if (HashMethod.ofDigits? value.utf8ByteSize).isSome then .ok true
    else .error (.rejected .hashLength)

/-- The names up to the first one that is no variable. -/
def triedNames (context : Context) : List String → List String
  | [] => []
  | name :: rest =>
    match checkVariable context name with
    | .ok () => name :: triedNames context rest
    | .error _ => [name]

def lookedUp (context : Context) (rule : Rule) (value : String) : List String :=
  match rule with
  | oneVariable | function => [value]
  | someVariables =>
    match names value with
    | .ok listed => triedNames context listed
    | .error _ => []
  | _ => []

end Rule

end ObjectVault.Command
