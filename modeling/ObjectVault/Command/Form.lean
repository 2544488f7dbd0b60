import ObjectVault.Command.Signature

namespace ObjectVault.Command

/-- The forms that commands have. -/
inductive Form
  | storeAs
  | storeNames
  | storeAt
  | importAs
  | importNames
  | importAt
  | importFolder
  | deleteName
  | deleteAt
  | verifyName
  | verifyAt
deriving DecidableEq

namespace Form

def aliasForPath : String :=
  "\"as\" is not allowed for storing in path (it would be redundant as the path already " ++
  "specifies the target). If you wanted to point to a module in the archive, remove the quotes " ++
  "around the path."

def importerForFolder : String :=
  "\"with\" not allowed for module import; to change the loading function for variables in the " ++
  "module, use module.set_importers(\x7bvariable: function\x7d)"

def signature : Form → Signature
  | storeAs =>
    ⟨[("store", .someVariables), ("in", .folder), ("as", .oneIdentifier)],
      [("with", .function)], []⟩
  | storeNames =>
    ⟨[("store", .someVariables), ("in", .folder)],
      [("with", .function), ("as", .oneIdentifier)], []⟩
  | storeAt =>
    ⟨[("store", .oneVariable), ("in", .path)], [("with", .function)], [("as", aliasForPath)]⟩
  | importAs =>
    ⟨[("import", .oneIdentifier), ("from", .folder), ("as", .oneIdentifier)],
      [("with", .function)], []⟩
  | importNames =>
    ⟨[("import", .someIdentifiers), ("from", .folder)],
      [("with", .function), ("as", .oneIdentifier)], []⟩
  | importAt => ⟨[("import", .path), ("as", .oneIdentifier)], [("with", .function)], []⟩
  | importFolder =>
    ⟨[("import", .folder)], [("as", .oneIdentifier)], [("with", importerForFolder)]⟩
  | deleteName => ⟨[("del", .oneIdentifier), ("from", .folder)], [], []⟩
  | deleteAt => ⟨[("del", .path)], [], []⟩
  | verifyName =>
    ⟨[("assert", .oneVariable), ("in", .folder), ("is", .hash)], [("with", .hashMethod)], []⟩
  | verifyAt => ⟨[("assert", .path), ("is", .hash)], [("with", .hashMethod)], []⟩

end Form

/-- What commands do with the vault. -/
inductive Action
  | store
  | load
  | delete
  | verify
deriving DecidableEq

namespace Action

def all : List Action :=
  [store, load, delete, verify]

/-- The keyword that a command is known by. -/
def keyword : Action → String
  | store => "store"
  | load => "import"
  | delete => "del"
  | verify => "assert"

def pastTense : Action → String
  | store => "stored"
  | load => "imported"
  | delete => "deleted"
  | verify => "verified"

/-- The forms of the action, the most specific first. -/
def forms : Action → List Form
  | store => [.storeAs, .storeNames, .storeAt]
  | load => [.importAs, .importNames, .importAt, .importFolder]
  | delete => [.deleteName, .deleteAt]
  | verify => [.verifyName, .verifyAt]

def ofKeyword? (keyword : String) : Option Action :=
  all.find? (·.keyword == keyword)

/-- The one action whose keyword is among the arguments. -/
def ofArguments (arguments : Arguments) : Except Malformed Action :=
  match all.filter (arguments.contains ·.keyword) with
  | [] => .error (.noAction (all.map keyword))
  | [action] => .ok action
  | first :: second :: _ => .error (.twoActions first.keyword second.keyword)

/-- The first form whose required keywords all have right values. -/
def choose (action : Action) (context : Context) (arguments : Arguments) : Option Form :=
  action.forms.find? fun form => (form.signature.probe context arguments).isComplete

/-- The forms with their concordances, the best first; forms that fit equally well keep their
order. -/
def ranked (action : Action) (context : Context) (arguments : Arguments) :
    List (Form × Concordance) :=
  (action.forms.map fun form => (form, form.signature.probe context arguments)).mergeSort
    fun a b => b.2.compareRatio a.2 != .gt

/-- A form for a list of suggestions, with what is wrong if there were arguments. -/
def suggestion (arguments : Arguments) (candidate : Form × Concordance) : String :=
  "\n\t - " ++ candidate.1.signature.text ++
    if arguments.isEmpty then "" else "\n\t\t> " ++ candidate.2.diff

/-- The forms that fit best, at most `count` of them. -/
def suggestions (action : Action) (context : Context) (arguments : Arguments) (count : Nat) :
    String :=
  .join (((action.ranked context arguments).take count).map (suggestion arguments))

/-- The forms of the action under its keyword. -/
def explain (action : Action) : String :=
  s!"# {action.keyword}" ++ .join (action.forms.map fun form => "\n\t - " ++ form.signature.text)

/-- The number of forms that a failed command suggests. -/
def suggestionCount : Nat := 3

/-- Why no form was chosen: if the form that fits best has all its required keywords, what is wrong
with their values. -/
def unmatched (action : Action) (context : Context) (arguments : Arguments) : CommandError :=
  let other := CommandError.unmatched action.keyword
    (action.suggestions context arguments suggestionCount)
  match action.ranked context arguments with
  | [] => other
  | (form, _) :: _ =>
    if (form.signature.absent arguments).isEmpty then
      match form.signature.validate context arguments with
      | .error e => e
      | .ok () => other
    else other

/-- The names that the choice of a form looks up: each form is probed until one is complete, and
that one is validated. -/
def namesLookedUp (context : Context) (arguments : Arguments) : List Form → List String
  | [] => []
  | form :: rest =>
    form.signature.namesProbed context arguments ++
      if (form.signature.probe context arguments).isComplete then
        Signature.namesChecked context arguments form.signature.optional
      else namesLookedUp context arguments rest

end Action
end ObjectVault.Command
