namespace ObjectVault.Directory

/-- The parts of a path between its slashes. -/
def pathParts (path : String) : List String :=
  (path.toList.splitOn '/').map String.ofList

/-- The parts of a path that name something: a slash that it begins with, a dot that it begins
with, and whatever else is neither empty nor a dot. -/
def components (path : String) : List String :=
  let named := fun part : String => part != "" && part != "."
  match pathParts path with
  | [] => []
  | "" :: rest => if rest.isEmpty then [] else "/" :: rest.filter named
  | first :: rest => first :: rest.filter named

def ofComponents : List String → String
  | "/" :: rest => "/" ++ "/".intercalate rest
  | parts => "/".intercalate parts

/-- The components of the folder that a path lies in, the innermost first. A path without
components lies in none. -/
def parentComponents (path : String) : List String :=
  (components path).reverse.drop 1

/-- A file name up to its last dot, unless it begins with that dot. -/
def stem (name : String) : String :=
  match name.toList.reverse.dropWhile (· != '.') with
  | [] | [_] => name
  | _ :: before => .ofList before.reverse

/-- The path with another ending behind the last dot of its file name. A path that ends in no file
name stays as it is. -/
def withExtension (path ending : String) : String :=
  match (components path).reverse with
  | [] => path
  | name :: parents =>
    if name == "/" || name == "." || name == ".." then path
    else ofComponents (parents.reverse ++ [stem name ++ "." ++ ending])

end ObjectVault.Directory
