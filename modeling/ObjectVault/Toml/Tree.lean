import ObjectVault.Toml.Fault

namespace ObjectVault.Toml

/-- A value. Times, arrays and inline tables are told apart from others, and that is all. -/
inductive Scalar
  | string (s : String)
  | integer (n : Int)
  | float (x : Float)
  | boolean (b : Bool)
  | time
  | array
  | inlineTable

/-- How a table came about: by a header of its own, as a part of a longer header, or as a part of a
dotted key. -/
inductive TableKind
  | headed
  | implied
  | dotted
deriving DecidableEq

/-- What a key leads to: a value, a table, or the tables of an array. Its place is the text of the
value or of the header. A table without a header has the place of the first part of its key. -/
inductive Node
  | leaf (value : Scalar) (span : Span)
  | table (kind : TableKind) (span : Span) (fields : List (String × Node))
  | rows (span : Span) (tables : List (List (String × Node)))

abbrev Fields := List (String × Node)

/-- A key: the tables that it goes through, its last part, and the place of its first part. -/
structure Key where
  path : List String
  name : String
  span : Span

/-- Why a key or a header cannot stand where it does: it leads to something already, or a part on
the way to it is nothing that it may extend. -/
inductive Conflict
  | taken
  | blocked (part : String)

namespace Fields

def replace (fields : Fields) (key : String) (node : Node) : Fields :=
  fields.map fun field => if field.1 = key then (key, node) else field

/-- Works on the last table of an array. -/
def onLast (f : Fields → Except Conflict Fields) (part : String) (tables : List Fields) :
    Except Conflict (List Fields) :=
  match tables.getLast? with
  | none => .error (.blocked part)
  | some last => (f last).map fun last => tables.dropLast ++ [last]

/-- Works on the table that a header leads to. Tables on the way are made if they are not there. -/
def descend (span : Span) (f : Fields → Except Conflict Fields) :
    List String → Fields → Except Conflict Fields
  | [], fields => f fields
  | part :: rest, fields =>
    match fields.lookup part with
    | none =>
      (descend span f rest []).map fun inner => fields ++ [(part, .table .implied span inner)]
    | some (.table kind place inner) =>
      (descend span f rest inner).map fun inner => fields.replace part (.table kind place inner)
    | some (.rows place tables) =>
      (onLast (descend span f rest) part tables).map fun tables =>
        fields.replace part (.rows place tables)
    | some (.leaf ..) => .error (.blocked part)

/-- Puts a value under the last part of a key. A dotted key goes through tables of its own kind
only. -/
def assign (name : String) (span : Span) (node : Node) :
    List String → Fields → Except Conflict Fields
  | [], fields =>
    match fields.lookup name with
    | none => .ok (fields ++ [(name, node)])
    | some _ => .error .taken
  | part :: rest, fields =>
    match fields.lookup part with
    | none =>
      (assign name span node rest []).map fun inner =>
        fields ++ [(part, .table .dotted span inner)]
    | some (.table kind place inner) =>
      if kind = .headed || (rest.isEmpty && kind ≠ .dotted) then .error (.blocked part)
      else (assign name span node rest inner).map fun inner =>
        fields.replace part (.table kind place inner)
    | some (.rows place tables) =>
      if rest.isEmpty then .error (.blocked part)
      else (onLast (assign name span node rest) part tables).map fun tables =>
        fields.replace part (.rows place tables)
    | some (.leaf ..) => .error (.blocked part)

/-- Opens a table by a header, which no table may have twice. -/
def openTable (name : String) (span : Span) (fields : Fields) : Except Conflict Fields :=
  match fields.lookup name with
  | none => .ok (fields ++ [(name, .table .headed span [])])
  | some (.table .implied _ inner) => .ok (fields.replace name (.table .headed span inner))
  | some _ => .error .taken

def openRow (name : String) (span : Span) (fields : Fields) : Except Conflict Fields :=
  match fields.lookup name with
  | none => .ok (fields ++ [(name, .rows span [[]])])
  | some (.rows place tables) => .ok (fields.replace name (.rows place (tables ++ [[]])))
  | some _ => .error .taken

end Fields
end ObjectVault.Toml
