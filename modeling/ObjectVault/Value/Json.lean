import ObjectVault.Table
import ObjectVault.Decimal.Nearest
import ObjectVault.Json.Writer
import ObjectVault.Value.Basic

namespace ObjectVault.Value

mutual

/-- The document of a value. A frame is an object of its columns, cells and labels, and a float that
is no finite number is null. -/
def toJson : Value → Json
  | null => .null
  | bool b => .bool b
  | int n => .number (.whole n.toInt)
  | float x => .float x
  | string s => .string s
  | list items => .array (jsonItems items)
  | object fields => .object (jsonFields fields)
  | frame ⟨columns, index, rows⟩ =>
    .object [("columns", .array (columns.map .string)), ("data", .array (jsonRows rows)),
      ("index", .array (jsonItems index))]

def jsonItems : List Value → List Json
  | [] => []
  | v :: vs => toJson v :: jsonItems vs

def jsonFields : List (String × Value) → List (String × Json)
  | [] => []
  | (key, v) :: vs => (key, toJson v) :: jsonFields vs

def jsonRows : List (List Value) → List Json
  | [] => []
  | row :: rows => .array (jsonItems row) :: jsonRows rows

end

/-- The number of arrays and objects that a document may hold inside each other. -/
def maxNesting : Nat := 127

/-- The fields in the order of their names; of two fields of one name the later one counts. -/
def sortFields {α : Type} (fields : List (String × α)) : List (String × α) :=
  (Table.ofList fields).entries

mutual

/-- The value of a document with at most `room` arrays and objects inside each other. A whole number
beyond the 64-bit integers becomes a float. -/
def ofJson (room : Nat) : Json → Option Value
  | .null => some null
  | .bool b => some (bool b)
  | .number (.whole n) =>
    if Decimal.fitsInt64 n then some (int (.ofInt n)) else some (float (Decimal.nearest n.toNat 1))
  | .number (.real x) => some (float x)
  | .string s => some (string s)
  | .array items =>
    if room = 0 then none else (ofJsonItems (room - 1) items).map list
  | .object fields =>
    if room = 0 then none else (ofJsonFields (room - 1) fields).map fun fs => object (sortFields fs)
  | .unreadable => none

def ofJsonItems (room : Nat) : List Json → Option (List Value)
  | [] => some []
  | j :: js => (ofJson room j).bind fun v => (ofJsonItems room js).map (v :: ·)

def ofJsonFields (room : Nat) : List (String × Json) → Option (List (String × Value))
  | [] => some []
  | (key, j) :: js =>
    (ofJson room j).bind fun v => (ofJsonFields room js).map ((key, v) :: ·)

end

/-- A frame by its size, any other value by its document. -/
def text : Value → String
  | frame grid => s!"Frame({grid.rows.length} rows x {grid.columns.length} columns)"
  | v => v.toJson.compact

end ObjectVault.Value
