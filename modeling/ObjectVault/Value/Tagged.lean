import ObjectVault.Json.Basic
import ObjectVault.Value.Json

namespace ObjectVault.Value

mutual

/-- The document of a value under the name of its kind, which keeps all kinds apart. -/
def toTagged : Value → Json
  | null => .string "Null"
  | bool b => .object [("Bool", .bool b)]
  | int n => .object [("Int", .number (.whole n.toInt))]
  | float x => .object [("Float", .float x)]
  | string s => .object [("String", .string s)]
  | list items => .object [("List", .array (taggedItems items))]
  | object fields => .object [("Object", .object (taggedFields fields))]
  | frame ⟨columns, index, rows⟩ =>
    .object [("Frame", .object [("columns", .array (columns.map .string)),
      ("index", .array (taggedItems index)), ("rows", .array (taggedRows rows))])]

def taggedItems : List Value → List Json
  | [] => []
  | v :: vs => toTagged v :: taggedItems vs

def taggedFields : List (String × Value) → List (String × Json)
  | [] => []
  | (key, v) :: vs => (key, toTagged v) :: taggedFields vs

def taggedRows : List (List Value) → List Json
  | [] => []
  | row :: rows => .array (taggedItems row) :: taggedRows rows

end

def float? : Json → Option Float
  | .number (.whole n) =>
    let magnitude := Decimal.nearest n.natAbs 1
    some (if n < 0 then -magnitude else magnitude)
  | .number (.real x) => some x
  | _ => none

/-- Reads the items of an array that is inside `room` further arrays and objects at most. -/
def arrayWithin {α : Type} (room : Nat) (read : Nat → Json → Option α) (j : Json) :
    Option (List α) :=
  if room = 0 then none else j.array?.bind fun items => items.mapM (read (room - 1))

/-- Reads the fields of an object in the same way. -/
def fieldsWithin {α : Type} (room : Nat) (read : Nat → Json → Option α) :
    Json → Option (List (String × α))
  | .object fields =>
    if room = 0 then none
    else fields.mapM fun field => (read (room - 1) field.2).map fun v => (field.1, v)
  | _ => none

/-- Reads a tagged value of at most `fuel` levels. The shape of a frame is not checked. -/
def ofTaggedWithin : (fuel room : Nat) → Json → Option Value
  | 0, _, _ => none
  | fuel + 1, room, j =>
    match j with
    | .string name => if name = "Null" then some null else none
    | .object [(name, content)] =>
      if room = 0 then none
      else if name = "Null" then (match content with | .null => some null | _ => none)
      else if name = "Bool" then content.bool?.map bool
      else if name = "Int" then
        match content with
        | .number (.whole n) => if Decimal.fitsInt64 n then some (int (.ofInt n)) else none
        | _ => none
      else if name = "Float" then (float? content).map float
      else if name = "String" then content.string?.map string
      else if name = "List" then
        (arrayWithin (room - 1) (ofTaggedWithin fuel) content).map list
      else if name = "Object" then
        (fieldsWithin (room - 1) (ofTaggedWithin fuel) content).map fun fs => object (sortFields fs)
      else if name = "Frame" then
        if room = 1 then none
        else match content.record ["columns", "index", "rows"] with
          | some [some columns, some index, some rows] => do
            let columns ← arrayWithin (room - 2) (fun _ => Json.string?) columns
            let index ← arrayWithin (room - 2) (ofTaggedWithin fuel) index
            let rows ← arrayWithin (room - 2) (fun r => arrayWithin r (ofTaggedWithin fuel)) rows
            return frame ⟨columns, index, rows⟩
          | _ => none
      else none
    | _ => none

def ofTagged (j : Json) : Option Value :=
  ofTaggedWithin (maxNesting + 1) maxNesting j

end ObjectVault.Value
