namespace ObjectVault

/-- A number of a document: a whole number between `-2^63` and `2^64`, or a float. -/
inductive Number
  | whole (n : Int)
  | real (x : Float)

/-- A JSON document. The fields of an object stand in the order of the text. A literal that follows
the grammar but has no value, such as a number beyond all floats or a string with half a surrogate
pair, is `unreadable`. -/
inductive Json
  | null
  | bool (b : Bool)
  | number (n : Number)
  | string (s : String)
  | array (items : List Json)
  | object (fields : List (String × Json))
  | unreadable

namespace Json

instance : Inhabited Json := ⟨null⟩

def nat (n : Nat) : Json := .number (.whole n)

/-- A float, or null if it is no finite number. -/
def float (x : Float) : Json :=
  if x.isNaN || x.isInf then .null else .number (.real x)

/-- The named fields of a record, each absent or present once. A record may also be written as an
array of its leading fields, and fields of other names are passed over. -/
def record (names : List String) : Json → Option (List (Option Json))
  | .object fields =>
    names.mapM fun name =>
      match fields.filter (·.1 == name) with
      | [] => some none
      | [(_, value)] => some (some value)
      | _ => none
  | .array items =>
    if items.length ≤ names.length then
      some (items.map some ++ List.replicate (names.length - items.length) none)
    else none
  | _ => none

def string? : Json → Option String
  | .string s => some s
  | _ => none

def bool? : Json → Option Bool
  | .bool b => some b
  | _ => none

def natBelow? (bound : Nat) : Json → Option Nat
  | .number (.whole n) => if 0 ≤ n && n < bound then some n.toNat else none
  | _ => none

def array? : Json → Option (List Json)
  | .array items => some items
  | _ => none

/-- A field that may be absent or null. -/
def optional {α : Type} (read : Json → Option α) : Option Json → Option (Option α)
  | none | some .null => some none
  | some j => (read j).map some

/-- A field that is left out if it is absent. -/
def present {α : Type} (name : String) (write : α → Json) (field : Option α) :
    List (String × Json) :=
  (field.map fun a => (name, write a)).toList

end Json
end ObjectVault
