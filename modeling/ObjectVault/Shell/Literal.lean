import ObjectVault.Decimal.Float
import ObjectVault.Json.Reader
import ObjectVault.Value.Json

namespace ObjectVault.Shell
open ObjectVault.Decimal

/-- Documents that begin with a bracket or a quote are read as such. -/
def documentValue? (text : String) : Option Value :=
  if ["\x7b", "[", "\""].any (·.toList.isPrefixOf text.toList) then
    (Json.ofText text).bind (Value.ofJson Value.maxNesting)
  else none

def wordValue? : String → Option Value
  | "null" | "None" => some .null
  | "true" | "True" => some (.bool true)
  | "false" | "False" => some (.bool false)
  | _ => none

/-- The characters behind a minus sign, if there is one. -/
def magnitude : List Char → List Char
  | '-' :: rest => rest
  | cs => cs

def isWhole (cs : List Char) : Bool :=
  !(magnitude cs).isEmpty && (magnitude cs).all Char.isDigit

def isFloatChar (c : Char) : Bool :=
  c.isDigit || c == '.' || c == 'e' || c == 'E' || c == '+' || c == '-'

/-- Only characters of floats, among them a point or an exponent. -/
def isFloatLike (cs : List Char) : Bool :=
  (magnitude cs).any (fun c => c == '.' || c == 'e' || c == 'E') && (magnitude cs).all isFloatChar

def wholeValue? (cs : List Char) : Option Value :=
  if isWhole cs then (readInt64 cs).map .int else none

def floatValue? (cs : List Char) : Option Value :=
  if isFloatLike cs then (readFloat cs).map .float else none

/-- The text between single quotes, if there are two. -/
def quotedText? (cs : List Char) : Option (List Char) :=
  match cs with
  | '\'' :: rest => if rest.getLast? = some '\'' then some rest.dropLast else none
  | _ => none

/-- The value that a text stands for: the first of a document, a word, a whole number, a float and
a text in quotes, and else the text itself. -/
def valueOf (text : String) : Value :=
  let cs := text.toList
  ((documentValue? text).or <| (wordValue? text).or <| (wholeValue? cs).or <| (floatValue? cs).or <|
    (quotedText? cs).map (.string <| .ofList ·)).getD (.string text)

end ObjectVault.Shell
