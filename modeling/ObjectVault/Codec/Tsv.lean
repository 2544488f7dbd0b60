import ObjectVault.Codec.Error
import ObjectVault.Decimal.Float
import ObjectVault.Value.Json

namespace ObjectVault.Tsv

/-- Floats are always positional, and of two equally near decimals the larger one is taken. -/
def floatStyle : Decimal.FloatStyle :=
  ⟨.up, fun _ => true, false, "NaN", "inf"⟩

/-- A cell with a tab, a line break or a quote is put into quotes, where a quote is written twice.
-/
def needsQuotes (cs : List Char) : Bool :=
  cs.any fun c => c == '\t' || c == '\n' || c == '\r' || c == '"'

def doubleQuotes (cs : List Char) : List Char :=
  cs.flatMap fun c => if c == '"' then ['"', '"'] else [c]

def quoteCell (cs : List Char) : List Char :=
  if needsQuotes cs then '"' :: doubleQuotes cs ++ ['"'] else cs

/-- The text of a cell before it is quoted. -/
def cellText : Value → List Char
  | .null => []
  | .bool true => "True".toList
  | .bool false => "False".toList
  | .int n => Decimal.intChars n.toInt
  | .float x => floatStyle.chars x
  | .string s => s.toList
  | v => v.toJson.compactChars

def joinTabs : List (List Char) → List Char
  | [] => []
  | [cell] => cell
  | cell :: cells => cell ++ '\t' :: joinTabs cells

def line (cells : List (List Char)) : List Char :=
  joinTabs (cells.map quoteCell) ++ ['\n']

/-- The cells of the table of a frame: a header whose first cell is empty, and for each row its
label and its cells. -/
def table (frame : Frame) : List (List (List Char)) :=
  ([] :: frame.columns.map String.toList) ::
    List.zipWith (fun label row => (label :: row).map cellText) frame.index frame.rows

def chars (frame : Frame) : List Char :=
  (table frame).flatMap line

def ofFrame (frame : Frame) : String :=
  .ofList (chars frame)

/-- Where in a cell a character stands: outside quotes, inside them, or just behind a quote that
closes them unless another quote follows. -/
inductive Place
  | plain
  | quoted
  | closing
deriving DecidableEq

/-- Reads the rest of a table as records of cells. A quote opens a quoted part only at the beginning
of a cell, and a carriage return before a line feed belongs to the line break. -/
def scan (place : Place) (cell : List Char) (cells : List (List Char)) :
    List Char → Except CodecError (List (List (List Char)))
  | [] =>
    if place = .quoted then .error .openCell
    else if cell.isEmpty && cells.isEmpty then .ok []
    else .ok [cells ++ [cell]]
  | c :: rest =>
    if place = .quoted then
      if c == '"' then scan .closing cell cells rest
      else scan .quoted (cell ++ [c]) cells rest
    else if c == '"' && place = .closing then scan .quoted (cell ++ [c]) cells rest
    else if c == '"' && cell.isEmpty then scan .quoted cell cells rest
    else if c == '\t' then scan .plain [] (cells ++ [cell]) rest
    else if c == '\r' && rest.head? == some '\n' then scan .plain cell cells rest
    else if c == '\n' then (scan .plain [] [] rest).map ((cells ++ [cell]) :: ·)
    else scan .plain (cell ++ [c]) cells rest

def records (text : List Char) : Except CodecError (List (List (List Char))) :=
  scan .plain [] [] text

def readBool (cs : List Char) : Option Bool :=
  if cs = "True".toList then some true
  else if cs = "False".toList then some false
  else none

/-- Reads every cell that is not empty with `read`; an empty cell is null. -/
def column? (read : List Char → Option Value) (cells : List (List Char)) : Option (List Value) :=
  cells.mapM fun cell => if cell.isEmpty then some .null else read cell

/-- The values of a column: integers, floats or booleans if all cells that are not empty can be read
so, in this order, and else strings. -/
def inferColumn (cells : List (List Char)) : List Value :=
  ((column? (fun cs => (Decimal.readInt64 cs).map .int) cells).or
    ((column? (fun cs => (Decimal.readFloat cs).map .float) cells).or
      (column? (fun cs => (readBool cs).map .bool) cells))).getD
    (cells.map fun cs => if cs.isEmpty then .null else .string (.ofList cs))

/-- The first record, counted from `row`, that has not `width` cells. -/
def firstMisfit (width : Nat) : (row : Nat) → List (List (List Char)) → Option CodecError
  | _, [] => none
  | row, cells :: rest =>
    if cells.length = width then firstMisfit width (row + 1) rest
    else some (.cellCount row cells.length width)

/-- The values under place `i` of the header. -/
def columnAt (body : List (List (List Char))) (i : Nat) : List Value :=
  inferColumn (body.map fun cells => cells.getD i [])

/-- The frame of the records under a header with the given names. Its rows are made of the columns;
a column that is shorter than the labels would leave its cell out of a row. -/
def assemble (names : List (List Char)) (body : List (List (List Char))) :
    Except FrameFault Frame :=
  let index := columnAt body 0
  let columns := (List.range names.length).map fun i => columnAt body (i + 1)
  Grid.ofParts (names.map String.ofList) index
    ((List.range index.length).map fun r => columns.filterMap (·[r]?))

/-- The frame of a table. The header gives the columns but for its first cell, and the first cell of
each other record is the label of its row. -/
def toFrame (text : List Char) : Except CodecError Frame := do
  match ← records text with
  | [] => .error .emptyTable
  | header :: body =>
    let names := header.drop 1
    match firstMisfit (names.length + 1) 1 body with
    | some fault => .error fault
    | none => (assemble names body).mapError .invalidFrame

def ofText (text : String) : Except CodecError Frame :=
  toFrame text.toList

end ObjectVault.Tsv
