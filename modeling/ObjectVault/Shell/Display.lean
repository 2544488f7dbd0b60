import ObjectVault.Scope.Basic
import ObjectVault.Text.Blank
import ObjectVault.Value.Json

namespace ObjectVault.Shell
open ObjectVault.Text

/-- The text of a cell: nothing for a null, and a string as it is. -/
def cellText : Value → String
  | .null => ""
  | .string s => s
  | v => v.text

/-- The cells of a frame as it is shown: a row of names, then the rows behind their labels. -/
def shownCells (frame : Frame) : List (List String) :=
  ("" :: frame.columns) ::
    (frame.index.zip frame.rows).map fun (label, row) => (label :: row).map cellText

/-- The number of characters of the longest text in a column. -/
def widthOf (cells : List (List String)) (column : Nat) : Nat :=
  (cells.map fun row => (row.getD column "").length).foldl max 0

def alignedRight (width : Nat) (text : String) : List Char :=
  List.replicate (width - text.length) ' ' ++ text.toList

/-- A row with its cells aligned at the right, without blanks at its end. -/
def rowText (widths : List Nat) (row : List String) : String :=
  .ofList (trimEnd ([' ', ' '].intercalate (widths.zipWith alignedRight row)))

def frameText (frame : Frame) : String :=
  let cells := shownCells frame
  let widths := (List.range (frame.columns.length + 1)).map (widthOf cells)
  "\n".intercalate (cells.map (rowText widths))

/-- A value as it is shown: a frame as an aligned table, all others as documents. -/
def valueText : Value → String
  | .frame frame => frameText frame
  | v => v.text

def listText (items : List String) : String :=
  if items.isEmpty then "(empty list)"
  else "\n".intercalate (items.zipIdx.map fun (item, i) => s!"{i + 1}) {item}")

/-- A name with what it is bound to. -/
def bindingText (name : String) : Binding → String
  | .value (.frame frame) => s!"{name}: frame ({frame.shape.1} x {frame.shape.2})"
  | b => s!"{name}: {b.kind}"

end ObjectVault.Shell
