namespace ObjectVault

/-- A table: named columns, and rows of cells that each have a label. -/
structure Grid (α : Type) where
  columns : List String
  index : List α
  rows : List (List α)

/-- Whatever a variable holds and the vault stores. The fields of an object stand in the order of
their names. -/
inductive Value
  | null
  | bool (b : Bool)
  | int (n : Int64)
  | float (x : Float)
  | string (s : String)
  | list (items : List Value)
  | object (fields : List (String × Value))
  | frame (grid : Grid Value)

abbrev Frame := Grid Value

/-- Why columns, labels and rows are no frame. -/
inductive FrameFault
  | labels (found rows : Nat)
  | cells (row found expected : Nat)
deriving DecidableEq

def FrameFault.reason : FrameFault → String
  | .labels found rows => s!"{found} index labels for {rows} rows"
  | .cells row found expected => s!"row {row} has {found} cells, expected {expected}"

namespace Grid
variable {α : Type}

/-- One label for each row and one cell for each column in every row. -/
def Rectangular (g : Grid α) : Prop :=
  g.index.length = g.rows.length ∧ ∀ row ∈ g.rows, row.length = g.columns.length

instance (g : Grid α) : Decidable g.Rectangular :=
  inferInstanceAs (Decidable (_ ∧ _))

/-- The first row, counted from `row`, whose length is not `width`. -/
def firstRagged (width : Nat) : (row : Nat) → List (List α) → Option FrameFault
  | _, [] => none
  | row, cells :: rest =>
    if cells.length = width then firstRagged width (row + 1) rest
    else some (.cells row cells.length width)

/-- The frame of the parts, unless it would be ragged. -/
def ofParts (columns : List String) (index : List α) (rows : List (List α)) :
    Except FrameFault (Grid α) :=
  if index.length ≠ rows.length then .error (.labels index.length rows.length)
  else match firstRagged columns.length 0 rows with
    | some fault => .error fault
    | none => .ok ⟨columns, index, rows⟩

def shape (g : Grid α) : Nat × Nat :=
  (g.rows.length, g.columns.length)

/-- The cells of the column at a place, from the first row to the last. -/
def cellsAt (g : Grid α) (i : Nat) : List α :=
  g.rows.filterMap (·[i]?)

/-- The cells under the first column of the name. -/
def column (g : Grid α) (name : String) : Option (List α) :=
  (g.columns.idxOf? name).map g.cellsAt

theorem firstRagged_eq_none {width row : Nat} {rows : List (List α)}
    (h : firstRagged width row rows = none) : ∀ cells ∈ rows, cells.length = width := by
  induction rows generalizing row with
  | nil => simp
  | cons cells rest ih =>
    simp only [firstRagged] at h
    split at h
    · next eq => exact List.forall_mem_cons.mpr ⟨eq, ih h⟩
    · simp at h

theorem rectangular_of_ofParts {columns : List String} {index : List α} {rows : List (List α)}
    {g : Grid α} (h : ofParts columns index rows = .ok g) : g.Rectangular := by
  simp only [ofParts] at h
  split at h
  · simp at h
  · next eq =>
    split at h
    · simp at h
    · next none =>
      cases h
      exact ⟨Decidable.not_not.mp eq, firstRagged_eq_none none⟩

end Grid

/-- A frame whose labels count the rows from zero. -/
def Frame.numbered (columns : List String) (rows : List (List Value)) : Except FrameFault Frame :=
  Grid.ofParts columns ((List.range rows.length).map fun i => .int (.ofNat i)) rows

namespace Value

def kind : Value → String
  | null => "Null"
  | bool _ => "Bool"
  | int _ => "Int"
  | float _ => "Float"
  | string _ => "String"
  | list _ => "List"
  | object _ => "Object"
  | frame _ => "Frame"

mutual

/-- Values of different kinds differ. Floats compare as numbers, so that one that is no number
differs from itself and the two zeros are equal. -/
def equal : Value → Value → Bool
  | null, null => true
  | bool a, bool b => a == b
  | int a, int b => a == b
  | float a, float b => a == b
  | string a, string b => a == b
  | list a, list b => equalItems a b
  | object a, object b => equalFields a b
  | frame ⟨c, i, r⟩, frame ⟨c', i', r'⟩ => c == c' && equalItems i i' && equalRows r r'
  | _, _ => false

def equalItems : List Value → List Value → Bool
  | [], [] => true
  | a :: as, b :: bs => equal a b && equalItems as bs
  | _, _ => false

def equalFields : List (String × Value) → List (String × Value) → Bool
  | [], [] => true
  | (k, a) :: as, (l, b) :: bs => k == l && equal a b && equalFields as bs
  | _, _ => false

def equalRows : List (List Value) → List (List Value) → Bool
  | [], [] => true
  | a :: as, b :: bs => equalItems a b && equalRows as bs
  | _, _ => false

end

instance : BEq Value := ⟨equal⟩

end Value
end ObjectVault
