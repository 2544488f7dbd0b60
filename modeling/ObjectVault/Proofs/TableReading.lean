import ObjectVault.Proofs.ColumnTypes
import ObjectVault.Proofs.TableRecords

namespace ObjectVault

namespace Grid
variable {α : Type}

/-- Where each of the lists reaches, the cells at a place are one from each. -/
theorem getElem?_filterMap_getElem? {lists : List (List α)} {r : Nat}
    (reach : ∀ xs ∈ lists, r < xs.length) (i : Nat) :
    (lists.filterMap (·[r]?))[i]? = lists[i]?.bind (·[r]?) := by
  induction lists generalizing i with
  | nil => simp
  | cons xs lists ih =>
    obtain ⟨first, others⟩ := List.forall_mem_cons.mp reach
    simp only [List.filterMap_cons, List.getElem?_eq_getElem first]
    cases i with
    | zero => simp [first]
    | succ i => simpa using ih others i

theorem length_filterMap_getElem? {lists : List (List α)} {r : Nat}
    (reach : ∀ xs ∈ lists, r < xs.length) : (lists.filterMap (·[r]?)).length = lists.length := by
  rw [List.length_filterMap_eq_countP, List.countP_eq_length]
  intro xs mem
  simp [reach xs mem]

theorem getElem?_cellsAt {g : Grid α} (h : g.Rectangular) {i : Nat} (lt : i < g.columns.length)
    (r : Nat) : (g.cellsAt i)[r]? = g.rows[r]?.bind (·[i]?) :=
  getElem?_filterMap_getElem? (fun row mem => by rwa [h.2 row mem]) r

/-- A frame is told by its names, its labels and its columns. -/
theorem ext_cellsAt {g h : Grid α} (rect : g.Rectangular) (rect' : h.Rectangular)
    (columns : g.columns = h.columns) (index : g.index = h.index)
    (cells : ∀ i < g.columns.length, g.cellsAt i = h.cellsAt i) : g = h := by
  have rows : g.rows = h.rows := by
    have same : g.rows.length = h.rows.length := by rw [← rect.1, ← rect'.1, index]
    refine List.ext_getElem same fun r lt lt' => ?_
    have width := rect.2 _ (List.getElem_mem lt)
    have width' := rect'.2 _ (List.getElem_mem lt')
    refine List.ext_getElem? fun i => ?_
    by_cases inside : i < g.columns.length
    · have left := getElem?_cellsAt rect inside r
      have right := getElem?_cellsAt rect' (columns ▸ inside) r
      rw [List.getElem?_eq_getElem lt, Option.bind_some] at left
      rw [List.getElem?_eq_getElem lt', Option.bind_some] at right
      rw [← left, ← right, cells i inside]
    · rw [List.getElem?_eq_none (by omega),
        List.getElem?_eq_none (by rw [width', ← columns]; omega)]
  cases g
  cases h
  cases columns
  cases index
  cases rows
  rfl

theorem firstRagged_of_widths {width row : Nat} {rows : List (List α)}
    (h : ∀ cells ∈ rows, cells.length = width) : firstRagged width row rows = none := by
  induction rows generalizing row with
  | nil => rfl
  | cons cells rows ih =>
    obtain ⟨first, others⟩ := List.forall_mem_cons.mp h
    rw [firstRagged, if_pos first, ih others]

theorem ofParts_of_rectangular {g : Grid α} (h : g.Rectangular) :
    ofParts g.columns g.index g.rows = .ok g := by
  simp [ofParts, h.1, firstRagged_of_widths h.2]

end Grid

namespace Tsv
open Decimal

theorem firstMisfit_eq_none_iff {width row : Nat} {body : List (List (List Char))} :
    firstMisfit width row body = none ↔ ∀ cells ∈ body, cells.length = width := by
  induction body generalizing row with
  | nil => simp [firstMisfit]
  | cons cells body ih =>
    rw [firstMisfit, List.forall_mem_cons]
    split
    · next fits => simp [fits, ih]
    · next misfit => simp [misfit]

theorem firstMisfit_eq_some {width row : Nat} {body : List (List (List Char))} {fault : CodecError}
    (h : firstMisfit width row body = some fault) :
    ∃ r found, fault = .cellCount r found width := by
  induction body generalizing row with
  | nil => simp [firstMisfit] at h
  | cons cells body ih =>
    rw [firstMisfit] at h
    split at h
    · exact ih h
    · exact ⟨_, _, (Option.some.inj h).symm⟩

theorem length_columnAt (body : List (List (List Char))) (i : Nat) :
    (columnAt body i).length = body.length := by
  rw [columnAt, length_inferColumn, List.length_map]

/-- What a frame is made of when records under a header are put together. -/
structure Assembled (names : List (List Char)) (body : List (List (List Char))) (frame : Frame) :
    Prop where
  rectangular : frame.Rectangular
  columns : frame.columns = names.map String.ofList
  index : frame.index = columnAt body 0
  cells : ∀ i < names.length, frame.cellsAt i = columnAt body (i + 1)

/-- Records can always be put together: no column is shorter than the labels. -/
theorem assemble_ok (names : List (List Char)) (body : List (List (List Char))) :
    ∃ frame, assemble names body = .ok frame ∧ Assembled names body frame := by
  let columns := (List.range names.length).map fun i => columnAt body (i + 1)
  let frame : Frame := {
    columns := names.map String.ofList
    index := columnAt body 0
    rows := (List.range (columnAt body 0).length).map fun r => columns.filterMap (·[r]?) }
  have reach : ∀ r < body.length, ∀ column ∈ columns, r < column.length := by
    intro r lt column mem
    obtain ⟨i, -, rfl⟩ := List.mem_map.mp mem
    rwa [length_columnAt]
  have rectangular : frame.Rectangular := by
    refine ⟨by simp [frame], fun row mem => ?_⟩
    obtain ⟨r, inside, rfl⟩ := List.mem_map.mp mem
    rw [List.mem_range, length_columnAt] at inside
    rw [Grid.length_filterMap_getElem? (reach r inside)]
    simp [columns, frame]
  refine ⟨frame, Grid.ofParts_of_rectangular rectangular, rectangular, rfl, rfl, fun i lt => ?_⟩
  have height : frame.rows.length = (columnAt body (i + 1)).length := by
    simp [frame, length_columnAt]
  have width : i < frame.columns.length := by simpa [frame] using lt
  refine List.ext_getElem? fun r => ?_
  rw [Grid.getElem?_cellsAt rectangular width]
  by_cases inside : r < body.length
  · have row : frame.rows[r]? = some (columns.filterMap (·[r]?)) := by
      simp [frame, length_columnAt, inside]
    rw [row, Option.bind_some, Grid.getElem?_filterMap_getElem? (reach r inside)]
    simp [columns, lt]
  · rw [List.getElem?_eq_none (by rw [height, length_columnAt]; omega), Option.bind_none,
      List.getElem?_eq_none (by rw [length_columnAt]; omega)]

/-- The scan of a text fails only where quotes are left open. -/
theorem scan_error {place : Place} {cell rest : List Char} {cells : List (List Char)}
    {error : CodecError} (h : scan place cell cells rest = .error error) : error = .openCell := by
  induction rest generalizing place cell cells with
  | nil =>
    rw [scan] at h
    split at h
    · exact (Except.error.inj h).symm
    · split at h <;> cases h
  | cons c rest ih =>
    rw [scan] at h
    split_ifs at h with quoted quote again opens tab home feed
    · exact ih h
    · exact ih h
    · exact ih h
    · exact ih h
    · exact ih h
    · exact ih h
    · cases others : scan .plain [] [] rest with
      | error fault =>
        rw [others] at h
        cases h
        exact ih others
      | ok rows =>
        rw [others] at h
        cases h
    · exact ih h

/-- A text is read as the frame that its records are put together to, unless it is no table. -/
theorem toFrame_cases (text : List Char) :
    (∃ error, toFrame text = .error error ∧ (error = .openCell ∨ error = .emptyTable ∨
      ∃ row found expected, error = .cellCount row found expected)) ∨
    ∃ names body frame, toFrame text = .ok frame ∧ Assembled names body frame := by
  cases read : records text with
  | error fault =>
    refine .inl ⟨fault, ?_, .inl (scan_error read)⟩
    rw [toFrame, read]
    rfl
  | ok rows =>
    cases rows with
    | nil =>
      refine .inl ⟨.emptyTable, ?_, .inr (.inl rfl)⟩
      rw [toFrame, read]
      rfl
    | cons header body =>
      cases misfit : firstMisfit ((header.drop 1).length + 1) 1 body with
      | some fault =>
        obtain ⟨row, found, rfl⟩ := firstMisfit_eq_some misfit
        have failed : toFrame text =
            .error (.cellCount row found ((header.drop 1).length + 1)) := by
          simp only [toFrame, read, bind, Except.bind, misfit]
        exact .inl ⟨_, failed, .inr (.inr ⟨row, found, _, rfl⟩)⟩
      | none =>
        obtain ⟨frame, made, assembled⟩ := assemble_ok (header.drop 1) body
        refine .inr ⟨_, body, frame, ?_, assembled⟩
        simp only [toFrame, read, bind, Except.bind, misfit, made]
        rfl

/-- A frame that is written is read from the cells of its table. -/
theorem toFrame_chars {frame : Frame} (h : frame.Rectangular) :
    ∃ read, toFrame (chars frame) = .ok read ∧
      Assembled (frame.columns.map String.toList)
        (List.zipWith (fun label row => (label :: row).map cellText) frame.index frame.rows)
        read := by
  obtain ⟨read, made, assembled⟩ := assemble_ok (frame.columns.map String.toList)
    (List.zipWith (fun label row => (label :: row).map cellText) frame.index frame.rows)
  refine ⟨read, ?_, assembled⟩
  have fits : firstMisfit ((frame.columns.map String.toList).length + 1) 1
      (List.zipWith (fun label row => (label :: row).map cellText) frame.index frame.rows) =
        none := by
    refine firstMisfit_eq_none_iff.mpr fun cells mem => ?_
    obtain ⟨r, inside, rfl⟩ := List.getElem_of_mem mem
    have within : r < frame.rows.length := by
      simp at inside
      omega
    have width := h.2 frame.rows[r] (List.getElem_mem within)
    simp [width]
  rw [toFrame, chars, records_lines (table_ne_nil frame)]
  simp only [table, bind, Except.bind, List.drop_succ_cons, List.drop_zero, fits, made]
  rfl

section Written
variable {frame : Frame}

/-- The labels of a table that was written. -/
theorem columnAt_labels (h : frame.Rectangular) :
    columnAt
        (List.zipWith (fun label row => (label :: row).map cellText) frame.index frame.rows) 0 =
      inferColumn (frame.index.map cellText) := by
  rw [columnAt]
  congr 1
  refine List.ext_getElem (by simp [h.1]) fun r lt lt' => ?_
  simp

/-- The cells of a table that was written, column by column. -/
theorem columnAt_cells (h : frame.Rectangular) {i : Nat} (lt : i < frame.columns.length) :
    columnAt (List.zipWith (fun label row => (label :: row).map cellText) frame.index frame.rows)
      (i + 1) = inferColumn ((frame.cellsAt i).map cellText) := by
  rw [columnAt]
  congr 1
  refine List.ext_getElem? fun r => ?_
  rw [List.getElem?_map, List.getElem?_map, Grid.getElem?_cellsAt h lt]
  by_cases inside : r < frame.rows.length
  · have labelled : r < frame.index.length := by rwa [h.1]
    have width := h.2 _ (List.getElem_mem inside)
    simp [inside, labelled, width, lt]
  · rw [List.getElem?_eq_none (by simp; omega), List.getElem?_eq_none (by omega)]
    rfl

end Written

/-- The frame that is read from the table of a frame. -/
theorem ofText_ofFrame {frame : Frame} (h : frame.Rectangular) :
    ∃ read, ofText (ofFrame frame) = .ok read ∧ read.Rectangular ∧
      read.columns = frame.columns ∧ read.index = inferColumn (frame.index.map cellText) ∧
      ∀ i < frame.columns.length,
        read.cellsAt i = inferColumn ((frame.cellsAt i).map cellText) := by
  obtain ⟨read, scanned, assembled⟩ := toFrame_chars h
  refine ⟨read, ?_, assembled.rectangular, ?_, ?_, fun i lt => ?_⟩
  · rw [ofText, ofFrame, String.toList_ofList, scanned]
  · rw [assembled.columns, List.map_map]
    exact List.map_id'' (fun name => String.ofList_toList) _
  · rw [assembled.index, columnAt_labels h]
  · rw [assembled.cells i (by simpa using lt), columnAt_cells h lt]

/-- A frame whose columns keep their types is read as it was. -/
theorem ofText_ofFrame_of_steady {frame : Frame} (h : frame.Rectangular)
    (index : Steady frame.index) (each : ∀ i < frame.columns.length, Steady (frame.cellsAt i)) :
    ofText (ofFrame frame) = .ok frame := by
  obtain ⟨read, made, rectangular, columns, labels, cells⟩ := ofText_ofFrame h
  have same : read = frame := by
    refine Grid.ext_cellsAt rectangular h columns ?_ fun i lt => ?_
    · rw [labels, index.inferColumn_eq_self]
    · rw [columns] at lt
      rw [cells i lt, (each i lt).inferColumn_eq_self]
  rw [made, same]

/-- A table keeps the names of a frame, its rows and the text of every cell, and each column gets
the type that these texts have together. -/
theorem table_keeps_shape_and_texts {frame : Frame} (h : frame.Rectangular) :
    ∃ read, ofText (ofFrame frame) = .ok read ∧ read.Rectangular ∧
      read.columns = frame.columns ∧ read.rows.length = frame.rows.length ∧
      read.index = inferColumn (frame.index.map cellText) ∧
      (∀ i < frame.columns.length,
        read.cellsAt i = inferColumn ((frame.cellsAt i).map cellText)) ∧
      (Steady frame.index → (∀ i < frame.columns.length, Steady (frame.cellsAt i)) →
        read = frame) := by
  obtain ⟨read, made, rectangular, columns, index, cells⟩ := ofText_ofFrame h
  have rows : read.rows.length = frame.rows.length := by
    rw [← rectangular.1, index, length_inferColumn, List.length_map, h.1]
  refine ⟨read, made, rectangular, columns, rows, index, cells, fun labels each => ?_⟩
  have same := ofText_ofFrame_of_steady h labels each
  rw [made] at same
  exact Except.ok.inj same

/-- Names, labels and cells with everything that has to be quoted. -/
def quotedFrame : Frame where
  columns := ["", "a\tb", "\r"]
  index := [.string "x\"\n", .null]
  rows := [[.int 7, .bool true, .string "\"True\""], [.null, .null, .string "1"]]

theorem table_keeps_shape_and_texts_quoted :
    quotedFrame.Rectangular ∧ ofText (ofFrame quotedFrame) = .ok quotedFrame := by
  have rectangular : quotedFrame.Rectangular := by decide
  have index : Steady quotedFrame.index :=
    .texts (s := "x\"\n") (t := "x\"\n") (by simp [quotedFrame]) (by simp [quotedFrame]) (by decide)
      (by decide) (by simp [quotedFrame]) (by decide)
  have cells : ∀ i < quotedFrame.columns.length, Steady (quotedFrame.cellsAt i) := by
    intro i lt
    match i, lt with
    | 0, _ => exact .ints (by simp [quotedFrame, Grid.cellsAt])
    | 1, _ => exact .bools (by simp [quotedFrame, Grid.cellsAt])
    | 2, _ =>
      exact .texts (s := "\"True\"") (t := "1") (by simp [quotedFrame, Grid.cellsAt])
        (by simp [quotedFrame, Grid.cellsAt]) (by decide) (by decide)
        (by simp [quotedFrame, Grid.cellsAt]) (by decide)
  obtain ⟨read, made, -, -, -, -, -, same⟩ := table_keeps_shape_and_texts rectangular
  rw [same index cells] at made
  exact ⟨rectangular, made⟩

/-- Reading any text ends in a fault of the table or in a frame. The frame has one label for each
row and one cell for each column, and unless a column was read as floats, which is so if it holds
one, writing it and reading it again gives the same frame. -/
theorem reading_settles_at_once (text : String) :
    (∃ error, ofText text = .error error ∧ (error = .openCell ∨ error = .emptyTable ∨
      ∃ row found expected, error = .cellCount row found expected)) ∨
    ∃ frame, ofText text = .ok frame ∧ frame.Rectangular ∧
      ((∀ x, .float x ∉ frame.index) →
        (∀ i < frame.columns.length, ∀ x, .float x ∉ frame.cellsAt i) →
        ofText (ofFrame frame) = .ok frame) := by
  rcases toFrame_cases text.toList with ⟨error, failed, kind⟩ | ⟨names, body, frame, read, made⟩
  · exact .inl ⟨error, failed, kind⟩
  · refine .inr ⟨frame, read, made.rectangular, fun noLabel noCell => ?_⟩
    refine ofText_ofFrame_of_steady made.rectangular ?_ fun i lt => ?_
    · rw [made.index] at noLabel ⊢
      exact steady_inferColumn noLabel
    · have inside : i < names.length := by rwa [made.columns, List.length_map] at lt
      have noFloat := noCell i lt
      rw [made.cells i inside] at noFloat ⊢
      exact steady_inferColumn noFloat

/-- A table with other line ends, zeros and signs in front of its numbers, and no end of the last
line. -/
theorem reading_settles_at_once_crlf :
    ∃ frame, ofText "\ta\r\n007\tTrue\r\n+8\tx\"\r" = .ok frame ∧
      frame.index = [.int 7, .int 8] ∧ ofText (ofFrame frame) = .ok frame := by
  have read : ofText "\ta\r\n007\tTrue\r\n+8\tx\"\r" =
      .ok ⟨["a"], [.int 7, .int 8], [[.string "True"], [.string "x\"\r"]]⟩ := by
    rfl
  rcases reading_settles_at_once "\ta\r\n007\tTrue\r\n+8\tx\"\r" with
    ⟨error, failed, -⟩ | ⟨frame, made, -, same⟩
  · rw [read] at failed
    cases failed
  · rw [read] at made
    cases made
    refine ⟨_, read, rfl, same (by simp) fun i lt => ?_⟩
    match i, lt with
    | 0, _ => simp [Grid.cellsAt]

end Tsv
end ObjectVault
