import ObjectVault.Codec.Tsv

namespace ObjectVault.Tsv

/-- A character that ends no cell and opens no quotes. -/
def Ordinary (c : Char) : Prop :=
  c ≠ '\t' ∧ c ≠ '\n' ∧ c ≠ '\r' ∧ c ≠ '"'

theorem ordinary_of_unquoted {cell : List Char} (h : needsQuotes cell = false) :
    ∀ c ∈ cell, Ordinary c := by
  intro c mem
  have plain := List.any_eq_false.mp h c mem
  simp only [Bool.or_eq_true, beq_iff_eq, not_or] at plain
  obtain ⟨⟨⟨tab, feed⟩, home⟩, quote⟩ := plain
  exact ⟨tab, feed, home, quote⟩

section Scan
variable {cell rest : List Char} {cells : List (List Char)}

theorem scan_ordinary {c : Char} (h : Ordinary c) :
    scan .plain cell cells (c :: rest) = scan .plain (cell ++ [c]) cells rest := by
  obtain ⟨tab, feed, home, quote⟩ := h
  rw [scan]
  simp [tab, feed, home, quote]

theorem scan_unquoted {text : List Char} (h : ∀ c ∈ text, Ordinary c) :
    scan .plain cell cells (text ++ rest) = scan .plain (cell ++ text) cells rest := by
  induction text generalizing cell with
  | nil => simp
  | cons c text ih =>
    rw [List.cons_append, scan_ordinary (h c List.mem_cons_self),
      ih fun d mem => h d (List.mem_cons_of_mem _ mem), List.append_assoc, List.singleton_append]

theorem scan_doubled (text : List Char) :
    scan .quoted cell cells (doubleQuotes text ++ '"' :: rest) =
      scan .closing (cell ++ text) cells rest := by
  induction text generalizing cell with
  | nil => simp [doubleQuotes, scan]
  | cons c text ih =>
    have split : doubleQuotes (c :: text) =
        (if c == '"' then ['"', '"'] else [c]) ++ doubleQuotes text := rfl
    by_cases quote : c = '"'
    · subst quote
      rw [split, if_pos (by decide), List.append_assoc, List.cons_append, List.cons_append,
        List.nil_append, scan, scan]
      simp [ih]
    · rw [split, if_neg (by simpa using quote), List.append_assoc, List.cons_append,
        List.nil_append, scan]
      simp [quote, ih]

/-- A cell that was written is read as it was, up to where it ends. -/
theorem scan_quoteCell (text : List Char) (cells : List (List Char)) (rest : List Char) :
    ∃ place, place ≠ .quoted ∧
      scan .plain [] cells (quoteCell text ++ rest) = scan place text cells rest := by
  cases quoted : needsQuotes text with
  | false =>
    refine ⟨.plain, by decide, ?_⟩
    rw [quoteCell, quoted, if_neg (by decide), scan_unquoted (ordinary_of_unquoted quoted),
      List.nil_append]
  | true =>
    refine ⟨.closing, by decide, ?_⟩
    rw [quoteCell, quoted, if_pos rfl, List.append_assoc, List.cons_append, List.cons_append,
      List.nil_append, scan]
    simp [scan_doubled]

theorem scan_tab {place : Place} (closed : place ≠ .quoted) :
    scan place cell cells ('\t' :: rest) = scan .plain [] (cells ++ [cell]) rest := by
  rw [scan]
  simp [closed]

theorem scan_feed {place : Place} (closed : place ≠ .quoted) :
    scan place cell cells ('\n' :: rest) =
      (scan .plain [] [] rest).map ((cells ++ [cell]) :: ·) := by
  rw [scan]
  simp [closed]

end Scan

theorem line_singleton (cell rest : List Char) :
    line [cell] ++ rest = quoteCell cell ++ '\n' :: rest := by
  simp [line, joinTabs]

theorem line_cons (cell next : List Char) (row : List (List Char)) (rest : List Char) :
    line (cell :: next :: row) ++ rest =
      quoteCell cell ++ '\t' :: (line (next :: row) ++ rest) := by
  simp [line, joinTabs]

/-- A line is read as its cells. -/
theorem scan_line {row : List (List Char)} (nonempty : row ≠ []) (cells : List (List Char))
    (rest : List Char) :
    scan .plain [] cells (line row ++ rest) =
      (scan .plain [] [] rest).map ((cells ++ row) :: ·) := by
  induction row generalizing cells with
  | nil => exact absurd rfl nonempty
  | cons cell row ih =>
    cases row with
    | nil =>
      obtain ⟨place, closed, read⟩ := scan_quoteCell cell cells ('\n' :: rest)
      rw [line_singleton, read, scan_feed closed]
    | cons next row =>
      obtain ⟨place, closed, read⟩ :=
        scan_quoteCell cell cells ('\t' :: (line (next :: row) ++ rest))
      rw [line_cons, read, scan_tab closed, ih (by simp), List.append_assoc, List.singleton_append]

/-- Reading lines undoes writing them, whatever stands in the cells. -/
theorem records_lines {rows : List (List (List Char))} (nonempty : ∀ row ∈ rows, row ≠ []) :
    records (rows.flatMap line) = .ok rows := by
  rw [records]
  induction rows with
  | nil => rfl
  | cons row rows ih =>
    obtain ⟨first, others⟩ := List.forall_mem_cons.mp nonempty
    rw [List.flatMap_cons, scan_line first, ih others, List.nil_append]
    rfl

theorem table_ne_nil (frame : Frame) : ∀ row ∈ table frame, row ≠ [] := by
  refine List.forall_mem_cons.mpr ⟨by simp, fun row mem => ?_⟩
  obtain ⟨i, bound, rfl⟩ := List.getElem_of_mem mem
  simp

end ObjectVault.Tsv
