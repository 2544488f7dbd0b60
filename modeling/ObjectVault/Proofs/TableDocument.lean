import ObjectVault.Proofs.QuotedText
import ObjectVault.Proofs.Spacing
import ObjectVault.Proofs.TableReading
import ObjectVault.Proofs.ValueText

namespace ObjectVault.Tsv
open Json Text

theorem quoteCell_of_unquoted {cell : List Char} (h : needsQuotes cell = false) :
    quoteCell cell = cell := by
  rw [quoteCell, h, if_neg Bool.false_ne_true]

theorem not_mem_of_unquoted {cell : List Char} (h : needsQuotes cell = false) : '"' ∉ cell :=
  fun mem => (ordinary_of_unquoted h '"' mem).2.2.2 rfl

theorem line_eq_cons (cell next : List Char) (row : List (List Char)) :
    line (cell :: next :: row) = quoteCell cell ++ '\t' :: line (next :: row) := by
  simpa using line_cons cell next row []

theorem not_mem_line {row : List (List Char)} (h : ∀ cell ∈ row, needsQuotes cell = false) :
    '"' ∉ line row := by
  induction row with
  | nil => decide
  | cons cell row ih =>
    obtain ⟨first, others⟩ := List.forall_mem_cons.mp h
    cases row with
    | nil => simp [line, joinTabs, quoteCell_of_unquoted first, not_mem_of_unquoted first]
    | cons next row =>
      simp [line_eq_cons, quoteCell_of_unquoted first, not_mem_of_unquoted first, ih others]

/-- A line with a cell in quotes. -/
theorem blocked_line {row : List (List Char)} (h : ∃ cell ∈ row, needsQuotes cell = true)
    (rest : List Char) : Blocked (line row ++ rest) := by
  obtain ⟨cell, mem, quoted⟩ := h
  induction row with
  | nil => cases mem
  | cons first row ih =>
    cases row with
    | nil =>
      cases List.mem_singleton.mp mem
      rw [line_singleton]
      exact blocked_quoteCell quoted (by decide) rest
    | cons next row =>
      rw [line_cons]
      cases own : needsQuotes first with
      | true => exact blocked_quoteCell own (by decide) _
      | false =>
        have behind : cell ∈ next :: row := by
          rcases List.mem_cons.mp mem with rfl | mem
          · rw [own] at quoted
            cases quoted
          · exact mem
        rw [quoteCell_of_unquoted own]
        exact blocked_append (not_mem_of_unquoted own) (.skip (by decide) (ih behind))

theorem blocked_lines {rows : List (List (List Char))}
    (h : ∃ row ∈ rows, ∃ cell ∈ row, needsQuotes cell = true) : Blocked (rows.flatMap line) := by
  induction rows with
  | nil =>
    obtain ⟨row, mem, -⟩ := h
    cases mem
  | cons first rows ih =>
    rw [List.flatMap_cons]
    by_cases own : ∃ cell ∈ first, needsQuotes cell = true
    · exact blocked_line own _
    · obtain ⟨row, mem, quoted⟩ := h
      have plain : ∀ cell ∈ first, needsQuotes cell = false := by simpa using own
      rcases List.mem_cons.mp mem with rfl | mem
      · exact absurd quoted own
      · exact blocked_append (not_mem_line plain) (ih ⟨row, mem, quoted⟩)

/-- Without quotes, a line is its cells one after the other, but for the kinds of space. -/
theorem alike_line {row : List (List Char)} (nonempty : row ≠ [])
    (h : ∀ cell ∈ row, needsQuotes cell = false) :
    Alike (line row) (row.flatMap (· ++ [' '])) := by
  have tab : evened '\t' = evened ' ' := by decide
  have feed : evened '\n' = evened ' ' := by decide
  induction row with
  | nil => exact absurd rfl nonempty
  | cons cell row ih =>
    obtain ⟨first, others⟩ := List.forall_mem_cons.mp h
    cases row with
    | nil => simp [Alike, line, joinTabs, quoteCell_of_unquoted first, feed]
    | cons next row =>
      have behind := ih (by simp) others
      rw [Alike] at behind ⊢
      rw [line_eq_cons, quoteCell_of_unquoted first, List.map_append, List.map_cons, tab, behind]
      simp

theorem alike_lines {rows : List (List (List Char))} (nonempty : ∀ row ∈ rows, row ≠ [])
    (h : ∀ row ∈ rows, ∀ cell ∈ row, needsQuotes cell = false) :
    Alike (rows.flatMap line) (rows.flatten.flatMap (· ++ [' '])) := by
  induction rows with
  | nil => rfl
  | cons row rows ih =>
    obtain ⟨first, others⟩ := List.forall_mem_cons.mp h
    obtain ⟨own, nonempty⟩ := List.forall_mem_cons.mp nonempty
    have line := alike_line own first
    have behind := ih nonempty others
    rw [Alike] at line behind ⊢
    rw [List.flatMap_cons, List.map_append, line, behind, List.flatten_cons, List.flatMap_append,
      List.map_append]

/-- The names, labels and cells of a frame as one text, row by row, with a blank behind each. -/
def spelled (frame : Frame) : List Char :=
  (table frame).flatten.flatMap (· ++ [' '])

/-- A frame without anything to quote whose names, labels and cells are one document. -/
def SpellsDocument (frame : Frame) : Prop :=
  (∀ row ∈ table frame, ∀ cell ∈ row, needsQuotes cell = false) ∧
    ((ofChars (spelled frame)).bind (Value.ofJson Value.maxNesting)).isSome = true

instance (frame : Frame) : Decidable (SpellsDocument frame) :=
  inferInstanceAs (Decidable (_ ∧ _))

/-- The table of a frame is a document just if the texts in it are one. -/
theorem isSome_ofJsonBytes_table (frame : Frame) :
    (Codec.ofJsonBytes (encodeUtf8 (ofFrame frame))).isSome = true ↔ SpellsDocument frame := by
  rw [Codec.ofJsonBytes, decodeUtf8_encodeUtf8]
  simp only [Json.ofText, ofFrame, String.toList_ofList, chars]
  by_cases quoted : ∃ row ∈ table frame, ∃ cell ∈ row, needsQuotes cell = true
  · have other : ¬ SpellsDocument frame := by
      rintro ⟨plain, -⟩
      obtain ⟨row, own, cell, mem, quotes⟩ := quoted
      rw [plain row own cell mem] at quotes
      cases quotes
    simp [ofChars_of_blocked (blocked_lines quoted), other]
  · have plain : ∀ row ∈ table frame, ∀ cell ∈ row, needsQuotes cell = false := by
      simpa using quoted
    have unquoted : '"' ∉ (table frame).flatMap line := by
      simp only [List.mem_flatMap, not_exists, not_and]
      exact fun row mem => not_mem_line (plain row mem)
    rw [ofChars_congr (alike_lines (table_ne_nil frame) plain) unquoted]
    exact ⟨fun read => ⟨plain, read⟩, And.right⟩

/-- A number that labels the only row of a frame without columns is a document. -/
example : SpellsDocument ⟨[], [.int 0], [[]]⟩ := by decide +kernel

end ObjectVault.Tsv
