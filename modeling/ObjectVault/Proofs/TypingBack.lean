import ObjectVault.Proofs.BoundNames
import ObjectVault.Proofs.ColumnTypes
import ObjectVault.Proofs.CompactText
import ObjectVault.Proofs.Trimming
import ObjectVault.Proofs.ValueText

namespace ObjectVault

namespace Json
open ObjectVault.Decimal ObjectVault.Text

theorem intChars_chars {n : Int} {c : Char} (mem : c ∈ intChars n) :
    c = '-' ∨ c.isDigit = true := by
  cases n with
  | ofNat n => exact .inr (isDigit_natDigits mem)
  | negSucc n => exact (List.mem_cons.mp mem).imp_right isDigit_natDigits

theorem filled_intChars (n : Int) : Filled (intChars n) := by
  obtain ⟨c, cs, eq, -⟩ := intChars_eq_cons n
  refine .of_no_blank (by simp [eq]) fun c mem => ?_
  rcases intChars_chars mem with rfl | digit
  · decide
  · exact isBlank_of_digit digit

theorem compactItems_last (js : List Json) : ∃ rest, compactItems js = rest ++ [']'] := by
  induction js with
  | nil => exact ⟨[], rfl⟩
  | cons j js ih =>
    obtain ⟨rest, eq⟩ := ih
    exact ⟨',' :: (compactChars j ++ rest), by rw [compactItems, eq]; simp⟩

theorem compactFields_last (fs : List (String × Json)) :
    ∃ rest, compactFields fs = rest ++ ['\x7d'] := by
  induction fs with
  | nil => exact ⟨[], rfl⟩
  | cons f fs ih =>
    obtain ⟨rest, eq⟩ := ih
    exact ⟨',' :: (stringChars f.1 ++ ':' :: (compactChars f.2 ++ rest)),
      by rw [compactFields, eq]; simp⟩

theorem compactChars_array (js : List Json) : ∃ rest, compactChars (.array js) = '[' :: rest := by
  cases js <;> exact ⟨_, rfl⟩

theorem compactChars_object (fs : List (String × Json)) :
    ∃ rest, compactChars (.object fs) = '\x7b' :: rest := by
  cases fs <;> exact ⟨_, rfl⟩

/-- A document on one line has no blanks at its ends. -/
theorem Plain.filled {j : Json} (h : Plain j) : Filled (compactChars j) := by
  cases h with
  | null =>
    rw [compactChars]
    exact .of_all (by simp) (by decide)
  | bool b =>
    cases b
    all_goals
      rw [compactChars]
      exact .of_all (by simp) (by decide)
  | @number n fits => exact filled_intChars n
  | string s =>
    exact ⟨⟨'"', _, rfl, by decide⟩, ⟨'"' :: s.toList.flatMap escapeChar, '"', rfl, by decide⟩⟩
  | @array js items =>
    cases js with
    | nil =>
      rw [compactChars]
      exact .of_all (by simp) (by decide)
    | cons j js =>
      obtain ⟨rest, eq⟩ := compactItems_last js
      refine ⟨⟨'[', _, rfl, by decide⟩, ⟨'[' :: (compactChars j ++ rest), ']', ?_, by decide⟩⟩
      rw [compactChars, eq]
      simp
  | @object fs values =>
    cases fs with
    | nil =>
      rw [compactChars]
      exact .of_all (by simp) (by decide)
    | cons f fs =>
      obtain ⟨rest, eq⟩ := compactFields_last fs
      refine ⟨⟨'\x7b', _, rfl, by decide⟩,
        ⟨'\x7b' :: (stringChars f.1 ++ ':' :: (compactChars f.2 ++ rest)), '\x7d', ?_, by decide⟩⟩
      rw [compactChars, eq]
      simp

end Json

namespace Shell
open ObjectVault.Command ObjectVault.Text

/-- A line that gives a literal to a name. -/
def letLine (name literal : String) : String :=
  "let " ++ name ++ " = " ++ literal

theorem filled_of_isIdentifier {name : String} (identifier : isIdentifier name = true) :
    Filled name.toList :=
  have word := word_of_isIdentifier identifier
  .of_no_blank word.nonempty fun c mem => not_isBlank_of_isPlain (word.plain c mem).1

theorem letRequest_of_filled {name literal : String} (identifier : isIdentifier name = true)
    (filled : Filled literal.toList) :
    letRequest (name.toList ++ [' ', '=', ' '] ++ literal.toList) = .ok (.bind name literal) := by
  have own := filled_of_isIdentifier identifier
  have unequal : ∀ c ∈ name.toList ++ [' '], (c != '=') = true := by
    intro c mem
    rw [bne_iff_ne]
    rintro rfl
    rcases List.mem_append.mp mem with own | blank
    · have sign : isWordChar '=' = false := by decide +kernel
      rw [(isWordChar_of_isIdentifier identifier).2 '=' own] at sign
      cases sign
    · exact absurd (List.mem_singleton.mp blank) (by decide)
  have parts : name.toList ++ [' ', '=', ' '] ++ literal.toList =
      (name.toList ++ [' ']) ++ '=' :: ([' '] ++ literal.toList) := by simp
  have front : (name.toList ++ [' ', '=', ' '] ++ literal.toList).takeWhile (· != '=') =
      name.toList ++ [' '] := by
    rw [parts, List.takeWhile_append_of_pos unequal, List.takeWhile_cons_of_neg (by decide),
      List.append_nil]
  have behind : ((name.toList ++ [' ', '=', ' '] ++ literal.toList).dropWhile (· != '=')).drop 1 =
      [' '] ++ literal.toList := by
    rw [parts, List.dropWhile_append_of_pos unequal, List.dropWhile_cons_of_neg (by decide)]
    rfl
  have blank : ∀ c ∈ [' '], isBlank c = true := List.forall_mem_singleton.mpr isBlank_space
  have blanks : ∀ c ∈ ([] : List Char), isBlank c = true := List.forall_mem_nil _
  have named : String.ofList (trim (name.toList ++ [' '])) = name := by
    have trimmed := own.trim blanks blank
    rw [List.nil_append] at trimmed
    rw [trimmed, String.ofList_toList]
  have given : String.ofList (trim ([' '] ++ literal.toList)) = literal := by
    have trimmed := filled.trim blank blanks
    rw [List.append_nil] at trimmed
    rw [trimmed, String.ofList_toList]
  have nonempty : literal.isEmpty = false := by
    obtain ⟨c, rest, eq, -⟩ := filled.first
    refine Bool.eq_false_iff.mpr fun empty => ?_
    rw [String.isEmpty_iff.mp empty] at eq
    cases eq
  rw [letRequest, front, behind]
  simp only [named, given, identifier, nonempty]
  simp

theorem filled_letLine {name literal : String} (filled : Filled literal.toList) :
    Filled (letLine name literal).toList := by
  have front : Filled ['l', 'e', 't'] := .of_all (by simp) (by decide)
  have parts : (letLine name literal).toList =
      ['l', 'e', 't'] ++ (' ' :: (name.toList ++ [' ', '=', ' ']) ++ literal.toList) := by
    simp [letLine]
  rw [parts]
  exact front.append filled _

/-- A line that gives a literal to an identifier asks for just that. -/
theorem ofLine_letLine {name literal : String} (identifier : isIdentifier name = true)
    (filled : Filled literal.toList) :
    Request.ofLine (letLine name literal) = .ok (.bind name literal) := by
  have own := filled_of_isIdentifier identifier
  have blanks : ∀ c ∈ ([] : List Char), isBlank c = true := List.forall_mem_nil _
  have parts : (letLine name literal).toList =
      ['l', 'e', 't'] ++ ' ' :: (name.toList ++ ([' ', '=', ' '] ++ literal.toList)) := by
    simp [letLine]
  have whole : trim (letLine name literal).toList = (letLine name literal).toList := by
    simpa using (filled_letLine filled).trim blanks blanks
  have plain : ∀ c ∈ ['l', 'e', 't'], (!isBlank c) = true := List.all_eq_true.mp (by decide)
  have first : firstWord (letLine name literal) = "let" := by
    rw [firstWord, whole, parts, List.takeWhile_append_of_pos plain,
      List.takeWhile_cons_of_neg (by decide), List.append_nil]
  have rest : trim ((trim (letLine name literal).toList).dropWhile (!isBlank ·)) =
      name.toList ++ [' ', '=', ' '] ++ literal.toList := by
    rw [whole, parts, List.dropWhile_append_of_pos plain, List.dropWhile_cons_of_neg (by decide)]
    have blank : ∀ c ∈ [' '], isBlank c = true := List.forall_mem_singleton.mpr isBlank_space
    simpa using (own.append filled [' ', '=', ' ']).trim blank blanks
  rw [Request.ofLine]
  simp only [first, rest]
  exact letRequest_of_filled identifier filled

/-- A document in brackets or in quotes is read as one. -/
theorem valueOf_of_document {cs rest : List Char} {c : Char} {j : Json} {v : Value}
    (opens : c = '\x7b' ∨ c = '[' ∨ c = '"') (first : cs = c :: rest)
    (read : Json.ofText (.ofList cs) = some j) (shown : Value.ofJson Value.maxNesting j = some v) :
    valueOf (.ofList cs) = v := by
  have document : documentValue? (.ofList cs) = some v := by
    have opened :
        ["\x7b", "[", "\""].any (·.toList.isPrefixOf (String.ofList cs).toList) = true := by
      rw [String.toList_ofList, first]
      rcases opens with rfl | rfl | rfl <;> simp
    rw [documentValue?, if_pos opened, read]
    exact shown
  rw [valueOf, document]
  rfl

theorem isWhole_intChars (n : Int) : isWhole (Decimal.intChars n) = true := by
  have digits : ∀ n : Nat, (Decimal.natDigits n).all Char.isDigit = true := fun n =>
    List.all_eq_true.mpr fun c => Decimal.isDigit_natDigits
  have magnitude_eq : magnitude (Decimal.intChars n) = Decimal.natDigits n.natAbs := by
    cases n with
    | ofNat n =>
      obtain ⟨d, ds, eq, digit⟩ := Decimal.natDigits_eq_cons n
      rw [Decimal.intChars, magnitude]
      · rfl
      · intro rest minus
        rw [eq] at minus
        rw [(List.cons.inj minus).1] at digit
        exact absurd digit (by decide)
    | negSucc n => rfl
  rw [isWhole, magnitude_eq, digits]
  simpa using Decimal.natDigits_ne_nil n.natAbs

/-- What documents and words begin with. -/
def openings : List String :=
  ["\x7b", "[", "\"", "null", "None", "true", "True", "false", "False"]

/-- No document and no word begins like a number. -/
theorem head?_of_mem_openings {text : String} {c : Char} (mem : text ∈ openings)
    (first : c = '-' ∨ c.isDigit = true) : text.toList.head? ≠ some c := by
  have letters : openings.all
      (fun text => !text.toList.head?.any fun c => c == '-' || c.isDigit) = true := by decide
  have clash := List.all_eq_true.mp letters text mem
  intro same
  rw [same] at clash
  rcases first with rfl | digit
  · cases clash
  · simp [digit] at clash

/-- A whole number is read as one. -/
theorem valueOf_intChars (n : Int64) :
    valueOf (.ofList (Decimal.intChars n.toInt)) = .int n := by
  obtain ⟨c, rest, eq, first⟩ := Json.intChars_eq_cons n.toInt
  have head : (String.ofList (Decimal.intChars n.toInt)).toList.head? = some c := by
    rw [String.toList_ofList, eq, List.head?_cons]
  have undocumented : documentValue? (.ofList (Decimal.intChars n.toInt)) = none := by
    rw [documentValue?, if_neg]
    intro opens
    obtain ⟨mark, mem, front⟩ := List.any_eq_true.mp opens
    obtain ⟨behind, parts⟩ := List.isPrefixOf_iff_prefix.mp front
    have nonempty : mark.toList ≠ [] := by
      simp only [List.mem_cons, List.not_mem_nil, or_false] at mem
      rcases mem with rfl | rfl | rfl <;> simp
    rw [← parts, List.head?_append_of_ne_nil _ nonempty] at head
    exact head?_of_mem_openings (List.mem_append_left _ mem) first head
  have wordless : wordValue? (.ofList (Decimal.intChars n.toInt)) = none := by
    rw [wordValue?]
    all_goals
      intro same
      rw [same] at head
      exact head?_of_mem_openings (by decide) first head
  have whole : wholeValue? (Decimal.intChars n.toInt) = some (.int n) := by
    rw [wholeValue?, isWhole_intChars, if_pos rfl, Decimal.readInt64_intChars]
    rfl
  rw [valueOf, undocumented, wordless, String.toList_ofList, whole]
  rfl

open ObjectVault.Json

theorem valueText_of_textual {v : Value} (h : Value.Textual v) :
    valueText v = .ofList (compactChars v.toJson) := by
  cases h <;> rfl

/-- What is shown of a value without floats and frames stands for the value. -/
theorem valueOf_valueText {v : Value} (h : Value.Textual v) (small : v.nesting ≤ Value.maxNesting) :
    valueOf (valueText v) = v := by
  have read : ofText (.ofList (compactChars v.toJson)) = some v.toJson := ofText_compact h.plain
  have shown := h.ofJson_toJson_iff.mpr small
  rw [valueText_of_textual h]
  cases h with
  | null => rfl
  | bool b => cases b <;> rfl
  | int n => exact valueOf_intChars n
  | string s => exact valueOf_of_document (.inr (.inr rfl)) rfl read shown
  | @list vs items =>
    obtain ⟨rest, eq⟩ := compactChars_array (Value.jsonItems vs)
    exact valueOf_of_document (.inr (.inl rfl)) eq read shown
  | @object fs sorted values =>
    obtain ⟨rest, eq⟩ := compactChars_object (Value.jsonFields fs)
    exact valueOf_of_document (.inl rfl) eq read shown

theorem letLine_unbroken {name literal : String} (identifier : isIdentifier name = true)
    (printable : Printable literal.toList) : '\n' ∉ (letLine name literal).toList := by
  have word := word_of_isIdentifier identifier
  intro broken
  simp only [letLine, String.toList_append, List.mem_append] at broken
  rcases broken with ((lead | own) | sign) | inner
  · exact absurd lead (by decide)
  · have filled := not_isBlank_of_isPlain (word.plain '\n' own).1
    exact absurd filled (by decide)
  · exact absurd sign (by decide)
  · exact absurd (printable '\n' inner) (by decide)

/-- A shell that gives a name a value shows the value under the name. -/
theorem display_bind {name : String} (identifier : isIdentifier name = true) (shell : Shell)
    (v : Value) : ((shell.bind name v).execute (.display name)).shown = [valueText v] := by
  have bound : (shell.bind name v).world.scope.get? name = some (.value v) := by
    rw [bind, Table.get?_insert, if_pos rfl]
  have found : (shell.bind name v).world.context.lookup "variable" name = .ok (.value v) :=
    lookup_of_bound identifier bound
  rw [execute, display, found]
  rfl

/-- The text that is shown of a value is one line, and given to a name it gives it the value. -/
theorem shown_values_are_typed_back {name : String} (identifier : isIdentifier name = true)
    {v : Value} (textual : v.Textual) (small : v.nesting ≤ Value.maxNesting) (shell : Shell) :
    '\n' ∉ (letLine name (valueText v)).toList ∧
    Request.ofLine (letLine name (valueText v)) = .ok (.bind name (valueText v)) ∧
    shell.execute (.bind name (valueText v)) = ⟨shell.bind name v, [], none⟩ ∧
    (shell.bind name v).world.scope.get? name = some (.value v) ∧
    (∀ other ≠ name,
      (shell.bind name v).world.scope.get? other = shell.world.scope.get? other) ∧
    ((shell.bind name v).execute (.display name)).shown = [valueText v] := by
  have chars : (valueText v).toList = compactChars v.toJson := by
    rw [valueText_of_textual textual, String.toList_ofList]
  have filled : Text.Filled (valueText v).toList := chars ▸ textual.plain.filled
  have printable : Printable (valueText v).toList := chars ▸ textual.plain.printable
  refine ⟨letLine_unbroken identifier printable, ofLine_letLine identifier filled, ?_, ?_,
    fun other ne => ?_, display_bind identifier shell v⟩
  · rw [execute, valueOf_valueText textual small]
    rfl
  · rw [bind, Table.get?_insert, if_pos rfl]
  · rw [bind, Table.get?_insert, if_neg ne]

/-- Texts that read like other literals, with signs and quotes in them, in an object. -/
def likenesses : Value :=
  .object [("a = b", .list [.string "null", .string " -1 ", .string "'#'", .string "\\\x22\n"]),
    ("\x7b", .int Int64.minValue)]

theorem shown_values_are_typed_back_likenesses :
    Value.Textual likenesses ∧ likenesses.nesting = 2 ∧
      Request.ofLine (letLine "x" (valueText likenesses)) = .ok (.bind "x" (valueText likenesses)) ∧
      noteShell.execute (.bind "x" (valueText likenesses)) =
        ⟨noteShell.bind "x" likenesses, [], none⟩ ∧
      (noteShell.bind "x" likenesses).world.scope.get? "x" = some (.value likenesses) := by
  have textual : Value.Textual likenesses := by
    refine .object (by decide) ?_
    simp only [List.forall_mem_cons, List.not_mem_nil, false_implies, implies_true, and_true]
    refine ⟨.list ?_, .int _⟩
    simp only [List.forall_mem_cons, List.not_mem_nil, false_implies, implies_true, and_true]
    exact ⟨.string _, .string _, .string _, .string _⟩
  have nesting : likenesses.nesting = 2 := by decide
  have small : likenesses.nesting ≤ Value.maxNesting := by
    rw [nesting]
    decide
  obtain ⟨-, read, executed, bound, -, -⟩ :=
    shown_values_are_typed_back note_storable.identifier textual small noteShell
  exact ⟨textual, nesting, read, executed, bound⟩

end Shell
end ObjectVault
