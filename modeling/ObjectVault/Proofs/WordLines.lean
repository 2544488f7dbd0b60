import ObjectVault.Command.Rule
import ObjectVault.Proofs.Rendering
import ObjectVault.Scope.Basic

namespace ObjectVault.Command
open ObjectVault.Text

/-- A piece of a line between blanks and commas. -/
structure Word (text : String) : Prop where
  nonempty : text.toList ≠ []
  plain : ∀ c ∈ text.toList, isPlain c = true ∧ c ≠ ','

theorem word_iff {text : String} :
    Word text ↔ text.toList ≠ [] ∧ text.toList.all (fun c => isPlain c && c != ',') = true := by
  rw [List.all_eq_true]
  constructor
  · intro h
    exact ⟨h.nonempty, fun c mem => by simp [h.plain c mem]⟩
  · intro h
    exact ⟨h.1, fun c mem => by simpa using h.2 c mem⟩

instance (text : String) : Decidable (Word text) :=
  decidable_of_iff _ word_iff.symm

/-- The numbers of the characters that end or open something. -/
def marks : List Nat :=
  [9, 10, 11, 12, 13, 0x20, 0x85, 0xA0, 0x1680, 0x2000, 0x2001, 0x2002, 0x2003, 0x2004, 0x2005,
    0x2006, 0x2007, 0x2008, 0x2009, 0x200A, 0x2028, 0x2029, 0x202F, 0x205F, 0x3000, 0x22, 0x27,
    0x23, 0x2C, 0x2E]

theorem isWordChar_marks : ∀ n ∈ marks, isWordChar (Char.ofNat n) = false := by
  decide +kernel

theorem toNat_mem_marks {c : Char} (h : isPlain c = false ∨ c = ',' ∨ c = '.') :
    c.toNat ∈ marks := by
  rcases h with h | rfl | rfl
  · simp only [isPlain, Bool.and_eq_false_iff, Bool.not_eq_false', bne_eq_false_iff_eq, isQuote,
      Bool.or_eq_true, beq_iff_eq] at h
    rcases h with (h | blank) | rfl
    · rcases h with rfl | rfl <;> decide
    · simp only [isBlank, Bool.or_eq_true, Bool.and_eq_true, decide_eq_true_eq, beq_iff_eq] at blank
      simp only [marks, List.mem_cons, List.not_mem_nil, or_false]
      omega
    · decide
  · decide
  · decide

/-- The characters of identifiers are plain. -/
theorem plain_of_isWordChar {c : Char} (h : isWordChar c = true) :
    isPlain c = true ∧ c ≠ ',' ∧ c ≠ '.' := by
  have unmarked : ¬ (isPlain c = false ∨ c = ',' ∨ c = '.') := by
    intro other
    have word := isWordChar_marks c.toNat (toNat_mem_marks other)
    rw [Char.ofNat_toNat, h] at word
    cases word
  simpa using unmarked

theorem isWordChar_of_isIdentifier {text : String} (h : isIdentifier text = true) :
    text.toList ≠ [] ∧ ∀ c ∈ text.toList, isWordChar c = true := by
  rw [isIdentifier] at h
  split at h
  · cases h
  · next first rest eq =>
    obtain ⟨lead, others⟩ := Bool.and_eq_true_iff.mp h
    rw [eq]
    refine ⟨by simp, fun c mem => ?_⟩
    rcases List.mem_cons.mp mem with rfl | mem
    · rcases Bool.or_eq_true_iff.mp lead with letter | score
      · simp [isWordChar, letter]
      · simp [isWordChar, beq_iff_eq.mp score]
    · exact List.all_eq_true.mp others c mem

theorem word_of_isIdentifier {text : String} (h : isIdentifier text = true) : Word text := by
  obtain ⟨nonempty, word⟩ := isWordChar_of_isIdentifier h
  exact ⟨nonempty, fun c mem =>
    ⟨(plain_of_isWordChar (word c mem)).1, (plain_of_isWordChar (word c mem)).2.1⟩⟩

/-- A name without dots is one part. -/
theorem dottedParts_of_isIdentifier {text : String} (h : isIdentifier text = true) :
    dottedParts text = [text] := by
  have dotless : '.' ∉ text.toList := fun mem =>
    (plain_of_isWordChar ((isWordChar_of_isIdentifier h).2 '.' mem)).2.2 rfl
  rw [dottedParts, List.splitOn_eq_singleton dotless, List.map_cons, List.map_nil,
    String.ofList_toList]

theorem Word.bare {text : String} (h : Word text) : IsBare text.toList :=
  ⟨h.nonempty, fun c mem => (h.plain c mem).1⟩

theorem Word.whole {text : String} (h : Word text) : text.toList.getLast? ≠ some ',' :=
  fun comma => (h.plain ',' (List.mem_of_getLast? comma)).2 rfl

/-- A list of words as it is written. -/
def spacedList (words : List String) : List Char :=
  [',', ' '].intercalate (words.map String.toList)

/-- A list of words as a token. -/
def tightList (words : List String) : List Char :=
  [','].intercalate (words.map String.toList)

section Lists
variable {words : List String}

theorem bare_tightList (h : ∀ w ∈ words, Word w) (nonempty : words ≠ []) :
    IsBare (tightList words) ∧ (tightList words).getLast? ≠ some ',' := by
  induction words with
  | nil => exact absurd rfl nonempty
  | cons word words ih =>
    obtain ⟨own, others⟩ := List.forall_mem_cons.mp h
    cases words with
    | nil => simpa [tightList] using And.intro own.bare own.whole
    | cons next words =>
      obtain ⟨bare, whole⟩ := ih others (List.cons_ne_nil next words)
      have parts : tightList (word :: next :: words) =
          word.toList ++ ',' :: tightList (next :: words) := by
        simp [tightList, List.intercalate_cons_cons]
      have comma : isPlain ',' = true := by decide
      rw [parts]
      refine ⟨⟨by simp, ?_⟩, ?_⟩
      · exact List.forall_mem_append.mpr
          ⟨own.bare.plain, List.forall_mem_cons.mpr ⟨comma, bare.plain⟩⟩
      · rwa [List.getLast?_append_of_ne_nil _ (List.cons_ne_nil _ _),
          List.getLast?_cons_of_ne_nil bare.nonempty]

theorem spelled_spacedList (nonempty : words ≠ []) (h : ∀ w ∈ words, Word w) :
    Spelled (tightList words) (spacedList words) := by
  induction words with
  | nil => exact absurd rfl nonempty
  | cons word words ih =>
    obtain ⟨own, others⟩ := List.forall_mem_cons.mp h
    cases words with
    | nil => simpa [tightList, spacedList] using Spelled.refl own.nonempty
    | cons next words =>
      have blank : Blanks [' '] := blanks_nil.cons isBlank_space
      have behind := Spelled.more blank (fun _ => rfl) (ih (List.cons_ne_nil next words) others)
      simpa [tightList, spacedList, List.intercalate_cons_cons] using behind.append word.toList

end Lists

/-- A line of lists, each between two blanks. -/
def writtenLine (lists : List (List String)) : List Char :=
  [' '].intercalate (lists.map spacedList)

/-- The tokens of a line are its lists, without the blanks behind their commas. -/
theorem tokens_writtenLine {lists : List (List String)}
    (h : ∀ words ∈ lists, words ≠ [] ∧ ∀ w ∈ words, Word w) {line : String}
    (written : line.toList = writtenLine lists) :
    tokens line = .ok (lists.map fun words => ",".intercalate words) := by
  have shown : ∀ piece ∈ lists.map fun words => (tightList words, spacedList words),
      Shown piece.1 piece.2 := by
    intro piece mem
    obtain ⟨words, own, rfl⟩ := List.mem_map.mp mem
    obtain ⟨nonempty, word⟩ := h words own
    exact .bare (bare_tightList word nonempty).1 (spelled_spacedList nonempty word)
  have renders : Renders (lists.map tightList) line.toList := by
    simpa [written, writtenLine, Function.comp_def] using renders_intercalate shown
  have list : TokenList (lists.map tightList) := by
    refine .of_whole fun token mem => ?_
    obtain ⟨words, own, rfl⟩ := List.mem_map.mp mem
    obtain ⟨bare, whole⟩ := bare_tightList (h words own).2 (h words own).1
    exact ⟨.bare bare, fun _ => whole⟩
  have chars : (lists.map fun words => ",".intercalate words).map String.toList =
      lists.map tightList := by
    simp [tightList, Function.comp_def]
  rw [tokens_eq_ok_iff_renders, chars]
  exact ⟨list, renders⟩

end ObjectVault.Command
