import Mathlib.Data.List.TakeWhile
import ObjectVault.Text.Blank

namespace ObjectVault.Text

/-- Only blanks are trimmed. -/
theorem mem_trim {c : Char} {cs : List Char} (mem : c ∈ cs) (filled : isBlank c = false) :
    c ∈ trim cs := by
  have kept : ∀ ds : List Char, c ∈ ds → c ∈ ds.dropWhile isBlank := by
    intro ds own
    rw [← List.takeWhile_append_dropWhile (p := isBlank) (l := ds)] at own
    rcases List.mem_append.mp own with lead | rest
    · rw [List.mem_takeWhile_imp lead] at filled
      cases filled
    · exact rest
  rw [trim, trimEnd, List.mem_reverse]
  exact kept _ (List.mem_reverse.mpr (kept _ mem))

/-- A text with no blanks at its ends. -/
structure Filled (cs : List Char) : Prop where
  first : ∃ c rest, cs = c :: rest ∧ isBlank c = false
  last : ∃ rest c, cs = rest ++ [c] ∧ isBlank c = false

theorem Filled.of_no_blank {cs : List Char} (nonempty : cs ≠ [])
    (filled : ∀ c ∈ cs, isBlank c = false) : Filled cs := by
  constructor
  · obtain ⟨c, rest, rfl⟩ := List.exists_cons_of_ne_nil nonempty
    exact ⟨c, rest, rfl, filled c List.mem_cons_self⟩
  · refine ⟨cs.dropLast, cs.getLast nonempty, (List.dropLast_concat_getLast nonempty).symm, ?_⟩
    exact filled _ (List.getLast_mem nonempty)

theorem Filled.of_all {cs : List Char} (nonempty : cs ≠ []) (all : cs.all (!isBlank ·) = true) :
    Filled cs :=
  .of_no_blank nonempty fun c mem => by simpa using List.all_eq_true.mp all c mem

theorem Filled.append {cs ds : List Char} (h : Filled cs) (h' : Filled ds) (between : List Char) :
    Filled (cs ++ (between ++ ds)) := by
  obtain ⟨c, rest, rfl, first⟩ := h.first
  obtain ⟨before, d, rfl, last⟩ := h'.last
  exact ⟨⟨c, _, rfl, first⟩, ⟨c :: rest ++ (between ++ before), d, by simp, last⟩⟩

/-- Blanks around a text are trimmed. -/
theorem Filled.trim {cs before after : List Char} (h : Filled cs)
    (lead : ∀ c ∈ before, isBlank c = true) (tail : ∀ c ∈ after, isBlank c = true) :
    Text.trim (before ++ (cs ++ after)) = cs := by
  obtain ⟨c, rest, eq, first⟩ := h.first
  obtain ⟨front, d, eq', last⟩ := h.last
  have start : trimStart (before ++ (cs ++ after)) = cs ++ after := by
    rw [trimStart, List.dropWhile_append_of_pos lead, eq, List.cons_append,
      List.dropWhile_cons_of_neg (by simp [first])]
  have behind : ∀ c ∈ after.reverse, isBlank c = true := fun c mem =>
    tail c (List.mem_reverse.mp mem)
  rw [Text.trim, start, trimEnd, List.reverse_append, List.dropWhile_append_of_pos behind, eq',
    List.reverse_append, List.reverse_singleton, List.singleton_append,
    List.dropWhile_cons_of_neg (by simp [last])]
  simp

theorem isBlank_of_digit {c : Char} (digit : c.isDigit = true) : isBlank c = false := by
  have all : ∀ n, 48 ≤ n → n ≤ 57 → isBlank (Char.ofNat n) = false := by decide
  simp only [Char.isDigit, Bool.and_eq_true, decide_eq_true_eq] at digit
  have low : 48 ≤ c.toNat := digit.1
  have high : c.toNat ≤ 57 := digit.2
  rw [← Char.ofNat_toNat c]
  exact all _ low high

end ObjectVault.Text
