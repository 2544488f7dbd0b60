import ObjectVault.Proofs.Literals

namespace ObjectVault.Command
open ObjectVault.Text

theorem tokens_singleton_iff {token : String} :
    tokens token = .ok [token] ↔ WellFormed token.toList := by
  constructor
  · intro read
    exact (tokens_eq_ok_iff_renders.mp read).1.formed _ List.mem_cons_self
  · intro formed
    have alone : TokenList ([token].map String.toList) :=
      TokenList.nil.cons formed fun nonempty => absurd rfl nonempty
    simpa using tokens_joined alone

/-- A name that a value can be given to. -/
structure IsKeyword (keyword : String) : Prop where
  bare : IsBare keyword.toList
  undashed : keyword.toList.head? ≠ some '-'
  whole : keyword.toList.getLast? ≠ some ','

/-- A keyword with its value, and with the number of dashes to be written in front of it. -/
structure Pair where
  dashes : Nat
  keyword : String
  value : String

namespace Pair

structure Proper (p : Pair) : Prop where
  keyword : IsKeyword p.keyword
  value : IsValue p.value

def dashed (p : Pair) : String :=
  .ofList (List.replicate p.dashes '-' ++ p.keyword.toList)

def tokens (p : Pair) : List String :=
  [p.dashed, p.value]

def entry (p : Pair) : String × String :=
  (p.keyword, p.value)

theorem withoutDashes_dashed {p : Pair} (h : IsKeyword p.keyword) :
    withoutDashes p.dashed = p.keyword := by
  have kept : p.keyword.toList.dropWhile (· == '-') = p.keyword.toList := by
    have undashed := h.undashed
    cases chars : p.keyword.toList with
    | nil => rfl
    | cons c cs =>
      rw [chars] at undashed
      rw [List.dropWhile_cons_of_neg (by simpa using undashed)]
  rw [withoutDashes, dashed, String.toList_ofList, List.dropWhile_append_of_pos (by simp), kept,
    String.ofList_toList]

theorem isBare_dashed {p : Pair} (h : IsKeyword p.keyword) :
    IsBare p.dashed.toList ∧ p.dashed.toList.getLast? ≠ some ',' := by
  rw [dashed, String.toList_ofList]
  refine ⟨⟨by simp [h.bare.nonempty], ?_⟩, ?_⟩
  · intro c mem
    rcases List.mem_append.mp mem with mem | mem
    · rw [List.eq_of_mem_replicate mem]
      decide
    · exact h.bare.plain c mem
  · rw [List.getLast?_append_of_ne_nil _ h.bare.nonempty]
    exact h.whole

end Pair

/-- The tokens of pairs, in the order of these. -/
def pairTokens (ps : List Pair) : List String :=
  ps.flatMap Pair.tokens

section Pairs
variable {ps : List Pair}

theorem tokenList_pairTokens (proper : ∀ p ∈ ps, p.Proper) :
    TokenList ((pairTokens ps).map String.toList) := by
  refine .of_whole fun token mem => ?_
  obtain ⟨text, shown, rfl⟩ := List.mem_map.mp mem
  obtain ⟨p, own, part⟩ := List.mem_flatMap.mp shown
  rcases List.mem_pair.mp part with rfl | rfl
  · obtain ⟨bare, whole⟩ := Pair.isBare_dashed (proper p own).keyword
    exact ⟨.bare bare, fun _ => whole⟩
  · exact (proper p own).value.formed

theorem pairs_pairTokens (proper : ∀ p ∈ ps, p.Proper) :
    pairs (pairTokens ps) = .ok (ps.map Pair.entry) := by
  induction ps with
  | nil => rfl
  | cons p ps ih =>
    have others := ih fun q mem => proper q (List.mem_cons_of_mem _ mem)
    have keyword := Pair.withoutDashes_dashed (proper p List.mem_cons_self).keyword
    have first : pairTokens (p :: ps) = p.dashed :: p.value :: pairTokens ps := rfl
    rw [first, pairs, others, keyword]
    rfl

theorem ofLine_of_renders (proper : ∀ p ∈ ps, p.Proper) {line : String}
    (renders : Renders ((pairTokens ps).map String.toList) line.toList) :
    Arguments.ofLine line = .ok (Table.ofList (ps.map Pair.entry)) := by
  have read : tokens line = .ok (pairTokens ps) :=
    tokens_eq_ok_iff_renders.mpr ⟨tokenList_pairTokens proper, renders⟩
  rw [Arguments.ofLine, read]
  simp only [Arguments.ofTokens, pairs_pairTokens proper, bind, Except.bind, Except.map]

theorem get?_last {before after : List Pair} {p : Pair}
    (last : ∀ later ∈ after, later.keyword ≠ p.keyword) :
    (Table.ofList ((before ++ p :: after).map Pair.entry)).get? p.keyword = some p.value := by
  have behind : (after.map Pair.entry).reverse.lookup p.keyword = none := by
    rw [List.lookup_eq_none_iff]
    intro e mem
    obtain ⟨later, own, rfl⟩ := List.mem_map.mp (List.mem_reverse.mp mem)
    simpa [Pair.entry] using (last later own).symm
  rw [Table.get?_ofList, List.map_append, List.map_cons, List.reverse_append, List.reverse_cons,
    List.append_assoc, List.lookup_append, behind, Option.none_or, List.singleton_append]
  exact (Table.lookup_cons ..).trans (if_pos rfl)

theorem get?_absent {keyword : String} (absent : ∀ p ∈ ps, p.keyword ≠ keyword) :
    (Table.ofList (ps.map Pair.entry)).get? keyword = none := by
  rw [Table.get?_ofList, List.lookup_eq_none_iff]
  intro e mem
  obtain ⟨p, own, rfl⟩ := List.mem_map.mp (List.mem_reverse.mp mem)
  simpa [Pair.entry] using (absent p own).symm

end Pairs

/-- A text is read back from its literal, which is one token unless the text ends in a backslash.
Pairs are read from every line that shows them: a keyword has the value that is written last for
it, and a table is read back in whatever order its entries are written. -/
theorem arguments_are_read_back {quote : Char} (opens : isQuote quote = true) (text : String)
    {ps : List Pair} (proper : ∀ p ∈ ps, p.Proper) :
    unquote (quoted quote text) = .ok text ∧
    (tokens (quoted quote text) = .ok [quoted quote text] ↔ text.toList.getLast? ≠ some '\\') ∧
    Renders ((pairTokens ps).map String.toList) (" ".intercalate (pairTokens ps)).toList ∧
    ∀ line : String, Renders ((pairTokens ps).map String.toList) line.toList →
      (∃ arguments, Arguments.ofLine line = .ok arguments ∧
        (∀ before p after, ps = before ++ p :: after →
          (∀ later ∈ after, later.keyword ≠ p.keyword) →
          arguments.get? p.keyword = some p.value) ∧
        ∀ keyword, (∀ p ∈ ps, p.keyword ≠ keyword) → arguments.get? keyword = none) ∧
      ∀ table : Arguments, (ps.map Pair.entry).Perm table.entries →
        Arguments.ofLine line = .ok table := by
  have joined := renders_joined (tokenList_pairTokens proper).formed
  refine ⟨unquote_quoted opens text, tokens_singleton_iff.trans (wellFormed_quoted_iff opens),
    joined, fun line renders => ?_⟩
  have read := ofLine_of_renders proper renders
  refine ⟨⟨_, read, ?_, ?_⟩, ?_⟩
  · rintro before p after rfl last
    exact get?_last last
  · intro keyword absent
    exact get?_absent absent
  · intro table perm
    rw [read, Table.ofList_of_perm perm]

/-- Pairs as a note may be stored with them. -/
def notePairs : List Pair :=
  [⟨1, "in", quoted '\'' "it's"⟩, ⟨2, "store", "x"⟩]

theorem proper_notePairs : ∀ p ∈ notePairs, p.Proper := by
  have literal : IsValue (quoted '\'' "it's") := .quoted (by decide) (by decide)
  intro p mem
  rcases List.mem_pair.mp mem with rfl | rfl
  · exact ⟨⟨by decide, by decide, by decide⟩, literal⟩
  · exact ⟨⟨by decide, by decide, by decide⟩, .bare (by decide) (by decide)⟩

theorem arguments_are_read_back_note :
    Arguments.ofLine "-in 'it\\'s'\t --store x # note" =
      .ok (Table.ofList [("store", "x"), ("in", quoted '\'' "it's")]) := by
  have shown : Renders ((pairTokens notePairs).map String.toList)
      "-in 'it\\'s'\t --store x # note".toList :=
    (tokens_eq_ok_iff_renders.mp (by decide +kernel)).2
  have single : isQuote '\'' = true := by decide
  obtain ⟨-, -, -, read⟩ := arguments_are_read_back single "it's"
    proper_notePairs
  exact (read _ shown).2 _ (by decide +kernel)

end ObjectVault.Command
