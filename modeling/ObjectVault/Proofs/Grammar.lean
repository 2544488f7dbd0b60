import ObjectVault.Proofs.StringLiteral
import ObjectVault.Proofs.WholeNumber

namespace ObjectVault.Json

/-- Space between tokens. -/
def Gap (cs : List Char) : Prop :=
  ∀ c ∈ cs, isSpace c = true

mutual

/-- The text of a document, with any space between its tokens. -/
inductive Written : Json → List Char → Prop
  | null : Written .null ['n', 'u', 'l', 'l']
  | yes : Written (.bool true) ['t', 'r', 'u', 'e']
  | no : Written (.bool false) ['f', 'a', 'l', 's', 'e']
  | number {n : Number} {cs : List Char} (literal : Literal n cs) : Written (.number n) cs
  | string (s : String) : Written (.string s) (stringChars s)
  | noItems : Written (.array []) ['[', ']']
  | items {js : List Json} {cs : List Char} (inner : WrittenItems js cs) :
    Written (.array js) ('[' :: cs)
  | noFields : Written (.object []) ['\x7b', '\x7d']
  | fields {fs : List (String × Json)} {cs : List Char} (inner : WrittenFields fs cs) :
    Written (.object fs) ('\x7b' :: cs)

/-- The text of items, with the bracket behind them. -/
inductive WrittenItems : List Json → List Char → Prop
  | last {j : Json} {cs before after : List Char} (item : Written j cs) (gap : Gap before)
    (close : Gap after) : WrittenItems [j] (before ++ (cs ++ (after ++ [']'])))
  | next {j : Json} {js : List Json} {cs before rest : List Char} (item : Written j cs)
    (gap : Gap before) (items : WrittenItems js rest) :
    WrittenItems (j :: js) (before ++ (cs ++ ',' :: rest))

/-- The text of fields, with the brace behind them. -/
inductive WrittenFields : List (String × Json) → List Char → Prop
  | last {key : String} {j : Json} {cs before inside after : List Char} (value : Written j cs)
    (gap : Gap before) (colon : Gap inside) (close : Gap after) :
    WrittenFields [(key, j)]
      (before ++ (stringChars key ++ ':' :: (inside ++ (cs ++ (after ++ ['\x7d'])))))
  | next {key : String} {j : Json} {fs : List (String × Json)}
    {cs before inside rest : List Char} (value : Written j cs) (gap : Gap before)
    (colon : Gap inside) (fields : WrittenFields fs rest) :
    WrittenFields ((key, j) :: fs)
      (before ++ (stringChars key ++ ':' :: (inside ++ (cs ++ ',' :: rest))))

end

theorem skipSpace_gap {before : List Char} (gap : Gap before) (cs : List Char) :
    skipSpace (before ++ cs) = skipSpace cs :=
  List.dropWhile_append_of_pos gap

theorem skipSpace_token {c : Char} (token : isSpace c = false) (cs : List Char) :
    skipSpace (c :: cs) = c :: cs := by
  rw [skipSpace, List.dropWhile_cons_of_neg (by simp [token])]

theorem ends_cons {c : Char} (h : c.isDigit = false ∧ c ≠ '.' ∧ c ≠ 'e' ∧ c ≠ 'E')
    (rest : List Char) : Ends (c :: rest) := by
  intro d mem
  cases Option.mem_some.mp mem
  exact h

/-- A number ends before a gap as well as before what follows the gap. -/
theorem ends_gap {after rest : List Char} (gap : Gap after) (ends : Ends rest) :
    Ends (after ++ rest) := by
  cases after with
  | nil => exact ends
  | cons c after =>
    have space := gap c List.mem_cons_self
    simp only [isSpace, Bool.or_eq_true, beq_iff_eq, or_assoc] at space
    rcases space with rfl | rfl | rfl | rfl <;> exact ends_cons (by decide) _

theorem isSpace_of_digit {c : Char} (h : c = '-' ∨ c.isDigit = true) :
    isSpace c = false ∧ c ≠ ']' := by
  rcases h with rfl | digit
  · decide
  · refine ⟨?_, ?_⟩
    · by_contra space
      simp only [isSpace, Bool.not_eq_false, Bool.or_eq_true, beq_iff_eq, or_assoc] at space
      rcases space with rfl | rfl | rfl | rfl <;> exact absurd digit (by decide)
    · rintro rfl
      exact absurd digit (by decide)

/-- A document begins with a token that closes nothing. -/
theorem Written.eq_cons {j : Json} {cs : List Char} (h : Written j cs) :
    ∃ c rest, cs = c :: rest ∧ isSpace c = false ∧ c ≠ ']' := by
  cases h with
  | number literal =>
    obtain ⟨c, rest, eq, first⟩ := literal.first
    exact ⟨c, rest, eq, isSpace_of_digit first⟩
  | _ => exact ⟨_, _, rfl, by decide, by decide⟩

theorem Written.length_pos {j : Json} {cs : List Char} (h : Written j cs) : 0 < cs.length := by
  obtain ⟨c, rest, rfl, -, -⟩ := h.eq_cons
  simp

theorem Written.skipSpace {j : Json} {cs : List Char} (h : Written j cs) {before : List Char}
    (gap : Gap before) (rest : List Char) :
    skipSpace (before ++ (cs ++ rest)) = cs ++ rest := by
  obtain ⟨c, others, rfl, token, -⟩ := h.eq_cons
  rw [skipSpace_gap gap, List.cons_append, skipSpace_token token]

/-- A string reads as itself. -/
theorem readString_stringChars (s : String) (rest : List Char) :
    ∃ pieces, readString ((stringChars s ++ rest).tail) = some (pieces, rest) ∧
      join pieces = some s.toList := by
  obtain ⟨pieces, stand, read⟩ := readString_flatMap s.toList rest
  refine ⟨pieces, ?_, join_of_stands stand⟩
  simpa [stringChars] using read

/-- Space in front of a document is passed over. -/
theorem readValue_gap {before : List Char} (gap : Gap before) (fuel : Nat) (cs : List Char) :
    readValue fuel (before ++ cs) = readValue fuel cs := by
  cases fuel with
  | zero => rfl
  | succ fuel => simp only [readValue, skipSpace_gap gap]

theorem readValue_number {c : Char} (first : c = '-' ∨ c.isDigit = true) (fuel : Nat)
    (cs : List Char) : readValue (fuel + 1) (c :: cs) = readNumber (c :: cs) := by
  rw [readValue, skipSpace_token (isSpace_of_digit first).1]
  split
  all_goals first
    | rfl
    | next eq =>
      cases (List.cons.inj eq).1
      exact absurd first (by decide)

theorem readValue_string (fuel : Nat) (s : String) (rest : List Char) :
    readValue (fuel + 1) (stringChars s ++ rest) = some (.string s, rest) := by
  obtain ⟨pieces, read, text⟩ := readString_stringChars s rest
  have quote : stringChars s ++ rest = '"' :: (stringChars s ++ rest).tail := rfl
  rw [quote, readValue, skipSpace_token (by decide)]
  simp [read, text]

theorem readValue_items {cs rest : List Char} {js : List Json} {fuel : Nat}
    (unclosed : (skipSpace cs).head? ≠ some ']') (items : readItems fuel cs = some (js, rest)) :
    readValue (fuel + 1) ('[' :: cs) = some (.array js, rest) := by
  rw [readValue, skipSpace_token (by decide)]
  simp only
  split
  · next eq => exact absurd (by rw [eq]; rfl) unclosed
  · rw [items]
    rfl

theorem readValue_fields {cs rest : List Char} {fs : List (String × Json)} {fuel : Nat}
    (unclosed : (skipSpace cs).head? ≠ some '\x7d')
    (fields : readFields fuel cs = some (some fs, rest)) :
    readValue (fuel + 1) ('\x7b' :: cs) = some (.object fs, rest) := by
  rw [readValue, skipSpace_token (by decide)]
  simp only
  split
  · next eq => exact absurd (by rw [eq]; rfl) unclosed
  · rw [fields]
    rfl

/-- The item in front of a comma or the bracket. -/
theorem readItems_succ {cs rest : List Char} {j : Json} {fuel : Nat}
    (item : readValue fuel cs = some (j, rest)) :
    readItems (fuel + 1) cs =
      match skipSpace rest with
      | ',' :: rest => (readItems fuel rest).map fun (js, rest) => (j :: js, rest)
      | ']' :: rest => some ([j], rest)
      | _ => none := by
  rewrite [readItems, item]
  rfl

/-- The field in front of a comma or the brace. -/
theorem readFields_succ {before inside cs rest : List Char} {key : String} {j : Json} {fuel : Nat}
    (gap : Gap before) (colon : Gap inside) (value : readValue fuel cs = some (j, rest)) :
    readFields (fuel + 1) (before ++ (stringChars key ++ ':' :: (inside ++ cs))) =
      match skipSpace rest with
      | ',' :: rest =>
        (readFields fuel rest).map fun (fs, rest) => (fs.map ((key, j) :: ·), rest)
      | '\x7d' :: rest => some (some [(key, j)], rest)
      | _ => none := by
  obtain ⟨pieces, read, text⟩ := readString_stringChars key (':' :: (inside ++ cs))
  have quote : stringChars key ++ ':' :: (inside ++ cs) =
      '"' :: (stringChars key ++ ':' :: (inside ++ cs)).tail := rfl
  rw [readFields, skipSpace_gap gap, quote, skipSpace_token (by decide)]
  simp only [read, skipSpace_token (c := ':') (by decide), readValue_gap colon, text,
    Option.map_some, String.ofList_toList, Option.bind_some]
  rewrite [value]
  rfl

theorem readItems_next {cs rest left : List Char} {j : Json} {js : List Json} {fuel : Nat}
    (item : readValue fuel cs = some (j, ',' :: rest))
    (items : readItems fuel rest = some (js, left)) :
    readItems (fuel + 1) cs = some (j :: js, left) := by
  rw [readItems_succ item, skipSpace_token (by decide)]
  simp [items]

theorem readItems_last {cs after left : List Char} {j : Json} {fuel : Nat}
    (item : readValue fuel cs = some (j, after ++ ']' :: left)) (close : Gap after) :
    readItems (fuel + 1) cs = some ([j], left) := by
  rw [readItems_succ item, skipSpace_gap close, skipSpace_token (by decide)]
  rfl

theorem readFields_next {before inside cs rest left : List Char} {key : String} {j : Json}
    {fs : List (String × Json)} {fuel : Nat} (gap : Gap before) (colon : Gap inside)
    (value : readValue fuel cs = some (j, ',' :: rest))
    (fields : readFields fuel rest = some (some fs, left)) :
    readFields (fuel + 1) (before ++ (stringChars key ++ ':' :: (inside ++ cs))) =
      some (some ((key, j) :: fs), left) := by
  rw [readFields_succ gap colon value, skipSpace_token (by decide)]
  simp [fields]

theorem readFields_last {before inside cs after left : List Char} {key : String} {j : Json}
    {fuel : Nat} (gap : Gap before) (colon : Gap inside)
    (value : readValue fuel cs = some (j, after ++ '\x7d' :: left)) (close : Gap after) :
    readFields (fuel + 1) (before ++ (stringChars key ++ ':' :: (inside ++ cs))) =
      some (some [(key, j)], left) := by
  rw [readFields_succ gap colon value, skipSpace_gap close, skipSpace_token (by decide)]
  rfl

theorem WrittenItems.head?_ne {js : List Json} {cs : List Char} (h : WrittenItems js cs)
    (rest : List Char) : (skipSpace (cs ++ rest)).head? ≠ some ']' := by
  have opened : ∀ {j : Json} {item before after : List Char}, Written j item → Gap before →
      (skipSpace (before ++ (item ++ after))).head? ≠ some ']' := by
    intro j item before after written gap
    obtain ⟨c, others, eq, -, other⟩ := written.eq_cons
    rw [written.skipSpace gap, eq]
    simpa using other
  cases h with
  | last item gap close => simpa [List.append_assoc] using opened item gap
  | next item gap items => simpa [List.append_assoc] using opened item gap

theorem WrittenFields.head?_ne {fs : List (String × Json)} {cs : List Char}
    (h : WrittenFields fs cs) (rest : List Char) :
    (skipSpace (cs ++ rest)).head? ≠ some '\x7d' := by
  have opened : ∀ {key : String} {before after : List Char}, Gap before →
      (skipSpace (before ++ (stringChars key ++ after))).head? ≠ some '\x7d' := by
    intro key before after gap
    have quote : stringChars key ++ after = '"' :: (stringChars key ++ after).tail := rfl
    rw [skipSpace_gap gap, quote, skipSpace_token (by decide)]
    simp
  cases h with
  | last value gap colon close => simpa [List.append_assoc] using opened gap
  | next value gap colon fields => simpa [List.append_assoc] using opened gap

/-- The text of a document reads as the document. A reader with fuel for each character has enough;
the induction takes documents, items and fields together. -/
theorem read_written (fuel : Nat) :
    (∀ {j : Json} {cs rest : List Char}, Written j cs → cs.length ≤ fuel → Ends rest →
      readValue fuel (cs ++ rest) = some (j, rest)) ∧
    (∀ {js : List Json} {cs : List Char} (rest : List Char), WrittenItems js cs → cs.length ≤ fuel →
      readItems fuel (cs ++ rest) = some (js, rest)) ∧
    (∀ {fs : List (String × Json)} {cs : List Char} (rest : List Char), WrittenFields fs cs →
      cs.length ≤ fuel → readFields fuel (cs ++ rest) = some (some fs, rest)) := by
  induction fuel with
  | zero =>
    refine ⟨fun h len _ => ?_, fun rest h len => ?_, fun rest h len => ?_⟩
    · exact absurd h.length_pos (by omega)
    · cases h <;> simp at len
    · cases h <;> simp at len
  | succ fuel ih =>
    obtain ⟨value, items, fields⟩ := ih
    refine ⟨fun {j cs rest} h len ends => ?_, fun {js cs} rest h len => ?_,
      fun {fs cs} rest h len => ?_⟩
    · cases h with
      | null => rfl
      | yes => rfl
      | no => rfl
      | number literal =>
        obtain ⟨c, others, eq, first⟩ := literal.first
        rw [← literal.read ends, eq, List.cons_append, readValue_number first]
      | string s => exact readValue_string fuel s rest
      | noItems => rfl
      | items inner =>
        exact readValue_items (inner.head?_ne rest) (items rest inner (by simpa using len))
      | noFields => rfl
      | fields inner =>
        exact readValue_fields (inner.head?_ne rest) (fields rest inner (by simpa using len))
    · cases h with
      | last item gap close =>
        simp only [List.length_append, List.length_cons, List.length_nil] at len
        simp only [List.append_assoc, List.cons_append, List.nil_append]
        apply readItems_last _ close
        rw [readValue_gap gap]
        exact value item (by omega) (ends_gap close (ends_cons (by decide) rest))
      | next item gap others =>
        simp only [List.length_append, List.length_cons] at len
        simp only [List.append_assoc, List.cons_append]
        apply readItems_next _ (items rest others (by omega))
        rw [readValue_gap gap]
        exact value item (by omega) (ends_cons (by decide) _)
    · cases h with
      | last item gap colon close =>
        simp only [List.length_append, List.length_cons, List.length_nil] at len
        simp only [List.append_assoc, List.cons_append, List.nil_append]
        apply readFields_last gap colon _ close
        exact value item (by omega) (ends_gap close (ends_cons (by decide) rest))
      | next item gap colon others =>
        simp only [List.length_append, List.length_cons] at len
        simp only [List.append_assoc, List.cons_append]
        apply readFields_next gap colon _ (fields rest others (by omega))
        exact value item (by omega) (ends_cons (by decide) _)

/-- A document is read from its text, with nothing but space around it. -/
theorem ofChars_of_written {j : Json} {cs before after : List Char} (h : Written j cs)
    (lead : Gap before) (tail : Gap after) : ofChars (before ++ (cs ++ after)) = some j := by
  have ends : Ends after := by simpa using ends_gap tail ends_nil
  have read := (read_written (2 * (before ++ (cs ++ after)).length + 2)).1 h
    (by simp only [List.length_append]; omega) ends
  have left : skipSpace after = [] := by simpa [skipSpace] using skipSpace_gap tail []
  rw [ofChars, readValue_gap lead, read]
  simp [left]

end ObjectVault.Json
