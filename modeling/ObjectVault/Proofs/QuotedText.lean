import ObjectVault.Proofs.ReaderSteps
import ObjectVault.Proofs.TableRecords

namespace ObjectVault.Json

/-- The inner text of a string: no control character stands in it, and a quote only behind a
backslash. -/
inductive Inner : List Char → Prop
  | nil : Inner []
  | plain {c : Char} {cs : List Char} (quote : c ≠ '"') (slash : c ≠ '\\') (shown : 32 ≤ c.toNat)
    (others : Inner cs) : Inner (c :: cs)
  | escape {c : Char} {cs : List Char} (shown : 32 ≤ c.toNat) (others : Inner cs) :
    Inner ('\\' :: c :: cs)

theorem Inner.digit {c : Char} {cs : List Char} {n : Nat} (h : hexValue c = some n)
    (others : Inner cs) : Inner (c :: cs) := by
  have control : ∀ k < 32, hexValue (Char.ofNat k) = none := by decide
  have quote : hexValue '"' = none := by decide
  have slash : hexValue '\\' = none := by decide
  refine .plain ?_ ?_ (Nat.not_lt.mp fun low => ?_) others
  · rintro rfl
    rw [quote] at h
    cases h
  · rintro rfl
    rw [slash] at h
    cases h
  · have refused := control c.toNat low
    rw [Char.ofNat_toNat, h] at refused
    cases refused

theorem shown_of_escaped {c d : Char} (h : escaped c = some d) : 32 ≤ c.toNat := by
  have control : ∀ k < 32, escaped (Char.ofNat k) = none := by decide
  refine Nat.not_lt.mp fun low => ?_
  have refused := control c.toNat low
  rw [Char.ofNat_toNat, h] at refused
  cases refused

/-- A string ends at the first quote that no backslash escapes. -/
theorem readString_inner {cs rest : List Char} {ps : List Piece}
    (h : readString cs = some (ps, rest)) : ∃ inner, cs = inner ++ '"' :: rest ∧ Inner inner := by
  fun_induction readString cs generalizing ps rest with
  | case1 => cases h
  | case2 rest =>
    cases h
    exact ⟨[], rfl, .nil⟩
  | case3 a b c d cs n code ih =>
    obtain ⟨⟨ps, left⟩, read, made⟩ := Option.map_eq_some_iff.mp h
    cases made
    obtain ⟨inner, rfl, others⟩ := ih read
    simp only [hexFour, bind, Option.bind_eq_some_iff] at code
    obtain ⟨i, first, j, second, k, third, l, fourth, -⟩ := code
    exact ⟨_, rfl, .escape (c := 'u') (by decide)
      (.digit first (.digit second (.digit third (.digit fourth others))))⟩
  | case4 => cases h
  | case5 c cs _ d letter ih =>
    obtain ⟨⟨ps, left⟩, read, made⟩ := Option.map_eq_some_iff.mp h
    cases made
    obtain ⟨inner, rfl, others⟩ := ih read
    exact ⟨_, rfl, .escape (shown_of_escaped letter) others⟩
  | case6 => cases h
  | case7 => cases h
  | case8 c cs quote _ _ shown ih =>
    obtain ⟨⟨ps, left⟩, read, made⟩ := Option.map_eq_some_iff.mp h
    cases made
    obtain ⟨inner, rfl, others⟩ := ih read
    simp only [Bool.or_eq_true, decide_eq_true_eq, beq_iff_eq, not_or, not_lt] at shown
    exact ⟨_, rfl, .plain quote shown.2 shown.1 others⟩

/-- A text that no reader gets through: wherever a string that begins in it ends, there follows
another quote or again such a text. -/
inductive Blocked : List Char → Prop
  | skip {c : Char} {cs : List Char} (plain : c ≠ '"') (behind : Blocked cs) : Blocked (c :: cs)
  | quote {cs : List Char}
    (stop : ∀ ps rest, readString cs = some (ps, rest) → rest.head? ≠ some '"' → Blocked rest) :
    Blocked ('"' :: cs)

theorem not_blocked_nil : ¬ Blocked [] := by
  intro h
  cases h

theorem Blocked.behind {c : Char} {cs : List Char} (h : Blocked (c :: cs)) (plain : c ≠ '"') :
    Blocked cs := by
  cases h with
  | skip _ behind => exact behind
  | quote => exact absurd rfl plain

theorem blocked_append {text : List Char} (plain : '"' ∉ text) {cs : List Char} (h : Blocked cs) :
    Blocked (text ++ cs) := by
  induction text with
  | nil => exact h
  | cons c text ih =>
    rw [List.mem_cons, not_or] at plain
    exact .skip (Ne.symm plain.1) (ih plain.2)

/-- The quote that blocks a text is still ahead behind characters that are no quotes. -/
theorem Blocked.skips {cs rest : List Char} (h : Blocked cs) (skips : Skips cs rest) :
    Blocked rest := by
  obtain ⟨text, rfl, plain⟩ := skips
  induction text with
  | nil => exact h
  | cons c text ih =>
    rw [List.mem_cons, not_or] at plain
    exact ih plain.2 (h.behind (Ne.symm plain.1))

/-- What is read behind a value is no quote. -/
theorem blocked_behind {cs rest : List Char} (h : cs.head? ≠ some '"' → Blocked cs) {c : Char}
    (plain : c ≠ '"') (next : skipSpace cs = c :: rest) : Blocked rest := by
  have blocked : Blocked cs := by
    refine h fun head => ?_
    obtain ⟨others, rfl⟩ := List.head?_eq_some_iff.mp head
    rw [skipSpace_token (by decide)] at next
    exact plain (List.cons.inj next).1.symm
  have behind := blocked.skips (skips_skipSpace cs)
  rw [next] at behind
  exact behind.behind plain

/-- The reader does not get through a blocked text. What is left behind a value is still blocked,
unless it begins with a quote; the induction takes values, items and fields together. -/
theorem blocked_read (fuel : Nat) :
    (∀ {cs rest : List Char} {j : Json}, Blocked cs → readValue fuel cs = some (j, rest) →
      rest.head? ≠ some '"' → Blocked rest) ∧
    (∀ {cs rest : List Char} {js : List Json}, Blocked cs → readItems fuel cs = some (js, rest) →
      Blocked rest) ∧
    (∀ {cs rest : List Char} {fs : Option (List (String × Json))}, Blocked cs →
      readFields fuel cs = some (fs, rest) → Blocked rest) := by
  induction fuel with
  | zero =>
    refine ⟨?_, ?_, ?_⟩
    all_goals
      intro cs rest _ _ read
      cases read
  | succ fuel ih =>
    obtain ⟨value, items, fields⟩ := ih
    refine ⟨fun {cs rest j} h read head => ?_, fun {cs rest js} h read => ?_,
      fun {cs rest fs} h read => ?_⟩
    · have start := h.skips (skips_skipSpace cs)
      have step := readValue_cases read
      generalize skipSpace cs = ts at start step
      cases step with
      | string own =>
        cases start with
        | skip plain => exact absurd rfl plain
        | quote stop => exact stop _ _ own head
      | noItems close | noFields close =>
        have behind := (start.behind (by decide)).skips (skips_skipSpace _)
        rw [close] at behind
        exact behind.behind (by decide)
      | items _ own => exact items (start.behind (by decide)) own
      | fields own => exact fields (start.behind (by decide)) own
      | null => exact start.skips ⟨['n', 'u', 'l', 'l'], rfl, by decide⟩
      | yes => exact start.skips ⟨['t', 'r', 'u', 'e'], rfl, by decide⟩
      | no => exact start.skips ⟨['f', 'a', 'l', 's', 'e'], rfl, by decide⟩
      | number own => exact start.skips (skips_readNumber own)
    · obtain ⟨j, left, item, ⟨next, js', comma, others, -⟩ | ⟨close, -⟩⟩ := readItems_cases read
      · exact items (blocked_behind (value h item) (by decide) comma) others
      · exact blocked_behind (value h item) (by decide) close
    · obtain ⟨inner, ps, named, behind, j, left, quote, key, colon, own, last⟩ :=
        readFields_cases read
      have start := h.skips (skips_skipSpace cs)
      rw [quote] at start
      cases start with
      | skip plain => exact absurd rfl plain
      | quote stop =>
        have given := blocked_behind (stop ps named key) (by decide) colon
        rcases last with ⟨next, fs', comma, others⟩ | close
        · exact fields (blocked_behind (value given own) (by decide) comma) others
        · exact blocked_behind (value given own) (by decide) close

theorem ofChars_of_blocked {cs : List Char} (h : Blocked cs) : ofChars cs = none := by
  rw [ofChars]
  split
  · next j rest read =>
    rw [if_neg]
    intro empty
    have nothing := List.isEmpty_iff.mp empty
    have quote : rest.head? ≠ some '"' := by
      intro head
      obtain ⟨others, rfl⟩ := List.head?_eq_some_iff.mp head
      rw [skipSpace_token (by decide)] at nothing
      cases nothing
    have blocked := ((blocked_read _).1 h read quote).skips (skips_skipSpace rest)
    rw [nothing] at blocked
    exact not_blocked_nil blocked
  · rfl

end ObjectVault.Json

namespace ObjectVault.Tsv
open Json

theorem doubleQuotes_plain {c : Char} (plain : c ≠ '"') (text : List Char) :
    doubleQuotes (c :: text) = c :: doubleQuotes text := by
  simp [doubleQuotes, plain]

/-- A character that is shown and is no quote is no reason for quotes. -/
theorem needsQuotes_of_shown {c : Char} (shown : 32 ≤ c.toNat) (plain : c ≠ '"') {text : List Char}
    (h : needsQuotes (c :: text) = true) : needsQuotes text = true := by
  simp only [needsQuotes, List.any_cons, Bool.or_eq_true, beq_iff_eq] at h ⊢
  rcases h with (((rfl | rfl) | rfl) | rfl) | own
  · exact absurd shown (by decide)
  · exact absurd shown (by decide)
  · exact absurd shown (by decide)
  · exact absurd rfl plain
  · exact own

section Blocked
variable {c : Char} {rest left inner : List Char}

theorem inner_ne_control (shown : Inner inner) (control : c.toNat < 32) :
    c :: rest ≠ inner ++ '"' :: left := by
  intro eq
  cases shown with
  | nil =>
    cases (List.cons.inj eq).1
    exact absurd control (by decide)
  | plain _ _ own =>
    cases (List.cons.inj eq).1
    omega
  | escape own =>
    cases (List.cons.inj eq).1
    exact absurd control (by decide)

/-- Pairs of quotes and then a quote with a control character behind it. -/
theorem blocked_doubled (text : List Char) (control : c.toNat < 32) (rest : List Char) :
    Blocked (doubleQuotes text ++ '"' :: c :: rest) := by
  induction text with
  | nil =>
    refine .quote fun ps left read _ => ?_
    obtain ⟨inner, eq, shown⟩ := readString_inner read
    exact absurd eq (inner_ne_control shown control)
  | cons d text ih =>
    by_cases quote : d = '"'
    · subst quote
      refine .quote fun ps left read _ => ?_
      have closed : some (([] : List Piece), doubleQuotes text ++ '"' :: c :: rest) =
          some (ps, left) := by
        rw [← read]
        rfl
      cases closed
      exact ih
    · rw [doubleQuotes_plain quote]
      exact .skip quote ih

/-- Up to a quote, doubled text goes on as the text does. -/
theorem eq_cons_of_doubled {d : Char} (plain : d ≠ '"') {text tail behind : List Char}
    (eq : doubleQuotes text ++ '"' :: tail = d :: behind) :
    ∃ others, text = d :: others ∧ doubleQuotes others ++ '"' :: tail = behind := by
  cases text with
  | nil => exact absurd (List.cons.inj eq).1.symm plain
  | cons e others =>
    by_cases quote : e = '"'
    · subst quote
      exact absurd (List.cons.inj eq).1.symm plain
    · rw [doubleQuotes_plain quote, List.cons_append, List.cons.injEq] at eq
      obtain ⟨rfl, behind⟩ := eq
      exact ⟨others, rfl, behind⟩

/-- A quote closes the doubled text, or is the first of two. -/
theorem eq_of_doubled_quote {text tail behind : List Char}
    (eq : doubleQuotes text ++ '"' :: tail = '"' :: behind) :
    text = [] ∨ ∃ others, text = '"' :: others ∧
      behind = '"' :: (doubleQuotes others ++ '"' :: tail) := by
  cases text with
  | nil => exact .inl rfl
  | cons e others =>
    by_cases quote : e = '"'
    · subst quote
      exact .inr ⟨others, rfl, (List.cons.inj eq).2.symm⟩
    · rw [doubleQuotes_plain quote] at eq
      exact absurd (List.cons.inj eq).1 quote

/-- A string that begins with the quotes of a cell ends at one of two quotes that are written for
one. If it ends at the second of them, only pairs follow up to the quote that closes the cell. -/
theorem blocked_inner (shown : Inner inner) {text : List Char} (quoted : needsQuotes text = true)
    (control : c.toNat < 32) (eq : doubleQuotes text ++ '"' :: c :: rest = inner ++ '"' :: left)
    (head : left.head? ≠ some '"') : Blocked left := by
  induction shown generalizing text with
  | nil =>
    rcases eq_of_doubled_quote eq with rfl | ⟨others, -, rfl⟩
    · cases quoted
    · exact absurd rfl head
  | @plain d inner quote slash own others ih =>
    obtain ⟨text, rfl, behind⟩ := eq_cons_of_doubled quote eq
    exact ih (needsQuotes_of_shown own quote quoted) behind
  | @escape d inner own others ih =>
    rw [List.cons_append, List.cons_append] at eq
    obtain ⟨text, rfl, escaped⟩ := eq_cons_of_doubled (by decide) eq
    have quoted := needsQuotes_of_shown (by decide) (by decide) quoted
    by_cases quote : d = '"'
    · subst quote
      rcases eq_of_doubled_quote escaped with rfl | ⟨text, rfl, behind⟩
      · cases quoted
      -- The other quote of the pair is not escaped, so the string ends there.
      cases others with
      | nil =>
        cases behind
        exact blocked_doubled text control rest
      | plain plain => exact absurd (List.cons.inj behind).1 plain
      | escape => cases (List.cons.inj behind).1
    · obtain ⟨text, rfl, behind⟩ := eq_cons_of_doubled quote escaped
      exact ih (needsQuotes_of_shown own quote quoted) behind

/-- A cell in quotes is no string of a document, nor does it end as one. -/
theorem blocked_quoteCell {text : List Char} (quoted : needsQuotes text = true)
    (control : c.toNat < 32) (rest : List Char) : Blocked (quoteCell text ++ c :: rest) := by
  have written : quoteCell text ++ c :: rest = '"' :: (doubleQuotes text ++ '"' :: c :: rest) := by
    simp [quoteCell, quoted]
  rw [written]
  refine .quote fun ps left read head => ?_
  obtain ⟨inner, eq, shown⟩ := readString_inner read
  exact blocked_inner shown quoted control eq head

end Blocked

end ObjectVault.Tsv
