import ObjectVault.Proofs.Commands

namespace ObjectVault

namespace Command
open ObjectVault.Text

/-- A token of a line: it has no quotes, or it stands between two quotes of a kind. -/
inductive Formed : List Char → Prop
  | bare {token : List Char} (quoteless : ∀ c ∈ token, isQuote c = false) : Formed token
  | enclosed {quote : Char} (opens : isQuote quote = true) (text : List Char) :
    Formed (quote :: text ++ [quote])

theorem WellFormed.formed {token : List Char} (h : WellFormed token) : Formed token := by
  cases h with
  | bare bare => exact .bare fun c mem => not_isQuote_of_isPlain (bare.plain c mem)
  | enclosed opens guarded => exact .enclosed opens _

/-- A value that begins with a quote. -/
def opensLiteral (value : String) : Bool :=
  value.toList.head?.any isQuote

theorem length_unescape_le (quote : Char) (text : List Char) :
    (unescape quote text).length ≤ text.length := by
  fun_induction unescape quote text with
  | case1 | case2 => simp
  | case3 c d rest escaped ih =>
    simp only [List.length_cons] at ih ⊢
    omega
  | case4 c d rest plain ih =>
    simp only [List.length_cons] at ih ⊢
    omega

/-- Which tokens are literals is told by their first characters. -/
theorem Formed.isLiteral {token : List Char} (h : Formed token) :
    Rule.isLiteral (.ofList token) = .ok (opensLiteral (.ofList token)) := by
  cases h with
  | bare quoteless =>
    have whole : unquote (.ofList token) = .ok (.ofList token) := by
      rw [unquote, String.toList_ofList]
      cases token with
      | nil => rfl
      | cons c token => simp [quoteless c List.mem_cons_self]
    have opens : opensLiteral (.ofList token) = false := by
      rw [opensLiteral, String.toList_ofList]
      cases token with
      | nil => rfl
      | cons c token => exact quoteless c List.mem_cons_self
    rw [Rule.isLiteral, whole, opens]
    simp
  | @enclosed quote opens text =>
    have inner : unquote (.ofList (quote :: text ++ [quote])) =
        .ok (.ofList (unescape quote text)) := by
      simp [unquote, opens]
    -- The text is shorter than the literal, which has two quotes more.
    have differs : String.ofList (unescape quote text) ≠ .ofList (quote :: text ++ [quote]) := by
      intro same
      have lengths := congrArg (·.toList.length) same
      simp only [String.toList_ofList, List.length_append, List.length_cons, List.length_nil]
        at lengths
      have bound := length_unescape_le quote text
      omega
    have opened : opensLiteral (.ofList (quote :: text ++ [quote])) = true := by
      simp [opensLiteral, opens]
    rw [Rule.isLiteral, inner, opened]
    simp only [bne_iff_ne.mpr differs]

theorem formed_of_tokens {line : String} {ts : List String} (read : tokens line = .ok ts) :
    ∀ token ∈ ts, Formed token.toList := by
  intro token mem
  obtain ⟨list, -⟩ := tokens_eq_ok_iff_renders.mp read
  exact (list.formed _ (List.mem_map_of_mem mem)).formed

theorem mem_of_pairs {ts : List String} {es : List (String × String)} (paired : pairs ts = .ok es) :
    ∀ e ∈ es, e.2 ∈ ts := by
  fun_induction pairs ts generalizing es with
  | case1 =>
    cases paired
    exact fun _ => nofun
  | case2 keyword => cases paired
  | case3 keyword value rest ih =>
    obtain ⟨others, read, rfl⟩ := checked_map_eq_ok_iff.mp paired
    intro e mem
    rcases List.mem_cons.mp mem with rfl | mem
    · exact List.mem_cons_of_mem _ List.mem_cons_self
    · exact List.mem_cons_of_mem _ (List.mem_cons_of_mem _ (ih read e mem))

/-- What a line gives to a keyword is a token of the line. -/
theorem formed_of_ofLine {line : String} {arguments : Arguments}
    (read : Arguments.ofLine line = .ok arguments) {keyword value : String}
    (given : arguments.get? keyword = some value) : Formed value.toList := by
  obtain ⟨ts, scanned, read⟩ := checked_bind_eq_ok_iff.mp read
  obtain ⟨es, paired, rfl⟩ := checked_map_eq_ok_iff.mp read
  rw [Table.get?_ofList] at given
  have own : (keyword, value) ∈ es := by
    obtain ⟨before, behind, split, -⟩ := List.lookup_eq_some_iff.mp given
    rw [← List.mem_reverse, split]
    exact List.mem_append_right _ List.mem_cons_self
  exact formed_of_tokens scanned value (mem_of_pairs paired _ own)

/-- Whether a line gives a keyword a literal shows in the first character. -/
theorem isLiteral_of_ofLine {line : String} {arguments : Arguments}
    (read : Arguments.ofLine line = .ok arguments) {keyword value : String}
    (given : arguments.get? keyword = some value) :
    Rule.isLiteral value = .ok (opensLiteral value) := by
  have formed := formed_of_ofLine read given
  simpa only [String.ofList_toList] using formed.isLiteral

section Quoting
variable {quote : Char} {text : String}

theorem ne_backslash_of_isQuote (opens : isQuote quote = true) : quote ≠ '\\' := by
  rintro rfl
  cases opens

theorem toList_quoted (quote : Char) (text : String) :
    (quoted quote text).toList = quote :: escape quote text.toList ++ [quote] :=
  String.toList_ofList

theorem escape_cons (quote c : Char) (cs : List Char) :
    escape quote (c :: cs) = (if c == quote then ['\\', c] else [c]) ++ escape quote cs :=
  List.flatMap_cons

/-- Each quote in an escaped text stands behind a backslash. -/
theorem head?_escape (opens : isQuote quote = true) (cs : List Char) :
    (escape quote cs).head? ≠ some quote := by
  cases cs with
  | nil => exact nofun
  | cons c cs =>
    rw [escape_cons]
    split
    · simpa using (ne_backslash_of_isQuote opens).symm
    · next other => simpa using other

theorem unescape_escape (opens : isQuote quote = true) (cs : List Char) :
    unescape quote (escape quote cs) = cs := by
  induction cs with
  | nil => rfl
  | cons c cs ih =>
    rw [escape_cons]
    split
    · next same =>
      rw [beq_iff_eq.mp same]
      simp [unescape, ih]
    · next other =>
      have head := head?_escape opens cs
      cases escaped : escape quote cs with
      | nil =>
        rw [escaped] at ih
        simp [← ih, unescape]
      | cons d rest =>
        rw [escaped] at ih head
        have plain : d ≠ quote := by simpa using head
        simp [unescape, plain, ih]

/-- A literal stands for the text that it was made of. -/
theorem unquote_quoted (opens : isQuote quote = true) (text : String) :
    unquote (quoted quote text) = .ok text := by
  simp [unquote, toList_quoted, opens, unescape_escape opens]

theorem opensLiteral_quoted (opens : isQuote quote = true) (text : String) :
    opensLiteral (quoted quote text) = true := by
  simp [opensLiteral, toList_quoted, opens]

theorem isLiteral_quoted (opens : isQuote quote = true) (text : String) :
    Rule.isLiteral (quoted quote text) = .ok true := by
  rw [← opensLiteral_quoted opens text]
  exact (Formed.enclosed opens _).isLiteral

theorem getLast?_escape (cs : List Char) :
    (escape quote cs).getLast? = cs.getLast? := by
  cases split : cs.reverse with
  | nil => simp [List.reverse_eq_nil_iff.mp split, escape]
  | cons c back =>
    obtain rfl : cs = back.reverse ++ [c] := by simpa using congrArg List.reverse split
    rw [escape, List.flatMap_append, List.getLast?_concat, List.flatMap_singleton]
    split <;> simp

/-- Inside the literal of a text each quote that is part of the text stands behind a backslash. -/
theorem guarded_escape (opens : isQuote quote = true) {cs : List Char}
    (closed : cs.getLast? ≠ some '\\') : Guarded quote [] (escape quote cs) := by
  refine ⟨?_, by rwa [List.nil_append, getLast?_escape]⟩
  clear closed
  intro inner after eq
  rw [List.nil_append]
  induction cs generalizing inner with
  | nil => simp [escape] at eq
  | cons c cs ih =>
    -- A quote in the rest of the text keeps the backslash in front of it.
    have later : ∀ {inner}, escape quote cs = inner ++ quote :: after → ∀ lead : List Char,
        (lead ++ inner).getLast? = some '\\' := by
      intro inner eq lead
      simp [ih inner eq]
    rw [escape_cons] at eq
    split at eq
    · next same =>
      rw [beq_iff_eq.mp same] at eq
      match inner with
      | [] => exact absurd (List.cons.inj eq).1.symm (ne_backslash_of_isQuote opens)
      | [d] =>
        rw [(List.cons.inj eq).1]
        rfl
      | d :: e :: inner =>
        have rest : escape quote cs = inner ++ quote :: after := by
          simpa using (List.cons.inj (List.cons.inj eq).2).2
        exact later rest [d, e]
    · next other =>
      cases inner with
      | nil => exact absurd (beq_iff_eq.mpr (List.cons.inj eq).1) other
      | cons d inner =>
        have rest : escape quote cs = inner ++ quote :: after := (List.cons.inj eq).2
        exact later rest [d]

theorem wellFormed_quoted_iff (opens : isQuote quote = true) :
    WellFormed (quoted quote text).toList ↔ text.toList.getLast? ≠ some '\\' := by
  rw [toList_quoted]
  constructor
  · intro formed
    generalize whole : quote :: escape quote text.toList ++ [quote] = token at formed
    cases formed with
    | bare bare => exact absurd (whole ▸ bare) (not_isBare_enclosed opens _)
    | enclosed opens guarded =>
      rw [List.cons_append, List.cons_append] at whole
      obtain ⟨rfl, behind⟩ := List.cons.inj whole
      have closed := guarded.closed
      rwa [← List.append_cancel_right behind, List.nil_append, getLast?_escape] at closed
  · intro closed
    exact .enclosed opens (guarded_escape opens closed)

end Quoting

/-- A value that a line can give: a word, or the literal of a text. -/
inductive IsValue : String → Prop
  | bare {value : String} (bare : IsBare value.toList) (whole : value.toList.getLast? ≠ some ',') :
    IsValue value
  | quoted {quote : Char} (opens : isQuote quote = true) {text : String}
    (closed : text.toList.getLast? ≠ some '\\') : IsValue (quoted quote text)

theorem Word.isValue {text : String} (h : Word text) : IsValue text :=
  .bare h.bare h.whole

theorem IsValue.formed {value : String} (h : IsValue value) :
    WellFormed value.toList ∧ (IsBare value.toList → value.toList.getLast? ≠ some ',') := by
  cases h with
  | bare bare whole => exact ⟨.bare bare, fun _ => whole⟩
  | quoted opens closed =>
    refine ⟨(wellFormed_quoted_iff opens).mpr closed, fun bare => ?_⟩
    rw [toList_quoted] at bare
    exact absurd bare (not_isBare_enclosed opens _)

/-- A line of values, with a blank between each two, gives these back. -/
theorem ofLine_of_values {values : List String} (proper : ∀ value ∈ values, IsValue value) :
    Arguments.ofLine (" ".intercalate values) = Arguments.ofTokens values := by
  have list : TokenList (values.map String.toList) := by
    refine .of_whole fun token mem => ?_
    obtain ⟨value, own, rfl⟩ := List.mem_map.mp mem
    exact (proper value own).formed
  rw [Arguments.ofLine, tokens_joined list]
  rfl

end Command
end ObjectVault
