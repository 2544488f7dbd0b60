import ObjectVault.Command.Arguments
import Mathlib.Data.List.Infix
import Mathlib.Data.List.TakeWhile

namespace ObjectVault

theorem checked_map_eq_ok_iff {ε α β : Type} {given : Except ε α} {f : α → β} {b : β} :
    given.map f = .ok b ↔ ∃ a, given = .ok a ∧ f a = b := by
  cases given <;> simp [Except.map]

namespace Command
open ObjectVault.Text

/-- A character that stands for itself outside of literals. -/
def isPlain (c : Char) : Bool :=
  !isQuote c && !isBlank c && c != '#'

theorem not_isBlank_of_isPlain {c : Char} (h : isPlain c = true) : isBlank c = false := by
  simp only [isPlain, Bool.and_eq_true, Bool.not_eq_true'] at h
  exact h.1.2

theorem not_isQuote_of_isPlain {c : Char} (h : isPlain c = true) : isQuote c = false := by
  simp only [isPlain, Bool.and_eq_true, Bool.not_eq_true'] at h
  exact h.1.1

theorem not_isBlank_of_isQuote {quote : Char} (opens : isQuote quote = true) :
    isBlank quote = false := by
  rw [isQuote, Bool.or_eq_true, beq_iff_eq, beq_iff_eq] at opens
  rcases opens with rfl | rfl <;> decide

/-- Plain characters become part of the token under construction. -/
theorem scan_append {word : List Char} (plain : ∀ c ∈ word, isPlain c = true)
    (current rest : List Char) :
    scan none false current (word ++ rest) = scan none false (current ++ word) rest := by
  induction word generalizing current with
  | nil => simp
  | cons c word ih =>
    have own := plain c List.mem_cons_self
    simp only [isPlain, Bool.and_eq_true, Bool.not_eq_true', bne_iff_ne] at own
    obtain ⟨⟨quote, blank⟩, hash⟩ := own
    rw [List.cons_append, scan]
    simp only [quote, blank, beq_eq_false_iff_ne.mpr hash, Bool.false_eq_true, ↓reduceIte]
    rw [ih fun d mem => plain d (List.mem_cons_of_mem _ mem)]
    simp

def Blanks (gap : List Char) : Prop :=
  ∀ c ∈ gap, isBlank c = true

/-- A token without quotes, of at least one character. -/
structure IsBare (token : List Char) : Prop where
  nonempty : token ≠ []
  plain : ∀ c ∈ token, isPlain c = true

theorem isBare_iff {token : List Char} :
    IsBare token ↔ token ≠ [] ∧ token.all isPlain = true := by
  rw [List.all_eq_true]
  exact ⟨fun bare => ⟨bare.nonempty, bare.plain⟩, fun bare => ⟨bare.1, bare.2⟩⟩

instance (token : List Char) : Decidable (IsBare token) :=
  decidable_of_iff _ isBare_iff.symm

/-- A text, behind the part `before` of a literal, that runs up to the quote that closes the
literal: each quote of the kind in it stands directly behind a backslash, and the closing one
does not. -/
structure Guarded (quote : Char) (before text : List Char) : Prop where
  behind : ∀ inner after, text = inner ++ quote :: after →
    (before ++ inner).getLast? = some '\\'
  closed : (before ++ text).getLast? ≠ some '\\'

inductive WellFormed : List Char → Prop
  | bare {token : List Char} (bare : IsBare token) : WellFormed token
  | enclosed {quote : Char} {text : List Char} (opens : isQuote quote = true)
    (guarded : Guarded quote [] text) : WellFormed (quote :: text ++ [quote])

/-- The tokens that one line can have: a word that ends in a comma would take in the next one. -/
structure TokenList (ts : List (List Char)) : Prop where
  formed : ∀ token ∈ ts, WellFormed token
  commas : ∀ token ∈ ts.dropLast, IsBare token → token.getLast? ≠ some ','

/-- A word as it may be written: with blanks behind the commas inside of it. -/
inductive Spelled : List Char → List Char → Prop
  | last (c : Char) : Spelled [c] [c]
  | more {c : Char} {gap token written : List Char} (blanks : Blanks gap)
    (comma : gap ≠ [] → c = ',') (spelled : Spelled token written) :
    Spelled (c :: token) (c :: gap ++ written)

/-- How a token is written: a word may have blanks in it, and a literal is written as it is. -/
inductive Shown : List Char → List Char → Prop
  | bare {token written : List Char} (bare : IsBare token) (spelled : Spelled token written) :
    Shown token written
  | enclosed {quote : Char} {text : List Char} (opens : isQuote quote = true)
    (guarded : Guarded quote [] text) : Shown (quote :: text ++ [quote]) (quote :: text ++ [quote])

/-- A line shows its tokens in their order, behind blanks; behind the last one there may be blanks
and a comment. A blank has to keep a word apart from the next token. -/
inductive Renders : List (List Char) → List Char → Prop
  | blanks {gap : List Char} (blanks : Blanks gap) : Renders [] gap
  | comment {gap : List Char} (blanks : Blanks gap) (text : List Char) :
    Renders [] (gap ++ '#' :: text)
  | token {gap token written rest : List Char} {ts : List (List Char)} (blanks : Blanks gap)
    (shown : Shown token written)
    (apart : ts ≠ [] → IsBare token → ∃ c ∈ rest.head?, isBlank c = true)
    (more : Renders ts rest) : Renders (token :: ts) (gap ++ written ++ rest)

theorem blanks_nil : Blanks [] :=
  fun _ => nofun

theorem Blanks.cons {c : Char} {gap : List Char} (blank : isBlank c = true) (blanks : Blanks gap) :
    Blanks (c :: gap) :=
  List.forall_mem_cons.mpr ⟨blank, blanks⟩

theorem not_isQuote_of_isBlank {c : Char} (blank : isBlank c = true) : isQuote c = false := by
  cases quote : isQuote c with
  | false => rfl
  | true =>
    rw [not_isBlank_of_isQuote quote] at blank
    cases blank

theorem isPlain_of_not {c : Char} (quoteless : ¬ isQuote c = true) (filled : ¬ isBlank c = true)
    (other : ¬ (c == '#') = true) : isPlain c = true := by
  have hash : c ≠ '#' := by simpa using other
  simp [isPlain, quoteless, filled, hash]

theorem endsToken_eq_true_iff {current : List Char} :
    endsToken current = true ↔ current ≠ [] ∧ current.getLast? ≠ some ',' := by
  simp [endsToken]

theorem endsToken_nil : endsToken [] = false :=
  rfl

theorem endsToken_concat_comma (current : List Char) : endsToken (current ++ [',']) = false := by
  simp [endsToken]

section Scanning
variable {c quote : Char} {current gap rest text before token written : List Char}
  {ts : List (List Char)}

theorem scan_break (ends : endsToken current = true) (blank : isBlank c = true) (rest : List Char) :
    scan none false current (c :: rest) = (scan none false [] rest).map (current :: ·) := by
  simp [scan, not_isQuote_of_isBlank blank, blank, ends]

theorem scan_skip (unended : endsToken current = false) (blanks : Blanks gap) (rest : List Char) :
    scan none false current (gap ++ rest) = scan none false current rest := by
  induction gap with
  | nil => rfl
  | cons c gap ih =>
    obtain ⟨blank, blanks⟩ := List.forall_mem_cons.mp blanks
    rw [List.cons_append, scan]
    simp [not_isQuote_of_isBlank blank, blank, unended, ih blanks]

theorem scan_comment (current text : List Char) :
    scan none false current ('#' :: text) = .ok (pending current) := by
  rw [scan]
  simp [show isQuote '#' = false from rfl, show isBlank '#' = false by decide]

/-- Behind the end of a token a line without further tokens changes nothing. -/
theorem scan_of_renders_nil (renders : Renders [] rest) (current : List Char) :
    scan none false current rest = .ok (pending current) := by
  -- A blank either ends the token, with nothing behind it, or is passed over.
  have passed : ∀ {gap rest : List Char}, Blanks gap →
      (∀ current, scan none false current rest = .ok (pending current)) →
      ∀ current, scan none false current (gap ++ rest) = .ok (pending current) := by
    intro gap rest blanks ended
    induction gap with
    | nil => exact ended
    | cons c gap ih =>
      intro current
      obtain ⟨blank, behind⟩ := List.forall_mem_cons.mp blanks
      cases ends : endsToken current with
      | false => rw [scan_skip ends blanks, ended]
      | true =>
        have nonempty := (endsToken_eq_true_iff.mp ends).1
        rw [List.cons_append, scan_break ends blank, ih behind]
        simp [Except.map, pending, nonempty]
  cases renders with
  | blanks blanks =>
    rw [← List.append_nil rest]
    exact passed blanks (fun _ => rfl) current
  | comment blanks text => exact passed blanks (fun current => scan_comment current text) current

theorem scan_spelled (spelled : Spelled token written) (plain : ∀ c ∈ token, isPlain c = true)
    (current rest : List Char) :
    scan none false current (written ++ rest) = scan none false (current ++ token) rest := by
  induction spelled generalizing current with
  | last c => exact scan_append plain current rest
  | @more c gap token written blanks comma spelled ih =>
    have first : ∀ d ∈ [c], isPlain d = true := fun d mem =>
      plain d (List.mem_singleton.mp mem ▸ List.mem_cons_self)
    have skipped : scan none false (current ++ [c]) (gap ++ (written ++ rest)) =
        scan none false (current ++ [c]) (written ++ rest) := by
      cases gap with
      | nil => rfl
      | cons d gap =>
        rw [comma (List.cons_ne_nil d gap)]
        exact scan_skip (endsToken_concat_comma current) blanks _
    have step := ih (fun d mem => plain d (List.mem_cons_of_mem c mem)) (current ++ [c])
    rw [List.append_assoc, List.cons_append, ← List.singleton_append, scan_append first, skipped,
      step, List.append_assoc, List.singleton_append]

/-- Within a literal the scan keeps in mind whether the last character was a backslash. -/
theorem scan_guarded (guarded : Guarded quote before text) (current rest : List Char) :
    scan (some quote) (before.getLast? == some '\\') current (text ++ quote :: rest) =
      (scan none false [] rest).map ((current ++ text ++ [quote]) :: ·) := by
  induction text generalizing before current with
  | nil =>
    have closed : (before.getLast? == some '\\') = false := by simpa using guarded.closed
    simp [scan, closed]
  | cons c text ih =>
    have later : Guarded quote (before ++ [c]) text := by
      constructor
      · rintro inner after rfl
        simpa using guarded.behind (c :: inner) after rfl
      · simpa using guarded.closed
    have flag : ((before ++ [c]).getLast? == some '\\') = (c == '\\') := by simp
    have step := ih later (current ++ [c])
    rw [flag] at step
    have passed : (c == quote && !(before.getLast? == some '\\')) = false := by
      by_cases same : c = quote
      · subst same
        have escaped : before.getLast? = some '\\' := by
          simpa using guarded.behind [] text rfl
        simp [escaped]
      · simp [same]
    rw [List.cons_append, scan, passed]
    simpa using step

theorem eq_of_scan_quoted
    (read : scan (some quote) (before.getLast? == some '\\') current rest = .ok ts) :
    ∃ text behind others, rest = text ++ quote :: behind ∧ Guarded quote before text ∧
      scan none false [] behind = .ok others ∧ ts = (current ++ text ++ [quote]) :: others := by
  induction rest generalizing before current with
  | nil => cases read
  | cons c rest ih =>
    rw [scan] at read
    split at read
    · next closes =>
      simp only [Bool.and_eq_true, beq_iff_eq, Bool.not_eq_true', beq_eq_false_iff_ne] at closes
      obtain ⟨others, rest_read, rfl⟩ := checked_map_eq_ok_iff.mp read
      have guarded : Guarded quote before [] := by
        constructor
        · intro inner after eq
          cases inner <;> cases eq
        · simpa using closes.2
      exact ⟨[], rest, others, by simp [closes.1], guarded, rest_read, by simp [closes.1]⟩
    · next passed =>
      have flag : ((before ++ [c]).getLast? == some '\\') = (c == '\\') := by simp
      rw [← flag] at read
      obtain ⟨text, behind, others, rfl, guarded, behind_read, rfl⟩ := ih read
      have whole : Guarded quote before (c :: text) := by
        constructor
        · intro inner after eq
          cases inner with
          | nil =>
            obtain ⟨rfl, rfl⟩ := List.cons.inj eq
            simpa using passed
          | cons d inner =>
            obtain ⟨rfl, rfl⟩ := List.cons.inj eq
            simpa using guarded.behind inner after rfl
        · simpa using guarded.closed
      exact ⟨c :: text, behind, others, rfl, whole, behind_read, by simp⟩

theorem Renders.behind_blank {c : Char} (renders : Renders ts rest) (blank : isBlank c = true) :
    Renders ts (c :: rest) := by
  cases renders with
  | blanks more => exact .blanks (more.cons blank)
  | comment more text => exact .comment (more.cons blank) text
  | token more shown apart renders => exact .token (more.cons blank) shown apart renders

/-- What stands behind a word: nothing that is read, or a blank, which ends a word without a
comma at its end, and the other tokens. -/
inductive Apart (token : List Char) : List Char → List (List Char) → Prop
  | last {behind : List Char} (renders : Renders [] behind) : Apart token behind []
  | blank {c : Char} {rest : List Char} {others : List (List Char)}
    (whole : token.getLast? ≠ some ',') (blank : isBlank c = true)
    (read : scan none false [] rest = .ok others) : Apart token (c :: rest) others

/-- The line begins with the word, and the other tokens are behind it. -/
inductive Leads (token : List Char) : List Char → List (List Char) → Prop
  | intro {written behind : List Char} {others : List (List Char)}
    (plain : ∀ c ∈ token, isPlain c = true) (spelled : Spelled token written)
    (apart : Apart token behind others) : Leads token (written ++ behind) others

theorem Leads.alone (plain : isPlain c = true) (apart : Apart [c] rest ts) :
    Leads [c] (c :: rest) ts :=
  .intro (fun _ mem => List.mem_singleton.mp mem ▸ plain) (.last c) apart

theorem Spelled.cons (spelled : Spelled token written) (c : Char) :
    Spelled (c :: token) (c :: written) :=
  .more blanks_nil (fun nonempty => absurd rfl nonempty) spelled

theorem Spelled.ne_nil (spelled : Spelled token written) : token ≠ [] := by
  cases spelled <;> simp

theorem Apart.cons (apart : Apart token rest ts) (nonempty : token ≠ []) (c : Char) :
    Apart (c :: token) rest ts := by
  cases apart with
  | last renders => exact .last renders
  | blank whole blank read =>
    refine .blank ?_ blank read
    rwa [List.getLast?_cons_of_ne_nil nonempty]

theorem Leads.cons (plain : isPlain c = true) (leads : Leads token rest ts) :
    Leads (c :: token) (c :: rest) ts := by
  obtain ⟨others, spelled, apart⟩ := leads
  exact .intro (List.forall_mem_cons.mpr ⟨plain, others⟩) (spelled.cons c)
    (apart.cons spelled.ne_nil c)

/-- A blank behind a comma belongs to the word, or it follows the whole of it. -/
theorem Leads.behind_comma (leads : Leads (',' :: token) (',' :: rest) ts)
    (blank : isBlank c = true) : Leads (',' :: token) (',' :: c :: rest) ts := by
  generalize first : ',' :: token = whole at leads
  generalize line : ',' :: rest = text at leads
  obtain ⟨plain, spelled, apart⟩ := leads
  cases spelled with
  | last =>
    obtain ⟨rfl, rfl⟩ := List.cons.inj first
    obtain rfl := (List.cons.inj line).2
    cases apart with
    | last renders =>
      exact .alone (plain ',' List.mem_cons_self) (.last (renders.behind_blank blank))
    | blank whole => exact absurd rfl whole
  | more blanks comma spelled =>
    obtain ⟨rfl, rfl⟩ := List.cons.inj first
    obtain ⟨-, rfl⟩ := List.cons.inj line
    have wider := Spelled.more (blanks.cons blank) (fun _ => rfl) spelled
    exact .intro plain wider apart

/-- A scan that has begun a word with `c` reads the word, and then the tokens behind it. -/
theorem leads_of_scan (plain : isPlain c = true)
    (read : scan none false (current ++ [c]) rest = .ok ts) :
    ∃ tail others, Leads (c :: tail) (c :: rest) others ∧
      ts = (current ++ c :: tail) :: others := by
  have started : pending (current ++ [c]) = [current ++ [c]] := by simp [pending]
  induction rest generalizing current c with
  | nil =>
    cases read
    rw [started]
    exact ⟨[], [], .alone plain (.last (.blanks blanks_nil)), rfl⟩
  | cons d rest ih =>
    rw [scan] at read
    split at read
    · simp at read
    · next quoteless =>
      split at read
      · next blank =>
        split at read
        · next ends =>
          obtain ⟨others, rest_read, rfl⟩ := checked_map_eq_ok_iff.mp read
          have whole : [c].getLast? ≠ some ',' := by
            simpa using (endsToken_eq_true_iff.mp ends).2
          exact ⟨[], others, .alone plain (.blank whole blank rest_read), rfl⟩
        · next unended =>
          have comma : c = ',' := by simpa [endsToken] using unended
          subst comma
          obtain ⟨tail, others, leads, rfl⟩ := ih plain read started
          exact ⟨tail, others, leads.behind_comma blank, rfl⟩
      · next filled =>
        split at read
        · next hash =>
          rw [beq_iff_eq.mp hash]
          cases read
          rw [started]
          exact ⟨[], [], .alone plain (.last (.comment blanks_nil rest)), rfl⟩
        · next other =>
          have own := isPlain_of_not quoteless filled other
          obtain ⟨tail, others, leads, rfl⟩ := ih own read (by simp [pending])
          exact ⟨d :: tail, others, leads.cons plain, by simp⟩

end Scanning

theorem not_isBare_enclosed {quote : Char} (opens : isQuote quote = true) (text : List Char) :
    ¬ IsBare (quote :: text ++ [quote]) := by
  intro bare
  have quoteless := not_isQuote_of_isPlain (bare.plain quote List.mem_cons_self)
  rw [opens] at quoteless
  cases quoteless

theorem Spelled.refl {token : List Char} (nonempty : token ≠ []) : Spelled token token := by
  induction token with
  | nil => exact absurd rfl nonempty
  | cons c token ih =>
    cases token with
    | nil => exact .last c
    | cons d token => exact (ih (List.cons_ne_nil d token)).cons c

theorem Spelled.append {token written : List Char} (spelled : Spelled token written)
    (lead : List Char) : Spelled (lead ++ token) (lead ++ written) := by
  induction lead with
  | nil => exact spelled
  | cons c lead ih => exact ih.cons c

namespace TokenList
variable {token : List Char} {ts : List (List Char)}

theorem nil : TokenList [] :=
  ⟨fun _ => nofun, fun _ => nofun⟩

theorem cons (formed : WellFormed token)
    (whole : ts ≠ [] → IsBare token → token.getLast? ≠ some ',') (others : TokenList ts) :
    TokenList (token :: ts) := by
  refine ⟨List.forall_mem_cons.mpr ⟨formed, others.formed⟩, ?_⟩
  cases ts with
  | nil => exact fun _ => nofun
  | cons next ts =>
    rw [List.dropLast_cons_cons]
    exact List.forall_mem_cons.mpr ⟨whole (List.cons_ne_nil next ts), others.commas⟩

/-- Tokens that could stand anywhere in a line. -/
theorem of_whole (each : ∀ token ∈ ts,
    WellFormed token ∧ (IsBare token → token.getLast? ≠ some ',')) : TokenList ts :=
  ⟨fun token mem => (each token mem).1,
    fun token mem => (each token (List.mem_of_mem_dropLast mem)).2⟩

theorem tail (list : TokenList (token :: ts)) : TokenList ts := by
  refine ⟨fun t mem => list.formed t (List.mem_cons_of_mem _ mem), ?_⟩
  cases ts with
  | nil => exact fun _ => nofun
  | cons next ts =>
    intro t mem
    exact list.commas t (by rw [List.dropLast_cons_cons]; exact List.mem_cons_of_mem _ mem)

theorem whole (list : TokenList (token :: ts)) (nonempty : ts ≠ []) (bare : IsBare token) :
    token.getLast? ≠ some ',' := by
  refine list.commas token ?_ bare
  rw [List.dropLast_cons_of_ne_nil nonempty]
  exact List.mem_cons_self

end TokenList

section Lines
variable {rest : List Char} {ts : List (List Char)}

theorem scan_of_renders (list : TokenList ts) (renders : Renders ts rest) :
    scan none false [] rest = .ok ts := by
  induction renders with
  | blanks blanks => exact scan_of_renders_nil (.blanks blanks) []
  | comment blanks text => exact scan_of_renders_nil (.comment blanks text) []
  | @token gap token written rest ts blanks shown apart renders ih =>
    rw [List.append_assoc, scan_skip endsToken_nil blanks]
    cases shown with
    | @enclosed quote text opens guarded =>
      have whole := scan_guarded guarded [quote] rest
      rw [List.append_assoc, List.singleton_append, List.cons_append, scan, if_pos opens,
        if_pos List.isEmpty_nil]
      exact whole.trans (by rw [ih list.tail]; rfl)
    | bare bare spelled =>
      have kept : pending token = [token] := by simp [pending, bare.nonempty]
      rw [scan_spelled spelled bare.plain, List.nil_append]
      by_cases last : ts = []
      · subst last
        rw [scan_of_renders_nil renders, kept]
      · obtain ⟨c, head, blank⟩ := apart last bare
        obtain ⟨behind, rfl⟩ := List.head?_eq_some_iff.mp head
        have ends : endsToken token = true :=
          endsToken_eq_true_iff.mpr ⟨bare.nonempty, list.whole last bare⟩
        have others := ih list.tail
        rw [← List.singleton_append, scan_skip endsToken_nil (blanks_nil.cons blank)] at others
        rw [scan_break ends blank, others]
        rfl

end Lines

theorem renders_of_scan {rest : List Char} {ts : List (List Char)}
    (read : scan none false [] rest = .ok ts) : TokenList ts ∧ Renders ts rest := by
  match rest with
  | [] =>
    cases read
    exact ⟨.nil, .blanks blanks_nil⟩
  | c :: rest =>
    rw [scan] at read
    split at read
    · next opens =>
      rw [if_pos List.isEmpty_nil] at read
      have opened : scan (some c) (([] : List Char).getLast? == some '\\') [c] rest = .ok ts := read
      obtain ⟨text, behind, others, line, guarded, behind_read, rfl⟩ := eq_of_scan_quoted opened
      have shorter : behind.length ≤ rest.length := by
        rw [line, List.length_append, List.length_cons]
        omega
      obtain ⟨list, renders⟩ := renders_of_scan behind_read
      have unbare := not_isBare_enclosed opens text
      have shown := Renders.token blanks_nil (.enclosed opens guarded)
        (fun _ bare => absurd bare unbare) renders
      exact ⟨list.cons (.enclosed opens guarded) fun _ bare => absurd bare unbare,
        by simpa [line] using shown⟩
    · next quoteless =>
      split at read
      · next blank =>
        rw [endsToken_nil, if_neg Bool.false_ne_true] at read
        obtain ⟨list, renders⟩ := renders_of_scan read
        exact ⟨list, renders.behind_blank blank⟩
      · next filled =>
        split at read
        · next hash =>
          cases read
          rw [beq_iff_eq.mp hash]
          exact ⟨.nil, .comment blanks_nil rest⟩
        · next other =>
          have begun : scan none false ([] ++ [c]) rest = .ok ts := read
          obtain ⟨tail, others, leads, rfl⟩ :=
            leads_of_scan (isPlain_of_not quoteless filled other) begun
          generalize line : c :: rest = text at leads ⊢
          obtain ⟨plain, spelled, apart⟩ := leads
          have bare : IsBare (c :: tail) := ⟨List.cons_ne_nil c tail, plain⟩
          cases apart with
          | last renders =>
            exact ⟨TokenList.nil.cons (.bare bare) fun nonempty => absurd rfl nonempty,
              .token blanks_nil (.bare bare spelled) (fun nonempty => absurd rfl nonempty) renders⟩
          | @blank d after others whole blank behind_read =>
            have shorter : after.length ≤ rest.length := by
              have lengths := congrArg List.length line
              simp only [List.length_append, List.length_cons] at lengths
              omega
            obtain ⟨list, renders⟩ := renders_of_scan behind_read
            exact ⟨list.cons (.bare bare) fun _ _ => whole,
              .token blanks_nil (.bare bare spelled) (fun _ _ => ⟨_, rfl, blank⟩)
                (renders.behind_blank blank)⟩
termination_by rest.length

section Trimming
variable {gap : List Char} {quote : Option Char}

/-- Blanks at the end of a line are in no token, and close no literal. -/
theorem scan_append_blanks (blanks : Blanks gap) (opened : ∀ q ∈ quote, isQuote q = true)
    (escaped : Bool) (current cs : List Char) :
    scan quote escaped current (cs ++ gap) = scan quote escaped current cs := by
  induction cs generalizing quote escaped current with
  | nil =>
    cases quote with
    | none =>
      have unescaped : ∀ cs, scan none escaped current cs = scan none false current cs := by
        intro cs
        cases cs <;> rfl
      rw [List.nil_append, unescaped, scan_of_renders_nil (.blanks blanks)]
      rfl
    | some q =>
      have unclosed : ∀ escaped current, scan (some q) escaped current gap =
          .error (.unterminatedQuote q) := by
        induction gap with
        | nil => exact fun _ _ => rfl
        | cons c gap ih =>
          intro escaped current
          obtain ⟨blank, behind⟩ := List.forall_mem_cons.mp blanks
          have other : c ≠ q := by
            rintro rfl
            rw [not_isBlank_of_isQuote (opened c rfl)] at blank
            cases blank
          simp [scan, other, ih behind]
      exact unclosed escaped current
  | cons c cs ih =>
    have closed : ∀ escaped current,
        scan none escaped current (cs ++ gap) = scan none escaped current cs := ih fun _ => nofun
    cases quote with
    | some q =>
      have still := ih opened
      simp only [List.cons_append, scan, closed, still]
    | none =>
      rw [List.cons_append, scan, scan, closed, closed, closed]
      by_cases opens : isQuote c = true
      · have literal : ∀ q ∈ some c, isQuote q = true := fun q same => Option.some.inj same ▸ opens
        rw [ih literal]
      · simp only [opens, Bool.false_eq_true, ↓reduceIte]

theorem scan_trim (cs : List Char) : scan none false [] (trim cs) = scan none false [] cs := by
  have split : ∀ cs : List Char, ∃ gap, Blanks gap ∧ cs = gap ++ cs.dropWhile isBlank :=
    fun cs => ⟨cs.takeWhile isBlank, fun _ mem => List.mem_takeWhile_imp mem,
      List.takeWhile_append_dropWhile.symm⟩
  obtain ⟨lead, blanks, first⟩ := split cs
  obtain ⟨behind, blanks', last⟩ := split (trimStart cs).reverse
  have whole : trimStart cs = trim cs ++ behind.reverse := by
    have back := congrArg List.reverse last
    rwa [List.reverse_reverse, List.reverse_append] at back
  have reversed : Blanks behind.reverse := fun c mem => blanks' c (List.mem_reverse.mp mem)
  have unopened : ∀ q ∈ (none : Option Char), isQuote q = true := fun _ => nofun
  calc scan none false [] (trim cs)
      = scan none false [] (trim cs ++ behind.reverse) :=
        (scan_append_blanks reversed unopened false [] (trim cs)).symm
    _ = scan none false [] (trimStart cs) := by rw [whole]
    _ = scan none false [] (lead ++ trimStart cs) := (scan_skip endsToken_nil blanks _).symm
    _ = scan none false [] cs := by rw [trimStart, ← first]

end Trimming

section Lines
variable {line : String} {ts : List String}

theorem tokens_eq_ok_iff_scan :
    tokens line = .ok ts ↔ scan none false [] line.toList = .ok (ts.map String.toList) := by
  rw [tokens, scan_trim, checked_map_eq_ok_iff]
  constructor
  · rintro ⟨found, read, rfl⟩
    simpa [Function.comp_def] using read
  · intro read
    exact ⟨_, read, by simp [Function.comp_def]⟩

/-- A line has the tokens that it shows. -/
theorem tokens_eq_ok_iff_renders :
    tokens line = .ok ts ↔
      TokenList (ts.map String.toList) ∧ Renders (ts.map String.toList) line.toList := by
  rw [tokens_eq_ok_iff_scan]
  constructor
  · exact renders_of_scan
  · rintro ⟨list, renders⟩
    exact scan_of_renders list renders

/-- Written tokens with a blank between each two show these tokens. -/
theorem renders_intercalate {pieces : List (List Char × List Char)}
    (each : ∀ piece ∈ pieces, Shown piece.1 piece.2) :
    Renders (pieces.map Prod.fst) ([' '].intercalate (pieces.map Prod.snd)) := by
  induction pieces with
  | nil => exact .blanks blanks_nil
  | cons piece pieces ih =>
    obtain ⟨shown, behind⟩ := List.forall_mem_cons.mp each
    cases pieces with
    | nil =>
      have alone := Renders.token blanks_nil shown (fun nonempty => absurd rfl nonempty)
        (.blanks blanks_nil)
      simpa using alone
    | cons next pieces =>
      have step := ih behind
      simp only [List.map_cons] at step ⊢
      rw [List.intercalate_cons_cons, List.append_assoc, List.singleton_append]
      exact .token blanks_nil shown (fun _ _ => ⟨' ', rfl, isBlank_space⟩)
        (step.behind_blank isBlank_space)

theorem WellFormed.shown {token : List Char} (h : WellFormed token) : Shown token token := by
  cases h with
  | bare bare => exact .bare bare (.refl bare.nonempty)
  | enclosed opens guarded => exact .enclosed opens guarded

theorem renders_joined (formed : ∀ token ∈ ts.map String.toList, WellFormed token) :
    Renders (ts.map String.toList) (" ".intercalate ts).toList := by
  have each : ∀ piece ∈ ts.map fun t => (t.toList, t.toList), Shown piece.1 piece.2 := by
    intro piece mem
    obtain ⟨token, own, rfl⟩ := List.mem_map.mp mem
    exact (formed _ (List.mem_map_of_mem own)).shown
  rw [String.toList_intercalate]
  simpa [Function.comp_def] using renders_intercalate each

theorem tokens_joined (list : TokenList (ts.map String.toList)) :
    tokens (" ".intercalate ts) = .ok ts :=
  tokens_eq_ok_iff_renders.mpr ⟨list, renders_joined list.formed⟩

end Lines

/-- Every line that shows a list of tokens is read as that list, and from what is read a line can
be made again. -/
theorem tokens_invert_renders (line : String) (ts : List String) :
    (TokenList (ts.map String.toList) → Renders (ts.map String.toList) line.toList →
      tokens line = .ok ts) ∧
    (tokens line = .ok ts →
      TokenList (ts.map String.toList) ∧ Renders (ts.map String.toList) line.toList ∧
        tokens (" ".intercalate ts) = .ok ts) := by
  constructor
  · intro list renders
    exact tokens_eq_ok_iff_renders.mpr ⟨list, renders⟩
  · intro read
    obtain ⟨list, renders⟩ := tokens_eq_ok_iff_renders.mp read
    exact ⟨list, renders, tokens_joined list⟩

theorem tokens_invert_renders_sample :
    tokens "  store a,  b in 'it\\'s' # kept" = .ok ["store", "a,b", "in", "'it\\'s'"] ∧
      tokens (" ".intercalate ["store", "a,b", "in", "'it\\'s'"]) =
        .ok ["store", "a,b", "in", "'it\\'s'"] := by
  have read : tokens "  store a,  b in 'it\\'s' # kept" =
      .ok ["store", "a,b", "in", "'it\\'s'"] := by
    decide +kernel
  obtain ⟨list, renders, joined⟩ := (tokens_invert_renders _ _).2 read
  exact ⟨(tokens_invert_renders _ _).1 list renders, joined⟩

end Command
end ObjectVault
