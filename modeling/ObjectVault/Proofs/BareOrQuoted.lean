import ObjectVault.Proofs.Accepting
import ObjectVault.Proofs.Trimming

namespace ObjectVault.Command
open ObjectVault.Text

/-- What stands in a list of names stands in one of them, commas and blanks apart. -/
theorem mem_listedNames {c : Char} {list : String} (mem : c ∈ list.toList) (comma : c ≠ ',')
    (filled : isBlank c = false) : ∃ name ∈ listedNames list, c ∈ name.toList := by
  obtain ⟨part, own, inner⟩ := (mem_part_of_mem mem).resolve_left comma
  refine ⟨_, List.mem_map_of_mem own, ?_⟩
  rw [String.toList_ofList]
  exact mem_trim inner filled

theorem eq_listedNames {list : String} {listed : List String} (read : names list = .ok listed) :
    listed = listedNames list := by
  rw [names] at read
  split at read
  · cases read
  · cases read
    rfl

theorem quoteless_of_isDottedIdentifier {name : String} (h : isDottedIdentifier name = true) :
    ∀ c ∈ name.toList, isQuote c = false := by
  intro c mem
  rcases (isWordChar_of_isDottedIdentifier h).2 c mem with rfl | word
  · decide
  · exact not_isQuote_of_isPlain (plain_of_isWordChar word).1

theorem quoteless_of_names {list : String} {listed : List String} (read : names list = .ok listed)
    (dotted : ∀ name ∈ listed, isDottedIdentifier name = true) :
    ∀ c ∈ list.toList, isQuote c = false := by
  intro c mem
  refine Bool.eq_false_iff.mpr fun quote => ?_
  have comma : c ≠ ',' := by
    rintro rfl
    cases quote
  obtain ⟨name, own, inner⟩ := mem_listedNames mem comma (not_isBlank_of_isQuote quote)
  rw [← eq_listedNames read] at own
  have bare := quoteless_of_isDottedIdentifier (dotted name own) c inner
  rw [quote] at bare
  cases bare

namespace Rule
variable {context : Context} {rule : Rule} {value : String}

/-- The rules that ask for a name or a list of names. -/
def isNaming : Rule → Bool
  | oneVariable | someVariables | function | oneIdentifier | someIdentifiers => true
  | folder | path | hashMethod | hash => false

/-- No name has a quote in it. -/
theorem Met.quoteless (naming : rule.isNaming = true) (met : rule.Met context value) :
    ∀ c ∈ value.toList, isQuote c = false := by
  cases rule with
  | oneVariable =>
    obtain ⟨b, found⟩ := met
    exact quoteless_of_isDottedIdentifier (Context.isDottedIdentifier_of_lookup found)
  | someVariables =>
    obtain ⟨listed, read, known⟩ := met
    refine quoteless_of_names read fun name own => ?_
    obtain ⟨b, found⟩ := known name own
    exact Context.isDottedIdentifier_of_lookup found
  | function =>
    obtain ⟨c, found⟩ := met
    exact quoteless_of_isDottedIdentifier (Context.isDottedIdentifier_of_lookup found)
  | oneIdentifier =>
    exact quoteless_of_isDottedIdentifier (isDottedIdentifier_of_isIdentifier met)
  | someIdentifiers =>
    obtain ⟨listed, read, identifiers⟩ := met
    exact quoteless_of_names read fun name own =>
      isDottedIdentifier_of_isIdentifier (identifiers name own)
  | folder | path | hashMethod | hash => cases naming

/-- What a line gives as a folder or as names begins with no quote. -/
theorem Met.unopened {line keyword : String} {arguments : Arguments}
    (read : Arguments.ofLine line = .ok arguments) (given : arguments.get? keyword = some value)
    (bare : rule = .folder ∨ rule.isNaming = true) (met : rule.Met context value) :
    opensLiteral value = false := by
  rcases bare with rfl | naming
  · have literal := isLiteral_of_ofLine read given
    rw [Met] at met
    rw [met] at literal
    exact (Except.ok.inj literal).symm
  · have quoteless := met.quoteless naming
    rw [opensLiteral]
    cases first : value.toList.head? with
    | none => rfl
    | some c => exact quoteless c (List.mem_of_mem_head? first)

end Rule

/-- A token is its own text or a literal, as its first character says, and the rules for folders
and for paths take it apart accordingly. -/
theorem Formed.checks {token : String} (formed : Formed token.toList) :
    (∃ text, unquote token = .ok text ∧ (text ≠ token ↔ opensLiteral token = true)) ∧
      ∀ context, Rule.folder.check context token = .ok (!opensLiteral token) ∧
        Rule.path.check context token = .ok (opensLiteral token) := by
  have literal : Rule.isLiteral token = .ok (opensLiteral token) := by
    simpa only [String.ofList_toList] using formed.isLiteral
  refine ⟨?_, fun context => ⟨?_, literal⟩⟩
  · cases read : unquote token with
    | ok text =>
      rw [Rule.isLiteral, read] at literal
      refine ⟨text, rfl, ?_⟩
      rw [← Except.ok.inj literal, bne_iff_ne]
    | error fault =>
      rw [Rule.isLiteral, read] at literal
      cases literal
  · rw [Rule.check, literal]
    rfl

namespace Form

/-- The forms that ask for a folder. -/
def asksFolder (form : Form) : Bool :=
  form.signature.required.any (·.2 = .folder)

/-- The forms that ask for a path. -/
def asksPath (form : Form) : Bool :=
  form.signature.required.any (·.2 = .path)

end Form

/-- Where one form of an action asks for a path, the forms that ask for a folder ask for that folder
or for names. -/
theorem Action.path_elsewhere (action : Action) :
    ∀ form ∈ action.forms, form.asksFolder = true → ∀ other ∈ action.forms, other.asksPath = true →
      ∃ place ∈ other.signature.required, place.2 = .path ∧
        ∃ rule ∈ form.signature.required, rule.1 = place.1 ∧
          (rule.2 = .folder ∨ rule.2.isNaming = true) := by
  cases action <;> decide

/-- Every token of a line has a text, which differs from the token exactly if the token begins with
a quote. One of the rules for folders and for paths passes the token, and the other one does not.
So no arguments of a line have all that a form with a folder requires and all that another form of
the action requires with a path. -/
theorem tokens_are_bare_or_quoted {line : String} {ts : List String} (read : tokens line = .ok ts) :
    (∀ token ∈ ts,
      (∃ text, unquote token = .ok text ∧ (text ≠ token ↔ opensLiteral token = true)) ∧
        ∀ context, Rule.folder.check context token = .ok (!opensLiteral token) ∧
          Rule.path.check context token = .ok (opensLiteral token)) ∧
    ∀ arguments, Arguments.ofTokens ts = .ok arguments → ∀ (action : Action) (context : Context),
      ∀ form ∈ action.forms, form.asksFolder = true →
        ∀ other ∈ action.forms, other.asksPath = true →
          ¬ ((form.signature.probe context arguments).isComplete = true ∧
            (other.signature.probe context arguments).isComplete = true) := by
  refine ⟨fun token mem => (formed_of_tokens read token mem).checks, ?_⟩
  rintro arguments paired action context form own folder other own' path ⟨complete, complete'⟩
  have parsed : Arguments.ofLine line = .ok arguments := by
    rw [Arguments.ofLine, read]
    exact paired
  rw [Signature.isComplete_iff form.required_ne_nil] at complete
  rw [Signature.isComplete_iff other.required_ne_nil] at complete'
  obtain ⟨⟨keyword, _⟩, required, rfl, ⟨_, rule⟩, required', rfl, bare⟩ :=
    action.path_elsewhere form own folder other own' path
  obtain ⟨value, given, literal⟩ := complete' _ required
  obtain ⟨value', given', met⟩ := complete _ required'
  cases given.symm.trans given'
  have opens := isLiteral_of_ofLine parsed given
  rw [Rule.Met] at literal
  rw [literal, met.unopened parsed given bare] at opens
  cases opens

/-- An empty path and one with a quote in it are no folders, and what is deleted is either a name in
a folder or a path. -/
theorem tokens_are_bare_or_quoted_paths :
    tokens "del 'it\\'s' from '' # note" = .ok ["del", "'it\\'s'", "from", "''"] ∧
      (∀ token ∈ ["'it\\'s'", "''"],
        Rule.folder.check Session.noteWorld.context token = .ok false ∧
          Rule.path.check Session.noteWorld.context token = .ok true) ∧
      ∀ arguments,
        Arguments.ofTokens ["del", "'it\\'s'", "from", "''"] = .ok arguments →
        ¬ ((Form.deleteName.signature.probe Session.noteWorld.context arguments).isComplete = true ∧
          (Form.deleteAt.signature.probe Session.noteWorld.context arguments).isComplete =
            true) := by
  have read : tokens "del 'it\\'s' from '' # note" = .ok ["del", "'it\\'s'", "from", "''"] := by
    decide +kernel
  obtain ⟨each, never⟩ := tokens_are_bare_or_quoted read
  have opens : ∀ token ∈ ["'it\\'s'", "''"], opensLiteral token = true := by decide
  refine ⟨read, fun token mem => ?_, fun arguments paired => ?_⟩
  · have own : token ∈ ["del", "'it\\'s'", "from", "''"] := by
      rcases List.mem_pair.mp mem with rfl | rfl <;> decide
    have checked := (each token own).2 Session.noteWorld.context
    rwa [opens token mem] at checked
  · exact never arguments paired .delete _ .deleteName (by decide) (by decide) .deleteAt (by decide)
      (by decide)

end ObjectVault.Command
