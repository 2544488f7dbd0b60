import ObjectVault.Proofs.Choosing

namespace ObjectVault

/-- What one check hands on to the next succeeds if both do. -/
theorem checked_bind_eq_ok_iff {ε α β : Type} {given : Except ε α} {f : α → Except ε β} {b : β} :
    given >>= f = .ok b ↔ ∃ a, given = .ok a ∧ f a = .ok b := by
  cases given <;> simp [bind, Except.bind]

theorem forM_eq_ok_iff {ε α : Type} {items : List α} {check : α → Except ε Unit} :
    items.forM check = .ok () ↔ ∀ a ∈ items, check a = .ok () := by
  induction items with
  | nil => exact ⟨fun _ => List.forall_mem_nil _, fun _ => rfl⟩
  | cons a items ih =>
    rw [List.forM, checked_bind_eq_ok_iff, List.forall_mem_cons, ih]
    constructor
    · rintro ⟨_, first, rest⟩
      exact ⟨first, rest⟩
    · rintro ⟨first, rest⟩
      exact ⟨_, first, rest⟩

/-- What one check hands on to the next fails if one of them does. -/
theorem checked_bind_eq_error {ε α β : Type} {given : Except ε α} {f : α → Except ε β} {e : ε}
    (failed : given >>= f = .error e) :
    given = .error e ∨ ∃ a, given = .ok a ∧ f a = .error e := by
  cases given with
  | error fault =>
    cases failed
    exact .inl rfl
  | ok a => exact .inr ⟨a, rfl, failed⟩

/-- Checking several items fails by the first of them that fails. -/
theorem first_error_of_forM {ε α : Type} {items : List α} {check : α → Except ε Unit} {e : ε}
    (failed : items.forM check = .error e) :
    ∃ before a after, items = before ++ a :: after ∧ (∀ b ∈ before, check b = .ok ()) ∧
      check a = .error e := by
  induction items with
  | nil => cases failed
  | cons a items ih =>
    rw [List.forM] at failed
    rcases checked_bind_eq_error failed with first | ⟨_, first, others⟩
    · exact ⟨[], a, items, rfl, List.forall_mem_nil _, first⟩
    · obtain ⟨before, b, after, rfl, passed, fault⟩ := ih others
      exact ⟨a :: before, b, after, rfl, List.forall_mem_cons.mpr ⟨first, passed⟩, fault⟩

namespace Command
open ObjectVault.Text

/-- A command that stores some variables in a folder. -/
def storeLine (listed : List String) (folder : String) : String :=
  "store " ++ ", ".intercalate listed ++ " in " ++ folder

/-- A command that imports some names from a folder. -/
def importLine (folder : String) (listed : List String) : String :=
  "from " ++ folder ++ " import " ++ ", ".intercalate listed

/-- The arguments of two keywords. -/
def twoArguments (first value second other : String) : Arguments :=
  .ofList [(first, value), (second, other)]

theorem get?_twoArguments (first value second other keyword : String) :
    (twoArguments first value second other).get? keyword =
      if keyword = second then some other else if keyword = first then some value else none := by
  rw [twoArguments, Table.get?_ofList]
  simp only [List.reverse_cons, List.reverse_nil, List.nil_append, List.cons_append,
    Table.lookup_cons, List.lookup_nil]

theorem toList_spacedList (listed : List String) :
    (", ".intercalate listed).toList = spacedList listed := by
  simp [spacedList]

variable {listed : List String} {folder : String}

/-- Identifiers to store or to import, and the folder they are kept in. -/
structure Listing (listed : List String) (folder : String) : Prop where
  nonempty : listed ≠ []
  identifiers : ∀ name ∈ listed, isIdentifier name = true
  folder : Word folder

theorem Listing.words (h : Listing listed folder) : ∀ name ∈ listed, Word name :=
  fun name mem => word_of_isIdentifier (h.identifiers name mem)

theorem ofLine_storeLine (h : Listing listed folder) :
    Arguments.ofLine (storeLine listed folder) =
      .ok (twoArguments "store" (",".intercalate listed) "in" folder) := by
  have written : (storeLine listed folder).toList =
      writtenLine [["store"], listed, ["in"], [folder]] := by
    simp only [storeLine, String.toList_append, toList_spacedList]
    simp [writtenLine, spacedList, List.intercalate_cons_cons]
  have words : ∀ words ∈ [["store"], listed, ["in"], [folder]],
      words ≠ [] ∧ ∀ w ∈ words, Word w := by
    have own : ∀ w ∈ ["store", "in"], Word w := by decide
    simp only [List.forall_mem_cons, List.not_mem_nil, false_implies, implies_true, and_true]
    exact ⟨⟨by simp, own _ (by simp)⟩, ⟨h.nonempty, h.words⟩, ⟨by simp, own _ (by simp)⟩,
      by simp, h.folder⟩
  rw [Arguments.ofLine, tokens_writtenLine words written]
  rfl

theorem ofLine_importLine (h : Listing listed folder) :
    Arguments.ofLine (importLine folder listed) =
      .ok (twoArguments "from" folder "import" (",".intercalate listed)) := by
  have written : (importLine folder listed).toList =
      writtenLine [["from"], [folder], ["import"], listed] := by
    simp only [importLine, String.toList_append, toList_spacedList]
    simp [writtenLine, spacedList, List.intercalate_cons_cons]
  have words : ∀ words ∈ [["from"], [folder], ["import"], listed],
      words ≠ [] ∧ ∀ w ∈ words, Word w := by
    have own : ∀ w ∈ ["from", "import"], Word w := by decide
    simp only [List.forall_mem_cons, List.not_mem_nil, false_implies, implies_true, and_true]
    exact ⟨⟨by simp, own _ (by simp)⟩, ⟨by simp, h.folder⟩, ⟨by simp, own _ (by simp)⟩, h.nonempty,
      h.words⟩
  rw [Arguments.ofLine, tokens_writtenLine words written]
  rfl

/-- The names of a list of identifiers are the identifiers. -/
theorem names_intercalate (h : Listing listed folder) :
    names (",".intercalate listed) = .ok listed := by
  have commaless : ∀ part ∈ listed.map String.toList, ',' ∉ part := by
    intro part mem
    obtain ⟨name, own, rfl⟩ := List.mem_map.mp mem
    exact fun comma => ((h.words name own).plain ',' comma).2 rfl
  have parts : (",".intercalate listed).toList.splitOn ',' = listed.map String.toList := by
    have comma : ",".toList = [','] := rfl
    rw [String.toList_intercalate, comma,
      List.splitOn_intercalate ',' commaless fun empty => h.nonempty (List.map_eq_nil_iff.mp empty)]
  have trimmed : ∀ name ∈ listed, trim name.toList = name.toList := by
    intro name own
    exact trim_of_no_blank fun c mem => not_isBlank_of_isPlain ((h.words name own).plain c mem).1
  have same : listedNames (",".intercalate listed) = listed := by
    rw [listedNames, parts, List.map_map]
    refine (List.map_congr_left fun name own => ?_).trans (List.map_id _)
    simp [trimmed name own]
  have named : listed.contains "*" = false := by
    have star : isIdentifier "*" = false := by decide +kernel
    refine Bool.eq_false_iff.mpr fun found => ?_
    rw [h.identifiers "*" (by simpa using found)] at star
    cases star
  rw [names, same, named]
  rfl

/-- A word is no literal. -/
theorem isLiteral_of_word (h : Word folder) : Rule.isLiteral folder = .ok false := by
  obtain ⟨c, cs, eq⟩ := List.exists_cons_of_ne_nil h.nonempty
  have plain := (h.plain c (by rw [eq]; exact List.mem_cons_self)).1
  simp only [isPlain, Bool.and_eq_true, Bool.not_eq_true'] at plain
  have bare : unquote folder = .ok folder := by
    rw [unquote, eq]
    simp [plain.1.1]
  rw [Rule.isLiteral, bare]
  simp

theorem check_folder (h : Listing listed folder) (context : Context) :
    Rule.folder.check context folder = .ok true := by
  rw [Rule.check, isLiteral_of_word h.folder]
  rfl

theorem check_someIdentifiers (h : Listing listed folder) (context : Context) :
    Rule.someIdentifiers.check context (",".intercalate listed) = .ok true := by
  have each : listed.forM Rule.checkIdentifier = .ok () :=
    forM_eq_ok_iff.mpr fun name own => by rw [Rule.checkIdentifier, if_pos (h.identifiers name own)]
  rw [Rule.check, names_intercalate h]
  simp only [bind, Except.bind, each]
  rfl

theorem isDottedIdentifier_of_isIdentifier {name : String} (h : isIdentifier name = true) :
    isDottedIdentifier name = true := by
  simp [isDottedIdentifier, dottedParts_of_isIdentifier h, h]

/-- A variable that is bound as a whole is found. -/
theorem lookup_of_dotted {context : Context} {name kind : String} {b : Binding}
    (dotted : isDottedIdentifier name = true) (bound : context.scope.get? name = some b) :
    context.lookup kind name = .ok b := by
  rw [Context.lookup, Scope.resolve, bound]
  simp [dotted]

theorem lookup_of_bound {context : Context} {name kind : String} {b : Binding}
    (identifier : isIdentifier name = true) (bound : context.scope.get? name = some b) :
    context.lookup kind name = .ok b :=
  lookup_of_dotted (isDottedIdentifier_of_isIdentifier identifier) bound

theorem check_someVariables (h : Listing listed folder) {context : Context}
    (bound : ∀ name ∈ listed, context.scope.contains name = true) :
    Rule.someVariables.check context (",".intercalate listed) = .ok true := by
  have each : listed.forM (Rule.checkVariable context) = .ok () := by
    refine forM_eq_ok_iff.mpr fun name own => ?_
    obtain ⟨b, found⟩ := Option.isSome_iff_exists.mp (bound name own)
    rw [Rule.checkVariable, lookup_of_bound (h.identifiers name own) found]
    rfl
  rw [Rule.check, names_intercalate h]
  simp only [bind, Except.bind, each]
  rfl

theorem need_ok {arguments : Arguments} {keyword value : String} {world : World}
    (found : arguments.get? keyword = some value) :
    Form.need arguments keyword world = (.ok value, world) := by
  rw [Form.need, Arguments.need, found]
  rfl

theorem needNames_ok (h : Listing listed folder) {arguments : Arguments} {keyword : String}
    {world : World} (found : arguments.get? keyword = some (",".intercalate listed)) :
    Form.needNames arguments keyword world = (.ok listed, world) := by
  rw [Form.needNames, Effect.bind_of_ok (need_ok found), names_intercalate h]
  rfl

/-- A form with a required keyword that is not there is not chosen. -/
theorem not_isComplete_of_missing {signature : Signature} {context : Context}
    {arguments : Arguments} {rule : String × Rule} (required : rule ∈ signature.required)
    (absent : arguments.get? rule.1 = none) :
    ¬ (signature.probe context arguments).isComplete = true := by
  intro complete
  have right := (Signature.probe_isComplete_iff.mp complete).2 rule required
  rw [Finding.ofRule_missing absent] at right
  cases right

theorem namesChecked_of_absent {context : Context} {arguments : Arguments}
    {rules : List (String × Rule)} (h : ∀ rule ∈ rules, arguments.get? rule.1 = none) :
    Signature.namesChecked context arguments rules = [] := by
  induction rules with
  | nil => rfl
  | cons rule rules ih =>
    rw [Signature.namesChecked, h rule List.mem_cons_self]
    exact ih fun r mem => h r (List.mem_cons_of_mem _ mem)

/-- If the first form of an action lacks a keyword and the second one has all that it requires and
nothing else, the command runs the second one. The names are bound, so that choosing changes
nothing. -/
theorem perform_second {action : Action} {first second : Form} {others : List Form}
    {archive : Archive} {arguments : Arguments} {world : World} {rule : String × Rule}
    (forms : action.forms = first :: second :: others) (lacks : rule ∈ first.signature.required)
    (absent : arguments.get? rule.1 = none) (nonempty : second.signature.required ≠ [])
    (right : ∀ r ∈ second.signature.required,
      Finding.ofRule world.context arguments r = .right)
    (optional : ∀ r ∈ second.signature.optional, arguments.get? r.1 = none)
    (disallowed : second.signature.disallowed = [])
    (bound : ∀ name ∈ first.signature.namesProbed world.context arguments ++
      second.signature.namesProbed world.context arguments, world.scope.contains name = true) :
    action.perform archive arguments world = second.run archive arguments world := by
  have other : ¬ (first.signature.probe world.context arguments).isComplete = true :=
    not_isComplete_of_missing lacks absent
  have complete : (second.signature.probe world.context arguments).isComplete = true :=
    Signature.probe_isComplete_iff.mpr ⟨nonempty, right⟩
  have chosen : action.choose world.context arguments = some second := by
    simp [Action.choose, forms, other, complete]
  have looked : RunM.noteLookups (Action.namesLookedUp world.context arguments action.forms) world =
      (.ok (), world) := by
    apply RunM.noteLookups_of_bound
    rw [forms, Action.namesLookedUp, if_neg other, Action.namesLookedUp, if_pos complete,
      namesChecked_of_absent optional, List.append_nil]
    exact bound
  rw [Action.perform, Effect.bind_of_ok (Effect.get_apply world), Effect.bind_of_ok looked, chosen]
  simp only [Signature.validate_ok complete optional disallowed]

theorem perform_storeLine (h : Listing listed folder) {archive : Archive} {world : World}
    (bound : ∀ name ∈ listed, world.scope.contains name = true) :
    Action.store.perform archive (twoArguments "store" (",".intercalate listed) "in" folder) world =
      Form.storeAll archive (twoArguments "store" (",".intercalate listed) "in" folder)
        (listed.map fun name => (Form.memberPath folder name, name)) world := by
  let arguments := twoArguments "store" (",".intercalate listed) "in" folder
  have list : arguments.get? "store" = some (",".intercalate listed) := by
    simp [arguments, get?_twoArguments]
  have into : arguments.get? "in" = some folder := by simp [arguments, get?_twoArguments]
  have unnamed : arguments.get? "as" = none := by simp [arguments, get?_twoArguments]
  have converter : arguments.get? "with" = none := by simp [arguments, get?_twoArguments]
  have chosen : Action.store.perform archive arguments world =
      Form.storeNames.run archive arguments world := by
    apply perform_second rfl (by simp [Form.signature] : ("as", Rule.oneIdentifier) ∈ _) unnamed
    · simp [Form.signature]
    · intro rule mem
      simp only [Form.signature, List.mem_cons, List.not_mem_nil, or_false] at mem
      rcases mem with rfl | rfl
      · exact Finding.ofRule_right list (check_someVariables h bound)
      · exact Finding.ofRule_right into (check_folder h _)
    · intro rule mem
      simp only [Form.signature, List.mem_cons, List.not_mem_nil, or_false] at mem
      rcases mem with rfl | rfl
      · exact converter
      · exact unnamed
    · rfl
    · intro name mem
      apply bound
      apply Rule.triedNames_subset world.context listed
      simpa [Signature.namesProbed, Form.signature, list, into, unnamed, Rule.lookedUp,
        names_intercalate h] using mem
  rw [chosen]
  exact (Effect.bind_of_ok (need_ok into)).trans (Effect.bind_of_ok (needNames_ok h list))

theorem perform_importLine (h : Listing listed folder) {archive : Archive} {world : World} :
    Action.load.perform archive (twoArguments "from" folder "import" (",".intercalate listed))
        world =
      Form.loadAll archive (twoArguments "from" folder "import" (",".intercalate listed))
        (listed.map fun name => (Form.memberPath folder name, name)) world := by
  let arguments := twoArguments "from" folder "import" (",".intercalate listed)
  have list : arguments.get? "import" = some (",".intercalate listed) := by
    simp [arguments, get?_twoArguments]
  have origin : arguments.get? "from" = some folder := by simp [arguments, get?_twoArguments]
  have unnamed : arguments.get? "as" = none := by simp [arguments, get?_twoArguments]
  have converter : arguments.get? "with" = none := by simp [arguments, get?_twoArguments]
  have chosen : Action.load.perform archive arguments world =
      Form.importNames.run archive arguments world := by
    apply perform_second rfl (by simp [Form.signature] : ("as", Rule.oneIdentifier) ∈ _) unnamed
    · simp [Form.signature]
    · intro rule mem
      simp only [Form.signature, List.mem_cons, List.not_mem_nil, or_false] at mem
      rcases mem with rfl | rfl
      · exact Finding.ofRule_right list (check_someIdentifiers h _)
      · exact Finding.ofRule_right origin (check_folder h _)
    · intro rule mem
      simp only [Form.signature, List.mem_cons, List.not_mem_nil, or_false] at mem
      rcases mem with rfl | rfl
      · exact converter
      · exact unnamed
    · rfl
    · intro name mem
      simp [Signature.namesProbed, Form.signature, list, origin, unnamed, Rule.lookedUp] at mem
  have targets : Form.importTargets folder listed (arguments.get? "as") world =
      (.ok (listed.map fun name => (Form.memberPath folder name, name)), world) := by
    rw [unnamed]
    rfl
  rw [chosen]
  refine (Effect.bind_of_ok (need_ok origin)).trans ?_
  refine (Effect.bind_of_ok (needNames_ok h list)).trans ?_
  exact Effect.bind_of_ok targets

theorem ofArguments_storeLine (list folder : String) :
    Action.ofArguments (twoArguments "store" list "in" folder) = .ok .store := by
  simp [Action.ofArguments, Action.all, Action.keyword, Table.contains, get?_twoArguments]

theorem ofArguments_importLine (folder list : String) :
    Action.ofArguments (twoArguments "from" folder "import" list) = .ok .load := by
  simp [Action.ofArguments, Action.all, Action.keyword, Table.contains, get?_twoArguments]

/-- A command without a converter converts by default. -/
theorem converter_none {arguments : Arguments} (absent : arguments.get? "with" = none)
    (toBytes : Bool) (world : World) :
    Form.converter arguments toBytes world = (.ok none, world) := by
  rw [Form.converter, absent]
  rfl

end Command
end ObjectVault
