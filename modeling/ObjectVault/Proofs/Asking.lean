import ObjectVault.Proofs.Literals
import ObjectVault.Proofs.Plans
import ObjectVault.Proofs.Validating

namespace ObjectVault.Command
open ObjectVault.Text

/-- The keyword has a folder without quotes. -/
structure Bare (arguments : Arguments) (keyword folder : String) : Prop where
  given : arguments.get? keyword = some folder
  bare : Rule.isLiteral folder = .ok false

/-- The keyword has a literal that stands for the path. -/
def Literal (arguments : Arguments) (keyword path : String) : Prop :=
  ∃ token, arguments.get? keyword = some token ∧ Rule.isLiteral token = .ok true ∧
    unquote token = .ok path

/-- Identifiers are to be imported from a folder. -/
structure FromFolder (arguments : Arguments) (folder list : String) (listed : List String) :
    Prop where
  place : Bare arguments "from" folder
  given : arguments.get? "import" = some list
  names : names list = .ok listed
  identifiers : ∀ name ∈ listed, isIdentifier name = true

/-- What arguments ask for. Names go with a folder, under themselves or a single one under another
name, and a literal is a path. Where no identifiers are to be imported from a folder, what is
imported is a path or the folder itself, and another folder that they come with counts for
nothing. -/
inductive Asks (arguments : Arguments) : Plan → Prop
  | store {list folder : String} {listed : List String}
    (given : arguments.get? "store" = some list) (several : names list = .ok listed)
    (place : Bare arguments "in" folder) (unnamed : arguments.get? "as" = none) :
    Asks arguments (.store (Form.folderTargets folder listed))
  | storeAs {list folder name other : String} (given : arguments.get? "store" = some list)
    (single : names list = .ok [name]) (place : Bare arguments "in" folder)
    (named : arguments.get? "as" = some other) :
    Asks arguments (.store [(Form.memberPath folder other, name)])
  | storeAt {path name : String} (given : arguments.get? "store" = some name)
    (single : names name = .ok [name]) (place : Literal arguments "in" path)
    (unnamed : arguments.get? "as" = none) : Asks arguments (.store [(path, name)])
  | load {folder list : String} {listed : List String}
    (given : FromFolder arguments folder list listed) (unnamed : arguments.get? "as" = none) :
    Asks arguments (.load (Form.folderTargets folder listed))
  | loadAs {folder list name other : String} (given : FromFolder arguments folder list [name])
    (named : arguments.get? "as" = some other) :
    Asks arguments (.load [(Form.memberPath folder name, other)])
  | loadAt {path other : String}
    (unlisted : ∀ folder list listed, ¬ FromFolder arguments folder list listed)
    (given : Literal arguments "import" path) (named : arguments.get? "as" = some other) :
    Asks arguments (.load [(path, other)])
  | view {folder name path : String}
    (unlisted : ∀ folder list listed, ¬ FromFolder arguments folder list listed)
    (given : Bare arguments "import" folder) (unconverted : arguments.get? "with" = none)
    (target : Form.viewTarget folder (arguments.get? "as") = (name, path)) :
    Asks arguments (.view name path)
  | delete {name folder : String} (given : arguments.get? "del" = some name)
    (place : Bare arguments "from" folder) : Asks arguments (.delete (Form.memberPath folder name))
  | deleteAt {path : String} (given : Literal arguments "del" path) : Asks arguments (.delete path)
  | verify {name folder : String} (given : arguments.get? "assert" = some name)
    (place : Bare arguments "in" folder) : Asks arguments (.verify (Form.memberPath folder name))
  | verifyAt {path : String} (given : Literal arguments "assert" path) :
    Asks arguments (.verify path)

theorem names_of_word {name : String} (h : Word name) (unstarred : name ≠ "*") :
    names name = .ok [name] := by
  have commaless : ',' ∉ name.toList := fun mem => (h.plain ',' mem).2 rfl
  have trimmed : trim name.toList = name.toList :=
    trim_of_no_blank fun c mem => not_isBlank_of_isPlain (h.plain c mem).1
  have same : listedNames name = [name] := by
    rw [listedNames, List.splitOn_eq_singleton commaless]
    simp [trimmed]
  rw [names, same, if_neg]
  simpa using unstarred.symm

theorem names_of_isDottedIdentifier {name : String} (h : isDottedIdentifier name = true) :
    names name = .ok [name] := by
  refine names_of_word (word_of_isDottedIdentifier h) ?_
  rintro rfl
  exact absurd h (by decide +kernel)

namespace Form
variable {arguments : Arguments} {keyword other path given : String} {listed : List String}

theorem value_eq_ok_iff : value arguments keyword = .ok given ↔
    arguments.get? keyword = some given := by
  rw [value, Arguments.need]
  cases arguments.get? keyword <;> simp [Except.mapError]

theorem listed_eq_ok_iff : Form.listed arguments keyword = .ok listed ↔
    ∃ list, arguments.get? keyword = some list ∧ names list = .ok listed := by
  simp only [Form.listed, checked_bind_eq_ok_iff, value_eq_ok_iff]

theorem member_eq_ok_iff : member arguments keyword other = .ok path ↔
    ∃ folder name, arguments.get? keyword = some folder ∧ arguments.get? other = some name ∧
      memberPath folder name = path := by
  simp only [member, checked_bind_eq_ok_iff, value_eq_ok_iff, pure, Except.pure, Except.ok.injEq]
  constructor
  · rintro ⟨folder, place, name, given, same⟩
    exact ⟨folder, name, place, given, same⟩
  · rintro ⟨folder, name, place, given, same⟩
    exact ⟨folder, place, name, given, same⟩

theorem literal_eq_ok_iff : literal arguments keyword = .ok path ↔
    ∃ token, arguments.get? keyword = some token ∧ unquote token = .ok path := by
  simp only [literal, checked_bind_eq_ok_iff, value_eq_ok_iff]
  refine exists_congr fun token => and_congr_right fun _ => ?_
  cases unquote token <;> simp [Except.mapError]

end Form

variable {context : Context} {arguments : Arguments} {form : Form} {plan : Plan}

theorem Bare.of_complete {signature : Signature} {keyword folder : String}
    (complete : signature.Complete context arguments)
    (required : (keyword, .folder) ∈ signature.required)
    (given : arguments.get? keyword = some folder) : Bare arguments keyword folder := by
  obtain ⟨folder', given', bare⟩ := complete _ required
  cases given.symm.trans given'
  exact ⟨given, bare⟩

theorem Literal.of_complete {signature : Signature} {keyword path : String}
    (complete : signature.Complete context arguments)
    (required : (keyword, .path) ∈ signature.required)
    (planned : Form.literal arguments keyword = .ok path) : Literal arguments keyword path := by
  obtain ⟨token, given, text⟩ := Form.literal_eq_ok_iff.mp planned
  obtain ⟨token', given', quoted⟩ := complete _ required
  cases given.symm.trans given'
  exact ⟨token, given, quoted, text⟩

theorem asks_store (chosen : Action.store.choose context arguments = some form)
    (valid : form.signature.validate context arguments = .ok ())
    (planned : form.plan arguments = .ok plan) : Asks arguments plan := by
  obtain ⟨own, complete⟩ := Action.complete_of_choose chosen
  simp only [Action.forms, List.mem_cons, List.not_mem_nil, or_false] at own
  rcases own with rfl | rfl | rfl
  · simp only [Form.plan, checked_bind_eq_ok_iff, Form.listed_eq_ok_iff] at planned
    obtain ⟨listed, ⟨list, given, several⟩, planned⟩ := planned
    cases listed with
    | nil => cases planned
    | cons name others =>
      cases others with
      | nil =>
        simp only [checked_bind_eq_ok_iff, Form.member_eq_ok_iff] at planned
        obtain ⟨_, ⟨folder, other, place, named, rfl⟩, ⟨⟩⟩ := planned
        exact .storeAs given several (.of_complete complete (by simp [Form.signature]) place) named
      | cons => cases planned
  · simp only [Form.plan, checked_bind_eq_ok_iff, Form.listed_eq_ok_iff, Form.value_eq_ok_iff]
      at planned
    obtain ⟨folder, place, listed, ⟨list, given, several⟩, ⟨⟩⟩ := planned
    exact .store given several (.of_complete complete (by simp [Form.signature]) place)
      (Action.unnamed_of_storeNames chosen valid)
  · simp only [Form.plan, checked_bind_eq_ok_iff, Form.value_eq_ok_iff] at planned
    obtain ⟨path, text, name, given, ⟨⟩⟩ := planned
    obtain ⟨name', given', b, found⟩ := complete ("store", .oneVariable) (by simp [Form.signature])
    cases given.symm.trans given'
    obtain ⟨-, -, disallowed⟩ :=
      (Signature.validate_eq_ok_iff Form.storeAt.required_ne_nil).mp valid
    exact .storeAt given
      (names_of_isDottedIdentifier (Context.isDottedIdentifier_of_lookup found))
      (.of_complete complete (by simp [Form.signature]) text)
      (disallowed ("as", Form.aliasForPath) (by simp [Form.signature]))

/-- Identifiers from a folder are imported by one of the first two forms. -/
theorem FromFolder.choose {folder list : String} {listed : List String}
    (h : FromFolder arguments folder list listed) (context : Context) :
    Action.load.choose context arguments = some .importAs ∨
      Action.load.choose context arguments = some .importNames := by
  have second : Form.importNames.signature.Complete context arguments := by
    intro rule mem
    simp only [Form.signature, List.mem_cons, List.not_mem_nil, or_false] at mem
    rcases mem with rfl | rfl
    · exact ⟨list, h.given, listed, h.names, h.identifiers⟩
    · exact ⟨folder, h.place.given, h.place.bare⟩
  by_cases first : Form.importAs.signature.Complete context arguments
  · exact .inl (Action.choose_first rfl first)
  · exact .inr (Action.choose_second rfl first second)

theorem asks_load (chosen : Action.load.choose context arguments = some form)
    (valid : form.signature.validate context arguments = .ok ())
    (planned : form.plan arguments = .ok plan) : Asks arguments plan := by
  obtain ⟨own, complete⟩ := Action.complete_of_choose chosen
  obtain ⟨-, -, disallowed⟩ := (Signature.validate_eq_ok_iff form.required_ne_nil).mp valid
  simp only [Action.forms, List.mem_cons, List.not_mem_nil, or_false] at own
  rcases own with rfl | rfl | rfl | rfl
  · simp only [Form.plan, checked_bind_eq_ok_iff, Form.member_eq_ok_iff, Form.value_eq_ok_iff]
      at planned
    obtain ⟨_, ⟨folder, name, place, given, rfl⟩, other, named, ⟨⟩⟩ := planned
    obtain ⟨name', given', valid⟩ := complete ("import", .oneIdentifier) (by simp [Form.signature])
    cases given.symm.trans given'
    refine .loadAs ⟨.of_complete complete (by simp [Form.signature]) place, given,
      names_of_isDottedIdentifier (isDottedIdentifier_of_isIdentifier valid), ?_⟩ named
    exact List.forall_mem_singleton.mpr valid
  · simp only [Form.plan, checked_bind_eq_ok_iff, Form.listed_eq_ok_iff, Form.value_eq_ok_iff]
      at planned
    obtain ⟨folder, place, listed, ⟨list, given, several⟩, targets, targeted, ⟨⟩⟩ := planned
    obtain ⟨list', given', listed', several', identifiers⟩ :=
      complete ("import", .someIdentifiers) (by simp [Form.signature])
    cases given.symm.trans given'
    cases several.symm.trans several'
    have origin : FromFolder arguments folder list listed :=
      ⟨.of_complete complete (by simp [Form.signature]) place, given, several, identifiers⟩
    cases named : arguments.get? "as" with
    | none =>
      rw [named] at targeted
      cases targeted
      exact .load origin named
    | some other =>
      rw [named] at targeted
      cases listed with
      | nil => cases targeted
      | cons name others =>
        cases others with
        | nil =>
          cases targeted
          exact .loadAs origin named
        | cons => cases targeted
  · simp only [Form.plan, checked_bind_eq_ok_iff, Form.value_eq_ok_iff] at planned
    obtain ⟨path, text, other, named, ⟨⟩⟩ := planned
    refine .loadAt (fun folder list listed origin => ?_)
      (.of_complete complete (by simp [Form.signature]) text) named
    rcases origin.choose context with other | other <;> cases chosen.symm.trans other
  · simp only [Form.plan, checked_bind_eq_ok_iff, Form.value_eq_ok_iff] at planned
    obtain ⟨folder, given, ⟨⟩⟩ := planned
    refine .view (fun folder list listed origin => ?_)
      (.of_complete complete (by simp [Form.signature]) given)
      (disallowed ("with", Form.importerForFolder) (by simp [Form.signature])) rfl
    rcases origin.choose context with other | other <;> cases chosen.symm.trans other

theorem asks_delete (chosen : Action.delete.choose context arguments = some form)
    (planned : form.plan arguments = .ok plan) : Asks arguments plan := by
  obtain ⟨own, complete⟩ := Action.complete_of_choose chosen
  rcases List.mem_pair.mp own with rfl | rfl
  · simp only [Form.plan, checked_bind_eq_ok_iff, Form.member_eq_ok_iff] at planned
    obtain ⟨_, ⟨folder, name, place, given, rfl⟩, ⟨⟩⟩ := planned
    exact .delete given (.of_complete complete (by simp [Form.signature]) place)
  · simp only [Form.plan, checked_bind_eq_ok_iff] at planned
    obtain ⟨path, text, ⟨⟩⟩ := planned
    exact .deleteAt (.of_complete complete (by simp [Form.signature]) text)

theorem asks_verify (chosen : Action.verify.choose context arguments = some form)
    (planned : form.plan arguments = .ok plan) : Asks arguments plan := by
  obtain ⟨own, complete⟩ := Action.complete_of_choose chosen
  rcases List.mem_pair.mp own with rfl | rfl
  · simp only [Form.plan, checked_bind_eq_ok_iff, Form.member_eq_ok_iff] at planned
    obtain ⟨_, ⟨folder, name, place, given, rfl⟩, ⟨⟩⟩ := planned
    exact .verify given (.of_complete complete (by simp [Form.signature]) place)
  · simp only [Form.plan, checked_bind_eq_ok_iff] at planned
    obtain ⟨path, text, ⟨⟩⟩ := planned
    exact .verifyAt (.of_complete complete (by simp [Form.signature]) text)

/-- The plan of a task is what its arguments ask for. -/
theorem asks_of_task {line : String} {task : Task}
    (asked : Task.ofLine? context line = some task) : Asks task.arguments task.plan := by
  obtain ⟨-, -, chosen, valid, planned⟩ := Task.ofLine?_eq_some_iff.mp asked
  obtain ⟨arguments, action, form, plan⟩ := task
  cases action with
  | store => exact asks_store chosen valid planned
  | load => exact asks_load chosen valid planned
  | delete => exact asks_delete chosen planned
  | verify => exact asks_verify chosen planned

/-- The action that a plan is of. -/
def Plan.action : Plan → Action
  | store _ => .store
  | load _ | view _ _ => .load
  | delete _ => .delete
  | verify _ => .verify

theorem Asks.given (h : Asks arguments plan) :
    ∃ value, arguments.get? plan.action.keyword = some value := by
  cases h with
  | store given | storeAs given | storeAt given | delete given | verify given => exact ⟨_, given⟩
  | load origin | loadAs origin => exact ⟨_, origin.given⟩
  | loadAt _ literal | deleteAt literal | verifyAt literal =>
    obtain ⟨token, given, -⟩ := literal
    exact ⟨token, given⟩
  | view _ bare => exact ⟨_, bare.given⟩

theorem Form.map_folderTargets (folder : String) (listed : List String) :
    (folderTargets folder listed).map Prod.snd = listed := by
  rw [folderTargets, List.map_map]
  exact List.map_id listed

/-- The variables of a store are those that its keyword lists. -/
theorem Asks.listed {targets : List (String × String)} (h : Asks arguments (.store targets)) :
    ∃ list, arguments.get? "store" = some list ∧ names list = .ok (targets.map Prod.snd) := by
  cases h with
  | @store list folder listed given several =>
    exact ⟨list, given, by rw [several, Form.map_folderTargets]⟩
  | storeAs given single => exact ⟨_, given, single⟩
  | storeAt given single => exact ⟨_, given, single⟩

/-- The action of arguments is the one whose keyword they have. -/
theorem Action.eq_of_given {action other : Action} {value : String}
    (acts : Action.ofArguments arguments = .ok action)
    (given : arguments.get? other.keyword = some value) : action = other := by
  have own : other ∈ Action.all.filter (arguments.contains ·.keyword) := by
    refine List.mem_filter.mpr ⟨by cases other <;> decide, ?_⟩
    simp [Table.contains, given]
  rw [Action.ofArguments] at acts
  split at acts
  · cases acts
  · next only =>
    cases acts
    rw [only] at own
    exact (List.mem_singleton.mp own).symm
  · cases acts

theorem Task.action_eq {line : String} {task : Task}
    (asked : Task.ofLine? context line = some task) : task.action = task.plan.action := by
  obtain ⟨-, acts, -⟩ := Task.ofLine?_eq_some_iff.mp asked
  obtain ⟨value, given⟩ := (asks_of_task asked).given
  exact Action.eq_of_given acts given

/-- Names that are to be stored in a folder are so stored. -/
theorem Asks.plan_eq_store {list folder : String} {listed : List String}
    (h : Asks (twoArguments "store" list "in" folder) plan) (several : names list = .ok listed)
    (bare : Rule.isLiteral folder = .ok false) :
    plan = .store (Form.folderTargets folder listed) := by
  cases h with
  | @store list' folder' listed' given several' place unnamed =>
    have same : list' = list := by simpa [get?_twoArguments, eq_comm] using given
    have same' : folder' = folder := by simpa [get?_twoArguments, eq_comm] using place.given
    subst same same'
    cases several.symm.trans several'
    rfl
  | storeAs _ _ _ named => simp [get?_twoArguments] at named
  | storeAt _ _ path =>
    obtain ⟨token, given, quoted, -⟩ := path
    have same : token = folder := by simpa [get?_twoArguments, eq_comm] using given
    cases bare.symm.trans (same ▸ quoted)
  | load origin | loadAs origin =>
    have given := origin.given
    simp [get?_twoArguments] at given
  | loadAt _ path | deleteAt path | verifyAt path =>
    obtain ⟨token, given, -⟩ := path
    simp [get?_twoArguments] at given
  | view _ bare =>
    have given := bare.given
    simp [get?_twoArguments] at given
  | delete given | verify given => simp [get?_twoArguments] at given

/-- The task of a line that stores variables in a folder. -/
theorem task_storeLine {listed : List String} {folder : String} (h : Listing listed folder)
    (bound : ∀ name ∈ listed, context.scope.contains name = true) :
    Task.ofLine? context (storeLine listed folder) =
      some ⟨twoArguments "store" (",".intercalate listed) "in" folder, .store, .storeNames,
        .store (Form.folderTargets folder listed)⟩ := by
  let arguments := twoArguments "store" (",".intercalate listed) "in" folder
  have list : arguments.get? "store" = some (",".intercalate listed) := by
    simp [arguments, get?_twoArguments]
  have into : arguments.get? "in" = some folder := by simp [arguments, get?_twoArguments]
  have unnamed : arguments.get? "as" = none := by simp [arguments, get?_twoArguments]
  have usual : arguments.get? "with" = none := by simp [arguments, get?_twoArguments]
  have complete : Form.storeNames.signature.Complete context arguments := by
    simp only [Signature.Complete, Form.signature, List.forall_mem_cons, ← Rule.check_iff]
    exact ⟨⟨_, list, check_someVariables h bound⟩, ⟨_, into, check_folder h context⟩,
      List.forall_mem_nil _⟩
  have passes : Signature.Passes Form.storeNames.signature.optional context arguments := by
    simp only [Signature.Passes, Form.signature, List.forall_mem_cons]
    exact ⟨by simp [usual], by simp [unnamed], List.forall_mem_nil _⟩
  have chosen : Action.store.choose context arguments = some .storeNames := by
    refine Action.choose_second rfl (fun other => ?_) complete
    obtain ⟨_, given, -⟩ := other ("as", .oneIdentifier) (by simp [Form.signature])
    cases unnamed.symm.trans given
  have valid : Form.storeNames.signature.validate context arguments = .ok () :=
    (Signature.validate_eq_ok_iff Form.storeNames.required_ne_nil).mpr
      ⟨complete, passes, List.forall_mem_nil _⟩
  have planned : Form.storeNames.plan arguments =
      .ok (.store (Form.folderTargets folder listed)) := by
    simp only [Form.plan, checked_bind_eq_ok_iff, Form.listed_eq_ok_iff, Form.value_eq_ok_iff]
    exact ⟨folder, into, listed, ⟨_, list, names_intercalate h⟩, rfl⟩
  exact Task.ofLine?_eq_some_iff.mpr
    ⟨ofLine_storeLine h, ofArguments_storeLine _ _, chosen, valid, planned⟩

/-- A line that deletes a variable from a folder. -/
def deleteLine (name folder : String) : String :=
  " ".intercalate ["del", name, "from", folder]

/-- The task of a line that deletes a variable from a folder. -/
theorem task_deleteLine {name folder : String} (named : isIdentifier name = true)
    (word : Word folder) :
    Task.ofLine? context (deleteLine name folder) =
      some ⟨twoArguments "del" name "from" folder, .delete, .deleteName,
        .delete (Form.memberPath folder name)⟩ := by
  let arguments := twoArguments "del" name "from" folder
  have given : arguments.get? "del" = some name := by simp [arguments, get?_twoArguments]
  have place : arguments.get? "from" = some folder := by simp [arguments, get?_twoArguments]
  have words : ∀ word ∈ ["del", name, "from", folder], Word word := by
    simp only [List.forall_mem_cons]
    exact ⟨by decide, word_of_isIdentifier named, by decide, word, List.forall_mem_nil _⟩
  have read : Arguments.ofLine (deleteLine name folder) = .ok arguments :=
    ofLine_of_values fun word mem => (words word mem).isValue
  have acts : Action.ofArguments arguments = .ok .delete := by
    simp [arguments, Action.ofArguments, Action.all, Action.keyword, Table.contains,
      get?_twoArguments]
  have complete : Form.deleteName.signature.Complete context arguments := by
    simp only [Signature.Complete, Form.signature, List.forall_mem_cons]
    exact ⟨⟨_, given, named⟩, ⟨_, place, isLiteral_of_word word⟩, List.forall_mem_nil _⟩
  have valid : Form.deleteName.signature.validate context arguments = .ok () :=
    (Signature.validate_eq_ok_iff Form.deleteName.required_ne_nil).mpr
      ⟨complete, List.forall_mem_nil _, List.forall_mem_nil _⟩
  have planned : Form.deleteName.plan arguments = .ok (.delete (Form.memberPath folder name)) := by
    simp only [Form.plan, checked_bind_eq_ok_iff, Form.member_eq_ok_iff]
    exact ⟨_, ⟨folder, name, place, given, rfl⟩, rfl⟩
  exact Task.ofLine?_eq_some_iff.mpr
    ⟨read, acts, Action.choose_first rfl complete, valid, planned⟩

end ObjectVault.Command
