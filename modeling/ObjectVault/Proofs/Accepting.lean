import ObjectVault.Proofs.Asserting
import ObjectVault.Proofs.Literals
import ObjectVault.Proofs.Provenance
import Mathlib.Data.List.Find

namespace ObjectVault.Command
open ObjectVault.Text

/-- A name that stands for something. -/
def Context.Knows (context : Context) (name : String) : Prop :=
  isDottedIdentifier name = true ∧ ∃ b, context.scope.resolve context.directory name = .ok b

/-- A name that stands for a converter. -/
def Context.Converts (context : Context) (name : String) : Prop :=
  isDottedIdentifier name = true ∧
    ∃ c, context.scope.resolve context.directory name = .ok (.converter c)

/-- The keyword has a value of some kind. -/
def Given (arguments : Arguments) (keyword : String) (kind : String → Prop) : Prop :=
  ∃ value, arguments.get? keyword = some value ∧ kind value

/-- The keyword has a value of some kind, if it has one. -/
def Allowed (arguments : Arguments) (keyword : String) (kind : String → Prop) : Prop :=
  ∀ value, arguments.get? keyword = some value → kind value

/-- The commands that store, delete and verify, form by form. -/
inductive Grammatical (context : Context) (arguments : Arguments) : Form → Prop
  | storeAs
    (known : Given arguments "store" fun list => ∀ name ∈ listedNames list, context.Knows name)
    (folder : Given arguments "in" (opensLiteral · = false))
    (other : Given arguments "as" (isIdentifier · = true))
    (exporter : Allowed arguments "with" context.Converts) : Grammatical context arguments .storeAs
  | storeNames
    (known : Given arguments "store" fun list => ∀ name ∈ listedNames list, context.Knows name)
    (folder : Given arguments "in" (opensLiteral · = false))
    (unnamed : arguments.get? "as" = none)
    (exporter : Allowed arguments "with" context.Converts) :
    Grammatical context arguments .storeNames
  | storeAt
    (single : Given arguments "store" context.Knows)
    (path : Given arguments "in" (opensLiteral · = true))
    (unnamed : arguments.get? "as" = none)
    (exporter : Allowed arguments "with" context.Converts) : Grammatical context arguments .storeAt
  | deleteName
    (name : Given arguments "del" (isIdentifier · = true))
    (folder : Given arguments "from" (opensLiteral · = false)) :
    Grammatical context arguments .deleteName
  | deleteAt
    (path : Given arguments "del" (opensLiteral · = true)) : Grammatical context arguments .deleteAt
  | verifyName
    (name : Given arguments "assert" context.Knows)
    (folder : Given arguments "in" (opensLiteral · = false))
    (hash : Given arguments "is" fun hash => hash.utf8ByteSize = 8 ∨ hash.utf8ByteSize = 64)
    (method : Allowed arguments "with" fun name => name = "CRC32" ∨ name = "SHA256") :
    Grammatical context arguments .verifyName
  | verifyAt
    (path : Given arguments "assert" (opensLiteral · = true))
    (hash : Given arguments "is" fun hash => hash.utf8ByteSize = 8 ∨ hash.utf8ByteSize = 64)
    (method : Allowed arguments "with" fun name => name = "CRC32" ∨ name = "SHA256") :
    Grammatical context arguments .verifyAt

namespace Rule
variable {context : Context} {value : String}

theorem met_oneVariable_iff : oneVariable.Met context value ↔ context.Knows value := by
  simp only [Met, Context.lookup_eq_ok_iff, Context.Knows, exists_and_left]

/-- A list of variables that stand for something holds no wildcard, which is no name. -/
theorem met_someVariables_iff :
    someVariables.Met context value ↔ ∀ name ∈ listedNames value, context.Knows name := by
  simp only [Met, Context.lookup_eq_ok_iff, exists_and_left, ← Context.Knows.eq_def]
  constructor
  · rintro ⟨listed, several, known⟩
    rw [names] at several
    split at several
    · cases several
    · cases several
      exact known
  · intro known
    refine ⟨listedNames value, ?_, known⟩
    rw [names, if_neg]
    intro star
    exact absurd (known "*" (by simpa using star)).1 (by decide +kernel)

theorem met_function_iff : function.Met context value ↔ context.Converts value := by
  simp only [Met, Context.lookup_eq_ok_iff, Context.Converts, exists_and_left]

theorem met_hashMethod_iff :
    hashMethod.Met context value ↔ value = "CRC32" ∨ value = "SHA256" := by
  rw [Met]
  constructor
  · rintro ⟨method, known⟩
    have named := List.find?_some known
    cases method <;> simp [HashMethod.name] at named <;> simp [← named]
  · rintro (rfl | rfl)
    · exact ⟨.crc32, by decide⟩
    · exact ⟨.sha256, by decide⟩

end Rule

section Lines
variable {context : Context} {arguments : Arguments} {line keyword : String}

/-- A value of a line is a path if it begins with a quote, and else a folder. -/
theorem given_folder_iff (read : Arguments.ofLine line = .ok arguments) :
    Given arguments keyword (Rule.folder.Met context) ↔
      Given arguments keyword (opensLiteral · = false) := by
  refine exists_congr fun value => and_congr_right fun given => ?_
  simp only [Rule.Met, isLiteral_of_ofLine read given, Except.ok.injEq]

theorem given_path_iff (read : Arguments.ofLine line = .ok arguments) :
    Given arguments keyword (Rule.path.Met context) ↔
      Given arguments keyword (opensLiteral · = true) := by
  refine exists_congr fun value => and_congr_right fun given => ?_
  simp only [Rule.Met, isLiteral_of_ofLine read given, Except.ok.injEq]

theorem given_variables_iff : Given arguments keyword (Rule.someVariables.Met context) ↔
    Given arguments keyword fun list => ∀ name ∈ listedNames list, context.Knows name :=
  exists_congr fun _ => and_congr_right fun _ => Rule.met_someVariables_iff

theorem given_variable_iff : Given arguments keyword (Rule.oneVariable.Met context) ↔
    Given arguments keyword context.Knows :=
  exists_congr fun _ => and_congr_right fun _ => Rule.met_oneVariable_iff

theorem given_hash_iff : Given arguments keyword (Rule.hash.Met context) ↔
    Given arguments keyword fun hash => hash.utf8ByteSize = 8 ∨ hash.utf8ByteSize = 64 :=
  exists_congr fun _ => and_congr_right fun _ => met_hash_iff

theorem allowed_converter_iff : Allowed arguments keyword (Rule.function.Met context) ↔
    Allowed arguments keyword context.Converts :=
  forall₂_congr fun _ _ => Rule.met_function_iff

theorem allowed_hashMethod_iff : Allowed arguments keyword (Rule.hashMethod.Met context) ↔
    Allowed arguments keyword fun name => name = "CRC32" ∨ name = "SHA256" :=
  forall₂_congr fun _ _ => Rule.met_hashMethod_iff

/-- A value is not both a folder and a path. -/
theorem not_folder_and_path (folder : Given arguments keyword (Rule.folder.Met context))
    (path : Given arguments keyword (Rule.path.Met context)) : False := by
  obtain ⟨value, given, bare⟩ := folder
  obtain ⟨value', given', literal⟩ := path
  cases given.symm.trans given'
  cases bare.symm.trans literal

/-- A path is no name, as it has a quote in front. -/
theorem not_word_of_path (read : Arguments.ofLine line = .ok arguments)
    (path : Given arguments keyword (opensLiteral · = true)) {token : String}
    (given : arguments.get? keyword = some token) : ¬ Word token := by
  intro word
  obtain ⟨token', given', opens⟩ := path
  cases given.symm.trans given'
  have bare := isLiteral_of_word word
  rw [isLiteral_of_ofLine read given, opens] at bare
  cases bare

/-- What is not given may be anything. -/
theorem Allowed.of_absent {kind : String → Prop} (absent : arguments.get? keyword = none) :
    Allowed arguments keyword kind := by
  intro value given
  cases absent.symm.trans given

/-- A signature is not complete without what it requires. -/
theorem Signature.not_complete_of_absent {signature : Signature} {rule : String × Rule}
    (part : rule ∈ signature.required) (absent : arguments.get? rule.1 = none) :
    ¬ signature.Complete context arguments := by
  intro complete
  obtain ⟨_, given, -⟩ := complete rule part
  cases absent.symm.trans given

end Lines

/-- All keywords that a form has something to say about. -/
def Signature.mentioned (signature : Signature) : List String :=
  signature.required.map Prod.fst ++ signature.optional.map Prod.fst ++
    signature.disallowed.map Prod.fst

namespace Action
variable {action : Action} {context : Context} {arguments other : Arguments} {form : Form}
  {line : String}

/-- The action takes the arguments by a form, and nothing about them is wrong. -/
structure Accepts (action : Action) (context : Context) (arguments : Arguments) (form : Form) :
    Prop where
  chosen : action.choose context arguments = some form
  valid : form.signature.validate context arguments = .ok ()

/-- A form is chosen if it is complete and none before it is. -/
theorem choose_behind {before others : List Form} (forms : action.forms = before ++ form :: others)
    (incomplete : ∀ f ∈ before, ¬ f.signature.Complete context arguments)
    (complete : form.signature.Complete context arguments) :
    action.choose context arguments = some form := by
  have passed :
      before.find? (fun f => (f.signature.probe context arguments).isComplete) = none := by
    refine List.find?_eq_none.mpr fun f mem => ?_
    rw [Signature.isComplete_iff f.required_ne_nil]
    exact incomplete f mem
  rw [choose, forms, List.find?_append, passed, Option.none_or, List.find?_cons_of_pos]
  exact (Signature.isComplete_iff form.required_ne_nil).mpr complete

/-- An accepted form is complete, with right values for what else it may have. -/
theorem Accepts.parts (h : action.Accepts context arguments form) :
    form ∈ action.forms ∧ form.signature.Complete context arguments ∧
      Signature.Passes form.signature.optional context arguments ∧
      ∀ keyword ∈ form.signature.disallowed, arguments.get? keyword.1 = none :=
  ⟨(complete_of_choose h.chosen).1, (Signature.validate_eq_ok_iff form.required_ne_nil).mp h.valid⟩

theorem accepts_of_parts (before : List Form) {others : List Form}
    (forms : action.forms = before ++ form :: others)
    (incomplete : ∀ f ∈ before, ¬ f.signature.Complete context arguments)
    (complete : form.signature.Complete context arguments)
    (passes : Signature.Passes form.signature.optional context arguments)
    (allowed : ∀ keyword ∈ form.signature.disallowed, arguments.get? keyword.1 = none) :
    action.Accepts context arguments form :=
  ⟨choose_behind forms incomplete complete,
    (Signature.validate_eq_ok_iff form.required_ne_nil).mpr ⟨complete, passes, allowed⟩⟩

theorem Accepts.grammatical (read : Arguments.ofLine line = .ok arguments) (own : action ≠ .load)
    (h : action.Accepts context arguments form) : Grammatical context arguments form := by
  obtain ⟨mem, complete, passes, allowed⟩ := h.parts
  have given : ∀ rule ∈ form.signature.required,
      Given arguments rule.1 (rule.2.Met context) := complete
  have optional : ∀ rule ∈ form.signature.optional,
      Allowed arguments rule.1 (rule.2.Met context) := passes
  cases action with
  | load => exact absurd rfl own
  | store =>
    simp only [forms, List.mem_cons, List.not_mem_nil, or_false] at mem
    have exporter : Allowed arguments "with" context.Converts := by
      refine allowed_converter_iff.mp (optional ("with", .function) ?_)
      rcases mem with rfl | rfl | rfl <;> simp [Form.signature]
    rcases mem with rfl | rfl | rfl
    · exact .storeAs (given_variables_iff.mp (given _ (.head _)))
        ((given_folder_iff read).mp (given _ (.tail _ (.head _))))
        (given ("as", .oneIdentifier) (.tail _ (.tail _ (.head _)))) exporter
    · exact .storeNames (given_variables_iff.mp (given _ (.head _)))
        ((given_folder_iff read).mp (given _ (.tail _ (.head _))))
        (unnamed_of_storeNames h.chosen h.valid) exporter
    · exact .storeAt (given_variable_iff.mp (given _ (.head _)))
        ((given_path_iff read).mp (given _ (.tail _ (.head _))))
        (allowed _ (.head _)) exporter
  | delete =>
    rcases List.mem_pair.mp mem with rfl | rfl
    · exact .deleteName (given ("del", .oneIdentifier) (.head _))
        ((given_folder_iff read).mp (given _ (.tail _ (.head _))))
    · exact .deleteAt ((given_path_iff read).mp (given _ (.head _)))
  | verify =>
    have method : Allowed arguments "with" fun name => name = "CRC32" ∨ name = "SHA256" := by
      refine allowed_hashMethod_iff.mp (optional ("with", .hashMethod) ?_)
      rcases List.mem_pair.mp mem with rfl | rfl <;> exact .head _
    rcases List.mem_pair.mp mem with rfl | rfl
    · exact .verifyName (given_variable_iff.mp (given _ (.head _)))
        ((given_folder_iff read).mp (given _ (.tail _ (.head _))))
        (given_hash_iff.mp (given _ (.tail _ (.tail _ (.head _))))) method
    · exact .verifyAt ((given_path_iff read).mp (given _ (.head _)))
        (given_hash_iff.mp (given _ (.tail _ (.head _)))) method

theorem passes_single {keyword : String} {rule : Rule}
    (allowed : Allowed arguments keyword (rule.Met context)) :
    Signature.Passes [(keyword, rule)] context arguments :=
  List.forall_mem_singleton.mpr allowed

theorem accepts_store (read : Arguments.ofLine line = .ok arguments)
    (own : form ∈ store.forms) (h : Grammatical context arguments form) :
    store.Accepts context arguments form := by
  cases h with
  | storeAs known folder other exporter =>
    have complete : Form.storeAs.signature.Complete context arguments := by
      simp only [Signature.Complete, Form.signature, List.forall_mem_cons]
      exact ⟨given_variables_iff.mpr known, (given_folder_iff read).mpr folder, other,
        List.forall_mem_nil _⟩
    exact accepts_of_parts [] rfl (List.forall_mem_nil _) complete
      (passes_single (allowed_converter_iff.mpr exporter)) (List.forall_mem_nil _)
  | storeNames known folder unnamed exporter =>
    have complete : Form.storeNames.signature.Complete context arguments := by
      simp only [Signature.Complete, Form.signature, List.forall_mem_cons]
      exact ⟨given_variables_iff.mpr known, (given_folder_iff read).mpr folder,
        List.forall_mem_nil _⟩
    have passes : Signature.Passes Form.storeNames.signature.optional context arguments := by
      simp only [Signature.Passes, Form.signature, List.forall_mem_cons]
      exact ⟨allowed_converter_iff.mpr exporter, Allowed.of_absent unnamed, List.forall_mem_nil _⟩
    have first : ¬ Form.storeAs.signature.Complete context arguments :=
      Signature.not_complete_of_absent (.tail _ (.tail _ (.head _))) unnamed
    exact accepts_of_parts [.storeAs] rfl (List.forall_mem_singleton.mpr first) complete passes
      (List.forall_mem_nil _)
  | storeAt single path unnamed exporter =>
    have literal : Given arguments "in" (Rule.path.Met context) :=
      (given_path_iff read).mpr path
    have complete : Form.storeAt.signature.Complete context arguments := by
      simp only [Signature.Complete, Form.signature, List.forall_mem_cons]
      exact ⟨given_variable_iff.mpr single, literal, List.forall_mem_nil _⟩
    refine accepts_of_parts [.storeAs, .storeNames] rfl ?_ complete
      (passes_single (allowed_converter_iff.mpr exporter)) (List.forall_mem_singleton.mpr unnamed)
    refine List.forall_mem_cons.mpr
      ⟨fun first => ?_, List.forall_mem_singleton.mpr fun second => ?_⟩
    · exact not_folder_and_path (first ("in", .folder) (.tail _ (.head _))) literal
    · exact not_folder_and_path (second ("in", .folder) (.tail _ (.head _))) literal
  | deleteName | deleteAt | verifyName | verifyAt => simp [forms] at own

theorem accepts_delete (read : Arguments.ofLine line = .ok arguments)
    (own : form ∈ delete.forms) (h : Grammatical context arguments form) :
    delete.Accepts context arguments form := by
  cases h with
  | deleteName name folder =>
    have complete : Form.deleteName.signature.Complete context arguments := by
      simp only [Signature.Complete, Form.signature, List.forall_mem_cons]
      exact ⟨name, (given_folder_iff read).mpr folder, List.forall_mem_nil _⟩
    exact accepts_of_parts [] rfl (List.forall_mem_nil _) complete (List.forall_mem_nil _)
      (List.forall_mem_nil _)
  | deleteAt path =>
    have complete : Form.deleteAt.signature.Complete context arguments := by
      simp only [Signature.Complete, Form.signature, List.forall_mem_cons]
      exact ⟨(given_path_iff read).mpr path, List.forall_mem_nil _⟩
    refine accepts_of_parts [.deleteName] rfl ?_ complete (List.forall_mem_nil _)
      (List.forall_mem_nil _)
    refine List.forall_mem_singleton.mpr fun first => ?_
    obtain ⟨token, given, identifier⟩ := first ("del", .oneIdentifier) (.head _)
    exact not_word_of_path read path given (word_of_isIdentifier identifier)
  | storeAs | storeNames | storeAt | verifyName | verifyAt => simp [forms] at own

theorem accepts_verify (read : Arguments.ofLine line = .ok arguments)
    (own : form ∈ verify.forms) (h : Grammatical context arguments form) :
    verify.Accepts context arguments form := by
  cases h with
  | verifyName name folder hash method =>
    have complete : Form.verifyName.signature.Complete context arguments := by
      simp only [Signature.Complete, Form.signature, List.forall_mem_cons]
      exact ⟨given_variable_iff.mpr name, (given_folder_iff read).mpr folder,
        given_hash_iff.mpr hash, List.forall_mem_nil _⟩
    exact accepts_of_parts [] rfl (List.forall_mem_nil _) complete
      (passes_single (allowed_hashMethod_iff.mpr method)) (List.forall_mem_nil _)
  | verifyAt path hash method =>
    have complete : Form.verifyAt.signature.Complete context arguments := by
      simp only [Signature.Complete, Form.signature, List.forall_mem_cons]
      exact ⟨(given_path_iff read).mpr path, given_hash_iff.mpr hash, List.forall_mem_nil _⟩
    refine accepts_of_parts [.verifyName] rfl ?_ complete
      (passes_single (allowed_hashMethod_iff.mpr method)) (List.forall_mem_nil _)
    refine List.forall_mem_singleton.mpr fun first => ?_
    obtain ⟨token, given, known⟩ := first ("assert", .oneVariable) (.head _)
    have dotted := (Rule.met_oneVariable_iff.mp known).1
    exact not_word_of_path read path given (word_of_isDottedIdentifier dotted)
  | storeAs | storeNames | storeAt | deleteName | deleteAt => simp [forms] at own

/-- The keywords that the action reads. -/
def keywords : Action → List String
  | store => ["store", "in", "as", "with"]
  | load => ["import", "from", "as", "with"]
  | delete => ["del", "from"]
  | verify => ["assert", "in", "is", "with"]

theorem mentioned_mem {keyword : String} (own : form ∈ action.forms)
    (mentioned : keyword ∈ form.signature.mentioned) : keyword ∈ action.keywords := by
  have all : ∀ form ∈ action.forms, ∀ keyword ∈ form.signature.mentioned,
      keyword ∈ action.keywords := by
    cases action <;> decide
  exact all form own keyword mentioned

/-- What an action accepts depends on its own keywords alone. -/
theorem accepts_congr
    (same : ∀ keyword ∈ action.keywords, other.get? keyword = arguments.get? keyword) :
    action.Accepts context other form ↔ action.Accepts context arguments form := by
  have required : ∀ f ∈ action.forms,
      (f.signature.Complete context other ↔ f.signature.Complete context arguments) := by
    intro f own
    refine forall₂_congr fun rule mem => ?_
    rw [same rule.1 (mentioned_mem own (List.mem_append_left _
      (List.mem_append_left _ (List.mem_map_of_mem mem))))]
  have optional : ∀ f ∈ action.forms, (Signature.Passes f.signature.optional context other ↔
      Signature.Passes f.signature.optional context arguments) := by
    intro f own
    refine forall₂_congr fun rule mem => ?_
    rw [same rule.1 (mentioned_mem own (List.mem_append_left _
      (List.mem_append_right _ (List.mem_map_of_mem mem))))]
  have allowed : ∀ f ∈ action.forms,
      ((∀ keyword ∈ f.signature.disallowed, other.get? keyword.1 = none) ↔
        ∀ keyword ∈ f.signature.disallowed, arguments.get? keyword.1 = none) := by
    intro f own
    refine forall₂_congr fun keyword mem => ?_
    rw [same keyword.1 (mentioned_mem own (List.mem_append_right _ (List.mem_map_of_mem mem)))]
  have chosen : action.choose context other = action.choose context arguments := by
    refine List.find?_congr fun f own => Bool.eq_iff_iff.mpr ?_
    rw [Signature.isComplete_iff f.required_ne_nil, Signature.isComplete_iff f.required_ne_nil]
    exact required f own
  constructor
  · intro h
    have own := h.parts.1
    refine ⟨chosen ▸ h.chosen, (Signature.validate_eq_ok_iff form.required_ne_nil).mpr ?_⟩
    exact ⟨(required form own).mp h.parts.2.1, (optional form own).mp h.parts.2.2.1,
      (allowed form own).mp h.parts.2.2.2⟩
  · intro h
    have own := h.parts.1
    refine ⟨chosen ▸ h.chosen, (Signature.validate_eq_ok_iff form.required_ne_nil).mpr ?_⟩
    exact ⟨(required form own).mpr h.parts.2.1, (optional form own).mpr h.parts.2.2.1,
      (allowed form own).mpr h.parts.2.2.2⟩

/-- A command whose arguments are accepted by a form runs that form. -/
theorem perform_of_accepts {archive : Archive} {world : World}
    (h : action.Accepts world.context arguments form) :
    action.perform archive arguments world =
      form.run archive arguments (action.noted arguments world) := by
  rw [perform, Effect.bind_of_ok (Effect.get_apply world), RunM.noteLookups,
    Effect.bind_of_ok (Effect.modify_apply _ world)]
  simp only [h.chosen, h.valid]
  rfl

/-- A command whose arguments are accepted by no form fails, and nothing but lookups happens. -/
theorem perform_of_unaccepted {archive : Archive} {world : World}
    (h : ∀ form, ¬ action.Accepts world.context arguments form) :
    ∃ e, action.perform archive arguments world = (.error e, action.noted arguments world) := by
  rw [perform, Effect.bind_of_ok (Effect.get_apply world), RunM.noteLookups,
    Effect.bind_of_ok (Effect.modify_apply _ world)]
  cases chosen : action.choose world.context arguments with
  | none => exact ⟨_, rfl⟩
  | some form =>
    cases valid : form.signature.validate world.context arguments with
    | ok _ => exact absurd ⟨chosen, valid⟩ (h form)
    | error e =>
      simp only [valid]
      exact ⟨e, rfl⟩

/-- The lines that store, delete and verify are accepted exactly by their grammar. The form of the
grammar is the one that runs, and no other keyword counts. -/
theorem accepts_iff_grammatical (read : Arguments.ofLine line = .ok arguments)
    (covered : action ≠ .load) (world : World) :
    (∀ form, action.Accepts world.context arguments form ↔
      form ∈ action.forms ∧ Grammatical world.context arguments form) ∧
    (∀ other : Arguments,
      (∀ keyword ∈ action.keywords, other.get? keyword = arguments.get? keyword) →
      ∀ form, action.Accepts world.context other form ↔
        action.Accepts world.context arguments form) ∧
    ∀ archive : Archive,
      (∀ form, action.Accepts world.context arguments form →
        action.perform archive arguments world =
          form.run archive arguments (action.noted arguments world)) ∧
      ((∀ form, ¬ action.Accepts world.context arguments form) →
        ∃ e, action.perform archive arguments world =
          (.error e, action.noted arguments world)) := by
  refine ⟨fun form => ⟨fun h => ⟨h.parts.1, h.grammatical read covered⟩, ?_⟩,
    fun other same form => accepts_congr same,
    fun archive => ⟨fun form => perform_of_accepts, perform_of_unaccepted⟩⟩
  rintro ⟨own, grammatical⟩
  cases action with
  | load => exact absurd rfl covered
  | store => exact accepts_store read own grammatical
  | delete => exact accepts_delete read own grammatical
  | verify => exact accepts_verify read own grammatical

/-- A number is stored in a folder by the form for names, and an alias would lead to another. -/
theorem accepts_storeLine_note :
    Arguments.ofLine (storeLine ["x"] "notes") = .ok (twoArguments "store" "x" "in" "notes") ∧
      store.Accepts Session.noteWorld.context (twoArguments "store" "x" "in" "notes") .storeNames ∧
      ¬ store.Accepts Session.noteWorld.context (twoArguments "store" "x" "in" "notes")
        .storeAs := by
  have read : Arguments.ofLine (storeLine ["x"] "notes") =
      .ok (twoArguments "store" "x" "in" "notes") :=
    ofLine_storeLine listing_note
  have grammar : ∀ form,
      store.Accepts Session.noteWorld.context (twoArguments "store" "x" "in" "notes") form ↔
        form ∈ store.forms ∧
          Grammatical Session.noteWorld.context (twoArguments "store" "x" "in" "notes") form :=
    (accepts_iff_grammatical read (by decide) Session.noteWorld).1
  have known : Session.noteWorld.context.Knows "x" := ⟨by decide +kernel, .value (.int 1), rfl⟩
  refine ⟨read, (grammar .storeNames).mpr ⟨by decide, .storeNames ?_ ?_ ?_ ?_⟩, fun accepted => ?_⟩
  · refine ⟨"x", by simp [get?_twoArguments], ?_⟩
    have single : listedNames "x" = ["x"] := by decide +kernel
    intro name mem
    rw [single] at mem
    rw [List.mem_singleton.mp mem]
    exact known
  · exact ⟨"notes", by simp [get?_twoArguments], by decide⟩
  · simp [get?_twoArguments]
  · intro value given
    simp [get?_twoArguments] at given
  · obtain ⟨-, aliased⟩ := (grammar .storeAs).mp accepted
    cases aliased with
    | storeAs _ _ other =>
      obtain ⟨value, given, -⟩ := other
      simp [get?_twoArguments] at given

end Action
end ObjectVault.Command
