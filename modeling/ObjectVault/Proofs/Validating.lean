import ObjectVault.Proofs.Commands

namespace ObjectVault.Command
open ObjectVault.Text

/-- A value of the kind that a rule asks for. -/
def Rule.Met (context : Context) (value : String) : Rule → Prop
  | folder => isLiteral value = .ok false
  | path => isLiteral value = .ok true
  | oneVariable => ∃ b, context.lookup "variable" value = .ok b
  | someVariables => ∃ listed, names value = .ok listed ∧
      ∀ name ∈ listed, ∃ b, context.lookup "variable" name = .ok b
  | function => ∃ c, context.lookup "function" value = .ok (.converter c)
  | oneIdentifier => isIdentifier value = true
  | someIdentifiers => ∃ listed, names value = .ok listed ∧
      ∀ name ∈ listed, isIdentifier name = true
  | hashMethod => ∃ method, HashMethod.ofName? value = some method
  | hash => ∃ method, HashMethod.ofDigits? value.utf8ByteSize = some method

/-- What is in a list is a separator, or in one of the parts between them. -/
theorem mem_part_of_mem {a c : Char} {xs : List Char} (h : c ∈ xs) :
    c = a ∨ ∃ part ∈ xs.splitOn a, c ∈ part := by
  induction xs with
  | nil => cases h
  | cons x xs ih =>
    rw [List.splitOn_cons_eq_if_modifyHead]
    obtain ⟨first, rest, eq⟩ := List.exists_cons_of_ne_nil (List.splitOn_ne_nil a xs)
    rw [eq] at ih ⊢
    split
    · next same =>
      rcases List.mem_cons.mp h with rfl | mem
      · exact .inl (by simpa using same)
      · exact (ih mem).imp_right fun ⟨part, own, inner⟩ => ⟨part, List.mem_cons_of_mem _ own, inner⟩
    · rw [List.modifyHead_cons]
      rcases List.mem_cons.mp h with rfl | mem
      · exact .inr ⟨_, List.mem_cons_self, List.mem_cons_self⟩
      · rcases ih mem with same | ⟨part, own, inner⟩
        · exact .inl same
        · rcases List.mem_cons.mp own with rfl | own
          · exact .inr ⟨_, List.mem_cons_self, List.mem_cons_of_mem _ inner⟩
          · exact .inr ⟨part, List.mem_cons_of_mem _ own, inner⟩

/-- A name whose parts are identifiers holds nothing but their characters and dots. -/
theorem isWordChar_of_isDottedIdentifier {name : String} (h : isDottedIdentifier name = true) :
    name.toList ≠ [] ∧ ∀ c ∈ name.toList, c = '.' ∨ isWordChar c = true := by
  have parts : ∀ part ∈ name.toList.splitOn '.', isIdentifier (.ofList part) = true := by
    rw [isDottedIdentifier, dottedParts, List.all_map, List.all_eq_true] at h
    exact h
  constructor
  · intro empty
    have valid := parts [] (by rw [empty]; exact List.mem_singleton_self _)
    cases valid
  · intro c mem
    rcases mem_part_of_mem mem with dot | ⟨part, own, inner⟩
    · exact .inl dot
    · exact .inr ((isWordChar_of_isIdentifier (parts part own)).2 c (by simpa using inner))

theorem word_of_isDottedIdentifier {name : String} (h : isDottedIdentifier name = true) :
    Word name := by
  obtain ⟨nonempty, chars⟩ := isWordChar_of_isDottedIdentifier h
  refine ⟨nonempty, fun c mem => ?_⟩
  rcases chars c mem with rfl | word
  · decide
  · exact ⟨(plain_of_isWordChar word).1, (plain_of_isWordChar word).2.1⟩

/-- Only names whose parts are identifiers stand for something. -/
theorem Context.isDottedIdentifier_of_lookup {context : Context} {kind name : String} {b : Binding}
    (h : context.lookup kind name = .ok b) : isDottedIdentifier name = true := by
  rw [Context.lookup] at h
  split at h
  · cases h
  · next valid => simpa using valid

namespace Rule
variable {context : Context} {name value : String}

theorem checkVariable_eq_ok_iff :
    checkVariable context name = .ok () ↔ ∃ b, context.lookup "variable" name = .ok b := by
  rw [checkVariable, checked_bind_eq_ok_iff]
  exact exists_congr fun b => and_iff_left rfl

theorem checkIdentifier_eq_ok_iff : checkIdentifier name = .ok () ↔ isIdentifier name = true := by
  rw [checkIdentifier]
  split
  · next valid => simp [valid]
  · next invalid => simp [invalid]

/-- The check of a list of names is the check of each. -/
theorem forM_names_iff {check : String → Except CommandError Unit} :
    (do (← names value).forM check; return true : Except CommandError Bool) = .ok true ↔
      ∃ listed, names value = .ok listed ∧ ∀ name ∈ listed, check name = .ok () := by
  simp only [checked_bind_eq_ok_iff, ← forM_eq_ok_iff]
  exact exists_congr fun listed => and_congr_right fun _ =>
    ⟨fun ⟨_, each, _⟩ => each, fun each => ⟨_, each, rfl⟩⟩

/-- The check of a rule passes the values of its kind. -/
theorem check_iff {rule : Rule} : rule.check context value = .ok true ↔ rule.Met context value := by
  cases rule with
  | folder =>
    rw [check, Met]
    cases isLiteral value with
    | ok quoted => cases quoted <;> simp [Except.map]
    | error e => simp [Except.map]
  | path => rfl
  | oneVariable =>
    rw [check, Met, checked_bind_eq_ok_iff, ← checkVariable_eq_ok_iff]
    constructor
    · rintro ⟨_, known, _⟩
      exact known
    · exact fun known => ⟨_, known, rfl⟩
  | someVariables =>
    rw [check, Met, forM_names_iff]
    simp only [checkVariable_eq_ok_iff]
  | function =>
    rw [check, Met]
    cases context.lookup "function" value with
    | error e =>
      constructor
      · rintro ⟨⟩
      · rintro ⟨_, ⟨⟩⟩
    | ok b => cases b <;> simp [bind, Except.bind, pure, Except.pure, throw, throwThe,
        MonadExceptOf.throw]
  | oneIdentifier =>
    rw [check, Met, checked_bind_eq_ok_iff, ← checkIdentifier_eq_ok_iff]
    constructor
    · rintro ⟨_, valid, _⟩
      exact valid
    · exact fun valid => ⟨_, valid, rfl⟩
  | someIdentifiers =>
    rw [check, Met, forM_names_iff]
    simp only [checkIdentifier_eq_ok_iff]
  | hashMethod => rw [check, Met, Except.ok.injEq, Option.isSome_iff_exists]
  | hash =>
    rw [check, Met, ← Option.isSome_iff_exists]
    split
    · next known => simp [known]
    · next unknown => simp [unknown]

end Rule

namespace Signature
variable {signature : Signature} {context : Context} {arguments : Arguments}

/-- Each required keyword is there, with a value of the kind that is asked for. -/
def Complete (signature : Signature) (context : Context) (arguments : Arguments) : Prop :=
  ∀ rule ∈ signature.required, ∃ value, arguments.get? rule.1 = some value ∧
    rule.2.Met context value

/-- The keywords that are there have values of the kinds that are asked for. -/
def Passes (rules : List (String × Rule)) (context : Context) (arguments : Arguments) : Prop :=
  ∀ rule ∈ rules, ∀ value, arguments.get? rule.1 = some value → rule.2.Met context value

theorem isComplete_iff (nonempty : signature.required ≠ []) :
    (signature.probe context arguments).isComplete = true ↔
      signature.Complete context arguments := by
  rw [probe_isComplete_iff, and_iff_right nonempty, Complete]
  refine forall₂_congr fun rule _ => ?_
  rw [Finding.ofRule]
  cases arguments.get? rule.1 with
  | none => simp
  | some value =>
    simp only [Option.some.injEq, exists_eq_left', ← Rule.check_iff]
    cases rule.2.check context value with
    | ok right => cases right <;> simp
    | error e => simp

theorem checkRules_eq_ok_iff {rules : List (String × Rule)} :
    checkRules context arguments rules = .ok () ↔ Passes rules context arguments := by
  rw [checkRules, forM_eq_ok_iff, Passes]
  refine forall₂_congr fun rule _ => ?_
  cases arguments.get? rule.1 with
  | none => simp
  | some value =>
    simp only [Option.some.injEq, forall_eq', ← Rule.check_iff, checked_bind_eq_ok_iff]
    constructor
    · rintro ⟨right, checked, passed⟩
      cases right with
      | true => exact checked
      | false => cases passed
    · exact fun checked => ⟨true, checked, rfl⟩

theorem absent_eq_nil_iff : signature.absent arguments = [] ↔
    ∀ rule ∈ signature.required, ∃ value, arguments.get? rule.1 = some value := by
  rw [absent, List.filter_eq_nil_iff]
  refine forall₂_congr fun rule _ => ?_
  simp [Table.contains, Option.ne_none_iff_exists']

/-- Nothing that is required is missing if no keyword is absent and those that are there pass. -/
theorem complete_iff : signature.Complete context arguments ↔
    Passes signature.required context arguments ∧ signature.absent arguments = [] := by
  rw [absent_eq_nil_iff]
  constructor
  · intro h
    refine ⟨fun rule mem value given => ?_, fun rule mem => ?_⟩
    · obtain ⟨own, given', met⟩ := h rule mem
      rw [given] at given'
      cases given'
      exact met
    · obtain ⟨own, given, -⟩ := h rule mem
      exact ⟨own, given⟩
  · rintro ⟨right, there⟩ rule mem
    obtain ⟨value, given⟩ := there rule mem
    exact ⟨value, given, right rule mem value given⟩

/-- Arguments pass exactly if they have all required keywords with right values, optional ones with
right values only, and none that is disallowed. -/
theorem validate_eq_ok_iff (nonempty : signature.required ≠ []) :
    signature.validate context arguments = .ok () ↔
      signature.Complete context arguments ∧ Passes signature.optional context arguments ∧
      ∀ keyword ∈ signature.disallowed, arguments.get? keyword.1 = none := by
  have allowed : signature.disallowed.find? (arguments.contains ·.1) = none ↔
      ∀ keyword ∈ signature.disallowed, arguments.get? keyword.1 = none := by
    rw [List.find?_eq_none]
    simp [Table.contains]
  rw [complete_iff, ← allowed, ← checkRules_eq_ok_iff, ← checkRules_eq_ok_iff, validate,
    checked_bind_eq_ok_iff]
  cases checkRules context arguments signature.required with
  | error e => simp
  | ok _ =>
    cases signature.absent arguments with
    | cons rule rules => simp [throw, throwThe, MonadExceptOf.throw, bind, Except.bind]
    | nil =>
      cases checkRules context arguments signature.optional with
      | error e => simp [nonempty, bind, Except.bind]
      | ok _ =>
        cases signature.disallowed.find? (arguments.contains ·.1) with
        | none => simp [nonempty, bind, Except.bind, pure, Except.pure]
        | some reason => simp [nonempty, bind, Except.bind, throw, throwThe, MonadExceptOf.throw]

theorem mem_namesChecked {rules : List (String × Rule)} {name : String}
    (h : name ∈ namesChecked context arguments rules) :
    ∃ rule ∈ rules, ∃ value, arguments.get? rule.1 = some value ∧
      name ∈ rule.2.lookedUp context value := by
  induction rules with
  | nil => cases h
  | cons rule rules ih =>
    have later : name ∈ namesChecked context arguments rules → ∃ other ∈ rule :: rules, ∃ value,
        arguments.get? other.1 = some value ∧ name ∈ other.2.lookedUp context value := fun mem =>
      let ⟨other, own, found⟩ := ih mem
      ⟨other, List.mem_cons_of_mem _ own, found⟩
    cases given : arguments.get? rule.1 with
    | none =>
      simp only [namesChecked, given] at h
      exact later h
    | some value =>
      simp only [namesChecked, given, List.mem_append] at h
      rcases h with own | h
      · exact ⟨rule, List.mem_cons_self, value, given, own⟩
      · split at h
        · exact later h
        · cases h

end Signature

theorem Form.required_ne_nil (form : Form) : form.signature.required ≠ [] := by
  cases form <;> exact nofun

namespace Action
variable {action : Action} {context : Context} {arguments : Arguments} {form : Form}

/-- The names that are looked up are those in the values of keywords. -/
theorem mem_namesLookedUp {forms : List Form} {name : String}
    (h : name ∈ namesLookedUp context arguments forms) :
    ∃ form ∈ forms, ∃ rule ∈ form.signature.required ++ form.signature.optional,
      ∃ value, arguments.get? rule.1 = some value ∧ name ∈ rule.2.lookedUp context value := by
  induction forms with
  | nil => cases h
  | cons form forms ih =>
    rw [namesLookedUp, List.mem_append] at h
    rcases h with probed | h
    · obtain ⟨rule, own, mem⟩ := List.mem_flatMap.mp probed
      cases given : arguments.get? rule.1 with
      | none => simp [given] at mem
      | some value =>
        rw [given] at mem
        exact ⟨form, List.mem_cons_self, rule, List.mem_append_left _ own, value, given, mem⟩
    · split at h
      · obtain ⟨rule, own, found⟩ := Signature.mem_namesChecked h
        exact ⟨form, List.mem_cons_self, rule, List.mem_append_right _ own, found⟩
      · obtain ⟨other, own, found⟩ := ih h
        exact ⟨other, List.mem_cons_of_mem _ own, found⟩

/-- The form that is chosen is complete. -/
theorem complete_of_choose (chosen : action.choose context arguments = some form) :
    form ∈ action.forms ∧ form.signature.Complete context arguments := by
  have complete : (form.signature.probe context arguments).isComplete = true := by
    simpa using List.find?_some chosen
  exact ⟨List.mem_of_find?_eq_some chosen,
    (Signature.isComplete_iff form.required_ne_nil).mp complete⟩

/-- The first form is chosen if it is complete. -/
theorem choose_first {first : Form} {others : List Form} (forms : action.forms = first :: others)
    (complete : first.signature.Complete context arguments) :
    action.choose context arguments = some first := by
  rw [choose, forms, List.find?_cons_of_pos]
  exact (Signature.isComplete_iff first.required_ne_nil).mpr complete

/-- The second form is chosen if it is complete and the first one is not. -/
theorem choose_second {first second : Form} {others : List Form}
    (forms : action.forms = first :: second :: others)
    (incomplete : ¬ first.signature.Complete context arguments)
    (complete : second.signature.Complete context arguments) :
    action.choose context arguments = some second := by
  rw [choose, forms, List.find?_cons_of_neg, List.find?_cons_of_pos]
  · exact (Signature.isComplete_iff second.required_ne_nil).mpr complete
  · rwa [Signature.isComplete_iff first.required_ne_nil]

/-- Several variables come without another name: with one that passes, the form before this one
would have been chosen. -/
theorem unnamed_of_storeNames (chosen : store.choose context arguments = some .storeNames)
    (valid : Form.storeNames.signature.validate context arguments = .ok ()) :
    arguments.get? "as" = none := by
  obtain ⟨complete, optional, -⟩ :=
    (Signature.validate_eq_ok_iff Form.storeNames.required_ne_nil).mp valid
  cases named : arguments.get? "as" with
  | none => rfl
  | some other =>
    have met := optional ("as", .oneIdentifier) (.tail _ (.head _)) other named
    have first : Form.storeAs.signature.Complete context arguments := by
      simp only [Signature.Complete, Form.signature, List.forall_mem_cons]
      exact ⟨complete _ (.head _), complete _ (.tail _ (.head _)), ⟨other, named, met⟩,
        List.forall_mem_nil _⟩
    cases chosen.symm.trans (choose_first rfl first)

end Action
end ObjectVault.Command
