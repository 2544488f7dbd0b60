import ObjectVault.Proofs.Accepting

namespace ObjectVault.Command

/-- The keyword of a rule is there, and the rule passes its value. -/
def Meets (context : Context) (arguments : Arguments) (rule : String × Rule) : Prop :=
  ∃ value, arguments.get? rule.1 = some value ∧ rule.2.check context value = .ok true

/-- The keyword of a rule is there, but the rule rejects its value or fails on it. -/
def Fails (context : Context) (arguments : Arguments) (rule : String × Rule) : Prop :=
  ∃ value, arguments.get? rule.1 = some value ∧ rule.2.check context value ≠ .ok true

/-- What is said of a rule that is not met. -/
def shortfall (context : Context) (arguments : Arguments) (rule : String × Rule) : String :=
  match arguments.get? rule.1 with
  | none => "is missing"
  | some value =>
    match rule.2.check context value with
    | .ok _ => "not a " ++ rule.2.name
    | .error e => e.message

section
variable {context : Context} {arguments other : Arguments} {rule : String × Rule}
  {rules : List (String × Rule)} {signature : Signature}

theorem Meets.there (h : Meets context arguments rule) : arguments.get? rule.1 ≠ none := by
  obtain ⟨value, given, -⟩ := h
  simp [given]

theorem fails_iff :
    Fails context arguments rule ↔
      arguments.get? rule.1 ≠ none ∧ ¬ Meets context arguments rule := by
  rw [Fails, Meets]
  cases arguments.get? rule.1 with
  | none => simp
  | some value => simp

/-- How a keyword can fare. -/
theorem Finding.ofRule_cases (context : Context) (arguments : Arguments) (rule : String × Rule) :
    arguments.get? rule.1 = none ∧ Finding.ofRule context arguments rule = .missing ∨
    Meets context arguments rule ∧ Finding.ofRule context arguments rule = .right ∨
    Fails context arguments rule ∧
      Finding.ofRule context arguments rule = .wrong (shortfall context arguments rule) := by
  cases given : arguments.get? rule.1 with
  | none => exact .inl ⟨rfl, by rw [ofRule, given]⟩
  | some value =>
    refine .inr ?_
    cases checked : rule.2.check context value with
    | error e =>
      exact .inr
        ⟨⟨value, given, by simp [checked]⟩, by simp only [ofRule, shortfall, given, checked]⟩
    | ok right =>
      cases right with
      | true => exact .inl ⟨⟨value, given, checked⟩, by simp only [ofRule, given, checked]⟩
      | false =>
        exact .inr
          ⟨⟨value, given, by simp [checked]⟩, by simp only [ofRule, shortfall, given, checked]⟩

theorem Finding.ofRule_eq_right_iff :
    Finding.ofRule context arguments rule = .right ↔ Meets context arguments rule := by
  rcases Finding.ofRule_cases context arguments rule with ⟨absent, eq⟩ | ⟨met, eq⟩ | ⟨fails, eq⟩
  · simpa [eq] using fun met : Meets context arguments rule => met.there absent
  · simp [eq, met]
  · simp [eq, (fails_iff.mp fails).2]

instance (context : Context) (arguments : Arguments) : DecidablePred (Meets context arguments) :=
  fun _ => decidable_of_iff _ Finding.ofRule_eq_right_iff

instance (context : Context) (arguments : Arguments) : DecidablePred (Fails context arguments) :=
  fun _ => decidable_of_iff _ fails_iff.symm

namespace Concordance

theorem ofRules_halfPoints (context : Context) (arguments : Arguments)
    (rules : List (String × Rule)) :
    (ofRules context arguments rules).halfPoints =
      (rules.map fun rule => (Finding.ofRule context arguments rule).halfPoints).sum := by
  have earned : (ofRules context arguments rules).halfPoints =
      ((rules.map (Finding.ofRule context arguments)).map Finding.halfPoints).foldl (· + ·) 0 :=
    rfl
  rw [earned, ← List.sum_eq_foldl, List.map_map]
  rfl

theorem ofRules_misses (context : Context) (arguments : Arguments)
    (rules : List (String × Rule)) :
    (ofRules context arguments rules).misses = rules.filterMap fun rule =>
      (Finding.ofRule context arguments rule).explanation.map (shownRule rule, ·) := by
  have pairs : rules.zip (rules.map (Finding.ofRule context arguments)) =
      rules.map fun rule => (rule, Finding.ofRule context arguments rule) := by
    simpa using List.zip_map' (f := id) (g := Finding.ofRule context arguments) (l := rules)
  simp only [ofRules, pairs, List.filterMap_map]
  rfl

/-- A rule that is met earns two half points, and one that only has its keyword earns one. -/
theorem halfPoints_eq (context : Context) (arguments : Arguments) (rules : List (String × Rule)) :
    (ofRules context arguments rules).halfPoints =
      2 * rules.countP (fun rule => Meets context arguments rule) +
        rules.countP fun rule => Fails context arguments rule := by
  rw [ofRules_halfPoints]
  induction rules with
  | nil => rfl
  | cons rule rules ih =>
    rw [List.map_cons, List.sum_cons, ih, List.countP_cons, List.countP_cons]
    simp only [decide_eq_true_eq]
    rcases Finding.ofRule_cases context arguments rule with ⟨absent, eq⟩ | ⟨met, eq⟩ | ⟨fails, eq⟩
    · have unmet : ¬ Meets context arguments rule := fun met => met.there absent
      have unfailed : ¬ Fails context arguments rule := fun fails => (fails_iff.mp fails).1 absent
      simp [eq, unmet, unfailed, Finding.halfPoints]
    · have unfailed : ¬ Fails context arguments rule := fun fails => (fails_iff.mp fails).2 met
      simp only [eq, met, unfailed, Finding.halfPoints, if_true, if_false]
      omega
    · have unmet := (fails_iff.mp fails).2
      simp only [eq, fails, unmet, Finding.halfPoints, if_true, if_false]
      omega

/-- Each rule that is not met is a miss, in the order of the rules. -/
theorem misses_eq (context : Context) (arguments : Arguments) (rules : List (String × Rule)) :
    (ofRules context arguments rules).misses =
      (rules.filter fun rule => ¬ Meets context arguments rule).map fun rule =>
        (shownRule rule, shortfall context arguments rule) := by
  rw [ofRules_misses]
  induction rules with
  | nil => rfl
  | cons rule rules ih =>
    rw [List.filterMap_cons, List.filter_cons, ih]
    rcases Finding.ofRule_cases context arguments rule with ⟨absent, eq⟩ | ⟨met, eq⟩ | ⟨fails, eq⟩
    · have unmet : ¬ Meets context arguments rule := fun met => met.there absent
      simp [eq, unmet, shortfall, absent, Finding.explanation]
    · simp [eq, met, Finding.explanation]
    · simp [eq, (fails_iff.mp fails).2, Finding.explanation]

end Concordance

namespace Signature

theorem isComplete_iff_meets :
    (signature.probe context arguments).isComplete = true ↔
      signature.required ≠ [] ∧ ∀ rule ∈ signature.required, Meets context arguments rule := by
  simp only [probe_isComplete_iff, Finding.ofRule_eq_right_iff]

theorem complete_iff_meets :
    signature.Complete context arguments ↔
      ∀ rule ∈ signature.required, Meets context arguments rule := by
  simp only [Complete, Meets, Rule.check_iff]

/-- Rules pass if each keyword that is there meets its rule. -/
theorem passes_iff_meets : Passes rules context arguments ↔
    ∀ rule ∈ rules, arguments.get? rule.1 = none ∨ Meets context arguments rule := by
  refine forall₂_congr fun rule _ => ?_
  rw [Meets]
  cases arguments.get? rule.1 with
  | none => simp
  | some value => simp [Rule.check_iff]

/-- Without required keywords no arguments pass. -/
theorem validate_of_required_eq_nil (empty : signature.required = []) :
    signature.validate context arguments ≠ .ok () := by
  simp [validate, empty, checkRules, bind, Except.bind, throw, throwThe, MonadExceptOf.throw, pure,
    Except.pure]

theorem validate_iff_meets :
    signature.validate context arguments = .ok () ↔
      signature.required ≠ [] ∧ (∀ rule ∈ signature.required, Meets context arguments rule) ∧
      (∀ rule ∈ signature.optional,
        arguments.get? rule.1 = none ∨ Meets context arguments rule) ∧
      ∀ keyword ∈ signature.disallowed, arguments.get? keyword.1 = none := by
  by_cases empty : signature.required = []
  · simp [empty, validate_of_required_eq_nil empty]
  · rw [validate_eq_ok_iff empty, complete_iff_meets, passes_iff_meets, and_iff_right empty]

theorem mem_mentioned_of_required (mem : rule ∈ signature.required) :
    rule.1 ∈ signature.mentioned :=
  List.mem_append_left _ (List.mem_append_left _ (List.mem_map_of_mem mem))

theorem checkRules_congr (same : ∀ rule ∈ rules, other.get? rule.1 = arguments.get? rule.1) :
    checkRules context other rules = checkRules context arguments rules := by
  induction rules with
  | nil => rfl
  | cons rule rules ih =>
    obtain ⟨first, others⟩ := List.forall_mem_cons.mp same
    have rest := ih others
    rw [checkRules, checkRules] at rest ⊢
    rw [List.forM, List.forM, first, rest]

theorem absent_congr
    (same : ∀ rule ∈ signature.required, other.get? rule.1 = arguments.get? rule.1) :
    signature.absent other = signature.absent arguments := by
  refine List.filter_congr fun rule mem => ?_
  rw [Table.contains, Table.contains, same rule mem]

theorem probe_congr
    (same : ∀ rule ∈ signature.required, other.get? rule.1 = arguments.get? rule.1) :
    signature.probe context other = signature.probe context arguments := by
  have findings : signature.required.map (Finding.ofRule context other) =
      signature.required.map (Finding.ofRule context arguments) :=
    List.map_congr_left fun rule mem => by rw [Finding.ofRule, Finding.ofRule, same rule mem]
  simp only [probe, Concordance.ofRules, findings]

theorem validate_congr
    (same : ∀ keyword ∈ signature.mentioned, other.get? keyword = arguments.get? keyword) :
    signature.validate context other = signature.validate context arguments := by
  have required : ∀ rule ∈ signature.required, other.get? rule.1 = arguments.get? rule.1 :=
    fun rule mem => same rule.1 (mem_mentioned_of_required mem)
  have optional : ∀ rule ∈ signature.optional, other.get? rule.1 = arguments.get? rule.1 :=
    fun rule mem => same rule.1 (List.mem_append_left _
      (List.mem_append_right _ (List.mem_map_of_mem mem)))
  have disallowed : signature.disallowed.find? (other.contains ·.1) =
      signature.disallowed.find? (arguments.contains ·.1) := by
    refine List.find?_congr fun keyword mem => ?_
    rw [Table.contains, Table.contains,
      same keyword.1 (List.mem_append_right _ (List.mem_map_of_mem mem))]
  rw [validate, validate, checkRules_congr required, absent_congr required,
    checkRules_congr optional, disallowed]

end Signature
end

namespace Signature

/-- Validation passes exactly what the rules ask for, and probing calls the required part of it
complete. Probing counts the keywords that are met and those that are only there, and explains
each one that is not met. No keyword that the rules do not mention counts. -/
theorem validate_and_probe (signature : Signature) (context : Context) (arguments : Arguments) :
    (signature.validate context arguments = .ok () ↔
      signature.required ≠ [] ∧ (∀ rule ∈ signature.required, Meets context arguments rule) ∧
      (∀ rule ∈ signature.optional,
        arguments.get? rule.1 = none ∨ Meets context arguments rule) ∧
      ∀ keyword ∈ signature.disallowed, arguments.get? keyword.1 = none) ∧
    ((signature.probe context arguments).isComplete = true ↔
      signature.required ≠ [] ∧ ∀ rule ∈ signature.required, Meets context arguments rule) ∧
    ((signature.probe context arguments).isComplete = true →
      (signature.probe context arguments).misses = []) ∧
    (signature.probe context arguments).halfPoints =
      2 * signature.required.countP (fun rule => Meets context arguments rule) +
        signature.required.countP (fun rule => Fails context arguments rule) ∧
    (signature.probe context arguments).size = signature.required.length ∧
    (signature.probe context arguments).misses =
      (signature.required.filter fun rule => ¬ Meets context arguments rule).map (fun rule =>
        (shownRule rule, shortfall context arguments rule)) ∧
    ∀ other : Arguments,
      (∀ keyword ∈ signature.mentioned, other.get? keyword = arguments.get? keyword) →
      signature.validate context other = signature.validate context arguments ∧
        signature.probe context other = signature.probe context arguments := by
  have misses := Concordance.misses_eq context arguments signature.required
  refine ⟨validate_iff_meets, isComplete_iff_meets, fun complete => ?_,
    Concordance.halfPoints_eq context arguments signature.required, rfl, misses,
    fun other same => ⟨validate_congr same,
      probe_congr fun rule mem => same rule.1 (mem_mentioned_of_required mem)⟩⟩
  have met := (isComplete_iff_meets.mp complete).2
  have unmet_none : signature.required.filter (fun rule => ¬ Meets context arguments rule) = [] :=
    List.filter_eq_nil_iff.mpr fun rule mem => by simp [met rule mem]
  rw [probe, misses, unmet_none, List.map_nil]

/-- A name is deleted from a folder by exactly the two keywords, whatever else is said. -/
theorem validate_and_probe_deleteName :
    (∀ keyword ∈ Form.deleteName.signature.mentioned,
      ((twoArguments "del" "x" "from" "notes").insert "please" "now").get? keyword =
        (twoArguments "del" "x" "from" "notes").get? keyword) ∧
    (Form.deleteName.signature.probe Session.noteWorld.context
      (twoArguments "del" "x" "from" "notes")).isComplete = true ∧
    (Form.deleteName.signature.probe Session.noteWorld.context
      (twoArguments "del" "x" "from" "notes")).misses = [] ∧
    Form.deleteName.signature.validate Session.noteWorld.context
      ((twoArguments "del" "x" "from" "notes").insert "please" "now") = .ok () := by
  obtain ⟨valid, complete, explained, -, -, -, others⟩ :=
    validate_and_probe Form.deleteName.signature Session.noteWorld.context
      (twoArguments "del" "x" "from" "notes")
  have same : ∀ keyword ∈ Form.deleteName.signature.mentioned,
      ((twoArguments "del" "x" "from" "notes").insert "please" "now").get? keyword =
        (twoArguments "del" "x" "from" "notes").get? keyword := by
    intro keyword mem
    rw [Table.get?_insert, if_neg]
    rintro rfl
    exact absurd mem (by decide)
  have met : ∀ rule ∈ Form.deleteName.signature.required,
      Meets Session.noteWorld.context (twoArguments "del" "x" "from" "notes") rule := by
    simp only [Form.signature, List.forall_mem_cons]
    refine ⟨⟨"x", by simp [get?_twoArguments], Rule.check_iff.mpr ?_⟩,
      ⟨"notes", by simp [get?_twoArguments], Rule.check_iff.mpr ?_⟩, List.forall_mem_nil _⟩
    · exact note_storable.identifier
    · exact isLiteral_of_word (by decide)
  have all := complete.mpr ⟨Form.deleteName.required_ne_nil, met⟩
  refine ⟨same, all, explained all, (others _ same).1.trans (valid.mpr ?_)⟩
  exact ⟨Form.deleteName.required_ne_nil, met, List.forall_mem_nil _, List.forall_mem_nil _⟩

end Signature
end ObjectVault.Command
