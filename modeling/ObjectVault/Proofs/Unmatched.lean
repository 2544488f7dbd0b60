import ObjectVault.Proofs.Ranking

namespace ObjectVault

/-- The error is about one value, not about the command as a whole. -/
def CommandError.AboutValue : CommandError → Prop
  | .unmatched _ _ | .rejected (.incomplete _) | .rejected (.disallowed _) => False
  | _ => True

namespace Command

/-- What is wrong with the value of a keyword that is there. -/
def Faults (context : Context) (arguments : Arguments) (rule : String × Rule) (e : CommandError) :
    Prop :=
  ∃ value, arguments.get? rule.1 = some value ∧
    (rule.2.check context value = .error e ∨
      rule.2.check context value = .ok false ∧
        e = .rejected (.notA (shownRule rule) rule.2.name))

variable {context : Context} {arguments : Arguments} {rule : String × Rule}
  {rules : List (String × Rule)} {signature : Signature} {e : CommandError}

theorem Context.aboutValue_of_lookup {kind name : String}
    (failed : context.lookup kind name = .error e) : e.AboutValue := by
  rw [lookup] at failed
  split at failed
  · cases failed
    trivial
  · split at failed <;> cases failed <;> trivial

namespace Rule

theorem aboutValue_of_isLiteral {value : String} (failed : isLiteral value = .error e) :
    e.AboutValue := by
  rw [isLiteral] at failed
  split at failed <;> cases failed
  trivial

theorem aboutValue_of_checkVariable {name : String}
    (failed : checkVariable context name = .error e) : e.AboutValue := by
  rcases checked_bind_eq_error failed with unknown | ⟨_, _, ⟨⟩⟩
  exact Context.aboutValue_of_lookup unknown

theorem aboutValue_of_checkIdentifier {name : String} (failed : checkIdentifier name = .error e) :
    e.AboutValue := by
  rw [checkIdentifier] at failed
  split at failed <;> cases failed
  trivial

theorem aboutValue_of_forM_names {value : String} {check : String → Except CommandError Unit}
    (each : ∀ name fault, check name = .error fault → fault.AboutValue)
    (failed : (do (← names value).forM check; return true : Except CommandError Bool) = .error e) :
    e.AboutValue := by
  rcases checked_bind_eq_error failed with wildcard | ⟨listed, _, checking⟩
  · rw [names] at wildcard
    split at wildcard <;> cases wildcard
    trivial
  · rcases checked_bind_eq_error checking with checked | ⟨_, _, ⟨⟩⟩
    obtain ⟨_, name, _, _, _, wrong⟩ := first_error_of_forM checked
    exact each name _ wrong

/-- The error of a rule is about the value that it checks. -/
theorem aboutValue_of_check {rule : Rule} {value : String}
    (failed : rule.check context value = .error e) : e.AboutValue := by
  cases rule with
  | folder =>
    rw [check] at failed
    cases literal : isLiteral value with
    | error fault =>
      rw [literal] at failed
      cases failed
      exact aboutValue_of_isLiteral literal
    | ok _ =>
      rw [literal] at failed
      cases failed
  | path => exact aboutValue_of_isLiteral failed
  | oneVariable =>
    rcases checked_bind_eq_error failed with unknown | ⟨_, _, ⟨⟩⟩
    exact aboutValue_of_checkVariable unknown
  | someVariables => exact aboutValue_of_forM_names (fun _ _ => aboutValue_of_checkVariable) failed
  | function =>
    rcases checked_bind_eq_error failed with unknown | ⟨b, _, other⟩
    · exact Context.aboutValue_of_lookup unknown
    · cases b <;> cases other <;> trivial
  | oneIdentifier =>
    rcases checked_bind_eq_error failed with invalid | ⟨_, _, ⟨⟩⟩
    exact aboutValue_of_checkIdentifier invalid
  | someIdentifiers =>
    exact aboutValue_of_forM_names (fun _ _ => aboutValue_of_checkIdentifier) failed
  | hashMethod => cases failed
  | hash =>
    rw [check] at failed
    split at failed <;> cases failed
    trivial

end Rule

theorem Faults.aboutValue (h : Faults context arguments rule e) : e.AboutValue := by
  obtain ⟨value, -, failed | ⟨-, rfl⟩⟩ := h
  · exact Rule.aboutValue_of_check failed
  · trivial

namespace Signature

/-- The check of rules fails by the first keyword that is there with a wrong value. -/
theorem first_fault_of_checkRules (failed : checkRules context arguments rules = .error e) :
    ∃ before rule after, rules = before ++ rule :: after ∧
      (∀ earlier ∈ before, arguments.get? earlier.1 = none ∨ Meets context arguments earlier) ∧
      Faults context arguments rule e := by
  rw [checkRules] at failed
  obtain ⟨before, rule, after, rfl, passed, fault⟩ := first_error_of_forM failed
  refine ⟨before, rule, after, rfl, ?_, ?_⟩
  · have passes : checkRules context arguments before = .ok () := forM_eq_ok_iff.mpr passed
    exact passes_iff_meets.mp (checkRules_eq_ok_iff.mp passes)
  · cases given : arguments.get? rule.1 with
    | none =>
      rw [given] at fault
      cases fault
    | some value =>
      simp only [given] at fault
      refine ⟨value, given, ?_⟩
      rcases checked_bind_eq_error fault with wrong | ⟨right, checked, rejected⟩
      · exact .inl wrong
      · cases right with
        | true => cases rejected
        | false =>
          cases rejected
          exact .inr ⟨checked, rfl⟩

theorem validate_of_fault (fault : checkRules context arguments signature.required = .error e) :
    signature.validate context arguments = .error e := by
  rw [validate, fault]
  rfl

end Signature

namespace Action
variable {action : Action} {form : Form}

theorem choose_eq_none_iff : action.choose context arguments = none ↔
    ∀ form ∈ action.forms, ¬ ∀ rule ∈ form.signature.required, Meets context arguments rule := by
  rw [choose, List.find?_eq_none]
  refine forall₂_congr fun form _ => ?_
  rw [Signature.isComplete_iff_meets, and_iff_right form.required_ne_nil]

/-- Where no form is chosen, the command fails before anything is done. -/
theorem perform_of_choose_none {world : World}
    (unchosen : action.choose world.context arguments = none) (archive : Archive) :
    action.perform archive arguments world =
      (.error (action.unmatched world.context arguments), action.noted arguments world) := by
  rw [perform, Effect.bind_of_ok (Effect.get_apply world), RunM.noteLookups,
    Effect.bind_of_ok (Effect.modify_apply _ world), unchosen]
  rfl

/-- Some form fits best. -/
theorem exists_ranked (action : Action) (context : Context) (arguments : Arguments) :
    ∃ top others, action.ranked context arguments = top :: others ∧ top.1 ∈ action.forms := by
  have nonempty : action.ranked context arguments ≠ [] := by
    intro empty
    have length := (action.ranked_perm context arguments).length_eq
    rw [empty, candidates, List.length_map] at length
    cases action <;> cases length
  obtain ⟨top, others, ranking⟩ := List.exists_cons_of_ne_nil nonempty
  have mem := (action.ranked_perm context arguments).mem_iff.mp (ranking ▸ List.mem_cons_self)
  exact ⟨top, others, ranking, (mem_candidates.mp mem).1⟩

variable {top : Form × Concordance} {others : List (Form × Concordance)}

/-- If the form that fits best lacks a keyword, the forms that fit well are suggested. -/
theorem unmatched_of_missing (ranking : action.ranked context arguments = top :: others)
    (missing : ∃ rule ∈ top.1.signature.required, arguments.get? rule.1 = none) :
    action.unmatched context arguments =
      .unmatched action.keyword (action.suggestions context arguments suggestionCount) := by
  obtain ⟨rule, own, absent⟩ := missing
  have nonempty : top.1.signature.absent arguments ≠ [] := by
    intro empty
    obtain ⟨value, given⟩ := Signature.absent_eq_nil_iff.mp empty rule own
    cases absent.symm.trans given
  rw [unmatched, ranking]
  simp [nonempty]

/-- If the form that fits best has all its keywords, the first of them whose value is wrong is what
the command fails by. -/
theorem unmatched_of_there (ranking : action.ranked context arguments = top :: others)
    (there : ∀ rule ∈ top.1.signature.required, arguments.get? rule.1 ≠ none)
    (incomplete : ¬ ∀ rule ∈ top.1.signature.required, Meets context arguments rule) :
    ∃ before rule after, top.1.signature.required = before ++ rule :: after ∧
      (∀ earlier ∈ before, Meets context arguments earlier) ∧
      Faults context arguments rule (action.unmatched context arguments) := by
  have empty : top.1.signature.absent arguments = [] :=
    Signature.absent_eq_nil_iff.mpr fun rule own => Option.ne_none_iff_exists'.mp (there rule own)
  cases checked : Signature.checkRules context arguments top.1.signature.required with
  | ok _ =>
    refine absurd (Signature.complete_iff_meets.mp ?_) incomplete
    exact Signature.complete_iff.mpr ⟨Signature.checkRules_eq_ok_iff.mp checked, empty⟩
  | error e =>
    have fails : action.unmatched context arguments = e := by
      rw [unmatched, ranking]
      simp [empty, Signature.validate_of_fault checked]
    obtain ⟨before, rule, after, parts, passed, fault⟩ :=
      Signature.first_fault_of_checkRules checked
    refine ⟨before, rule, after, parts, fun earlier mem => ?_, fails ▸ fault⟩
    refine (passed earlier mem).resolve_left (there earlier ?_)
    rw [parts]
    exact List.mem_append_left _ mem

/-- A command that fits no form fails before anything is done, and nothing changes but that views
keep what is looked up. The form that fits best says why: a keyword is missing, and forms are
suggested, or all keywords are there, and the first wrong value is told. -/
theorem unmatched_is_explained (action : Action) (arguments : Arguments) (world : World)
    (incomplete : ∀ form ∈ action.forms,
      ¬ ∀ rule ∈ form.signature.required, Meets world.context arguments rule) :
    ∃ top others e, action.ranked world.context arguments = top :: others ∧
      (∀ archive, action.perform archive arguments world =
        (.error e, action.noted arguments world)) ∧
      world.Looked (action.noted arguments world) ∧
      (∀ name v,
        (action.noted arguments world).scope.resolve world.host.directory name = .ok (.value v) ↔
          world.scope.resolve world.host.directory name = .ok (.value v)) ∧
      ((∃ keyword suggestions, e = .unmatched keyword suggestions) ↔
        ∃ rule ∈ top.1.signature.required, arguments.get? rule.1 = none) ∧
      ((∃ rule ∈ top.1.signature.required, arguments.get? rule.1 = none) →
        e = .unmatched action.keyword
          (action.suggestions world.context arguments suggestionCount)) ∧
      ((∀ rule ∈ top.1.signature.required, arguments.get? rule.1 ≠ none) →
        (∃ before rule after, top.1.signature.required = before ++ rule :: after ∧
          (∀ earlier ∈ before, Meets world.context arguments earlier) ∧
          Faults world.context arguments rule e) ∧
        (∀ shortfalls, e ≠ .rejected (.incomplete shortfalls)) ∧
        ∀ reason, e ≠ .rejected (.disallowed reason)) := by
  obtain ⟨top, others, ranking, own⟩ := action.exists_ranked world.context arguments
  have missing := unmatched_of_missing ranking
  have there := fun all => unmatched_of_there ranking all (incomplete _ own)
  have value : (∀ rule ∈ top.1.signature.required, arguments.get? rule.1 ≠ none) →
      (action.unmatched world.context arguments).AboutValue := by
    intro all
    obtain ⟨_, _, _, _, _, fault⟩ := there all
    exact fault.aboutValue
  refine ⟨top, others, _, ranking, perform_of_choose_none (choose_eq_none_iff.mpr incomplete),
    action.looked_noted arguments world,
    fun name v => Context.resolve_afterLookups _ world.context, ?_, missing, fun all => ?_⟩
  · refine ⟨fun ⟨keyword, suggestions, unmatched⟩ => ?_, fun absent => ⟨_, _, missing absent⟩⟩
    by_contra all
    push Not at all
    have about := value all
    rw [unmatched] at about
    exact about
  · refine ⟨there all, fun shortfalls eq => ?_, fun reason eq => ?_⟩
    · exact (eq ▸ value all : (CommandError.rejected (.incomplete shortfalls)).AboutValue)
    · exact (eq ▸ value all : (CommandError.rejected (.disallowed reason)).AboutValue)

/-- What has a dot cannot be deleted from a folder, as it is no identifier. -/
theorem unmatched_is_explained_dotted :
    (∀ form ∈ delete.forms, ¬ ∀ rule ∈ form.signature.required,
      Meets Session.noteWorld.context (twoArguments "del" "m.x" "from" "notes") rule) ∧
    ∀ archive, delete.perform archive (twoArguments "del" "m.x" "from" "notes")
        Session.noteWorld =
      (.error (.invalidIdentifier "identifier" "m.x"),
        delete.noted (twoArguments "del" "m.x" "from" "notes") Session.noteWorld) := by
  let context := Session.noteWorld.context
  let arguments := twoArguments "del" "m.x" "from" "notes"
  have del : arguments.get? "del" = some "m.x" := by simp [arguments, get?_twoArguments]
  have into : arguments.get? "from" = some "notes" := by simp [arguments, get?_twoArguments]
  have dotted : Rule.oneIdentifier.check context "m.x" =
      .error (.invalidIdentifier "identifier" "m.x") := by
    rw [Rule.check, Rule.checkIdentifier, if_neg]
    · rfl
    · intro valid
      exact absurd (dottedParts_of_isIdentifier valid) (by decide)
  have bare : Rule.path.check context "m.x" = .ok false :=
    isLiteral_of_word (by decide : Word "m.x")
  have folder : Rule.folder.check context "notes" = .ok true :=
    Rule.check_iff.mpr (isLiteral_of_word (by decide : Word "notes"))
  have unmet : ¬ Meets context arguments ("del", .oneIdentifier) := by
    rintro ⟨value, given, passed⟩
    cases del.symm.trans given
    cases dotted.symm.trans passed
  have incomplete : ∀ form ∈ delete.forms,
      ¬ ∀ rule ∈ form.signature.required, Meets context arguments rule := by
    simp only [forms, List.forall_mem_cons]
    refine ⟨fun all => unmet (all _ (.head _)), fun all => ?_, List.forall_mem_nil _⟩
    obtain ⟨value, given, passed⟩ := all ("del", .path) (.head _)
    cases del.symm.trans given
    cases bare.symm.trans passed
  have ranking : delete.candidates context arguments = delete.ranked context arguments := by
    refine eq_ranked_iff.mp ⟨.refl _, List.pairwise_pair.mpr (.inl ?_)⟩
    have better : (Form.deleteName.signature.probe context arguments).halfPoints = 3 := by
      simp [Signature.probe, Concordance.ofRules_halfPoints, Form.signature, Finding.ofRule, del,
        into, dotted, folder, Finding.halfPoints]
    have worse : (Form.deleteAt.signature.probe context arguments).halfPoints = 1 := by
      simp [Signature.probe, Concordance.ofRules_halfPoints, Form.signature, Finding.ofRule, del,
        bare, Finding.halfPoints]
    simp only [Concordance.exactRatio, better, worse]
    norm_num [Signature.probe, Concordance.ofRules, Form.signature]
  obtain ⟨top, others, e, first, fails, -, -, -, -, there⟩ :=
    unmatched_is_explained delete arguments Session.noteWorld incomplete
  cases ranking.trans first
  have all : ∀ rule ∈ Form.deleteName.signature.required, arguments.get? rule.1 ≠ none := by
    simp [Form.signature, arguments, get?_twoArguments]
  obtain ⟨⟨before, rule, after, parts, passed, fault⟩, -⟩ := there all
  cases before with
  | cons earlier before =>
    obtain ⟨rfl, -⟩ := List.cons.inj parts
    exact absurd (passed _ (.head _)) unmet
  | nil =>
    cases parts
    obtain ⟨value, given, failed | ⟨rejected, -⟩⟩ := fault
    · cases del.symm.trans given
      cases dotted.symm.trans failed
      exact ⟨incomplete, fails⟩
    · cases del.symm.trans given
      cases dotted.symm.trans rejected

open Session

/-- A variable of a folder that is stored nowhere is looked up all the same. -/
theorem perform_store_nowhere {world : World} {host : Host} (viewed : world = viewWorld host)
    (opens : openSession.archive.checkIntegrity host.directory = .ok ())
    (read : openSession.archive.read "notes/x" host.directory = .ok [49]) {arguments : Arguments}
    (only : ∀ keyword, arguments.get? keyword =
      if keyword = "store" then some "m.x" else none) :
    (∀ form ∈ store.forms,
      ¬ ∀ rule ∈ form.signature.required, Meets world.context arguments rule) ∧
    (store.perform openSession.archive arguments world).1.isOk = false ∧
    (store.perform openSession.archive arguments world).2.scope ≠ world.scope := by
  have incomplete : ∀ form ∈ store.forms,
      ¬ ∀ rule ∈ form.signature.required, Meets world.context arguments rule := by
    have folder : ∀ rule, ¬ Meets world.context arguments ("in", rule) := fun rule met =>
      met.there (by simp [only])
    simp only [forms, List.forall_mem_cons]
    exact ⟨fun all => folder _ (all _ (.tail _ (.head _))),
      fun all => folder _ (all _ (.tail _ (.head _))),
      fun all => folder _ (all _ (.tail _ (.head _))), List.forall_mem_nil _⟩
  have performed := perform_of_choose_none (choose_eq_none_iff.mpr incomplete) openSession.archive
  have first : ∃ names, namesLookedUp world.context arguments store.forms = "m.x" :: names := by
    have listed : names "m.x" = .ok ["m.x"] := rfl
    have tried : ∃ names, Rule.triedNames world.context ["m.x"] = "m.x" :: names := by
      rw [Rule.triedNames]
      split <;> exact ⟨_, rfl⟩
    obtain ⟨names, tried⟩ := tried
    simp only [forms, namesLookedUp, Signature.namesProbed, Form.signature, List.flatMap_cons, only,
      if_true, Option.map_some, Option.getD_some, Rule.lookedUp, listed, tried, List.cons_append]
    exact ⟨_, rfl⟩
  obtain ⟨names, first⟩ := first
  refine ⟨incomplete, by rw [performed]; rfl, ?_⟩
  have bound : ∀ name, world.context.scope.get? name =
      if name = "m" then some (.view (.ofFolder openSession.archive "notes")) else none := by
    rw [viewed]
    exact get?_viewWorld host
  have child : (View.ofFolder openSession.archive "notes").child? "x" world.context.directory =
      .ok (some (.value (.int 1))) := by
    rw [viewed]
    exact child?_view opens read
  have parts : dottedParts "m.x" = ["m", "x"] := rfl
  have changed := Context.afterLookups_ne names (by decide) (by simp [bound]) parts
    (by simp [bound]) (by simp [View.ofFolder]) child
  rw [← first] at changed
  rw [performed]
  exact changed

/-- A command that fits no form can change what a name stands for: a view keeps the value that was
looked up through it. -/
theorem unmatched_changes_view :
    (∀ form ∈ store.forms, ¬ ∀ rule ∈ form.signature.required,
      Meets (viewWorld (Archive.hostWith "notes/x")).context (.ofList [("store", "m.x")]) rule) ∧
    (store.perform openSession.archive (.ofList [("store", "m.x")])
      (viewWorld (Archive.hostWith "notes/x"))).1.isOk = false ∧
    (store.perform openSession.archive (.ofList [("store", "m.x")])
      (viewWorld (Archive.hostWith "notes/x"))).2.scope ≠
        (viewWorld (Archive.hostWith "notes/x")).scope := by
  refine perform_store_nowhere rfl opens_hostWith_note read_hostWith_note fun keyword => ?_
  rw [Table.get?_ofList]
  exact Table.lookup_cons _ _ _ _

end Action
end Command
end ObjectVault
