import ObjectVault.Proofs.Asking
import ObjectVault.Proofs.PlanResults

namespace ObjectVault.Command

namespace Rule
variable {context : Context} {rule : Rule} {name value : String} {listed : List String}

theorem mem_of_mem_triedNames (h : name ∈ triedNames context listed) : name ∈ listed := by
  induction listed with
  | nil => cases h
  | cons first listed ih =>
    rw [triedNames] at h
    split at h
    · rcases List.mem_cons.mp h with rfl | h
      · exact List.mem_cons_self
      · exact List.mem_cons_of_mem _ (ih h)
    · rw [List.mem_singleton.mp h]
      exact List.mem_cons_self

/-- Only variables and functions are looked up. -/
theorem lookedUp_cases (h : name ∈ rule.lookedUp context value) :
    rule = .function ∧ name = value ∨ rule = .oneVariable ∧ name = value ∨
      rule = .someVariables ∧ ∃ listed, names value = .ok listed ∧ name ∈ listed := by
  cases rule with
  | function => exact .inl ⟨rfl, List.mem_singleton.mp h⟩
  | oneVariable => exact .inr (.inl ⟨rfl, List.mem_singleton.mp h⟩)
  | someVariables =>
    rw [lookedUp] at h
    split at h
    · next listed several => exact .inr (.inr ⟨rfl, listed, several, mem_of_mem_triedNames h⟩)
    · cases h
  | _ => cases h

end Rule

section
variable {world : World} {line : String} {arguments : Arguments} {task : Task} {action : Action}
  {form : Form}

/-- A function that comes with a store or an import is a converter, if the arguments pass. -/
theorem converter_of_validate {context : Context} {name : String}
    (valid : form.signature.validate context arguments = .ok ())
    (own : form ∈ Action.store.forms ++ Action.load.forms)
    (given : arguments.get? "with" = some name) :
    ∃ c, context.lookup "function" name = .ok (.converter c) := by
  obtain ⟨-, optional, disallowed⟩ := (Signature.validate_eq_ok_iff form.required_ne_nil).mp valid
  have rules : ("with", .function) ∈ form.signature.optional ∨
      ("with", Form.importerForFolder) ∈ form.signature.disallowed := by
    cases form <;> simp_all [Action.forms, Form.signature]
  rcases rules with passes | refused
  · exact optional _ passes name given
  · cases given.symm.trans (disallowed _ refused)

/-- Where a store or an import is looked up, it is for its function or its variables. -/
theorem lookedUp_of_mem {context : Context} {name : String}
    (acts : action = .store ∨ action = .load)
    (mem : name ∈ Action.namesLookedUp context arguments action.forms) :
    arguments.get? "with" = some name ∨ action = .store ∧ ∃ list,
      arguments.get? "store" = some list ∧
        (name = list ∨ ∃ listed, names list = .ok listed ∧ name ∈ listed) := by
  obtain ⟨form, own, rule, part, value, given, looked⟩ := Action.mem_namesLookedUp mem
  have rules : ∀ form ∈ action.forms, ∀ rule ∈ form.signature.required ++ form.signature.optional,
      (rule.2 = .function → rule.1 = "with") ∧
      (rule.2 = .oneVariable ∨ rule.2 = .someVariables → action = .store ∧ rule.1 = "store") := by
    rcases acts with rfl | rfl <;> decide
  obtain ⟨function, stored⟩ := rules form own rule part
  rcases Rule.lookedUp_cases looked with ⟨kind, rfl⟩ | ⟨kind, rfl⟩ | ⟨kind, listed, several, inner⟩
  · exact .inl (function kind ▸ given)
  · obtain ⟨acts, keyword⟩ := stored (.inl kind)
    exact .inr ⟨acts, _, keyword ▸ given, .inl rfl⟩
  · obtain ⟨acts, keyword⟩ := stored (.inr kind)
    exact .inr ⟨acts, _, keyword ▸ given, .inr ⟨listed, several, inner⟩⟩

/-- No name is changed when it is found how a store or an import is meant, if the arguments pass and
the variables are bound as a whole. -/
theorem noted_of_validate (acts : action = .store ∨ action = .load)
    (own : form ∈ Action.store.forms ++ Action.load.forms)
    (valid : form.signature.validate world.context arguments = .ok ())
    (bound : action = .store → ∀ list listed name, arguments.get? "store" = some list →
      names list = .ok listed → name ∈ listed → world.scope.contains name = true) :
    action.noted arguments world = world := by
  refine Action.noted_of_kept fun name mem => ?_
  rcases lookedUp_of_mem acts mem with given | ⟨stores, list, given, rfl | ⟨listed, several, inner⟩⟩
  · obtain ⟨c, found⟩ := converter_of_validate valid own given
    exact Context.afterLookup_of_converter found
  · by_cases dotted : isDottedIdentifier name = true
    · exact Context.afterLookup_of_bound (bound stores _ _ _ given
        (names_of_isDottedIdentifier dotted) (List.mem_singleton_self _))
    · exact Context.afterLookup_of_not_name (by simpa using dotted)
  · exact Context.afterLookup_of_bound (bound stores _ _ _ given several inner)

/-- The variables that a plan stores are bound as a whole, to values. -/
def Plan.Bound (scope : Scope) : Plan → Prop
  | store targets => ∀ target ∈ targets, ∃ v, scope.get? target.2 = some (.value v)
  | load _ | view _ _ | delete _ | verify _ => True

/-- But for an assertion, no name is changed when it is found what a line asks for. -/
theorem Task.noted_eq (asked : Task.ofLine? world.context line = some task)
    (bound : task.plan.Bound world.scope) (unverified : ∀ path, task.plan ≠ .verify path) :
    task.noted world = world := by
  obtain ⟨-, -, chosen, valid, -⟩ := Task.ofLine?_eq_some_iff.mp asked
  have acts := Task.action_eq asked
  have asks := asks_of_task asked
  obtain ⟨arguments, action, form, plan⟩ := task
  obtain ⟨own, -⟩ := Action.complete_of_choose chosen
  obtain rfl : action = plan.action := acts
  cases plan with
  | store targets =>
    refine noted_of_validate (.inl rfl) (List.mem_append_left _ own) valid ?_
    intro _ list listed name given several mem
    obtain ⟨list', given', several'⟩ := asks.listed
    cases given.symm.trans given'
    cases several.symm.trans several'
    obtain ⟨target, part, rfl⟩ := List.mem_map.mp mem
    obtain ⟨v, whole⟩ := bound target part
    simp [Table.contains, whole]
  | load | view =>
    exact noted_of_validate (.inr rfl) (List.mem_append_right _ own) valid (by rintro ⟨⟩)
  | delete =>
    refine Action.noted_of_kept fun name mem => ?_
    obtain ⟨form, own, rule, part, value, given, looked⟩ := Action.mem_namesLookedUp mem
    have rules : ∀ form ∈ Action.delete.forms,
        ∀ rule ∈ form.signature.required ++ form.signature.optional,
          rule.2 = .oneIdentifier ∨ rule.2 = .folder ∨ rule.2 = .path := by decide
    rcases Rule.lookedUp_cases looked with ⟨kind, -⟩ | ⟨kind, -⟩ | ⟨kind, -⟩ <;>
      rcases rules form own rule part with other | other | other <;> cases kind.symm.trans other
  | verify path => exact absurd rfl (unverified path)

end

namespace RunM
variable {name : String} {world after : World} {v value : Value}

/-- The value of a variable that is bound to one, for which nothing changes. -/
theorem valueOf_of_bound (bound : world.scope.get? name = some (.value v))
    (h : valueOf name world = (.ok value, after)) : value = v ∧ after = world := by
  obtain ⟨b, between, looked, chosen⟩ := Effect.bind_eq_ok h
  obtain ⟨found, rfl⟩ := lookup_eq_ok looked
  obtain ⟨-, resolved⟩ := Context.lookup_eq_ok_iff.mp found
  have same : b = .value v := by
    rw [Scope.resolve, World.context, bound] at resolved
    exact (Except.ok.inj resolved).symm
  subst same
  cases chosen
  refine ⟨rfl, ?_⟩
  rw [Context.afterLookup_of_bound (by simp [World.context, Table.contains, bound])]
  rfl

end RunM

namespace Form
variable {archive : Archive} {exporter : Option Converter} {seen : List String}
  {targets : List (String × String)} {world after : World} {records : List ResultRecord}

/-- Storing variables that are bound to values changes no names. -/
theorem storeEach_scope
    (bound : ∀ target ∈ targets, ∃ v, world.scope.get? target.2 = some (.value v))
    (h : storeEach archive exporter seen targets world = (.ok records, after)) :
    after.scope = world.scope := by
  induction targets generalizing seen world records with
  | nil =>
    cases h
    rfl
  | cons target targets ih =>
    obtain ⟨path, name⟩ := target
    obtain ⟨⟨v, first⟩, others⟩ := List.forall_mem_cons.mp bound
    rcases storeEach_cons_eq_ok h with
      ⟨-, rest⟩ | ⟨-, value, between, record, stored, records', valued, storing, rest, -⟩
    · exact ih others rest
    · obtain ⟨-, rfl⟩ := RunM.valueOf_of_bound first valued
      obtain ⟨host, -, rfl⟩ := RunM.onStorage_eq_ok storing
      have kept := ih (by exact others) rest
      exact kept

/-- What is stored of a variable that is bound to a value is what that is exported as. -/
theorem Exported.of_bound {deposit : Deposit} {v : Value}
    (h : Exported exporter world.scope deposit)
    (bound : world.scope.get? deposit.name = some (.value v)) :
    Codec.exportWith exporter v = .ok deposit.bytes := by
  obtain ⟨value, seen, looked, valued, exported⟩ := h
  have whole : seen.scope.get? deposit.name = some (.value v) := by
    have kept := looked deposit.name
    rw [bound] at kept
    cases own : seen.scope.get? deposit.name with
    | none =>
      rw [own] at kept
      cases kept
    | some b =>
      rw [own] at kept
      cases kept with
      | some kept =>
        cases kept
        rfl
  cases found : RunM.valueOf deposit.name seen with
  | mk result after =>
    rw [found] at valued
    cases valued
    obtain ⟨rfl, -⟩ := RunM.valueOf_of_bound whole found
    exact exported

end Form
end ObjectVault.Command

namespace ObjectVault.Session
open ObjectVault.Command

/-- But for an assertion, a plan is carried out in the world that its line was given in. -/
theorem Ran.plan_run {session : Session} {log : Option String} {line : String}
    {world done after : World} {task : Task} {records : List ResultRecord}
    (h : session.Ran log line world task records done after) (bound : task.plan.Bound world.scope)
    (unverified : ∀ path, task.plan ≠ .verify path) :
    task.plan.run session.archive task.arguments world = (.ok records, done) := by
  have ran := h.ran
  rwa [Task.noted_eq h.asked bound unverified] at ran

end ObjectVault.Session
