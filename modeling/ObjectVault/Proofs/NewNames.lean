import ObjectVault.Proofs.Accepting
import ObjectVault.Proofs.Asking
import ObjectVault.Proofs.PlanResults

namespace ObjectVault
open ObjectVault.Command

/-- Each name stays bound, and those that become bound are of some kind. -/
structure Scope.Binds (own : String → Prop) (scope later : Scope) : Prop where
  kept : ∀ name, scope.contains name = true → later.contains name = true
  new : ∀ name, later.contains name = true → scope.contains name = true ∨ own name

namespace Scope.Binds
variable {own other : String → Prop} {first second third : Scope}

theorem refl (own : String → Prop) (scope : Scope) : scope.Binds own scope :=
  ⟨fun _ h => h, fun _ h => .inl h⟩

theorem trans (h : first.Binds own second) (h' : second.Binds own third) :
    first.Binds own third := by
  refine ⟨fun name bound => h'.kept name (h.kept name bound), fun name bound => ?_⟩
  rcases h'.new name bound with bound | mine
  · exact h.new name bound
  · exact .inr mine

theorem imp (h : first.Binds own second) (all : ∀ name, own name → other name) :
    first.Binds other second :=
  ⟨h.kept, fun name bound => (h.new name bound).imp_right (all name)⟩

theorem insert {name : String} (mine : own name) (scope : Scope) (b : Binding) :
    scope.Binds own (scope.insert name b) := by
  constructor
  · intro any bound
    rw [Table.contains, Table.get?_insert]
    split
    · rfl
    · exact bound
  · intro any bound
    rw [Table.contains, Table.get?_insert] at bound
    split at bound
    · next same => exact .inr (same ▸ mine)
    · exact .inl bound

/-- To look up names binds none. -/
theorem of_looked (own : String → Prop) (looked : first.Looked second) :
    first.Binds own second := by
  have same : ∀ name, first.contains name = second.contains name := by
    intro name
    have rel := looked name
    rw [Table.contains, Table.contains]
    generalize first.get? name = a at rel
    generalize second.get? name = b at rel
    cases rel <;> rfl
  exact ⟨fun name bound => (same name).symm.trans bound,
    fun name bound => .inl ((same name).trans bound)⟩

end Scope.Binds

theorem contains_arrivedScope {arrivals : List Arrival} {name : String} {scope : Scope}
    (there : name ∈ arrivals.map Arrival.name ∨ scope.contains name = true) :
    (arrivedScope arrivals scope).contains name = true := by
  induction arrivals generalizing scope with
  | nil => exact there.resolve_left nofun
  | cons arrival arrivals ih =>
    rw [arrivedScope, List.foldl_cons]
    refine ih ?_
    rcases there with mem | bound
    · rcases List.mem_cons.mp mem with rfl | mem
      · right
        rw [Table.contains, Table.get?_insert, if_pos rfl]
        rfl
      · exact .inl mem
    · have binds : scope.Binds (fun _ => True) (scope.insert arrival.name (.value arrival.value)) :=
        .insert trivial scope _
      exact .inr (binds.kept name bound)

namespace Command

/-- The run binds names of some kind only, and unbinds none, also where it fails. -/
def RunM.Binds {α : Type} (own : String → Prop) (run : RunM α) : Prop :=
  ∀ world : World, world.scope.Binds own (run world).2.scope

namespace RunM.Binds
variable {α β : Type} {own : String → Prop}

theorem pure (a : α) : RunM.Binds own (pure a : RunM α) :=
  fun world => .refl own world.scope

theorem of_looks {run : RunM α} (looks : RunM.Looks run) : RunM.Binds own run :=
  fun world => .of_looked own (looks world).scope

theorem bind {run : RunM α} {f : α → RunM β} (first : RunM.Binds own run)
    (rest : ∀ a, RunM.Binds own (f a)) : RunM.Binds own (run >>= f) := by
  intro world
  have binds := first world
  rw [Effect.bind_apply]
  split
  · next a between ran =>
    rw [ran] at binds
    exact binds.trans (rest a between)
  · next e between ran =>
    rw [ran] at binds
    exact binds

theorem name {name : String} (mine : own name) (b : Binding) :
    RunM.Binds own (RunM.bind name b) :=
  fun world => .insert mine world.scope b

theorem onStorage (run : HostM StorageError α) : RunM.Binds own (RunM.onStorage run) :=
  fun world => .refl own world.scope

theorem mapM {items : List β} {f : β → RunM α} (each : ∀ a ∈ items, RunM.Binds own (f a)) :
    RunM.Binds own (items.mapM f) := by
  induction items with
  | nil => exact .pure []
  | cons a items ih =>
    obtain ⟨first, others⟩ := List.forall_mem_cons.mp each
    rw [List.mapM_cons]
    exact .bind first fun _ => .bind (ih others) fun _ => .pure _

end RunM.Binds

/-- The names that a plan binds. -/
def Plan.bound : Plan → List String
  | load targets => targets.map Prod.snd
  | view name _ => [name]
  | store _ | delete _ | verify _ => []

section Plans
variable {own : String → Prop} {archive : Archive} {arguments : Arguments}

theorem Form.storeEach_binds (exporter : Option Converter) (done : List String)
    (targets : List (String × String)) :
    RunM.Binds own (storeEach archive exporter done targets) := by
  induction targets generalizing done with
  | nil => exact .pure []
  | cons target targets ih =>
    obtain ⟨path, variableName⟩ := target
    rw [storeEach]
    split
    · exact ih done
    · exact .bind (.of_looks (RunM.looks_valueOf _)) fun _ => .bind (.onStorage _) fun _ =>
        .bind (ih _) fun _ => .pure _

theorem Form.loadOne_binds (importer : Option Converter) {target : String × String}
    (mine : own target.2) : RunM.Binds own (loadOne archive importer target) :=
  .bind (.onStorage _) fun _ => .bind (.name mine _) fun _ => .pure _

theorem Plan.run_binds {plan : Plan} (mine : ∀ name ∈ plan.bound, own name) :
    RunM.Binds own (plan.run archive arguments) := by
  cases plan with
  | store targets =>
    exact .bind (.of_looks (Form.looks_converter _ _)) fun _ => Form.storeEach_binds _ _ _
  | load targets =>
    refine .bind (.of_looks (Form.looks_converter _ _)) fun importer => .mapM fun target mem => ?_
    exact Form.loadOne_binds importer (mine _ (List.mem_map_of_mem mem))
  | view name folder => exact .bind (.name (mine name List.mem_cons_self) _) fun _ => .pure _
  | delete path =>
    simp only [Plan.run, Form.remove]
    split
    · exact .of_looks (.throw _)
    · exact .bind (.onStorage _) fun _ => .pure _
  | verify path => exact .of_looks (Form.looks_compareHash _ _ _)

/-- What an import reports are the names that it binds, and all of these are bound by it. -/
theorem Plan.subjects_bound {plan : Plan} (imports : plan.action = .load) {world after : World}
    {records : List ResultRecord}
    (ran : plan.run archive arguments world = (.ok records, after)) :
    records.map (·.subject) = plan.bound ∧
      ∀ name ∈ plan.bound, after.scope.contains name = true := by
  cases plan with
  | store | delete | verify => cases imports
  | view name folder =>
    cases ran
    refine ⟨rfl, fun other mem => ?_⟩
    rw [List.mem_singleton.mp mem, Table.contains, Table.get?_insert, if_pos rfl]
    rfl
  | load targets =>
    obtain ⟨_, arrivals, -, rfl, rfl, -, rfl⟩ := Form.loadAll_eq_ok ran
    have names : (Plan.load (arrivals.map Arrival.target)).bound = arrivals.map Arrival.name := by
      rw [bound, List.map_map]
      rfl
    rw [names]
    refine ⟨by rw [List.map_map]; rfl, fun name mem => ?_⟩
    exact contains_arrivedScope (.inl mem)

end Plans

/-- The line imports something. -/
def Imports (line : String) : Prop :=
  ∃ arguments, Arguments.ofLine line = .ok arguments ∧ Action.ofArguments arguments = .ok .load

/-- The line imports a folder without an alias: no identifiers are to be imported from another one.
The folder goes by what stands in front of the first dot of its name. -/
inductive FolderLine (line : String) : String → Prop
  | intro {arguments : Arguments} {folder : String} (read : Arguments.ofLine line = .ok arguments)
    (acts : Action.ofArguments arguments = .ok .load) (given : Bare arguments "import" folder)
    (unnamed : arguments.get? "as" = none) (unconverted : arguments.get? "with" = none)
    (unlisted : ∀ other list listed, ¬ FromFolder arguments other list listed) :
    FolderLine line (Form.viewTarget folder none).1

section Lines
variable {context : Context} {line name : String} {task : Task}

theorem FolderLine.dotless (h : FolderLine line name) : '.' ∉ name.toList := by
  cases h with
  | @intro _ folder =>
    intro mem
    rw [Form.viewTarget, String.toList_ofList] at mem
    simpa using List.mem_takeWhile_imp mem

/-- A folder is imported whatever its name is. -/
theorem FolderLine.has_task (h : FolderLine line name) (context : Context) :
    ∃ task, Task.ofLine? context line = some task ∧ task.plan = .view name name := by
  cases h with
  | @intro arguments folder read acts given unnamed unconverted unlisted =>
    have complete : Form.importFolder.signature.Complete context arguments := by
      simp only [Signature.Complete, Form.signature, List.forall_mem_cons]
      exact ⟨⟨folder, given.given, given.bare⟩, List.forall_mem_nil _⟩
    have passes :
        Signature.Passes Form.importFolder.signature.optional context arguments := by
      simp only [Signature.Passes, Form.signature, List.forall_mem_cons]
      exact ⟨Allowed.of_absent unnamed, List.forall_mem_nil _⟩
    have second : ¬ Form.importNames.signature.Complete context arguments := by
      intro names
      obtain ⟨list, own, listed, several, identifiers⟩ :=
        names ("import", .someIdentifiers) (.head _)
      obtain ⟨other, place, bare⟩ := names ("from", .folder) (.tail _ (.head _))
      exact unlisted other list listed ⟨⟨place, bare⟩, own, several, identifiers⟩
    have third : ¬ Form.importAt.signature.Complete context arguments := by
      intro path
      obtain ⟨token, own, quoted⟩ := path ("import", .path) (.head _)
      obtain rfl := Option.some.inj (given.given.symm.trans own)
      cases given.bare.symm.trans quoted
    have accepted : Action.load.Accepts context arguments .importFolder := by
      refine Action.accepts_of_parts [.importAs, .importNames, .importAt] rfl ?_ complete passes
        (List.forall_mem_singleton.mpr unconverted)
      simp only [List.forall_mem_cons]
      exact ⟨Signature.not_complete_of_absent (.tail _ (.tail _ (.head _))) unnamed, second, third,
        List.forall_mem_nil _⟩
    have planned : Form.importFolder.plan arguments =
        .ok (.view (Form.viewTarget folder none).1 (Form.viewTarget folder none).1) := by
      simp only [Form.plan, Form.value_eq_ok_iff.mpr given.given, unnamed]
      rfl
    exact ⟨⟨arguments, .load, .importFolder, _⟩,
      Task.ofLine?_eq_some_iff.mpr ⟨read, acts, accepted.1, accepted.2, planned⟩, rfl⟩

/-- An alias that passes is an identifier. -/
theorem Task.isIdentifier_alias (asked : Task.ofLine? context line = some task)
    (imports : task.action = .load) {other : String}
    (named : task.arguments.get? "as" = some other) : isIdentifier other = true := by
  obtain ⟨-, -, chosen, valid, -⟩ := Task.ofLine?_eq_some_iff.mp asked
  obtain ⟨complete, passes, -⟩ :=
    (Signature.validate_eq_ok_iff task.form.required_ne_nil).mp valid
  rw [imports] at chosen
  have form := (Action.complete_of_choose chosen).1
  have rule : ("as", .oneIdentifier) ∈ task.form.signature.required ∨
      ("as", .oneIdentifier) ∈ task.form.signature.optional := by
    simp only [Action.forms, List.mem_cons, List.not_mem_nil, or_false] at form
    rcases form with form | form | form | form <;> rw [form] <;> simp [Form.signature]
  rcases rule with required | optional
  · obtain ⟨value, given, met⟩ := complete _ required
    exact Option.some.inj (named.symm.trans given) ▸ met
  · exact passes _ optional other named

/-- What a task binds are identifiers, save for the name of a folder. -/
theorem Task.bound_cases (asked : Task.ofLine? context line = some task)
    (mine : name ∈ task.plan.bound) : isIdentifier name = true ∨ FolderLine line name := by
  have asks := asks_of_task asked
  have own := task.action_eq asked
  obtain ⟨read, acts, -⟩ := Task.ofLine?_eq_some_iff.mp asked
  have aliased : task.plan.action = .load → ∀ other, task.arguments.get? "as" = some other →
      isIdentifier other = true := fun imports other named =>
    Task.isIdentifier_alias asked (own.trans imports) named
  generalize task.plan = plan at asks own aliased mine
  cases asks with
  | store | storeAs | storeAt | delete | deleteAt | verify | verifyAt => cases mine
  | load origin =>
    rw [Plan.bound, Form.map_folderTargets] at mine
    exact .inl (origin.identifiers name mine)
  | loadAs _ named | loadAt _ _ named =>
    rw [List.mem_singleton.mp mine]
    exact .inl (aliased rfl _ named)
  | @view folder target path unlisted given unconverted shown =>
    rw [List.mem_singleton.mp mine]
    cases named : task.arguments.get? "as" with
    | some other =>
      rw [named] at shown
      obtain rfl := congrArg Prod.fst shown
      exact .inl (aliased rfl other named)
    | none =>
      rw [named] at shown
      obtain rfl := congrArg Prod.fst shown
      rw [own] at acts
      exact .inr (.intro read acts given named unconverted unlisted)

end Lines
end Command

namespace Session
variable {session : Session} {log : Option String} {line name : String} {world after : World}
  {result : Except CommandError Metadata}

/-- A line that binds more than identifiers imports a folder. -/
theorem run_binds (h : run (some session) log line world = (result, after)) :
    world.scope.Binds (fun name => isIdentifier name = true ∨ FolderLine line name)
      after.scope := by
  have carried : ∀ {task : Task}, Task.ofLine? world.context line = some task →
      world.scope.Binds (fun name => isIdentifier name = true ∨ FolderLine line name)
        (task.run session.archive (task.noted world)).2.scope := fun {task} asked =>
    Scope.Binds.trans (.of_looked _ (task.looked_noted world).scope)
      (Plan.run_binds (fun _ => Task.bound_cases asked) (task.noted world))
  rcases run_cases h with ⟨_, -, unstarted⟩ | ⟨task, asked, ⟨_, -, failed⟩ | ⟨_, done, ran, -⟩⟩
  · exact .of_looked _ unstarted.looked.scope
  · have binds := carried asked
    rwa [failed] at binds
  · have binds := carried asked
    rw [ran.ran] at binds
    rwa [ran.scope]

/-- The name of a folder is bound even if the report of its import fails. -/
theorem run_binds_folder (folder : FolderLine line name)
    (h : run (some session) log line world = (result, after)) :
    after.scope.contains name = true := by
  obtain ⟨task, asked, planned⟩ := folder.has_task world.context
  have carried : task.run session.archive (task.noted world) =
      (.ok [⟨name, none, none⟩],
        { task.noted world with
          scope :=
            (task.noted world).scope.insert name (.view (.ofFolder session.archive name)) }) := by
    rw [Task.run, planned]
    rfl
  obtain ⟨ran, -⟩ := ran_of_performed asked carried h
  rw [ran.scope, Table.contains, Table.get?_insert, if_pos rfl]
  rfl

/-- What an import reports is bound, to an identifier or the name of a folder. -/
theorem run_subjects (imports : Imports line) {record : Metadata}
    (h : run (some session) log line world = (.ok record, after)) :
    ∀ reported ∈ record.result, after.scope.contains reported.subject = true ∧
      (isIdentifier reported.subject = true ∨ FolderLine line reported.subject) := by
  obtain ⟨task, done, ran⟩ := ran_of_run h
  obtain ⟨arguments, read, acts⟩ := imports
  obtain ⟨read', acts', -⟩ := Task.ofLine?_eq_some_iff.mp ran.asked
  obtain rfl := Except.ok.inj (read.symm.trans read')
  have own : task.plan.action = .load :=
    (task.action_eq ran.asked).symm.trans (Except.ok.inj (acts'.symm.trans acts))
  obtain ⟨subjects, bound⟩ := Plan.subjects_bound own ran.ran
  intro reported mem
  have mine : reported.subject ∈ task.plan.bound := by
    rw [← subjects]
    exact List.mem_map_of_mem mem
  rw [ran.scope]
  exact ⟨bound _ mine, Task.bound_cases ran.asked mine⟩

end Session
end ObjectVault
