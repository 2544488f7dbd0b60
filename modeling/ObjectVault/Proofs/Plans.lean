import ObjectVault.Proofs.FailedCommands

namespace ObjectVault
open ObjectVault.Command ObjectVault.Directory ObjectVault.Text

theorem Effect.lift_bind {σ ε α β : Type} (given : Except ε α) (f : α → Except ε β) :
    (liftM (given >>= f) : Effect σ ε β) = liftM given >>= fun a => liftM (f a) := by
  funext s
  cases given <;> rfl

theorem toOption_eq_some_iff {ε α : Type} {given : Except ε α} {a : α} :
    given.toOption = some a ↔ given = .ok a := by
  cases given <;> simp [Except.toOption]

namespace Command

/-- What a command is to do, once its arguments are read: which variables are stored under which
paths, which members are bound to which names, or what happens to one name or one member. -/
inductive Plan
  | store (targets : List (String × String))
  | load (targets : List (String × String))
  | view (name folder : String)
  | delete (path : String)
  | verify (path : String)
deriving DecidableEq

def Plan.run (plan : Plan) (archive : Archive) (arguments : Arguments) : RunM (List ResultRecord) :=
  match plan with
  | store targets => Form.storeAll archive arguments targets
  | load targets => Form.loadAll archive arguments targets
  | view name folder => do
    RunM.bind name (.view (.ofFolder archive folder))
    return [⟨name, none, none⟩]
  | delete path => Form.remove archive path
  | verify path => Form.compareHash archive arguments path

namespace Form

def value (arguments : Arguments) (keyword : String) : Except CommandError String :=
  (arguments.need keyword).mapError .malformed

def listed (arguments : Arguments) (keyword : String) : Except CommandError (List String) := do
  names (← value arguments keyword)

def member (arguments : Arguments) (folder name : String) : Except CommandError String := do
  return memberPath (← value arguments folder) (← value arguments name)

def literal (arguments : Arguments) (keyword : String) : Except CommandError String := do
  (unquote (← value arguments keyword)).mapError .malformed

/-- The members of an import with the names that they are bound to. -/
def loadTargets (folder : String) (listed : List String) :
    Option String → Except CommandError (List (String × String))
  | none => .ok (folderTargets folder listed)
  | some other =>
    match listed with
    | [name] => .ok [(memberPath folder name, other)]
    | _ => .error (.rejected (.importAlias listed))

/-- What the arguments ask for under a form. Nothing is looked up for it. -/
def plan (arguments : Arguments) : Form → Except CommandError Plan
  | storeAs => do
    match ← listed arguments "store" with
    | [name] => return .store [(← member arguments "in" "as", name)]
    | several => throw (.rejected (.storeAlias several))
  | storeNames => do
    let folder ← value arguments "in"
    return .store (folderTargets folder (← listed arguments "store"))
  | storeAt => do
    let path ← literal arguments "in"
    return .store [(path, ← value arguments "store")]
  | importAs => do
    let path ← member arguments "from" "import"
    return .load [(path, ← value arguments "as")]
  | importNames => do
    let folder ← value arguments "from"
    return .load (← loadTargets folder (← listed arguments "import") (arguments.get? "as"))
  | importAt => do
    let path ← literal arguments "import"
    return .load [(path, ← value arguments "as")]
  | importFolder => do
    let target := viewTarget (← value arguments "import") (arguments.get? "as")
    return .view target.1 target.2
  | deleteName => return .delete (← member arguments "from" "del")
  | deleteAt => return .delete (← literal arguments "del")
  | verifyName => return .verify (← member arguments "in" "assert")
  | verifyAt => return .verify (← literal arguments "assert")

variable {archive : Archive} {arguments : Arguments}

theorem wellFormed_eq_lift {α : Type} (given : Except Malformed α) :
    RunM.wellFormed given = liftM (given.mapError CommandError.malformed) := by
  cases given <;> rfl

theorem need_eq_lift (keyword : String) :
    need arguments keyword = liftM (value arguments keyword) :=
  wellFormed_eq_lift _

theorem needMember_eq_lift (folder name : String) :
    needMember arguments folder name = liftM (member arguments folder name) := by
  simp only [needMember, member, need_eq_lift, Effect.lift_bind]
  rfl

theorem needPath_eq_lift (keyword : String) :
    needPath arguments keyword = liftM (literal arguments keyword) := by
  simp only [needPath, literal, need_eq_lift, wellFormed_eq_lift, Effect.lift_bind]

theorem needNames_eq_lift (keyword : String) :
    needNames arguments keyword = liftM (listed arguments keyword) := by
  simp only [needNames, listed, need_eq_lift, Effect.lift_bind]
  refine bind_congr fun list => ?_
  cases names list <;> rfl

theorem importTargets_eq_lift (folder : String) (names : List String) (rename : Option String) :
    importTargets folder names rename = liftM (loadTargets folder names rename) := by
  cases rename with
  | none => rfl
  | some other =>
    match names with
    | [] => rfl
    | [_] => rfl
    | _ :: _ :: _ => rfl

/-- A form does what its arguments ask for. -/
theorem run_eq_plan (form : Form) :
    form.run archive arguments =
      (liftM (form.plan arguments) : RunM Plan) >>= fun plan => plan.run archive arguments := by
  cases form with
  | storeAs =>
    simp only [run, plan, needNames_eq_lift, Effect.lift_bind, bind_assoc]
    refine bind_congr fun several => ?_
    cases several with
    | nil => rfl
    | cons name others =>
      cases others with
      | nil =>
        simp only [needMember_eq_lift, Effect.lift_bind, bind_assoc]
        rfl
      | cons => rfl
  | storeNames =>
    simp only [run, plan, needNames_eq_lift, need_eq_lift, Effect.lift_bind, bind_assoc]
    rfl
  | storeAt =>
    simp only [run, plan, needPath_eq_lift, need_eq_lift, Effect.lift_bind, bind_assoc]
    rfl
  | importAs =>
    simp only [run, plan, needMember_eq_lift, need_eq_lift, Effect.lift_bind, bind_assoc]
    rfl
  | importNames =>
    simp only [run, plan, needNames_eq_lift, need_eq_lift, importTargets_eq_lift, Effect.lift_bind,
      bind_assoc]
    rfl
  | importAt =>
    simp only [run, plan, needPath_eq_lift, need_eq_lift, Effect.lift_bind, bind_assoc]
    rfl
  | importFolder =>
    simp only [run, plan, need_eq_lift, Effect.lift_bind, bind_assoc]
    rfl
  | deleteName | verifyName =>
    simp only [run, plan, needMember_eq_lift, Effect.lift_bind, bind_assoc]
    rfl
  | deleteAt | verifyAt =>
    simp only [run, plan, needPath_eq_lift, Effect.lift_bind, bind_assoc]
    rfl

end Form

/-- Looking up what is no name changes nothing. -/
theorem Context.afterLookup_of_not_name {context : Context} {name : String}
    (h : isDottedIdentifier name = false) : context.afterLookup name = context := by
  rw [afterLookup, if_neg (by simp [h])]

namespace Action

/-- The world when the form of a command is chosen: names are looked up for that. -/
def noted (action : Action) (arguments : Arguments) (world : World) : World :=
  { world with scope :=
      ((namesLookedUp world.context arguments action.forms).foldl Context.afterLookup
        world.context).scope }

theorem looked_noted (action : Action) (arguments : Arguments) (world : World) :
    world.Looked (action.noted arguments world) :=
  ⟨rfl, Context.looked_afterLookups _ world.context, rfl⟩

/-- Where looking up each name changes nothing, the world stays as it is. -/
theorem noted_of_kept {action : Action} {arguments : Arguments} {world : World}
    (kept : ∀ name ∈ namesLookedUp world.context arguments action.forms,
      world.context.afterLookup name = world.context) : action.noted arguments world = world := by
  have same : ∀ names : List String, (∀ name ∈ names, world.context.afterLookup name =
      world.context) → names.foldl Context.afterLookup world.context = world.context := by
    intro names each
    induction names with
    | nil => rfl
    | cons name names ih =>
      obtain ⟨first, others⟩ := List.forall_mem_cons.mp each
      rw [List.foldl_cons, first, ih others]
  rw [noted, same _ kept]
  rfl

end Action

/-- What a line asks for: its arguments, its action, the form that is chosen for them, and the plan
of that form. -/
structure Task where
  arguments : Arguments
  action : Action
  form : Form
  plan : Plan

namespace Task

/-- The task of a line under what its names refer to. A line has none that is malformed, that fits
no form, or whose arguments do not pass. -/
def ofLine? (context : Context) (line : String) : Option Task := do
  let arguments ← (Arguments.ofLine line).toOption
  let action ← (Action.ofArguments arguments).toOption
  let form ← action.choose context arguments
  let _ ← (form.signature.validate context arguments).toOption
  let plan ← (form.plan arguments).toOption
  return ⟨arguments, action, form, plan⟩

/-- The world when the form is chosen. -/
def noted (task : Task) (world : World) : World :=
  task.action.noted task.arguments world

def run (task : Task) (archive : Archive) : RunM (List ResultRecord) :=
  task.plan.run archive task.arguments

theorem looked_noted (task : Task) (world : World) : world.Looked (task.noted world) :=
  task.action.looked_noted task.arguments world

/-- How a line comes to its task. -/
theorem ofLine?_eq_some_iff {context : Context} {line : String} {task : Task} :
    ofLine? context line = some task ↔
      Arguments.ofLine line = .ok task.arguments ∧
      Action.ofArguments task.arguments = .ok task.action ∧
      task.action.choose context task.arguments = some task.form ∧
      task.form.signature.validate context task.arguments = .ok () ∧
      task.form.plan task.arguments = .ok task.plan := by
  obtain ⟨arguments, action, form, plan⟩ := task
  simp only [ofLine?, Option.bind_eq_bind, Option.bind_eq_some_iff, toOption_eq_some_iff, pure,
    Option.some.injEq, Task.mk.injEq]
  constructor
  · rintro ⟨_, read, _, acts, _, chosen, _, valid, _, planned, rfl, rfl, rfl, rfl⟩
    exact ⟨read, acts, chosen, valid, planned⟩
  · rintro ⟨read, acts, chosen, valid, planned⟩
    exact ⟨_, read, _, acts, _, chosen, _, valid, _, planned, rfl, rfl, rfl, rfl⟩

end Task

variable {archive : Archive} {arguments : Arguments} {action : Action} {world after : World}
  {line : String}

/-- A command fails before there is something to do, or the line it is given in has a task, and the
command carries that out. -/
theorem Action.perform_cases {result : Except CommandError (List ResultRecord)}
    (read : Arguments.ofLine line = .ok arguments)
    (acts : Action.ofArguments arguments = .ok action)
    (performed : action.perform archive arguments world = (result, after)) :
    (∃ e, result = .error e ∧ after = action.noted arguments world) ∨
      ∃ task, Task.ofLine? world.context line = some task ∧
        task.run archive (task.noted world) = (result, after) := by
  rw [Action.perform, Effect.bind_of_ok (Effect.get_apply world),
    RunM.noteLookups, Effect.bind_of_ok (Effect.modify_apply _ world)] at performed
  cases chosen : action.choose world.context arguments with
  | none =>
    simp only [chosen] at performed
    cases performed
    exact .inl ⟨_, rfl, rfl⟩
  | some form =>
    cases valid : form.signature.validate world.context arguments with
    | error fault =>
      simp only [chosen, valid] at performed
      cases performed
      exact .inl ⟨_, rfl, rfl⟩
    | ok _ =>
      simp only [chosen, valid] at performed
      rw [Form.run_eq_plan] at performed
      cases planned : form.plan arguments with
      | error fault =>
        rw [planned] at performed
        cases performed
        exact .inl ⟨_, rfl, rfl⟩
      | ok plan =>
        rw [Effect.lift_bind_of_ok planned] at performed
        exact .inr ⟨⟨arguments, action, form, plan⟩,
          Task.ofLine?_eq_some_iff.mpr ⟨read, acts, chosen, valid, planned⟩, performed⟩

/-- The command of a task carries it out. -/
theorem Action.perform_of_task {task : Task} (asked : Task.ofLine? world.context line = some task) :
    task.action.perform archive task.arguments world = task.run archive (task.noted world) := by
  obtain ⟨-, -, chosen, valid, planned⟩ := Task.ofLine?_eq_some_iff.mp asked
  rw [Action.perform, Effect.bind_of_ok (Effect.get_apply world), RunM.noteLookups,
    Effect.bind_of_ok (Effect.modify_apply _ world)]
  simp only [chosen, valid]
  rw [Form.run_eq_plan, Effect.lift_bind_of_ok planned]
  rfl

end Command

/-- The files after a report: as they were, or with a record at the end of the log. -/
inductive Logged (log : Option String) (d : Directory) : Directory → Prop
  | quiet : Logged log d d
  | noted {path : String} {record : Metadata} {d' : Directory} (kept : log = some path)
    (appended : d.append path (encodeUtf8 (Report.logLine record)) = .ok d') : Logged log d d'

theorem Logged.eq_of_none {d d' : Directory} (h : Logged none d d') : d' = d := by
  cases h with
  | quiet => rfl
  | noted kept => cases kept

namespace Session
variable {session : Session} {log : Option String} {line : String} {world after : World}
  {report : Report} {result : Except CommandError Unit}

theorem logged_of_emit (recorded : report.record.isSome = session.settings.metadata)
    (h : emit log report world = (result, after)) :
    after.scope = world.scope ∧
      Logged (session.keptLog log) world.host.directory after.host.directory ∧
      (result.isOk = false → after.host.directory = world.host.directory) := by
  simp only [emit] at h
  rw [Effect.bind_of_ok (Effect.modify_apply _ world)] at h
  cases log with
  | none =>
    cases h
    exact ⟨rfl, .quiet, fun _ => rfl⟩
  | some path =>
    cases kept : report.record with
    | none =>
      rw [kept] at h
      cases h
      exact ⟨rfl, .quiet, fun _ => rfl⟩
    | some record =>
      rw [kept, Option.isSome_some] at recorded
      rw [kept] at h
      cases result with
      | error e =>
        obtain ⟨e', host, failed, rfl⟩ := RunM.onStorage_eq_error h
        obtain ⟨rfl, -⟩ := HostM.change_eq_error failed
        exact ⟨rfl, .quiet, fun _ => rfl⟩
      | ok _ =>
        obtain ⟨host, noted, rfl⟩ := RunM.onStorage_eq_ok h
        refine ⟨rfl, .noted ?_ (HostM.change_eq_ok noted).1, by rintro ⟨⟩⟩
        rw [keptLog, ← recorded]
        rfl

/-- A line is carried out: it has a task, and that succeeds; what it did is reported, or the report
fails. -/
structure Ran (session : Session) (log : Option String) (line : String) (world : World)
    (task : Task) (records : List ResultRecord) (done after : World) : Prop where
  asked : Task.ofLine? world.context line = some task
  ran : task.run session.archive (task.noted world) = (.ok records, done)
  scope : after.scope = done.scope
  logged : Logged (session.keptLog log) done.host.directory after.host.directory

/-- The world when a line ends that comes to no task. -/
inductive Unstarted (line : String) (world : World) : World → Prop
  | unread : Unstarted line world world
  | unplanned {arguments : Arguments} {action : Action}
    (read : Arguments.ofLine line = .ok arguments)
    (acts : Action.ofArguments arguments = .ok action) :
    Unstarted line world (action.noted arguments world)

theorem Unstarted.looked (h : Unstarted line world after) : world.Looked after := by
  cases h with
  | unread => exact .refl world
  | unplanned read acts => exact Action.looked_noted _ _ world

/-- A task that was carried out is reported, or its report fails and changes no file. -/
theorem ran_of_performed {task : Task} {records : List ResultRecord} {done : World}
    {result : Except CommandError Metadata}
    (asked : Task.ofLine? world.context line = some task)
    (carried : task.run session.archive (task.noted world) = (.ok records, done))
    (h : run (some session) log line world = (result, after)) :
    session.Ran log line world task records done after ∧
      (∀ record, result = .ok record → record.result = records) ∧
      (result.isOk = false → after.host.directory = done.host.directory) := by
  obtain ⟨read, acts, -⟩ := Task.ofLine?_eq_some_iff.mp asked
  obtain ⟨record, report, same, told, ran⟩ :=
    run_of_performed log read acts ((Action.perform_of_task asked).trans carried)
  have recorded : report.record.isSome = session.settings.metadata := by
    rw [told]
    cases session.settings.metadata <;> rfl
  rw [ran, Effect.bind_apply] at h
  split at h
  · next emitted =>
    obtain ⟨scope, logged, -⟩ := logged_of_emit recorded emitted
    cases h
    refine ⟨⟨asked, carried, scope, logged⟩, ?_, nofun⟩
    rintro _ ⟨⟩
    exact same
  · next emitted =>
    obtain ⟨scope, logged, quiet⟩ := logged_of_emit recorded emitted
    cases h
    exact ⟨⟨asked, carried, scope, logged⟩, nofun, fun _ => quiet rfl⟩

/-- How a line ends: without a task, in its task, or when its task is carried out. -/
theorem run_cases {result : Except CommandError Metadata}
    (h : run (some session) log line world = (result, after)) :
    (∃ e, result = .error e ∧ Unstarted line world after) ∨
      ∃ task, Task.ofLine? world.context line = some task ∧
        ((∃ e, result = .error e ∧
            task.run session.archive (task.noted world) = (.error e, after)) ∨
          ∃ records done, session.Ran log line world task records done after ∧
            (∀ record, result = .ok record → record.result = records) ∧
            (result.isOk = false → after.host.directory = done.host.directory)) := by
  cases read : Arguments.ofLine line with
  | error fault =>
    rw [run, Effect.bind_of_ok (needOpen_some session world), read] at h
    cases h
    exact .inl ⟨_, rfl, .unread⟩
  | ok arguments =>
    cases acts : Action.ofArguments arguments with
    | error fault =>
      rw [run, Effect.bind_of_ok (needOpen_some session world),
        Effect.bind_of_ok (RunM.wellFormed_of_ok read world), acts] at h
      cases h
      exact .inl ⟨_, rfl, .unread⟩
    | ok action =>
      cases performed : action.perform session.archive arguments world with
      | mk outcome done =>
        rcases Action.perform_cases read acts performed with ⟨e, rfl, rfl⟩ | ⟨task, asked, carried⟩
        · cases (run_of_perform_error read acts performed).symm.trans h
          exact .inl ⟨_, rfl, .unplanned read acts⟩
        · refine .inr ⟨task, asked, ?_⟩
          cases outcome with
          | error e =>
            cases (run_of_perform_error read acts performed).symm.trans h
            exact .inl ⟨_, rfl, carried⟩
          | ok records => exact .inr ⟨records, done, ran_of_performed asked carried h⟩

/-- A line that succeeds carries out its task. -/
theorem ran_of_run {record : Metadata}
    (h : run (some session) log line world = (.ok record, after)) :
    ∃ task done, session.Ran log line world task record.result done after := by
  rcases run_cases h with ⟨_, failed, -⟩ | ⟨task, -, ⟨_, failed, -⟩ | ⟨records, done, ran, same, -⟩⟩
  · cases failed
  · cases failed
  · obtain rfl := same record rfl
    exact ⟨task, done, ran⟩

/-- A line succeeds whose task does, if its record can be logged. -/
theorem run_of_task {task : Task} {records : List ResultRecord} {done : World}
    (asked : Task.ofLine? world.context line = some task)
    (carried : task.run session.archive (task.noted world) = (.ok records, done))
    (can : session.CanLog log done.host.directory) :
    ∃ record last, run (some session) log line world = (.ok record, last) ∧
      record.result = records ∧ session.Ran log line world task records done last := by
  obtain ⟨read, acts, -⟩ := Task.ofLine?_eq_some_iff.mp asked
  obtain ⟨record, last, ran, same, -⟩ :=
    run_of_perform read acts ((Action.perform_of_task asked).trans carried) can
  obtain ⟨task', done', told⟩ := ran_of_run ran
  cases asked.symm.trans told.asked
  obtain ⟨-, rfl⟩ := Prod.mk.inj (carried.symm.trans told.ran)
  exact ⟨record, last, ran, same, same ▸ told⟩

/-- A line fails whose record is to go into a log that cannot be written. -/
theorem run_of_unwritable {task : Task} {records : List ResultRecord} {done : World} {path : String}
    (asked : Task.ofLine? world.context line = some task)
    (carried : task.run session.archive (task.noted world) = (.ok records, done))
    (kept : session.keptLog log = some path)
    (unwritable : ∀ bytes d, done.host.directory.append path bytes ≠ .ok d) :
    (run (some session) log line world).1.isOk = false := by
  cases ran : run (some session) log line world with
  | mk result last =>
    cases result with
    | error e => rfl
    | ok record =>
      obtain ⟨read, acts, -⟩ := Task.ofLine?_eq_some_iff.mp asked
      obtain ⟨_, report, -, told, ran'⟩ :=
        run_of_performed log read acts ((Action.perform_of_task asked).trans carried)
      obtain ⟨_, _, emitted, -⟩ := Effect.bind_eq_ok (ran'.symm.trans ran)
      rw [keptLog] at kept
      split at kept
      · next recorded =>
        subst kept
        simp only [emit, told, recorded, if_true] at emitted
        rw [Effect.bind_of_ok (Effect.modify_apply _ done)] at emitted
        obtain ⟨host, appended, -⟩ := RunM.onStorage_eq_ok emitted
        exact absurd (HostM.change_eq_ok appended).1 (unwritable _ _)
      · cases kept

/-- A line fails as its task does. -/
theorem run_of_task_error {task : Task} {e : CommandError}
    (asked : Task.ofLine? world.context line = some task)
    (failed : task.run session.archive (task.noted world) = (.error e, after)) :
    run (some session) log line world = (.error e, after) := by
  obtain ⟨read, acts, -⟩ := Task.ofLine?_eq_some_iff.mp asked
  exact run_of_perform_error read acts ((Action.perform_of_task asked).trans failed)

/-- A line leaves the names as its task does, if its record can be logged. -/
theorem run_scope_of_task {task : Task} {result : Except CommandError (List ResultRecord)}
    {done : World} (asked : Task.ofLine? world.context line = some task)
    (carried : task.run session.archive (task.noted world) = (result, done))
    (can : session.CanLog log done.host.directory) :
    (run (some session) log line world).2.scope = done.scope := by
  cases result with
  | error e => rw [run_of_task_error asked carried]
  | ok records =>
    obtain ⟨record, last, ran, -⟩ := run_of_task asked carried can
    obtain ⟨task', done', told⟩ := ran_of_run ran
    cases asked.symm.trans told.asked
    obtain ⟨-, rfl⟩ := Prod.mk.inj (carried.symm.trans told.ran)
    rw [ran, told.scope]

end Session
end ObjectVault
