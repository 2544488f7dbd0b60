import ObjectVault.Proofs.NewNames
import ObjectVault.Shell.Script

namespace ObjectVault
open ObjectVault.Command

namespace Shell
variable {shell : Shell} {line name : String}

/-- The name that a request of the shell's own binds. -/
def Request.bound : Request → Option String
  | .bind name _ | .load name _ => some name
  | _ => none

/-- Lines that bind a name have to name an identifier. -/
theorem isIdentifier_of_ofLine {request : Request} (read : Request.ofLine line = .ok request)
    (binds : request.bound = some name) : isIdentifier name = true := by
  rw [Request.ofLine] at read
  generalize firstWord line = word at read
  split at read
  -- The words are matched in the order in which they are listed: these two are let and load.
  case h_10 =>
    obtain ⟨_, _, rfl, valid⟩ := letRequest_eq_ok read
    cases binds
    exact valid
  case h_11 =>
    obtain ⟨_, _, rfl, valid⟩ := loadRequest_eq_ok read
    cases binds
    exact valid
  case h_8 | h_9 | h_12 =>
    split at read
    all_goals cases read
    cases binds
  all_goals cases read; cases binds

/-- What is done with a shell: a command is given to its vault, or a line is typed. -/
inductive Deed
  | command (line : String)
  | typed (line : String)

namespace Deed

def after (shell : Shell) : Deed → Shell
  | command line => (shell.runCommand line).shell
  | typed line => (shell.reply line).shell

/-- The command that goes to the vault. -/
def command? : Deed → Option String
  | command line => some line
  | typed line =>
    if isIdle line then none
    else match Request.ofLine line with
      | .ok (.vault sent) => some sent
      | _ => none

theorem after_of_command {deed : Deed} {command : String} (given : deed.command? = some command)
    (shell : Shell) : deed.after shell = (shell.runCommand command).shell := by
  cases deed with
  | command line =>
    cases given
    rfl
  | typed line =>
    rw [command?] at given
    rw [after, reply]
    split at given
    · cases given
    · next busy =>
      rw [if_neg busy]
      split at given
      · next read =>
        cases given
        rw [read]
        rfl
      · cases given

/-- The names that a deed may bind: identifiers, and that of a folder which a line imports into a
shell with an open vault. -/
def Names (shell : Shell) (deed : Deed) (name : String) : Prop :=
  isIdentifier name = true ∨
    ∃ command, shell.session.isSome = true ∧ deed.command? = some command ∧
      FolderLine command name

end Deed

theorem runCommand_binds (shell : Shell) (command : String) :
    shell.world.scope.Binds
      (fun name => isIdentifier name = true ∨
        shell.session.isSome = true ∧ FolderLine command name)
      (shell.runCommand command).shell.world.scope := by
  rw [runCommand]
  cases opened : shell.session with
  | none => exact .refl _ _
  | some session =>
    cases ran : Session.run (some session) shell.log command { shell.world with reports := [] } with
    | mk result after =>
      exact (Session.run_binds ran).imp fun name => Or.imp_right fun folder => ⟨rfl, folder⟩

/-- A request binds no name but its own, and what the command does that it holds. -/
theorem execute_binds (shell : Shell) (request : Request) :
    shell.world.scope.Binds
      (fun name => request.bound = some name ∨
        ∃ command, request = .vault command ∧
          (isIdentifier name = true ∨ shell.session.isSome = true ∧ FolderLine command name))
      (shell.execute request).shell.world.scope := by
  cases request with
  | openVault line =>
    rw [execute, openVault]
    split <;> exact .refl _ _
  | vault command =>
    exact (shell.runCommand_binds command).imp fun name mine => .inr ⟨command, rfl, mine⟩
  | bind name literal => exact .insert (.inl rfl) _ _
  | load name file =>
    rw [execute, loadFrame]
    split
    · exact .refl _ _
    · split
      · exact .refl _ _
      · exact .insert (.inl rfl) _ _
  | display name =>
    have looked := Context.looked_afterLookups [name] shell.world.context
    rw [execute, display]
    split <;> exact .of_looked _ looked
  | list folder =>
    rw [execute, list]
    split
    · exact .refl _ _
    · split <;> exact .refl _ _
  | help keyword =>
    rw [execute, help]
    split <;> exact .refl _ _
  | bindings | clear | quit => exact .refl _ _

namespace Deed
variable {deed : Deed} {command : String}

theorem binds (deed : Deed) (shell : Shell) :
    shell.world.scope.Binds (deed.Names shell) (deed.after shell).world.scope := by
  cases deed with
  | command line =>
    exact (shell.runCommand_binds line).imp fun name =>
      Or.imp_right fun ⟨opened, folder⟩ => ⟨line, opened, rfl, folder⟩
  | typed line =>
    rw [after, reply]
    split
    · exact .refl _ _
    · next busy =>
      split
      · exact .refl _ _
      · exact .refl _ _
      · next request _ read =>
        refine (shell.execute_binds request).imp fun name mine => ?_
        rcases mine with own | ⟨sent, rfl, identifier | ⟨opened, folder⟩⟩
        · exact .inl (isIdentifier_of_ofLine read own)
        · exact .inl identifier
        · have given : (typed line).command? = some sent := by rw [command?, if_neg busy, read]
          exact .inr ⟨sent, opened, given, folder⟩

end Deed

/-- The shell after deeds, each of which is done whatever came of those before it. -/
def afterAll (shell : Shell) (deeds : List Deed) : Shell :=
  deeds.foldl Deed.after shell

/-- In the course of deeds a command goes to an open vault, when the shell is `there`. -/
inductive Sent (session : Session) (command : String) (there : Shell) : Shell → List Deed → Prop
  | now {deed : Deed} {deeds : List Deed} (opened : there.session = some session)
    (given : deed.command? = some command) : Sent session command there there (deed :: deeds)
  | later {shell : Shell} {deed : Deed} {deeds : List Deed}
    (sent : Sent session command there (deed.after shell) deeds) :
    Sent session command there shell (deed :: deeds)

/-- The names that deeds may bind. -/
def NamesOf (shell : Shell) (deeds : List Deed) (name : String) : Prop :=
  isIdentifier name = true ∨
    ∃ session command there, Sent session command there shell deeds ∧ FolderLine command name

theorem afterAll_binds (shell : Shell) (deeds : List Deed) :
    shell.world.scope.Binds (shell.NamesOf deeds) (shell.afterAll deeds).world.scope := by
  induction deeds generalizing shell with
  | nil => exact .refl _ _
  | cons deed deeds ih =>
    have first : shell.world.scope.Binds (shell.NamesOf (deed :: deeds))
        (deed.after shell).world.scope := by
      refine (deed.binds shell).imp fun name =>
        Or.imp_right fun ⟨command, opened, given, folder⟩ => ?_
      obtain ⟨session, opened⟩ := Option.isSome_iff_exists.mp opened
      exact ⟨session, command, shell, .now opened given, folder⟩
    refine first.trans ((ih (deed.after shell)).imp fun name => Or.imp_right ?_)
    rintro ⟨session, command, there, sent, folder⟩
    exact ⟨session, command, there, .later sent, folder⟩

/-- What is bound when a command has run is bound when all deeds are done. -/
theorem Sent.kept {session : Session} {command : String} {there : Shell} {deeds : List Deed}
    (sent : Sent session command there shell deeds) {result : Except CommandError Metadata}
    {after : World} (ran : Session.run (some session) there.log command
      { there.world with reports := [] } = (result, after))
    (bound : after.scope.contains name = true) :
    (shell.afterAll deeds).world.scope.contains name = true := by
  induction sent with
  | @now deed deeds opened given =>
    have world : (deed.after there).world = after := by
      rw [Deed.after_of_command given, runCommand, opened, ran]
    rw [← world] at bound
    exact (afterAll_binds (deed.after there) deeds).kept name bound
  | later _ ih => exact ih

/-- A name without dots that is no identifier is looked up in vain, bound or not. -/
theorem lookup_of_dotless {context : Context} (dotless : '.' ∉ name.toList)
    (invalid : isIdentifier name = false) (kind : String) :
    context.lookup kind name = .error (.invalidIdentifier kind name) := by
  have parts : dottedParts name = [name] := by
    rw [dottedParts, List.splitOn_eq_singleton dotless, List.map_cons, List.map_nil,
      String.ofList_toList]
  have undotted : isDottedIdentifier name = false := by
    rw [isDottedIdentifier, parts]
    simp [invalid]
  rw [Context.lookup, undotted]
  rfl

/-- Deeds in a shell in which identifiers are bound bind more than identifiers exactly if one of
them imports a folder, into an open vault and without an alias, whose name is no identifier. What is
reported as imported can be looked up in the end if it is an identifier, and else it cannot. -/
theorem bound_names_are_identifiers {shell : Shell}
    (sane : ∀ name, shell.world.scope.contains name = true → isIdentifier name = true)
    (deeds : List Deed) :
    ((∀ name, (shell.afterAll deeds).world.scope.contains name = true → isIdentifier name = true) ↔
      ∀ session command there name, Sent session command there shell deeds →
        FolderLine command name → isIdentifier name = true) ∧
    ∀ session command there, Sent session command there shell deeds → Imports command →
      ∀ record after, Session.run (some session) there.log command
          { there.world with reports := [] } = (.ok record, after) →
        ∀ reported ∈ record.result, ∀ kind,
          (isIdentifier reported.subject = true →
            ∃ b, (shell.afterAll deeds).world.context.lookup kind reported.subject = .ok b) ∧
          (isIdentifier reported.subject = false →
            (shell.afterAll deeds).world.context.lookup kind reported.subject =
              .error (.invalidIdentifier kind reported.subject)) := by
  refine ⟨⟨fun identifiers session command there name sent folder => ?_,
      fun folders name bound => ?_⟩,
    fun session command there sent imports record after ran reported mem kind => ?_⟩
  · cases ran : Session.run (some session) there.log command
        { there.world with reports := [] } with
    | mk result after =>
      exact identifiers name (sent.kept ran (Session.run_binds_folder folder ran))
  · rcases (afterAll_binds shell deeds).new name bound with bound | identifier | folder
    · exact sane name bound
    · exact identifier
    · obtain ⟨session, command, there, sent, folder⟩ := folder
      exact folders session command there name sent folder
  · obtain ⟨bound, names⟩ := Session.run_subjects imports ran reported mem
    refine ⟨fun identifier => ?_, fun invalid => ?_⟩
    · obtain ⟨b, found⟩ := Option.isSome_iff_exists.mp (sent.kept ran bound)
      exact ⟨b, lookup_of_bound identifier found⟩
    · have folder := names.resolve_left (by simp [invalid])
      exact lookup_of_dotless folder.dotless invalid kind

/-- A shell with an open vault in which one name is bound. -/
def noteShell : Shell :=
  ⟨.default, none, some openSession, ⟨Archive.bareHost, noteScope, []⟩⟩

theorem read_folderLine_note :
    Arguments.ofLine "import my-notes" = .ok (.ofList [("import", "my-notes")]) := by
  have scanned : tokens "import my-notes" = .ok ["import", "my-notes"] := by rfl
  have paired : pairs ["import", "my-notes"] = .ok [("import", "my-notes")] := by rfl
  rw [Arguments.ofLine, scanned]
  exact congrArg (Except.map Table.ofList) paired

theorem folderLine_note : FolderLine "import my-notes" "my-notes" := by
  have given : (Table.ofList [("import", "my-notes")]).get? "import" = some "my-notes" := by rfl
  have unplaced : (Table.ofList [("import", "my-notes")]).get? "from" = none := by rfl
  have folder : FolderLine "import my-notes" (Form.viewTarget "my-notes" none).1 := by
    refine .intro read_folderLine_note (by rfl) ⟨given, by rfl⟩ (by rfl) (by rfl)
      fun other list listed origin => ?_
    cases unplaced.symm.trans origin.place.given
  have head : (Form.viewTarget "my-notes" none).1 = "my-notes" := by rfl
  rwa [head] at folder

/-- An import succeeds that binds what cannot be looked up. -/
theorem bound_names_are_identifiers_note :
    (¬ ∀ name,
      (noteShell.afterAll [.command "import my-notes", .typed "let y = 1"]).world.scope.contains
        name = true → isIdentifier name = true) ∧
    (noteShell.afterAll [.command "import my-notes", .typed "let y = 1"]).world.context.lookup
      "variable" "my-notes" = .error (.invalidIdentifier "variable" "my-notes") := by
  have sane : ∀ name, noteShell.world.scope.contains name = true → isIdentifier name = true := by
    intro name bound
    have only : name ∈ ["x"] := Table.contains_ofList.mp bound
    rw [List.mem_singleton.mp only]
    exact note_storable.identifier
  have invalid : isIdentifier "my-notes" = false := by decide +kernel
  have sent : Sent openSession "import my-notes" noteShell noteShell
      [.command "import my-notes", .typed "let y = 1"] := .now rfl rfl
  obtain ⟨names, subjects⟩ :=
    bound_names_are_identifiers sane [.command "import my-notes", .typed "let y = 1"]
  constructor
  · intro identifiers
    have valid := names.mp identifiers _ _ _ _ sent folderLine_note
    rw [invalid] at valid
    cases valid
  · have told : (Session.run (some openSession) noteShell.log "import my-notes"
        { noteShell.world with reports := [] }).1.toOption.map (·.result) =
          some [⟨"my-notes", none, none⟩] := by
      decide +kernel
    cases ran : Session.run (some openSession) noteShell.log "import my-notes"
        { noteShell.world with reports := [] } with
    | mk result after =>
      rw [ran] at told
      obtain ⟨record, succeeded, records⟩ := Option.map_eq_some_iff.mp told
      obtain rfl := toOption_eq_some_iff.mp succeeded
      have own : (⟨"my-notes", none, none⟩ : ResultRecord) ∈ record.result := by
        rw [records]
        exact List.mem_singleton_self _
      have imports : Imports "import my-notes" := ⟨_, read_folderLine_note, by rfl⟩
      exact (subjects _ _ _ sent imports record after ran _ own "variable").2 invalid

end Shell
end ObjectVault
