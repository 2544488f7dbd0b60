import ObjectVault.Proofs.KeptNames
import ObjectVault.Proofs.Provenance

namespace ObjectVault
open ObjectVault.Command

/-- Where members with one name have one path, each name is bound to the value of its member. -/
theorem get?_arrivedScope_of_paths {archive : Archive} {importer : Option Converter} {d : Directory}
    {arrivals : List Arrival}
    (reads : ∀ arrival ∈ arrivals, archive.read arrival.path d = .ok arrival.bytes ∧
      Codec.importWith importer arrival.bytes = .ok arrival.value)
    (paths : ∀ one ∈ arrivals, ∀ other ∈ arrivals, other.name = one.name → other.path = one.path)
    (scope : Scope) : ∀ arrival ∈ arrivals,
      (arrivedScope arrivals scope).get? arrival.name = some (.value arrival.value) := by
  intro arrival mem
  refine get?_arrivedScope_of_agree (fun other own same => ?_) (.inl (List.mem_map_of_mem mem))
  obtain ⟨read, imported⟩ := reads arrival mem
  obtain ⟨read', imported'⟩ := reads other own
  rw [paths arrival mem other own same, read] at read'
  rw [← Except.ok.inj read', imported] at imported'
  exact (Except.ok.inj imported').symm

namespace Session
variable {session : Session} {archive : Archive} {log : Option String} {line folder list : String}
  {listed : List String} {arguments : Arguments} {world after : World} {record : Metadata}
  {records : List ResultRecord}

/-- The listed names, or the one that a single one is given, are bound to the values of the members
in the folder. Each has a record with the checksums of its member. -/
structure ImportedNames (archive : Archive) (arguments : Arguments) (folder : String)
    (listed : List String) (world after : World) (records : List ResultRecord) : Prop where
  single : ∀ other, arguments.get? "as" = some other → listed.length = 1
  each : ∃ importer, Form.Converts world.context arguments false importer ∧
    listed.Forall₂ (fun name record => ∃ bytes value,
      archive.read (Form.memberPath folder name) world.host.directory = .ok bytes ∧
      Codec.importWith importer bytes = .ok value ∧
      after.scope.get? ((arguments.get? "as").getD name) = some (.value value) ∧
      record = ⟨(arguments.get? "as").getD name, none, some (.ofBytes bytes)⟩) records

/-- What is imported is a member by its path, or a folder as a whole. -/
inductive ImportedWhole (archive : Archive) (arguments : Arguments) (world after : World)
    (records : List ResultRecord) : Prop
  | member {path other : String} {importer : Option Converter} {bytes : Bytes} {value : Value}
    (given : Literal arguments "import" path) (named : arguments.get? "as" = some other)
    (converts : Form.Converts world.context arguments false importer)
    (read : archive.read path world.host.directory = .ok bytes)
    (imported : Codec.importWith importer bytes = .ok value)
    (bound : after.scope.get? other = some (.value value))
    (told : records = [⟨other, none, some (.ofBytes bytes)⟩]) :
    ImportedWhole archive arguments world after records
  | folder {folder name path : String} (given : Bare arguments "import" folder)
    (target : Form.viewTarget folder (arguments.get? "as") = (name, path))
    (bound : after.scope.get? name = some (.view (.ofFolder archive path)))
    (told : records = [⟨name, none, none⟩]) :
    ImportedWhole archive arguments world after records

theorem imported_of_several {done : World} (unnamed : arguments.get? "as" = none)
    (ran : Form.loadAll archive arguments (Form.folderTargets folder listed) world =
      (.ok records, done)) (scope : after.scope = done.scope) :
    ImportedNames archive arguments folder listed world after records := by
  obtain ⟨importer, arrivals, converts, rfl, targets, reads, rfl⟩ := Form.loadAll_eq_ok ran
  have paths : ∀ arrival ∈ arrivals, arrival.path = Form.memberPath folder arrival.name := by
    intro arrival mem
    have target : arrival.target ∈ Form.folderTargets folder listed :=
      targets ▸ List.mem_map_of_mem mem
    obtain ⟨name, -, same⟩ := List.mem_map.mp target
    obtain ⟨path, named⟩ := Prod.mk.inj same
    rw [← path, ← named]
  have names : arrivals.map Arrival.name = listed := by
    rw [← Form.map_folderTargets folder listed, ← targets, List.map_map]
    rfl
  have bound := get?_arrivedScope_of_paths reads (fun one mem other own same => by
    rw [paths one mem, paths other own, same]) world.scope
  refine ⟨by rw [unnamed]; nofun, importer, converts, ?_⟩
  rw [← names, List.forall₂_map_left_iff, List.forall₂_map_right_iff, List.forall₂_same]
  intro arrival mem
  obtain ⟨read, imported⟩ := reads arrival mem
  rw [unnamed, scope]
  exact ⟨arrival.bytes, arrival.value, paths arrival mem ▸ read, imported, bound arrival mem, rfl⟩

/-- What is known when one member was imported. -/
theorem loadAll_single {done : World} {path other : String}
    (ran : Form.loadAll archive arguments [(path, other)] world = (.ok records, done)) :
    ∃ importer bytes value, Form.Converts world.context arguments false importer ∧
      archive.read path world.host.directory = .ok bytes ∧
      Codec.importWith importer bytes = .ok value ∧
      done.scope.get? other = some (.value value) ∧
      records = [⟨other, none, some (.ofBytes bytes)⟩] := by
  obtain ⟨importer, arrivals, converts, rfl, targets, reads, rfl⟩ := Form.loadAll_eq_ok ran
  obtain ⟨arrival, rfl, target⟩ := List.map_eq_singleton_iff.mp targets
  cases target
  obtain ⟨read, imported⟩ := reads arrival (List.mem_singleton_self _)
  refine ⟨importer, arrival.bytes, arrival.value, converts, read, imported, ?_, rfl⟩
  exact (Table.get?_insert ..).trans (if_pos rfl)

/-- A line with a folder and something to be imported imports each of the names from that folder, or
else the folder counts for nothing: there is no list of identifiers that goes with it, and what is
imported is a member by its path, or another folder. -/
theorem import_from_takes_names (ran : run (some session) log line world = (.ok record, after))
    (read : Arguments.ofLine line = .ok arguments) (place : arguments.get? "from" = some folder)
    (given : arguments.get? "import" = some list) :
    (∃ listed, FromFolder arguments folder list listed ∧
      ImportedNames session.archive arguments folder listed world after record.result) ∨
    (∀ listed, ¬ FromFolder arguments folder list listed) ∧
      ImportedWhole session.archive arguments world after record.result := by
  obtain ⟨task, done, carried⟩ := ran_of_run ran
  obtain ⟨read', acts, -⟩ := Task.ofLine?_eq_some_iff.mp carried.asked
  rw [← Except.ok.inj (read.symm.trans read')] at acts
  have loads : task.plan.action = .load :=
    (Task.action_eq carried.asked).symm.trans (Action.eq_of_given acts given)
  have asks := asks_of_task carried.asked
  have plan_run := carried.plan_run
  obtain ⟨arguments', action, form, plan⟩ := task
  cases read.symm.trans read'
  cases asks with
  | store | storeAs | storeAt | delete | deleteAt | verify | verifyAt => cases loads
  | @load folder' list' listed origin unnamed =>
    cases place.symm.trans origin.place.given
    cases given.symm.trans origin.given
    exact .inl ⟨listed, origin, imported_of_several unnamed (plan_run trivial nofun) carried.scope⟩
  | @loadAs folder' list' name other origin named =>
    cases place.symm.trans origin.place.given
    cases given.symm.trans origin.given
    obtain ⟨importer, bytes, value, converts, found, imported, bound, told⟩ :=
      loadAll_single (plan_run trivial nofun)
    refine .inl ⟨[name], origin, fun _ _ => rfl, importer, converts, ?_⟩
    rw [told, named, carried.scope]
    exact .cons ⟨bytes, value, found, imported, bound, rfl⟩ .nil
  | loadAt unlisted literal named =>
    obtain ⟨importer, bytes, value, converts, found, imported, bound, told⟩ :=
      loadAll_single (plan_run trivial nofun)
    exact .inr ⟨unlisted folder list, .member literal named converts found imported
      (by rw [carried.scope, bound]) told⟩
  | view unlisted bare unconverted target =>
    obtain ⟨told, rfl⟩ := Prod.mk.inj (plan_run trivial nofun)
    refine .inr ⟨unlisted folder list, .folder bare target ?_ (Except.ok.inj told).symm⟩
    rw [carried.scope]
    exact (Table.get?_insert ..).trans (if_pos rfl)

theorem read_importLine {list : String} (known : list = "x" ∨ list = "*") :
    ∃ arguments, Arguments.ofLine ("from notes import " ++ list) = .ok arguments ∧
      arguments.get? "from" = some "notes" ∧ arguments.get? "import" = some list ∧
      arguments.get? "as" = none ∧ arguments.get? "with" = none := by
  obtain ⟨arguments, read⟩ : ∃ arguments,
      (Arguments.ofLine ("from notes import " ++ list)).toOption = some arguments := by
    rw [← Option.isSome_iff_exists]
    rcases known with rfl | rfl <;> decide +kernel
  have told : ∀ arguments,
      (Arguments.ofLine ("from notes import " ++ list)).toOption = some arguments →
        arguments.get? "from" = some "notes" ∧ arguments.get? "import" = some list ∧
        arguments.get? "as" = none ∧ arguments.get? "with" = none := by
    rcases known with rfl | rfl <;> decide +kernel
  exact ⟨arguments, toOption_eq_some_iff.mp read, told arguments read⟩

/-- Without an alias or a function, a single name is bound to what the bytes of its member stand
for. -/
theorem ImportedNames.of_single {archive : Archive} {arguments : Arguments} {folder name : String}
    {world after : World} {records : List ResultRecord} {bytes : Bytes}
    (h : ImportedNames archive arguments folder [name] world after records)
    (unnamed : arguments.get? "as" = none) (unconverted : arguments.get? "with" = none)
    (read : archive.read (Form.memberPath folder name) world.host.directory = .ok bytes) :
    ∃ value, Codec.importDefault bytes = .ok value ∧
      after.scope.get? name = some (.value value) ∧
      records = [⟨name, none, some (.ofBytes bytes)⟩] := by
  obtain ⟨importer, converts, each⟩ := h.each
  obtain ⟨record, rest, ⟨bytes', value, read', imported, bound, rfl⟩, others, rfl⟩ :=
    List.forall₂_cons_left_iff.mp each
  cases List.forall₂_nil_left_iff.mp others
  cases read.symm.trans read'
  rw [unnamed] at bound ⊢
  cases converts with
  | usual => exact ⟨value, imported, bound, rfl⟩
  | named given => cases unconverted.symm.trans given

/-- A star is not the path of a member, and as a folder it has its own name. -/
theorem ImportedWhole.of_star {archive : Archive} {arguments : Arguments} {world after : World}
    {records : List ResultRecord} (h : ImportedWhole archive arguments world after records)
    (given : arguments.get? "import" = some "*") (unnamed : arguments.get? "as" = none) :
    after.scope.get? "*" = some (.view (.ofFolder archive "*")) ∧
      records = [⟨"*", none, none⟩] := by
  cases h with
  | member literal =>
    obtain ⟨token, given', quoted, -⟩ := literal
    cases given.symm.trans given'
    have bare : Rule.isLiteral "*" = .ok false := by decide +kernel
    cases bare.symm.trans quoted
  | folder bare target bound told =>
    cases given.symm.trans bare.given
    have own : Form.viewTarget "*" none = ("*", "*") := by decide +kernel
    rw [unnamed] at target
    cases own.symm.trans target
    exact ⟨bound, told⟩

/-- A number is imported from its folder; but a star is taken for a folder, which is imported as a
whole. -/
theorem import_from_takes_names_note :
    (∃ record after value, run (some openSession) none "from notes import x"
        ⟨Archive.hostWith "notes/x", ∅, []⟩ = (.ok record, after) ∧
      Codec.importDefault [49] = .ok value ∧ after.scope.get? "x" = some (.value value) ∧
      record.result = [⟨"x", none, some (.ofBytes [49])⟩]) ∧
    ∃ record after,
      run (some openSession) none "from notes import *" noteWorld = (.ok record, after) ∧
      after.scope.get? "*" = some (.view (.ofFolder openSession.archive "*")) ∧
      record.result = [⟨"*", none, none⟩] := by
  constructor
  · have stored := read_hostWith_note
    generalize Archive.hostWith "notes/x" = host at stored
    have line : importLine "notes" ["x"] = "from notes import x" := by decide +kernel
    obtain ⟨arguments, read, place, given, unnamed, unconverted⟩ := read_importLine (.inl rfl)
    obtain ⟨record, after, ran, -⟩ := @run_importLine openSession none ⟨host, ∅, []⟩ "notes" [note]
      listing_note nofun (List.forall_mem_singleton.mpr ⟨stored, note_storable.imported⟩)
    have names : names "x" = .ok ["x"] := names_of_isDottedIdentifier (by decide +kernel)
    rw [List.map_singleton, show note.name = "x" from rfl, line] at ran
    rcases import_from_takes_names ran read place given with ⟨listed, origin, own⟩ | ⟨unlisted, -⟩
    · cases names.symm.trans origin.names
      obtain ⟨value, imported, bound, told⟩ := own.of_single unnamed unconverted stored
      exact ⟨record, after, value, ran, imported, bound, told⟩
    · refine absurd ⟨⟨place, ?_⟩, given, names, List.forall_mem_singleton.mpr ?_⟩ (unlisted ["x"])
      · exact isLiteral_of_word (by decide)
      · decide +kernel
  · have succeeds :
        (run (some openSession) none "from notes import *" noteWorld).1.isOk = true := by
      decide +kernel
    obtain ⟨arguments, read, place, given, unnamed, -⟩ := read_importLine (.inr rfl)
    cases ran : run (some openSession) none "from notes import *" noteWorld with
    | mk result after =>
      rw [ran] at succeeds
      cases result with
      | error e => cases succeeds
      | ok record =>
        refine ⟨record, after, rfl, ?_⟩
        generalize noteWorld = world at ran
        rcases import_from_takes_names ran read place given with ⟨listed, origin, -⟩ | ⟨-, whole⟩
        · have starred : names "*" = .error (.rejected .wildcardName) := by decide +kernel
          cases starred.symm.trans origin.names
        · exact whole.of_star given unnamed

end Session
end ObjectVault
