import ObjectVault.Proofs.Accepting
import ObjectVault.Proofs.KeptNames
import ObjectVault.Proofs.Subfolders

namespace ObjectVault
open ObjectVault.Command ObjectVault.Text

/-- Lines that store a variable in a folder, give a folder a name, and import the variable from the
first folder. The folder that is given a name may be written otherwise. -/
structure FolderLines where
  name : String
  title : String
  folder : String
  shown : String
  storing : String
  viewing : String
  importing : String
  named : isIdentifier name = true
  aliased : isIdentifier title = true
  bare : Rule.isLiteral folder = .ok false
  bare_shown : Rule.isLiteral shown = .ok false
  stores : Arguments.ofLine storing = .ok (twoArguments "store" name "in" folder)
  views : Arguments.ofLine viewing = .ok (twoArguments "import" shown "as" title)
  imports : Arguments.ofLine importing = .ok (twoArguments "from" folder "import" name)

namespace FolderLines

/-- The member that the variable is stored as. -/
def member (lines : FolderLines) : String :=
  Form.memberPath lines.folder lines.name

/-- The variable as a name behind the name of the folder. -/
def dotted (lines : FolderLines) : String :=
  lines.title ++ "." ++ lines.name

/-- The lines for folders that are words. -/
def ofWords (name title folder shown : String) (named : isIdentifier name = true)
    (aliased : isIdentifier title = true) (word : Word folder) (word' : Word shown) :
    FolderLines where
  name := name
  title := title
  folder := folder
  shown := shown
  storing := storeLine [name] folder
  viewing := " ".intercalate ["import", shown, "as", title]
  importing := importLine folder [name]
  named := named
  aliased := aliased
  bare := isLiteral_of_word word
  bare_shown := isLiteral_of_word word'
  stores := by
    simpa using ofLine_storeLine ⟨by simp, List.forall_mem_singleton.mpr named, word⟩
  views := by
    have words : ∀ word ∈ ["import", shown, "as", title], Word word := by
      simp only [List.forall_mem_cons]
      exact ⟨by decide, word', by decide, word_of_isIdentifier aliased, List.forall_mem_nil _⟩
    rw [ofLine_of_values fun word mem => (words word mem).isValue]
    rfl
  imports := by
    simpa using ofLine_importLine ⟨by simp, List.forall_mem_singleton.mpr named, word⟩

variable {context : Context} {task : Task}

theorem asks_of_line {line : String} {arguments : Arguments}
    (read : Arguments.ofLine line = .ok arguments) (asked : Task.ofLine? context line = some task) :
    task.arguments = arguments ∧ Asks arguments task.plan := by
  obtain ⟨own, -⟩ := Task.ofLine?_eq_some_iff.mp asked
  obtain rfl := Except.ok.inj (own.symm.trans read)
  exact ⟨rfl, asks_of_task asked⟩

theorem names_eq (lines : FolderLines) :
    names lines.name = .ok [lines.name] :=
  names_of_isDottedIdentifier (isDottedIdentifier_of_isIdentifier lines.named)

theorem plan_storing (lines : FolderLines)
    (asked : Task.ofLine? context lines.storing = some task) :
    task.arguments = twoArguments "store" lines.name "in" lines.folder ∧
      task.plan = .store [(lines.member, lines.name)] := by
  obtain ⟨own, asks⟩ := asks_of_line lines.stores asked
  exact ⟨own, asks.plan_eq_store lines.names_eq lines.bare⟩

theorem plan_viewing (lines : FolderLines)
    (asked : Task.ofLine? context lines.viewing = some task) :
    task.plan = .view lines.title (Form.viewTarget lines.shown (some lines.title)).2 := by
  obtain ⟨-, asks⟩ := asks_of_line lines.views asked
  generalize task.plan = plan at asks
  cases asks with
  | store given | storeAs given | storeAt given | delete given | verify given =>
    simp [get?_twoArguments] at given
  | load origin | loadAs origin =>
    have given := origin.place.given
    simp [get?_twoArguments] at given
  | loadAt _ path =>
    obtain ⟨token, given, quoted, -⟩ := path
    have inFolder : token = lines.shown := by simpa [get?_twoArguments, eq_comm] using given
    cases lines.bare_shown.symm.trans (inFolder ▸ quoted)
  | @view other name' path _ bare _ target =>
    have same : other = lines.shown := by simpa [get?_twoArguments, eq_comm] using bare.given
    subst same
    simp only [get?_twoArguments, if_pos] at target
    obtain rfl : name' = lines.title := (congrArg Prod.fst target).symm
    rw [target]
  | deleteAt path | verifyAt path =>
    obtain ⟨token, given, -⟩ := path
    simp [get?_twoArguments] at given

theorem plan_importing (lines : FolderLines)
    (asked : Task.ofLine? context lines.importing = some task) :
    task.arguments = twoArguments "from" lines.folder "import" lines.name ∧
      task.plan = .load [(lines.member, lines.name)] := by
  obtain ⟨own, asks⟩ := asks_of_line lines.imports asked
  refine ⟨own, ?_⟩
  generalize task.plan = plan at asks
  cases asks with
  | store given | storeAs given | storeAt given | delete given | verify given =>
    simp [get?_twoArguments] at given
  | @load other list listed origin _ =>
    have ofName : list = lines.name := by simpa [get?_twoArguments, eq_comm] using origin.given
    have inFolder : other = lines.folder := by
      simpa [get?_twoArguments, eq_comm] using origin.place.given
    subst ofName inFolder
    cases lines.names_eq.symm.trans origin.names
    rfl
  | loadAs _ named | loadAt _ _ named => simp [get?_twoArguments] at named
  | view unlisted =>
    refine absurd ⟨⟨?_, lines.bare⟩, ?_, lines.names_eq, List.forall_mem_singleton.mpr lines.named⟩
      (unlisted lines.folder lines.name [lines.name]) <;> simp [get?_twoArguments]
  | deleteAt path | verifyAt path =>
    obtain ⟨token, given, -⟩ := path
    simp [get?_twoArguments] at given

end FolderLines

theorem Archive.Short.of_extends {archive : Archive} {d d' : Directory} (h : archive.Short d')
    (more : d.Extends d') : archive.Short d := by
  intro bytes read
  obtain ⟨extra, longer⟩ := more archive.path bytes read
  have bound := h _ longer
  rw [List.length_append] at bound
  omega

/-- What storing one variable does that is bound to a value: it writes what that is exported as. -/
theorem Command.Plan.storeOne_eq_ok {archive : Archive} {arguments : Arguments}
    {world after : World} {records : List ResultRecord} {path name : String} {value : Value}
    (usual : arguments.get? "with" = none) (bound : world.scope.get? name = some (.value value))
    (h : (Plan.store [(path, name)]).run archive arguments world = (.ok records, after)) :
    ∃ bytes entry host, Codec.exportDefault value = .ok bytes ∧
      archive.write path bytes world.host = (.ok entry, host) ∧ after = { world with host } := by
  rw [Plan.store_run, Effect.bind_of_ok (converter_none usual true world)] at h
  rcases Form.storeEach_cons_eq_ok h with
    ⟨again, -⟩ | ⟨-, value', between, record, stored, others, valued, storing, rest, -⟩
  · simp at again
  · obtain ⟨rfl, rfl⟩ := RunM.valueOf_of_bound bound valued
    cases rest
    obtain ⟨host, ran, rfl⟩ := RunM.onStorage_eq_ok storing
    obtain ⟨_, bytes, entry, -, exported, written, -⟩ := Storage.store_eq_ok ran
    exact ⟨bytes, entry, host, exported, written, rfl⟩

namespace FolderLines
variable {session : Session} {log : Option String} {world stored viewed : World}
  {record record' : Metadata} {value : Value}

/-- The first line writes the variable into the vault, and changes no name. -/
theorem written_by_storing (lines : FolderLines)
    (bound : world.scope.get? lines.name = some (.value value))
    (ran : Session.run (some session) log lines.storing world = (.ok record, stored)) :
    ∃ bytes entry host, Codec.exportDefault value = .ok bytes ∧
      session.archive.write lines.member bytes world.host = (.ok entry, host) ∧
      Logged (session.keptLog log) host.directory stored.host.directory ∧
      stored.scope = world.scope := by
  obtain ⟨task, done, carried⟩ := Session.ran_of_run ran
  obtain ⟨arguments, planned⟩ := lines.plan_storing carried.asked
  have run := carried.plan_run (by rw [planned]; exact List.forall_mem_singleton.mpr ⟨value, bound⟩)
    (by rw [planned]; rintro _ ⟨⟩)
  rw [planned, arguments] at run
  obtain ⟨bytes, entry, host, exported, written, rfl⟩ :=
    Plan.storeOne_eq_ok (by simp [get?_twoArguments]) bound run
  exact ⟨bytes, entry, host, exported, written, carried.logged, carried.scope⟩

/-- What the first line leaves: the names as they were, and the variable in the vault. -/
theorem after_storing (lines : FolderLines)
    (bound : world.scope.get? lines.name = some (.value value))
    (ran : Session.run (some session) log lines.storing world = (.ok record, stored))
    (short : session.archive.Short stored.host.directory) :
    ∃ bytes before later, Codec.exportDefault value = .ok bytes ∧
      session.archive.contents world.host.directory = .ok before ∧
      Stored session.archive.password lines.member bytes before later ∧
      session.archive.Wrote stored.host.directory later ∧ stored.scope = world.scope := by
  obtain ⟨bytes, entry, host, exported, written, logged, scope⟩ :=
    lines.written_by_storing bound ran
  have more := logged.extends
  obtain ⟨before, later, found, change, wrote, -⟩ :=
    Archive.wrote_of_write (short.of_extends more) written
  exact ⟨bytes, before, later, exported, found, change, wrote.extends more, scope⟩

/-- What the second line leaves: one more name, for the folder, and no file but with more at its
end. -/
theorem after_viewing (lines : FolderLines)
    (ran : Session.run (some session) log lines.viewing stored = (.ok record', viewed)) :
    viewed.scope = stored.scope.insert lines.title
        (.view (.ofFolder session.archive
          (Form.viewTarget lines.shown (some lines.title)).2)) ∧
      stored.host.directory.Extends viewed.host.directory := by
  obtain ⟨task, done, carried⟩ := Session.ran_of_run ran
  have planned := lines.plan_viewing carried.asked
  have run := carried.plan_run (by rw [planned]; trivial) (by rw [planned]; rintro _ ⟨⟩)
  rw [planned] at run
  let bound : Scope := stored.scope.insert lines.title
    (.view (.ofFolder session.archive (Form.viewTarget lines.shown (some lines.title)).2))
  have last : done = { stored with scope := bound } := (congrArg Prod.snd run).symm
  subst last
  exact ⟨carried.scope, carried.logged.extends⟩

theorem task_viewing (lines : FolderLines) (context : Context) :
    Task.ofLine? context lines.viewing =
      some ⟨twoArguments "import" lines.shown "as" lines.title, .load, .importFolder,
        .view (Form.viewTarget lines.shown (some lines.title)).1
          (Form.viewTarget lines.shown (some lines.title)).2⟩ := by
  let arguments := twoArguments "import" lines.shown "as" lines.title
  have given : arguments.get? "import" = some lines.shown := by
    simp [arguments, get?_twoArguments]
  have renamed : arguments.get? "as" = some lines.title := by simp [arguments, get?_twoArguments]
  have unplaced : arguments.get? "from" = none := by simp [arguments, get?_twoArguments]
  have usual : arguments.get? "with" = none := by simp [arguments, get?_twoArguments]
  have complete : Form.importFolder.signature.Complete context arguments := by
    simp only [Signature.Complete, Form.signature, List.forall_mem_cons]
    exact ⟨⟨lines.shown, given, lines.bare_shown⟩, List.forall_mem_nil _⟩
  have passes : Signature.Passes Form.importFolder.signature.optional context arguments := by
    simp only [Signature.Passes, Form.signature, List.forall_mem_cons, renamed, Option.some.injEq,
      forall_eq']
    exact ⟨lines.aliased, List.forall_mem_nil _⟩
  have accepted : Action.load.Accepts context arguments .importFolder := by
    refine Action.accepts_of_parts [.importAs, .importNames, .importAt] rfl ?_ complete
      passes (List.forall_mem_singleton.mpr usual)
    simp only [List.forall_mem_cons]
    refine ⟨Signature.not_complete_of_absent (.tail _ (.head _)) unplaced,
      Signature.not_complete_of_absent (.tail _ (.head _)) unplaced, fun third => ?_,
      List.forall_mem_nil _⟩
    obtain ⟨token, path, quoted⟩ := third ("import", .path) (.head _)
    obtain rfl := Option.some.inj (given.symm.trans path)
    cases lines.bare_shown.symm.trans quoted
  have acts : Action.ofArguments arguments = .ok .load := by
    simp [arguments, Action.ofArguments, Action.all, Action.keyword, Table.contains,
      get?_twoArguments]
  have planned : Form.importFolder.plan arguments =
      .ok (.view (Form.viewTarget lines.shown (some lines.title)).1
        (Form.viewTarget lines.shown (some lines.title)).2) := by
    simp only [Form.plan, checked_bind_eq_ok_iff, Form.value_eq_ok_iff]
    exact ⟨lines.shown, given, by rw [renamed]; rfl⟩
  exact Task.ofLine?_eq_some_iff.mpr
    ⟨lines.views, acts, accepted.chosen, accepted.valid, planned⟩

/-- A line that gives the folder a name succeeds. -/
theorem run_viewing (lines : FolderLines) (logs : session.CanLog log stored.host.directory) :
    ∃ record viewed,
      Session.run (some session) log lines.viewing stored = (.ok record, viewed) := by
  have asked := lines.task_viewing stored.context
  let target := Form.viewTarget lines.shown (some lines.title)
  let shown : Scope :=
    stored.scope.insert target.1 (.view (.ofFolder session.archive target.2))
  let task : Task := ⟨twoArguments "import" lines.shown "as" lines.title, .load, .importFolder,
    .view target.1 target.2⟩
  have noted : task.noted stored = stored := Task.noted_eq asked trivial (by rintro _ ⟨⟩)
  have carried : task.run session.archive (task.noted stored) =
      (.ok [⟨target.1, none, none⟩], { stored with scope := shown }) := by
    rw [noted]
    rfl
  obtain ⟨record, last, ran, -⟩ := Session.run_of_task asked carried logs
  exact ⟨record, last, ran⟩

/-- A name behind a dot is looked up in what the name in front of it stands for. -/
theorem resolve_behind (lines : FolderLines) {scope : Scope} {d : Directory} {view : View}
    (free : scope.get? lines.dotted = none)
    (bound : scope.get? lines.title = some (.view view)) :
    scope.resolve d lines.dotted = (do
      match ← (view.child? lines.name d) with
      | some child => return .ofChild child
      | none => throw (.attributeNotFound lines.title lines.name)) := by
  have dotless : ∀ {text : String}, isIdentifier text = true → '.' ∉ text.toList :=
    fun own mem => (plain_of_isWordChar ((isWordChar_of_isIdentifier own).2 '.' mem)).2.2 rfl
  have parts : dottedParts lines.dotted = [lines.title, lines.name] := by
    have whole : lines.dotted.toList = lines.title.toList ++ '.' :: lines.name.toList := by
      simp [dotted]
    rw [dottedParts, whole, List.splitOn_append_cons_self,
      List.splitOn_eq_singleton (dotless lines.aliased),
      List.splitOn_eq_singleton (dotless lines.named)]
    simp
  rw [Scope.resolve, free, parts]
  simp only [bound, Scope.follow, Binding.attribute?]
  cases view.child? lines.name d with
  | error e => rfl
  | ok child => cases child <;> rfl

end FolderLines

/-- In an archive that was written, what lies in a folder under a member's name is its value. -/
theorem View.child?_of_wrote {archive : Archive} {d : Directory} {contents : Contents}
    {folder name : String} (wrote : archive.Wrote d contents)
    (listed : folder ++ "/" ++ name ∈ contents.manifest.members.keys) :
    (ofFolder archive folder).child? name d =
      (archive.valueAt (folder ++ "/" ++ name) d).map fun v => some (.value v) := by
  cases found : archive.contents d with
  | ok own =>
    obtain rfl := wrote.contents_eq found
    exact child?_of_listed (unread_ofFolder archive folder name) found listed
  | error e =>
    rw [child?_of_unreadable (unread_ofFolder archive folder name).unkept found,
      valueAt_of_unreadable found]
    rfl

theorem Command.Form.viewTarget_of_dotless {folder title : String}
    (dotless : '.' ∉ folder.toList) :
    (Form.viewTarget folder (some title)).2 = folder := by
  have same : folder.toList.map (fun c => if c = '.' then '/' else c) = folder.toList := by
    refine (List.map_congr_left fun c mem => ?_).trans (List.map_id _)
    have other : c ≠ '.' := fun dot => dotless (dot ▸ mem)
    simp [other]
  rw [Form.viewTarget, same, String.ofList_toList]

namespace FolderLines
variable {session : Session} {log : Option String} {world stored viewed loaded : World}
  {record : Metadata} {value : Value}

/-- A line that imports the variable and succeeds binds it to the value of its member. -/
theorem after_importing (lines : FolderLines)
    (ran : Session.run (some session) log lines.importing viewed = (.ok record, loaded)) :
    ∃ v, session.archive.valueAt lines.member viewed.host.directory = .ok v ∧
      loaded.scope.get? lines.name = some (.value v) := by
  obtain ⟨task, done, carried⟩ := Session.ran_of_run ran
  obtain ⟨arguments, planned⟩ := lines.plan_importing carried.asked
  have run := carried.plan_run (by rw [planned]; trivial) (by rw [planned]; rintro _ ⟨⟩)
  rw [planned, arguments] at run
  obtain ⟨importer, arrivals, converts, -, targets, reads, rfl⟩ := Form.loadAll_eq_ok run
  have usual : importer = none := by
    cases converts with
    | usual => rfl
    | named given => simp [get?_twoArguments] at given
  subst usual
  obtain ⟨arrival, rfl, target⟩ := List.map_eq_singleton_iff.mp targets
  obtain ⟨read, imported⟩ := reads arrival (List.mem_singleton_self _)
  obtain ⟨path, own, bytes, v⟩ := arrival
  obtain ⟨placed, named⟩ := Prod.mk.inj target
  obtain rfl : path = lines.member := placed
  obtain rfl : own = lines.name := named
  refine ⟨v, ?_, ?_⟩
  · rw [Archive.valueAt, Storage.load_ok read imported]
    rfl
  · rw [carried.scope]
    exact (Table.get?_insert _ _ _ _).trans (if_pos rfl)

theorem task_importing (lines : FolderLines) (context : Context) :
    Task.ofLine? context lines.importing =
      some ⟨twoArguments "from" lines.folder "import" lines.name, .load, .importNames,
        .load [(lines.member, lines.name)]⟩ := by
  let arguments := twoArguments "from" lines.folder "import" lines.name
  have origin : arguments.get? "from" = some lines.folder := by
    simp [arguments, get?_twoArguments]
  have given : arguments.get? "import" = some lines.name := by
    simp [arguments, get?_twoArguments]
  have unnamed : arguments.get? "as" = none := by simp [arguments, get?_twoArguments]
  have usual : arguments.get? "with" = none := by simp [arguments, get?_twoArguments]
  have identifiers : ∀ other ∈ [lines.name], isIdentifier other = true :=
    List.forall_mem_singleton.mpr lines.named
  have complete : Form.importNames.signature.Complete context arguments := by
    simp only [Signature.Complete, Form.signature, List.forall_mem_cons]
    exact ⟨⟨lines.name, given, [lines.name], lines.names_eq, identifiers⟩,
      ⟨lines.folder, origin, lines.bare⟩, List.forall_mem_nil _⟩
  have passes : Signature.Passes Form.importNames.signature.optional context arguments := by
    simp only [Signature.Passes, Form.signature, List.forall_mem_cons]
    exact ⟨Allowed.of_absent unnamed, Allowed.of_absent usual, List.forall_mem_nil _⟩
  have accepted : Action.load.Accepts context arguments .importNames := by
    have first : ¬ Form.importAs.signature.Complete context arguments :=
      Signature.not_complete_of_absent (.tail _ (.tail _ (.head _))) unnamed
    exact Action.accepts_of_parts [.importAs] rfl (List.forall_mem_singleton.mpr first) complete
      passes (List.forall_mem_nil _)
  have planned : Form.importNames.plan arguments = .ok (.load [(lines.member, lines.name)]) := by
    simp only [Form.plan, checked_bind_eq_ok_iff, Form.value_eq_ok_iff, Form.listed_eq_ok_iff]
    exact ⟨lines.folder, origin, [lines.name], ⟨lines.name, given, lines.names_eq⟩,
      [(lines.member, lines.name)], by rw [unnamed]; rfl, rfl⟩
  exact Task.ofLine?_eq_some_iff.mpr ⟨lines.imports,
    ofArguments_importLine lines.folder lines.name, accepted.chosen, accepted.valid, planned⟩

/-- A line that imports the variable succeeds where its member has a value. -/
theorem run_importing (lines : FolderLines) {v : Value}
    (valued : session.archive.valueAt lines.member viewed.host.directory = .ok v)
    (logs : session.CanLog log viewed.host.directory) :
    ∃ record loaded,
      Session.run (some session) log lines.importing viewed = (.ok record, loaded) := by
  have asked := lines.task_importing viewed.context
  let task : Task := ⟨twoArguments "from" lines.folder "import" lines.name, .load, .importNames,
    .load [(lines.member, lines.name)]⟩
  have noted : task.noted viewed = viewed := Task.noted_eq asked trivial (by rintro _ ⟨⟩)
  obtain ⟨loaded, loading, rfl⟩ := checked_map_eq_ok_iff.mp valued
  obtain ⟨bytes, read, imported, -⟩ := Storage.load_eq_ok loading
  let item : Item := ⟨lines.name, loaded.value, bytes, loaded.value⟩
  have readable : ∀ other ∈ [item], session.archive.read (Form.memberPath lines.folder other.name)
      viewed.host.directory = .ok other.bytes ∧ Codec.importDefault other.bytes = .ok other.back :=
    List.forall_mem_singleton.mpr ⟨read, imported⟩
  obtain ⟨records, arrived, -⟩ := Form.loadEach_ok readable
  have usual : task.arguments.get? "with" = none := by simp [task, get?_twoArguments]
  have carried : task.run session.archive (task.noted viewed) =
      (.ok records, { viewed with scope := Form.loadedScope [item] viewed.scope }) := by
    rw [noted]
    exact (Effect.bind_of_ok (converter_none usual false viewed)).trans arrived
  obtain ⟨record, last, ran, -⟩ := Session.run_of_task asked carried logs
  exact ⟨record, last, ran⟩

/-- Where all paths are kept, the member has the value that the variable's bytes are read as. -/
theorem valueAt_stored (lines : FolderLines)
    (bound : world.scope.get? lines.name = some (.value value)) {record' : Metadata}
    (ran : Session.run (some session) log lines.storing world = (.ok record, stored))
    (ran' : Session.run (some session) log lines.viewing stored = (.ok record', viewed))
    (short : session.archive.Short stored.host.directory) (normal : NormalPath lines.member)
    (settled : ∀ before, session.archive.contents world.host.directory = .ok before →
      ∀ member ∈ before.payloads.keys, Settled member) :
    ∃ bytes, Codec.exportDefault value = .ok bytes ∧
      session.archive.valueAt lines.member viewed.host.directory =
        (Codec.importDefault bytes).mapError .codec := by
  obtain ⟨bytes, before, later, exported, found, change, wrote, -⟩ :=
    lines.after_storing bound ran short
  obtain ⟨-, more⟩ := lines.after_viewing ran'
  have keeps := (change.forall_keys Settled).mpr ⟨normal.settled, settled before found⟩
  have read : session.archive.read lines.member viewed.host.directory = .ok bytes := by
    rw [Archive.read_eq ((wrote.extends more).contents_of_settled keeps)]
    exact change.opens
  refine ⟨bytes, exported, ?_⟩
  rw [Archive.valueAt, Storage.load, read]
  simp only [Codec.importWith, Except.mapError, bind, Except.bind]
  cases Codec.importDefault bytes <;> rfl

/-- Lines about the number, which is stored as `x`. -/
def ofNote (folder shown : String) (word : Word folder) (word' : Word shown) : FolderLines :=
  ofWords "x" "m" folder shown (by decide +kernel) (by decide +kernel) word word'

/-- In an empty vault, the lines about the number succeed. They leave one member, and the view. -/
theorem ran_ofNote {folder shown : String} {scope : Scope} (word : Word folder) (word' : Word shown)
    (bound : scope.get? "x" = some (.value (.int 1)))
    (fits : FittingPath (Form.memberPath folder "x"))
    (storedShortly : Archive.storedShortly (Form.memberPath folder "x") = true) :
    ∃ record stored record' viewed last loaded,
      Session.run (some openSession) none (ofNote folder shown word word').storing
        ⟨Archive.bareHost, scope, []⟩ = (.ok record, stored) ∧
      Session.run (some openSession) none (ofNote folder shown word word').viewing stored =
        (.ok record', viewed) ∧
      Session.run (some openSession) none (ofNote folder shown word word').importing viewed =
        (.ok last, loaded) ∧
      openSession.archive.Short stored.host.directory ∧
      loaded.scope.get? "x" = some (.value (.int 1)) ∧
      viewed.scope = scope.insert "m"
        (.view (.ofFolder openSession.archive (Form.viewTarget shown (some "m")).2)) ∧
      ∃ contents, openSession.archive.contents viewed.host.directory = .ok contents ∧
        ∀ member ∈ contents.manifest.members.keys, member = Form.memberPath folder "x" := by
  let lines := ofNote folder shown word word'
  have storable : ∀ item ∈ [note], item.Storable folder scope :=
    List.forall_mem_singleton.mpr
      ⟨note_storable.identifier, bound, note_storable.exported, note_storable.imported, fits⟩
  have sized : openSession.archive.SizedStores (Item.members folder [note]) Archive.bareHost :=
    ⟨fun _ => Archive.sized_of_storedShortly storedShortly, trivial⟩
  have logs : ∀ d, openSession.CanLog none d := fun _ _ kept => by cases kept
  obtain ⟨record, stored, ran, -⟩ := @run_storeLine openSession none
    ⟨Archive.bareHost, scope, []⟩ _ _ folder [note] openSession_canStore (by simp) word storable
    (by simp) sized
  obtain ⟨record', viewed, ran'⟩ := lines.run_viewing (logs stored.host.directory)
  have short : openSession.archive.Short stored.host.directory := by
    obtain ⟨bytes, entry, host, exported, written, logged, -⟩ := lines.written_by_storing bound ran
    obtain rfl : note.bytes = bytes := Except.ok.inj (note_storable.exported.symm.trans exported)
    have same : host = Archive.hostWith (Form.memberPath folder "x") :=
      (congrArg Prod.snd written).symm
    rw [logged.eq_of_none, same]
    exact fun _ => Archive.sized_of_storedShortly storedShortly
  obtain ⟨bytes, before, later, exported, found, change, wrote, kept⟩ :=
    lines.after_storing bound ran short
  obtain ⟨scope', more⟩ := lines.after_viewing ran'
  obtain rfl := Except.ok.inj (openSession_canStore.serves.found.symm.trans found)
  have contents := (wrote.extends more).contents_of_settled <|
    (change.forall_keys Settled).mpr ⟨fits.toNormalPath.settled, nofun⟩
  have valued : openSession.archive.valueAt lines.member viewed.host.directory = .ok (.int 1) := by
    obtain rfl : note.bytes = bytes := Except.ok.inj (note_storable.exported.symm.trans exported)
    rw [Archive.valueAt, Storage.load_ok ((Archive.read_eq contents _).trans change.opens)
      note_storable.imported]
    rfl
  obtain ⟨last, loaded, imported⟩ := lines.run_importing valued (logs _)
  obtain ⟨v, valued', bound'⟩ := lines.after_importing imported
  obtain rfl : .int 1 = v := Except.ok.inj (valued.symm.trans valued')
  refine ⟨record, stored, record', viewed, last, loaded, ran, ran', imported, short, bound', ?_,
    later, contents, fun member mem => ?_⟩
  · rw [scope', kept]
    rfl
  · rw [← Table.contains_iff, Table.contains, change.members, Table.get?_insert] at mem
    split at mem
    · assumption
    · cases mem

/-- The variable that was stored is found under the name of the folder as the line that imports it
finds it: with the value that its bytes are read as, or not at all. Both find it where the other
members keep their paths. -/
theorem finds_same_member (lines : FolderLines)
    (reached : (Form.viewTarget lines.shown (some lines.title)).2 = lines.folder)
    (bound : world.scope.get? lines.name = some (.value value))
    (free : world.scope.get? lines.dotted = none) {record' : Metadata}
    (ran : Session.run (some session) log lines.storing world = (.ok record, stored))
    (ran' : Session.run (some session) log lines.viewing stored = (.ok record', viewed))
    (short : session.archive.Short stored.host.directory) :
    (∀ b, viewed.scope.resolve viewed.host.directory lines.dotted = .ok b →
      session.CanLog log viewed.host.directory → ∃ v last loaded, b = .value v ∧
        Session.run (some session) log lines.importing viewed = (.ok last, loaded) ∧
          loaded.scope.get? lines.name = some (.value v)) ∧
    (∀ last loaded, Session.run (some session) log lines.importing viewed = (.ok last, loaded) →
      ∃ v, loaded.scope.get? lines.name = some (.value v) ∧
        viewed.scope.resolve viewed.host.directory lines.dotted = .ok (.value v)) ∧
    (NormalPath lines.member →
      (∀ before, session.archive.contents world.host.directory = .ok before →
        ∀ member ∈ before.payloads.keys, Settled member) →
      ∃ bytes, Codec.exportDefault value = .ok bytes ∧
        viewed.scope.resolve viewed.host.directory lines.dotted =
          ((Codec.importDefault bytes).mapError .codec).map .value) := by
  obtain ⟨_, _, later, -, -, change, wrote, scope⟩ := lines.after_storing bound ran short
  obtain ⟨scope', more⟩ := lines.after_viewing ran'
  rw [reached, scope] at scope'
  have wrote' := wrote.extends more
  have listed : lines.member ∈ later.manifest.members.keys := by
    rw [← Table.contains_iff, Table.contains, change.members, Table.get?_insert, if_pos rfl]
    rfl
  -- The name of the folder is bound to a view of it, and no other name stands in the way.
  have other : lines.dotted ≠ lines.title := by
    intro same
    have lengths := congrArg (·.toList.length) same
    simp [dotted] at lengths
  have resolved : viewed.scope.resolve viewed.host.directory lines.dotted =
      (session.archive.valueAt lines.member viewed.host.directory).map .value := by
    have unbound : viewed.scope.get? lines.dotted = none := by
      rw [scope', Table.get?_insert, if_neg other]
      exact free
    have named : viewed.scope.get? lines.title =
        some (.view (.ofFolder session.archive lines.folder)) := by
      rw [scope', Table.get?_insert, if_pos rfl]
    rw [lines.resolve_behind unbound named, View.child?_of_wrote wrote' listed]
    change ((session.archive.valueAt lines.member viewed.host.directory).map _ >>= _) = _
    cases session.archive.valueAt lines.member viewed.host.directory <;> rfl
  refine ⟨fun b resolves logs => ?_, fun last loaded imported => ?_, fun normal settled => ?_⟩
  · obtain ⟨v, valued, rfl⟩ := checked_map_eq_ok_iff.mp (resolved.symm.trans resolves)
    obtain ⟨last, loaded, imported⟩ := lines.run_importing valued logs
    obtain ⟨w, valued', bound'⟩ := lines.after_importing imported
    cases valued.symm.trans valued'
    exact ⟨v, last, loaded, rfl, imported, bound'⟩
  · obtain ⟨v, valued, bound'⟩ := lines.after_importing imported
    exact ⟨v, bound', by rw [resolved, valued]; rfl⟩
  · obtain ⟨bytes, exported, valued⟩ := lines.valueAt_stored bound ran ran' short normal settled
    exact ⟨bytes, exported, by rw [resolved, valued]⟩

/-- The number is stored in a folder, and found under the name that the folder is given where it is
written in some way; and so it is imported from the folder. -/
def FindsNote (folder shown : String) : Prop :=
  ∃ record stored record' viewed last loaded,
    Session.run (some openSession) none (storeLine ["x"] folder) Session.noteWorld =
      (.ok record, stored) ∧
    Session.run (some openSession) none (" ".intercalate ["import", shown, "as", "m"]) stored =
      (.ok record', viewed) ∧
    viewed.scope.resolve viewed.host.directory "m.x" = .ok (.value (.int 1)) ∧
    Session.run (some openSession) none (importLine folder ["x"]) viewed = (.ok last, loaded) ∧
    loaded.scope.get? "x" = some (.value (.int 1))

/-- The number is found behind a folder without dots, and behind one that is written with a dot. -/
theorem finds_note : FindsNote "notes" "notes" ∧ FindsNote "a/b" "a.b" := by
  have bound : noteScope.get? "x" = some (.value (.int 1)) := note_storable.bound
  have each : ∀ folder shown, Word folder → Word shown →
      (Form.viewTarget shown (some "m")).2 = folder → FittingPath (Form.memberPath folder "x") →
      Archive.storedShortly (Form.memberPath folder "x") = true → FindsNote folder shown := by
    intro folder shown word word' reached fits shortly
    obtain ⟨record, stored, record', viewed, last, loaded, ran, ran', imported, short, bound', -⟩ :=
      ran_ofNote word word' bound fits shortly
    obtain ⟨-, finds, -⟩ :=
      (ofNote folder shown word word').finds_same_member reached bound rfl ran ran' short
    obtain ⟨v, bound'', found⟩ := finds last loaded imported
    obtain rfl : .int 1 = v := Binding.value.inj (Option.some.inj (bound'.symm.trans bound''))
    exact ⟨record, stored, record', viewed, last, loaded, ran, ran', found, imported, bound'⟩
  constructor
  · exact each "notes" "notes" (by decide) (by decide) (Form.viewTarget_of_dotless (by decide))
      note_storable.fits Archive.storedShortly_note
  · exact each "a/b" "a.b" (by decide) (by decide) (by decide +kernel) (by decide)
      (Archive.storedShortly_of_manifest (by decide +kernel) (by decide +kernel))

/-- A scope in which the number is bound, and another one to a name with a dot. -/
def clashScope : Scope :=
  .ofList [("x", .value (.int 1)), ("m.x", .value (.int 2))]

/-- What is found under the name of the folder is not always what is imported: dots in it lead to
folders in folders, though the lines store and import as it is written, and a name with a dot may be
bound as a whole. -/
theorem finds_other_members :
    (∃ record stored record' viewed last loaded,
      Session.run (some openSession) none "store x in a.b" Session.noteWorld =
        (.ok record, stored) ∧
      Session.run (some openSession) none "import a.b as m" stored = (.ok record', viewed) ∧
      Session.run (some openSession) none "from a.b import x" viewed = (.ok last, loaded) ∧
      loaded.scope.get? "x" = some (.value (.int 1)) ∧
      viewed.scope.resolve viewed.host.directory "m.x" = .error (.attributeNotFound "m" "x")) ∧
    ∃ record stored record' viewed last loaded,
      Session.run (some openSession) none "store x in notes" ⟨Archive.bareHost, clashScope, []⟩ =
        (.ok record, stored) ∧
      Session.run (some openSession) none "import notes as m" stored = (.ok record', viewed) ∧
      Session.run (some openSession) none "from notes import x" viewed = (.ok last, loaded) ∧
      loaded.scope.get? "x" = some (.value (.int 1)) ∧
      viewed.scope.resolve viewed.host.directory "m.x" = .ok (.value (.int 2)) := by
  refine ⟨?_, ?_⟩
  · have word : Word "a.b" := by decide
    obtain ⟨record, stored, record', viewed, last, loaded, ran, ran', imported, -, bound', scope,
      contents, found, only⟩ :=
      ran_ofNote word word note_storable.bound (by decide)
        (Archive.storedShortly_of_manifest (by decide +kernel) (by decide +kernel))
    have folder : (Form.viewTarget "a.b" (some "m")).2 = "a/b" := by decide +kernel
    rw [folder] at scope
    have missing : ∀ member ∈ contents.manifest.members.keys, ¬ Within "a/b/x" member := by
      intro member mem
      rw [only member mem]
      decide
    have unseen := View.child?_of_missing
      (View.unread_ofFolder openSession.archive "a/b" "x") found (by decide) missing
    have free : viewed.scope.get? "m.x" = none := by
      rw [scope]
      rfl
    have named : viewed.scope.get? "m" = some (.view (.ofFolder openSession.archive "a/b")) := by
      rw [scope, Table.get?_insert, if_pos rfl]
    have resolved : viewed.scope.resolve viewed.host.directory "m.x" = _ :=
      (ofNote "a.b" "a.b" word word).resolve_behind free named
    rw [show (ofNote "a.b" "a.b" word word).name = "x" from rfl, unseen] at resolved
    have written : storeLine ["x"] "a.b" = "store x in a.b" ∧
        " ".intercalate ["import", "a.b", "as", "m"] = "import a.b as m" ∧
        importLine "a.b" ["x"] = "from a.b import x" := by decide +kernel
    exact ⟨record, stored, record', viewed, last, loaded, written.1 ▸ ran, written.2.1 ▸ ran',
      written.2.2 ▸ imported, bound', resolved⟩
  · have word : Word "notes" := by decide
    have bound : clashScope.get? "x" = some (.value (.int 1)) := rfl
    obtain ⟨record, stored, record', viewed, last, loaded, ran, ran', imported, -, bound', scope,
      -⟩ := ran_ofNote word word bound note_storable.fits Archive.storedShortly_note
    have whole : viewed.scope.get? "m.x" = some (.value (.int 2)) := by
      rw [scope]
      rfl
    have resolved : viewed.scope.resolve viewed.host.directory "m.x" = .ok (.value (.int 2)) := by
      rw [Scope.resolve, whole]
    have written : storeLine ["x"] "notes" = "store x in notes" ∧
        " ".intercalate ["import", "notes", "as", "m"] = "import notes as m" ∧
        importLine "notes" ["x"] = "from notes import x" := by decide +kernel
    exact ⟨record, stored, record', viewed, last, loaded, written.1 ▸ ran, written.2.1 ▸ ran',
      written.2.2 ▸ imported, bound', resolved⟩

end FolderLines
end ObjectVault
