import ObjectVault.Proofs.Accepting
import ObjectVault.Proofs.KeptNames
import ObjectVault.Proofs.SortedMap

namespace ObjectVault
open ObjectVault.Command ObjectVault.Container ObjectVault.Directory ObjectVault.Text

theorem Table.erase_insert {α : Type} {t : Table α} {name : String} (value : α)
    (free : t.get? name = none) : (t.insert name value).erase name = t := by
  apply ext_get?
  intro other
  rw [get?_erase, get?_insert]
  split
  · next same => rw [same, free]
  · rfl

theorem Logged.refiled {log : Option String} {d d' : Directory} (h : Logged log d d') :
    Refiled d d' := by
  cases h with
  | quiet => exact .refl d
  | noted kept appended => exact refiled_append appended

namespace Archive
variable {archive : Archive} {d d' : Directory} {contents : Contents}

/-- More bytes at the end of a file that was written change nothing about its archive. -/
theorem Maintains.extends (h : archive.Maintains d contents) (written : archive.Written d)
    (more : d.Extends d') : archive.Maintains d' contents :=
  ⟨(written.contents_of_extends more).trans h.found, h.verified, h.seals, h.held⟩

/-- A path that is not listed is not read. -/
theorem read_unlisted (found : archive.contents d = .ok contents) {member : String}
    (unlisted : contents.manifest.members.get? member = none) :
    archive.read member d = .error (.memberNotFound member) := by
  rw [read_eq found, Contents.plaintext, unlisted]

end Archive

namespace Contents
variable {password : Option String} {path : String} {bytes : Bytes} {before after : Contents}

/-- Without the member that was stored, the contents list and hold what they did before. -/
theorem erase_of_stored (stored : Stored password path bytes before after)
    (consistent : before.Consistent) (free : before.manifest.members.get? path = none) :
    (after.erase path).manifest.members = before.manifest.members ∧
      (after.erase path).payloads = before.payloads := by
  obtain ⟨payload, payloads⟩ := stored.payloads
  have unheld : before.payloads.get? path = none := by
    have same := consistent.listed path
    rwa [Table.contains, Table.contains, free, Option.isSome_none, eq_comm,
      Option.isSome_eq_false_iff, Option.isNone_iff_eq_none] at same
  constructor
  · rw [erase, stored.members]
    exact Table.erase_insert _ free
  · rw [erase, payloads]
    exact Table.erase_insert _ unheld

/-- Without the member that was stored, everything reads as it did before. -/
theorem plaintext_erase_of_stored (stored : Stored password path bytes before after)
    (free : before.manifest.members.get? path = none)
    (verified : before.verify (before.access password) = .ok ()) (member : String) :
    (after.erase path).plaintext ((after.erase path).access password) member =
      before.plaintext (before.access password) member := by
  have same : (after.erase path).manifest.members.get? member =
      before.manifest.members.get? member := by
    rw [erase, stored.members, Table.erase_insert _ free]
  cases listed : before.manifest.members.get? member with
  | none =>
    rw [plaintext, plaintext, same, listed]
  | some entry =>
    have apart : member ≠ path := by
      rintro rfl
      cases free.symm.trans listed
    have mem : member ∈ before.manifest.members.keys := by
      rw [← Table.contains_iff, Table.contains, listed]
      rfl
    obtain ⟨text, reads⟩ := verify_eq_ok_iff.mp verified member mem
    rw [plaintext_erase apart]
    exact stored.plaintext_other apart (by rw [reads]; rintro ⟨⟩)

end Contents

/-- A line that stores a variable under a path. -/
def storeAtLine (name : String) (quote : Char) (path : String) : String :=
  " ".intercalate ["store", name, "in", quoted quote path]

/-- A line that deletes what is stored under a path. -/
def deleteAtLine (quote : Char) (path : String) : String :=
  " ".intercalate ["del", quoted quote path]

/-- A line that imports under a name what is stored under a path. -/
def importAtLine (quote : Char) (path name : String) : String :=
  " ".intercalate ["import", quoted quote path, "as", name]

section Tasks
variable {context : Context} {name path : String} {quote : Char}

theorem task_storeAtLine (known : context.Knows name) (quotes : isQuote quote = true)
    (closed : path.toList.getLast? ≠ some '\\') :
    Task.ofLine? context (storeAtLine name quote path) =
      some ⟨twoArguments "store" name "in" (quoted quote path), .store, .storeAt,
        .store [(path, name)]⟩ := by
  have proper : ∀ value ∈ ["store", name, "in", quoted quote path], IsValue value := by
    simp only [List.forall_mem_cons]
    exact ⟨.bare (by decide) (by decide), (word_of_isDottedIdentifier known.1).isValue,
      .bare (by decide) (by decide), .quoted quotes closed, List.forall_mem_nil _⟩
  have read : Arguments.ofLine (storeAtLine name quote path) =
      .ok (twoArguments "store" name "in" (quoted quote path)) :=
    ofLine_of_values proper
  have opened := opensLiteral_quoted quotes path
  have accepted : Action.store.Accepts context (twoArguments "store" name "in" (quoted quote path))
      .storeAt := by
    refine Action.accepts_store read (by decide) (.storeAt ⟨name, ?_, known⟩ ⟨_, ?_, opened⟩ ?_ ?_)
    · simp [get?_twoArguments]
    · simp [get?_twoArguments]
    · simp [get?_twoArguments]
    · intro value given
      simp [get?_twoArguments] at given
  have planned : Form.storeAt.plan (twoArguments "store" name "in" (quoted quote path)) =
      .ok (.store [(path, name)]) := by
    simp only [Form.plan, checked_bind_eq_ok_iff, Form.literal_eq_ok_iff, Form.value_eq_ok_iff]
    exact ⟨path, ⟨_, by simp [get?_twoArguments], unquote_quoted quotes path⟩, name,
      by simp [get?_twoArguments], rfl⟩
  exact Task.ofLine?_eq_some_iff.mpr
    ⟨read, ofArguments_storeLine _ _, accepted.chosen, accepted.valid, planned⟩

theorem task_deleteAtLine (quotes : isQuote quote = true)
    (closed : path.toList.getLast? ≠ some '\\') :
    Task.ofLine? context (deleteAtLine quote path) =
      some ⟨.ofList [("del", quoted quote path)], .delete, .deleteAt, .delete path⟩ := by
  let arguments : Arguments := .ofList [("del", quoted quote path)]
  have given : arguments.get? "del" = some (quoted quote path) := rfl
  have proper : ∀ value ∈ ["del", quoted quote path], IsValue value := by
    simp only [List.forall_mem_cons]
    exact ⟨.bare (by decide) (by decide), .quoted quotes closed, List.forall_mem_nil _⟩
  have read : Arguments.ofLine (deleteAtLine quote path) = .ok arguments :=
    ofLine_of_values proper
  have acts : Action.ofArguments arguments = .ok .delete := rfl
  have accepted : Action.delete.Accepts context arguments .deleteAt :=
    Action.accepts_delete read (by decide) (.deleteAt ⟨_, given, opensLiteral_quoted quotes path⟩)
  have planned : Form.deleteAt.plan arguments = .ok (.delete path) := by
    simp only [Form.plan, checked_bind_eq_ok_iff, Form.literal_eq_ok_iff]
    exact ⟨path, ⟨_, given, unquote_quoted quotes path⟩, rfl⟩
  exact Task.ofLine?_eq_some_iff.mpr ⟨read, acts, accepted.chosen, accepted.valid, planned⟩

theorem task_importAtLine (named : isIdentifier name = true) (quotes : isQuote quote = true)
    (closed : path.toList.getLast? ≠ some '\\') :
    Task.ofLine? context (importAtLine quote path name) =
      some ⟨twoArguments "import" (quoted quote path) "as" name, .load, .importAt,
        .load [(path, name)]⟩ := by
  let arguments := twoArguments "import" (quoted quote path) "as" name
  have given : arguments.get? "import" = some (quoted quote path) := by
    simp [arguments, get?_twoArguments]
  have renamed : arguments.get? "as" = some name := by simp [arguments, get?_twoArguments]
  have unplaced : arguments.get? "from" = none := by simp [arguments, get?_twoArguments]
  have usual : arguments.get? "with" = none := by simp [arguments, get?_twoArguments]
  have proper : ∀ value ∈ ["import", quoted quote path, "as", name], IsValue value := by
    simp only [List.forall_mem_cons]
    exact ⟨.bare (by decide) (by decide), .quoted quotes closed, .bare (by decide) (by decide),
      (word_of_isIdentifier named).isValue, List.forall_mem_nil _⟩
  have read : Arguments.ofLine (importAtLine quote path name) = .ok arguments :=
    ofLine_of_values proper
  have acts : Action.ofArguments arguments = .ok .load := by
    simp [arguments, Action.ofArguments, Action.all, Action.keyword, Table.contains,
      get?_twoArguments]
  have complete : Form.importAt.signature.Complete context arguments := by
    simp only [Signature.Complete, Form.signature, List.forall_mem_cons]
    exact ⟨⟨_, given, isLiteral_quoted quotes path⟩, ⟨_, renamed, named⟩, List.forall_mem_nil _⟩
  have passes : Signature.Passes Form.importAt.signature.optional context arguments := by
    simp only [Signature.Passes, Form.signature, List.forall_mem_cons]
    exact ⟨Allowed.of_absent usual, List.forall_mem_nil _⟩
  have accepted : Action.load.Accepts context arguments .importAt := by
    refine Action.accepts_of_parts [.importAs, .importNames] rfl ?_ complete passes
      (List.forall_mem_nil _)
    simp only [List.forall_mem_cons]
    exact ⟨Signature.not_complete_of_absent (.tail _ (.head _)) unplaced,
      Signature.not_complete_of_absent (.tail _ (.head _)) unplaced, List.forall_mem_nil _⟩
  have planned : Form.importAt.plan arguments = .ok (.load [(path, name)]) := by
    simp only [Form.plan, checked_bind_eq_ok_iff, Form.literal_eq_ok_iff, Form.value_eq_ok_iff]
    exact ⟨path, ⟨_, given, unquote_quoted quotes path⟩, name, renamed, rfl⟩
  exact Task.ofLine?_eq_some_iff.mpr ⟨read, acts, accepted.chosen, accepted.valid, planned⟩

end Tasks

namespace Session
variable {session : Session} {log : Option String} {world : World} {made : Directory}
  {contents : Contents} {name path : String} {value : Value} {bytes : Bytes} {quote : Char}

/-- A line that stores a variable under a path succeeds where the vault can be written. -/
theorem run_storeAtLine (opens : session.archive.Maintains world.host.directory contents)
    (saves : session.archive.CanSave world.host.directory made) (logs : session.CanLog log made)
    (dotted : isDottedIdentifier name = true)
    (bound : world.scope.get? name = some (.value value))
    (exported : Codec.exportDefault value = .ok bytes) (held : HeldPath path)
    (quotes : isQuote quote = true) (closed : path.toList.getLast? ≠ some '\\')
    (short : session.archive.Short (session.archive.write path bytes world.host).2.directory) :
    ∃ record stored host after,
      run (some session) log (storeAtLine name quote path) world = (.ok record, stored) ∧
      session.archive.write path bytes world.host =
        (.ok (.describe bytes session.archive.password.isSome), host) ∧
      Logged (session.keptLog log) host.directory stored.host.directory ∧
      Stored session.archive.password path bytes contents after ∧
      session.archive.Maintains stored.host.directory after ∧
      Refiled made stored.host.directory := by
  obtain ⟨after, host, wrote, change, again, refiled, written⟩ := opens.write saves held short
  have usual : (twoArguments "store" name "in" (quoted quote path)).get? "with" = none := by
    simp [get?_twoArguments]
  have known : world.context.Knows name := by
    refine ⟨dotted, .value value, ?_⟩
    rw [Scope.resolve, World.context, bound]
  let task : Task := ⟨twoArguments "store" name "in" (quoted quote path), .store, .storeAt,
    .store [(path, name)]⟩
  have asked : Task.ofLine? world.context (storeAtLine name quote path) = some task :=
    task_storeAtLine known quotes closed
  have noted : task.noted world = world :=
    Task.noted_eq asked (List.forall_mem_singleton.mpr ⟨value, bound⟩) (by rintro _ ⟨⟩)
  obtain ⟨old, done⟩ := Form.storeEach_single opens.found (RunM.valueOf_of_dotted dotted bound)
    exported wrote
  have carried : task.run session.archive (task.noted world) =
      (.ok [⟨name, old, some (MemberEntry.describe bytes
        session.archive.password.isSome).checksums⟩], { world with host }) := by
    rw [noted, Task.run, Plan.store_run, Effect.bind_of_ok (converter_none usual true world)]
    exact done
  obtain ⟨record, stored, ran, -, told⟩ := run_of_task asked carried (logs.refiled refiled)
  exact ⟨record, stored, host, after, ran, wrote, told.logged, change,
    again.extends written told.logged.extends, refiled.trans told.logged.refiled⟩

/-- A line that deletes what is stored under a path without asterisks succeeds where the vault can
be written. -/
theorem run_deleteAtLine (opens : session.archive.Maintains world.host.directory contents)
    (saves : session.archive.CanSave world.host.directory made) (logs : session.CanLog log made)
    {entry : MemberEntry} (listed : contents.manifest.members.get? path = some entry)
    (starless : '*' ∉ path.toList) (quotes : isQuote quote = true)
    (closed : path.toList.getLast? ≠ some '\\')
    (short : session.archive.Short (session.archive.delete path world.host).2.directory) :
    ∃ record deleted,
      run (some session) log (deleteAtLine quote path) world = (.ok record, deleted) ∧
      session.archive.Maintains deleted.host.directory (contents.erase path) := by
  obtain ⟨host, done, again, refiled, written⟩ := opens.delete saves listed short
  let task : Task := ⟨.ofList [("del", quoted quote path)], .delete, .deleteAt, .delete path⟩
  have asked : Task.ofLine? world.context (deleteAtLine quote path) = some task :=
    task_deleteAtLine quotes closed
  have noted : task.noted world = world := Task.noted_eq asked trivial (by rintro _ ⟨⟩)
  have carried : task.run session.archive (task.noted world) =
      (.ok [⟨path, some entry.checksums, none⟩], { world with host }) := by
    rw [noted]
    exact Form.remove_ok starless done
  obtain ⟨record, deleted, ran, -, told⟩ := run_of_task asked carried (logs.refiled refiled)
  exact ⟨record, deleted, ran, again.extends written told.logged.extends⟩

/-- A line that deletes what is stored under a path with an asterisk is refused. -/
theorem run_deleteAtLine_starred (starred : '*' ∈ path.toList) (quotes : isQuote quote = true)
    (closed : path.toList.getLast? ≠ some '\\') :
    run (some session) log (deleteAtLine quote path) world =
      (.error (.rejected (.wildcardPath path)), world) := by
  let task : Task := ⟨.ofList [("del", quoted quote path)], .delete, .deleteAt, .delete path⟩
  have asked : Task.ofLine? world.context (deleteAtLine quote path) = some task :=
    task_deleteAtLine quotes closed
  have noted : task.noted world = world := Task.noted_eq asked trivial (by rintro _ ⟨⟩)
  refine run_of_task_error asked ?_
  rw [noted]
  change Form.remove session.archive path world = _
  rw [Form.remove, if_pos (by simpa using starred)]
  rfl

/-- A line that imports what is under a path that is not listed does not find it. -/
theorem run_importAtLine_unlisted
    (found : session.archive.contents world.host.directory = .ok contents)
    (unlisted : contents.manifest.members.get? path = none) (named : isIdentifier name = true)
    (quotes : isQuote quote = true) (closed : path.toList.getLast? ≠ some '\\') :
    run (some session) log (importAtLine quote path name) world =
      (.error (.storage (.archive (.memberNotFound path))), world) := by
  let task : Task := ⟨twoArguments "import" (quoted quote path) "as" name, .load, .importAt,
    .load [(path, name)]⟩
  have asked : Task.ofLine? world.context (importAtLine quote path name) = some task :=
    task_importAtLine named quotes closed
  have noted : task.noted world = world := Task.noted_eq asked trivial (by rintro _ ⟨⟩)
  have usual : (twoArguments "import" (quoted quote path) "as" name).get? "with" = none := by
    simp [get?_twoArguments]
  have missing := Form.loadOne_of_unread (Archive.read_unlisted found unlisted) none name
  refine run_of_task_error asked ?_
  rw [noted, Task.run, Plan.run, Form.loadAll, Effect.bind_of_ok (converter_none usual false world),
    List.mapM_cons]
  exact Effect.bind_of_error missing

/-- A line that deletes undoes one that stores, for each path that is not in the vault yet: the
vault lists and holds what it did before, everything reads as before, and the path is not found. -/
theorem deletion_undoes_store (opens : session.archive.Maintains world.host.directory contents)
    (saves : session.archive.CanSave world.host.directory made) (logs : session.CanLog log made)
    (dotted : isDottedIdentifier name = true)
    (bound : world.scope.get? name = some (.value value))
    (exported : Codec.exportDefault value = .ok bytes) (fits : FittingPath path)
    (free : path ∉ contents.manifest.members.keys) (starless : '*' ∉ path.toList)
    (closed : path.toList.getLast? ≠ some '\\') (quotes : isQuote quote = true)
    (short : session.archive.Short (session.archive.write path bytes world.host).2.directory)
    (short' : ∀ record stored,
      run (some session) log (storeAtLine name quote path) world = (.ok record, stored) →
        session.archive.Short (session.archive.delete path stored.host).2.directory) :
    ∃ record stored record' deleted after,
      run (some session) log (storeAtLine name quote path) world = (.ok record, stored) ∧
      run (some session) log (deleteAtLine quote path) stored = (.ok record', deleted) ∧
      session.archive.contents deleted.host.directory = .ok after ∧
      after.manifest.members = contents.manifest.members ∧ after.payloads = contents.payloads ∧
      (∀ member, session.archive.read member deleted.host.directory =
        session.archive.read member world.host.directory) ∧
      ∀ other, isIdentifier other = true →
        run (some session) log (importAtLine quote path other) deleted =
          (.error (.storage (.archive (.memberNotFound path))), deleted) := by
  have unlisted : contents.manifest.members.get? path = none := by
    rw [← Table.contains_iff, Table.contains] at free
    simpa using free
  obtain ⟨record, stored, -, after, ran, -, -, change, holds, refiled⟩ :=
    run_storeAtLine opens saves logs dotted bound exported fits.held quotes closed short
  have listed : after.manifest.members.get? path =
      some (.describe bytes session.archive.password.isSome) := by
    rw [change.members, Table.get?_insert, if_pos rfl]
  obtain ⟨record', deleted, ran', left⟩ :=
    run_deleteAtLine holds (saves.ready.refiled refiled).canSave (logs.refiled refiled) listed
      starless quotes closed (short' record stored ran)
  obtain ⟨members, payloads⟩ :=
    Contents.erase_of_stored change (Archive.consistent_of_contents opens.found) unlisted
  refine ⟨record, stored, record', deleted, after.erase path, ran, ran', left.found, members,
    payloads, fun member => ?_, fun other named => ?_⟩
  · rw [Archive.read_eq left.found, Archive.read_eq opens.found]
    exact Contents.plaintext_erase_of_stored change unlisted opens.verified member
  · exact run_importAtLine_unlisted left.found (by rw [members]; exact unlisted) named quotes closed

/-- A path with blanks, quotes and other characters that lines treat in their own way. -/
def oddPath : String :=
  "it's \"ü\", #1/x"

theorem fits_oddPath : FittingPath oddPath := by
  decide

theorem storedShortly_oddPath : Archive.storedShortly oddPath = true :=
  Archive.storedShortly_of_manifest (by decide +kernel) (by decide +kernel)

/-- Where the number is alone, deleting it leaves a file that is not too long. -/
theorem short_deletion {host : Host}
    (same : host.directory = (Archive.hostWith oddPath).directory) :
    openSession.archive.Short (openSession.archive.delete oddPath host).2.directory := by
  have brief : (Contents.empty.put oddPath (.describe [49] false) [49]).Brief := by
    rw [Archive.describe_byte]
    exact ⟨by decide +kernel, by decide⟩
  obtain ⟨_, stored, holds, -, refiled⟩ :=
    openSession_canStore.serves.put rfl openSession_canStore.saves fits_oddPath brief
  obtain rfl := congrArg Prod.snd stored
  have serves : openSession.archive.Serves host.directory
      (Contents.empty.put oddPath (.describe [49] false) [49]) := by
    rw [same]
    exact holds
  have ready : openSession.archive.Ready host.directory := by
    rw [same]
    exact openSession_canStore.saves.ready.refiled refiled
  have erased : (Contents.empty.put oddPath (.describe [49] false) [49]).erase oddPath =
      .empty := by
    rw [Contents.put, Contents.erase]
    simp only [Table.erase_insert _ (Table.get?_empty oddPath), Contents.empty, Manifest.empty]
  obtain ⟨_, deleted, -, short, -⟩ := serves.erase ready.canSave
    (by rw [Contents.put, Table.get?_insert, if_pos rfl])
    (by rw [erased]; exact ⟨by decide +kernel, by decide⟩)
  rw [deleted]
  exact short

/-- The number is stored under the path, and deleted from there. -/
theorem deletion_undoes_store_note :
    ∃ record stored record' deleted after,
      run (some openSession) none (storeAtLine "x" '\'' oddPath) noteWorld = (.ok record, stored) ∧
      run (some openSession) none (deleteAtLine '\'' oddPath) stored = (.ok record', deleted) ∧
      openSession.archive.contents deleted.host.directory = .ok after ∧ after.payloads = ∅ ∧
      run (some openSession) none (importAtLine '\'' oddPath "y") deleted =
        (.error (.storage (.archive (.memberNotFound oddPath))), deleted) := by
  have dotted : isDottedIdentifier "x" = true := by decide
  have quotes : isQuote '\'' = true := rfl
  have closed : oddPath.toList.getLast? ≠ some '\\' := by decide
  have short : openSession.archive.Short
      (openSession.archive.write oddPath [49] noteWorld.host).2.directory :=
    fun _ => Archive.sized_of_storedShortly storedShortly_oddPath
  have short' : ∀ record stored,
      run (some openSession) none (storeAtLine "x" '\'' oddPath) noteWorld = (.ok record, stored) →
        openSession.archive.Short (openSession.archive.delete oddPath stored.host).2.directory := by
    intro record stored ran
    obtain ⟨_, stored', host, -, ran', wrote, logged, -⟩ := run_storeAtLine
      openSession_canStore.serves.maintains openSession_canStore.saves openSession_canStore.logs
      dotted note_storable.bound note_storable.exported fits_oddPath.held quotes closed short
    obtain ⟨-, rfl⟩ := Prod.mk.inj (ran'.symm.trans ran)
    obtain rfl := congrArg Prod.snd wrote
    exact short_deletion logged.eq_of_none
  obtain ⟨record, stored, record', deleted, after, ran, ran', found, -, payloads, -, missing⟩ :=
    deletion_undoes_store openSession_canStore.serves.maintains openSession_canStore.saves
      openSession_canStore.logs dotted note_storable.bound note_storable.exported fits_oddPath
      (by decide) (by decide) closed quotes short short'
  exact ⟨record, stored, record', deleted, after, ran, ran', found, payloads,
    missing "y" (by decide)⟩

/-- A variable can be stored under a path with an asterisk, and not be deleted from there. In a
vault that can be read and not be written, it is not even stored. -/
theorem deletion_is_refused :
    FittingPath "a*b" ∧
    (∃ record stored,
      run (some openSession) none "store x in 'a*b'" noteWorld = (.ok record, stored) ∧
      run (some openSession) none "del 'a*b'" stored =
        (.error (.rejected (.wildcardPath "a*b")), stored)) ∧
    ∀ unfit ∈ unfitSessions,
      (unfit.1.archive.checkIntegrity unfit.2.2.directory).isOk = true ∧
      (run (some unfit.1) unfit.2.1 "store x in 'p'" ⟨unfit.2.2, noteScope, []⟩).1.isOk =
        false := by
  have fits : FittingPath "a*b" := by decide
  have dotted : isDottedIdentifier "x" = true := by decide
  have quotes : isQuote '\'' = true := rfl
  have closed : "a*b".toList.getLast? ≠ some '\\' := by decide
  have storedShortly : Archive.storedShortly "a*b" = true :=
    Archive.storedShortly_of_manifest (by decide +kernel) (by decide +kernel)
  have bound : noteWorld.scope.get? "x" = some (.value (.int 1)) := note_storable.bound
  have short : openSession.archive.Short
      (openSession.archive.write "a*b" [49] noteWorld.host).2.directory :=
    fun _ => Archive.sized_of_storedShortly storedShortly
  obtain ⟨record, stored, -, -, ran, -⟩ := run_storeAtLine
    openSession_canStore.serves.maintains openSession_canStore.saves openSession_canStore.logs
    dotted bound note_storable.exported fits.held quotes closed short
  have written : storeAtLine "x" '\'' "a*b" = "store x in 'a*b'" ∧
      deleteAtLine '\'' "a*b" = "del 'a*b'" := ⟨rfl, rfl⟩
  have refused := @run_deleteAtLine_starred openSession none stored "a*b" '\'' (by decide) quotes
    closed
  exact ⟨fits, ⟨record, stored, written.1 ▸ ran, written.2 ▸ refused⟩, by decide +kernel⟩

end Session
end ObjectVault
