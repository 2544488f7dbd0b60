import ObjectVault.Proofs.Asserting
import ObjectVault.Proofs.KeptNames

namespace ObjectVault
open ObjectVault.Command ObjectVault.Container

namespace Contents
variable {password : Option String} {before after : Contents} {member path : String}

/-- What the archive holds of a member is as it was. -/
structure Kept (password : Option String) (before after : Contents) (member : String) : Prop where
  entry : after.manifest.members.get? member = before.manifest.members.get? member
  payload : after.payloads.get? member = before.payloads.get? member
  plaintext : ∀ bytes, before.plaintext (before.access password) member = .ok bytes →
    after.plaintext (after.access password) member = .ok bytes

theorem kept_of_storedAll {deposits : List Deposit} (h : StoredAll password deposits before after)
    (apart : member ∉ deposits.map Deposit.path) : Kept password before after member := by
  have others : ∀ deposit ∈ deposits, deposit.path ≠ member := by
    rintro deposit mem rfl
    exact apart (List.mem_map_of_mem mem)
  exact ⟨(h.other others).1, (h.other others).2, fun bytes read => h.plaintext_other others read⟩

theorem kept_erase (password : Option String) (contents : Contents) (apart : member ≠ path) :
    Kept password contents (contents.erase path) member where
  entry := by rw [Contents.erase, Table.get?_erase, if_neg apart]
  payload := by rw [Contents.erase, Table.get?_erase, if_neg apart]
  plaintext _ read := (plaintext_erase apart).trans read

end Contents

namespace Command

theorem names_ne_nil {list : String} {listed : List String} (h : names list = .ok listed) :
    listed ≠ [] := by
  rw [names] at h
  split at h
  · cases h
  · cases h
    rw [listedNames, ne_eq, List.map_eq_nil_iff]
    exact List.splitOn_ne_nil _ _

/-- Some variable is stored. -/
theorem Asks.targets_ne_nil {arguments : Arguments} {targets : List (String × String)}
    (h : Asks arguments (.store targets)) : targets ≠ [] := by
  obtain ⟨list, -, several⟩ := h.listed
  rintro rfl
  exact names_ne_nil several rfl

theorem Plan.store_scope {archive : Archive} {arguments : Arguments}
    {targets : List (String × String)} {world done : World} {records : List ResultRecord}
    (bound : (Plan.store targets).Bound world.scope)
    (ran : (Plan.store targets).run archive arguments world = (.ok records, done)) :
    done.scope = world.scope := by
  obtain ⟨exporter, between, found, storing⟩ := Effect.bind_eq_ok ran
  obtain ⟨-, rfl⟩ := Form.converter_eq_ok found
  exact Form.storeEach_scope bound storing

end Command

namespace Session
variable {session : Session} {log : Option String} {line : String} {arguments : Arguments}
  {world after : World} {record : Metadata} {records : List ResultRecord}

/-- The line is given where all members have fitting paths. If it stores, it does so under fitting
paths, and variables that are bound to values; and no file that it writes is too long. -/
structure Tidy (session : Session) (line : String) (world : World) : Prop where
  members : ∀ contents, session.archive.contents world.host.directory = .ok contents →
    ∀ member ∈ contents.payloads.keys, FittingPath member
  paths : ∀ task, Task.ofLine? world.context line = some task → task.plan.Fits
  bound : ∀ task, Task.ofLine? world.context line = some task → task.plan.Bound world.scope
  short : ∀ task, Task.ofLine? world.context line = some task →
    task.plan.Short session.archive task.arguments (task.noted world)

/-- The variables are stored under their paths, each path once, as what their values are exported
as. -/
structure Stores (session : Session) (arguments : Arguments) (targets : List (String × String))
    (world after : World) (records : List ResultRecord) (deposits : List Deposit)
    (before later : Contents) : Prop where
  found : session.archive.contents world.host.directory = .ok before
  left : session.archive.contents after.host.directory = .ok later
  targets : deposits.map Deposit.target = firstTargets [] targets
  records : records = deposits.map Deposit.record
  olds : ∀ deposit ∈ deposits, deposit.old = before.sums deposit.path
  exports : ∃ exporter, Form.Converts world.context arguments true exporter ∧
    ∀ deposit ∈ deposits, ∃ value, world.scope.get? deposit.name = some (.value value) ∧
      Codec.exportWith exporter value = .ok deposit.bytes
  own : ∀ deposit ∈ deposits,
    later.manifest.members.get? deposit.path =
        some (.describe deposit.bytes session.archive.password.isSome) ∧
      later.plaintext (later.access session.archive.password) deposit.path = .ok deposit.bytes
  others : ∀ member, member ∉ deposits.map Deposit.path →
    Contents.Kept session.archive.password before later member

/-- What a line that succeeds does, and all that it does: to the archive, to the names, and to the
log. -/
inductive Touches (session : Session) (log : Option String) (arguments : Arguments)
    (world after : World) (records : List ResultRecord) : Plan → Prop
  | store {targets : List (String × String)} {deposits : List Deposit} {before later : Contents}
    (stores : session.Stores arguments targets world after records deposits before later)
    (scope : after.scope = world.scope) :
    Touches session log arguments world after records (.store targets)
  | delete {path : String} {entry : MemberEntry} {before : Contents}
    (found : session.archive.contents world.host.directory = .ok before)
    (listed : before.manifest.members.get? path = some entry)
    (told : records = [⟨path, some entry.checksums, none⟩])
    (left : session.archive.contents after.host.directory = .ok (before.erase path))
    (others : ∀ member, member ≠ path →
      Contents.Kept session.archive.password before (before.erase path) member)
    (scope : after.scope = world.scope) :
    Touches session log arguments world after records (.delete path)
  | verify {path : String}
    (files : Logged (session.keptLog log) world.host.directory after.host.directory)
    (scope : world.scope.Looked after.scope) :
    Touches session log arguments world after records (.verify path)
  | load {targets : List (String × String)} {importer : Option Converter} {arrivals : List Arrival}
    (converts : Form.Converts world.context arguments false importer)
    (targeted : arrivals.map Arrival.target = targets)
    (told : records = arrivals.map Arrival.record)
    (reads : ∀ arrival ∈ arrivals,
      session.archive.read arrival.path world.host.directory = .ok arrival.bytes ∧
        Codec.importWith importer arrival.bytes = .ok arrival.value)
    (files : Logged (session.keptLog log) world.host.directory after.host.directory)
    (scope : after.scope = arrivedScope arrivals world.scope) :
    Touches session log arguments world after records (.load targets)
  | view {name folder : String} (told : records = [⟨name, none, none⟩])
    (files : Logged (session.keptLog log) world.host.directory after.host.directory)
    (scope : after.scope = world.scope.insert name (.view (.ofFolder session.archive folder))) :
    Touches session log arguments world after records (.view name folder)

theorem touches_store {targets : List (String × String)} {done : World}
    (members : ∀ contents, session.archive.contents world.host.directory = .ok contents →
      ∀ member ∈ contents.payloads.keys, FittingPath member)
    (nonempty : targets ≠ []) (fits : (Plan.store targets).Fits)
    (bound : (Plan.store targets).Bound world.scope)
    (short : (Plan.store targets).Short session.archive arguments world)
    (ran : (Plan.store targets).run session.archive arguments world = (.ok records, done))
    (scope : after.scope = done.scope)
    (logged : Logged (session.keptLog log) done.host.directory after.host.directory) :
    session.Touches log arguments world after records (.store targets) := by
  obtain ⟨deposits, before, later, deposited⟩ := Form.deposited_of_run nonempty short ran
  have change := deposited.change
  have fitting := change.forall_keys
    (fun deposit mem => fits _ (deposited.target_mem deposit mem)) (members before deposited.found)
  obtain ⟨exporter, converts, exported⟩ := deposited.exports
  refine .store ⟨deposited.found, ?_, deposited.targets, deposited.records,
    change.olds deposited.distinct, ⟨exporter, converts, fun deposit mem => ?_⟩,
    change.own deposited.distinct, fun member apart => Contents.kept_of_storedAll change apart⟩
    (scope.trans (Plan.store_scope bound ran))
  · exact (deposited.wrote.extends logged.extends).contents_of_settled
      fun member mem => (fitting member mem).settled
  · obtain ⟨value, whole⟩ := bound _ (deposited.target_mem deposit mem)
    exact ⟨value, whole, (exported deposit mem).of_bound whole⟩

theorem touches_delete {path : String} {done : World}
    (members : ∀ contents, session.archive.contents world.host.directory = .ok contents →
      ∀ member ∈ contents.payloads.keys, FittingPath member)
    (short : (Plan.delete path).Short session.archive arguments world)
    (ran : (Plan.delete path).run session.archive arguments world = (.ok records, done))
    (scope : after.scope = done.scope)
    (logged : Logged (session.keptLog log) done.host.directory after.host.directory) :
    session.Touches log arguments world after records (.delete path) := by
  rw [Plan.Short, ran] at short
  obtain ⟨entry, host, deleted, rfl, rfl⟩ := Form.remove_eq_ok ran
  obtain ⟨before, found, listed, wrote⟩ := Archive.wrote_of_delete short deleted
  have fitting := Contents.forall_keys_erase (members before found) path
  refine .delete found listed rfl ?_ (fun member apart => Contents.kept_erase _ before apart) scope
  exact (wrote.extends logged.extends).contents_of_settled
    fun member mem => (fitting member mem).settled

/-- A line that succeeds does what its arguments ask for, and touches nothing else. -/
theorem touches_what_is_asked (tidy : session.Tidy line world)
    (ran : run (some session) log line world = (.ok record, after)) :
    ∃ arguments plan, Arguments.ofLine line = .ok arguments ∧ Asks arguments plan ∧
      session.Touches log arguments world after record.result plan := by
  obtain ⟨task, done, carried⟩ := ran_of_run ran
  have asked := carried.asked
  have asks := asks_of_task asked
  have bound := tidy.bound task asked
  have short := tidy.short task asked
  have fits := tidy.paths task asked
  have quiet := Task.noted_eq asked bound
  have plan_run := carried.plan_run bound
  refine ⟨task.arguments, task.plan, (Task.ofLine?_eq_some_iff.mp asked).1, asks, ?_⟩
  obtain ⟨arguments, action, form, plan⟩ := task
  cases plan with
  | store targets =>
    rw [quiet nofun] at short
    exact touches_store tidy.members asks.targets_ne_nil fits bound short (plan_run nofun)
      carried.scope carried.logged
  | delete path =>
    rw [quiet nofun] at short
    exact touches_delete tidy.members short (plan_run nofun) carried.scope carried.logged
  | verify path =>
    have looked := Action.looked_noted action arguments world
    obtain ⟨-, -, -, -, -, -, -, -, same⟩ := Form.compareHash_eq_ok carried.ran
    have scope := carried.scope
    have files := carried.logged
    rw [same] at scope files
    exact .verify (looked.host ▸ files) (scope ▸ looked.scope)
  | load targets =>
    obtain ⟨importer, arrivals, converts, told, targeted, reads, rfl⟩ :=
      Form.loadAll_eq_ok (plan_run nofun)
    exact .load converts targeted told reads carried.logged carried.scope
  | view name folder =>
    obtain ⟨told, rfl⟩ := Prod.mk.inj (plan_run nofun)
    exact .view (Except.ok.inj told).symm carried.logged carried.scope

/-- What the archive holds of the table alone. -/
def labelContents : Contents :=
  .put .empty "notes/y" (.describe label.bytes false) label.bytes

theorem stocked_label : ∃ d, Stocked d labelContents := by
  have brief : labelContents.Brief := by
    rw [labelContents, describe_label]
    exact ⟨by decide +kernel, by decide⟩
  obtain ⟨host, -, serves, short, refiled⟩ :=
    openSession_canStore.serves.put rfl openSession_canStore.saves (by decide) brief
  exact ⟨host.directory, serves, openSession_canStore.saves.ready.refiled refiled, short⟩

/-- Names for the number and the table, and some files. -/
def pairWorld (d : Directory) : World :=
  ⟨{ Archive.bareHost with directory := d }, pairScope, []⟩

/-- The number is stored beside the table. -/
theorem went_pairWorld {d : Directory} (stocked : Stocked d labelContents) : ∃ old after,
    Went noteIssue (pairWorld d) after [("notes/x", ⟨"x", old, some (.ofBytes note.bytes)⟩)]
      (labelContents.put "notes/x" (.describe note.bytes false) note.bytes) := by
  have storable : note.Storable "notes" pairScope := pair_storable note (by simp)
  refine @Stocked.store noteIssue (pairWorld d) _ _ note stocked line_noteIssue rfl storable
    (by decide +kernel) ?_
  rw [labelContents, describe_label, note, Archive.describe_byte]
  exact ⟨by decide +kernel, by decide⟩

theorem tidy_pairWorld {d : Directory} (stocked : Stocked d labelContents) :
    openSession.Tidy noteIssue.line (pairWorld d) := by
  obtain ⟨old, after, went⟩ := went_pairWorld stocked
  have known : ∀ name ∈ ["x"], (pairWorld d).context.scope.contains name = true := by
    rw [List.forall_mem_singleton]
    rfl
  have asks := task_storeLine listing_note known
  refine ⟨fun contents found => ?_, went.fits.paths, fun task asked => ?_, went.fits.short⟩
  · cases stocked.serves.found.symm.trans found
    exact stocked.serves.fitting
  · rw [line_noteIssue] at asked
    cases asks.symm.trans asked
    exact List.forall_mem_singleton.mpr ⟨note.value, rfl⟩

/-- Storing the number adds its member; the table is kept, as a member and under its name. -/
theorem touches_what_is_asked_note :
    ∃ d record after later,
      openSession.archive.contents d = .ok labelContents ∧
      openSession.Tidy noteIssue.line (pairWorld d) ∧
      run (some openSession) none noteIssue.line (pairWorld d) = (.ok record, after) ∧
      record.result.map (·.subject) = ["x"] ∧
      openSession.archive.contents after.host.directory = .ok later ∧
      later.manifest.members.get? "notes/x" = some (.describe note.bytes false) ∧
      later.plaintext (later.access none) "notes/x" = .ok note.bytes ∧
      Contents.Kept none labelContents later "notes/y" ∧
      after.scope.get? "y" = some (.value label.value) := by
  obtain ⟨d, stocked⟩ := stocked_label
  have tidy := tidy_pairWorld stocked
  obtain ⟨old, after, went⟩ := went_pairWorld stocked
  obtain ⟨record, ran⟩ := went.ran
  obtain ⟨arguments, plan, read, asks, touches⟩ := touches_what_is_asked tidy ran
  have own : arguments = twoArguments "store" "x" "in" "notes" := by
    rw [line_noteIssue, ofLine_storeLine listing_note] at read
    exact (Except.ok.inj read).symm
  subst own
  obtain rfl := asks.plan_eq_store (names_intercalate listing_note) (isLiteral_of_word (by decide))
  cases touches with
  | @store _ deposits before later stores scope =>
    cases stocked.serves.found.symm.trans stores.found
    have targets : deposits.map Deposit.target = [("notes/x", "x")] :=
      stores.targets.trans (by decide +kernel)
    obtain ⟨deposit, rfl, target⟩ := List.map_eq_singleton_iff.mp targets
    obtain ⟨path, name⟩ := Prod.mk.inj target
    obtain ⟨exporter, converts, exports⟩ := stores.exports
    have bytes : deposit.bytes = note.bytes := by
      obtain ⟨value, bound, exported⟩ := exports deposit (List.mem_singleton_self _)
      rw [name] at bound
      have same : note.value = value := Binding.value.inj (Option.some.inj bound)
      cases converts with
      | usual =>
        rw [← same] at exported
        exact Except.ok.inj (exported.symm.trans note_storable.exported)
      | named given => simp [get?_twoArguments] at given
    obtain ⟨entry, plaintext⟩ := stores.own deposit (List.mem_singleton_self _)
    rw [path, bytes] at entry plaintext
    refine ⟨d, record, after, later, stocked.serves.found, tidy, ran, ?_, stores.left, entry,
      plaintext, stores.others "notes/y" ?_, ?_⟩
    · rw [stores.records]
      exact congrArg (fun name => [name]) name
    · rw [List.map_singleton, path]
      decide
    · rw [scope]
      rfl

end Session

/-- What a manifest says of the number. -/
def noteEntry : MemberEntry :=
  ⟨1, "83DCEFB7", "6B86B273FF34FCE19D6B804EFF5A3F5747ADA4EAA22F1D49C01E52DDB7875B4B", false⟩

theorem plaintext_note {contents : Contents} {path : String}
    (listed : contents.manifest.members.get? path = some noteEntry)
    (held : contents.payloads.get? path = some [49]) (access : Access) :
    contents.plaintext access path = .ok [49] := by
  have digest : HashMethod.crc32.digest [49] = noteEntry.crc32 := by cbv
  have plain : noteEntry.encrypted = false := rfl
  rw [Contents.plaintext, listed, held]
  simp [bind, Except.bind, plain, digest, pure, Except.pure]

/-- Contents that are not too long are found in the file that they are written to. -/
theorem Archive.contents_hostHolding {contents : Contents}
    (fitting : ∀ member ∈ contents.payloads.keys, FittingPath member)
    (measured : contents.Measured) (consistent : contents.Consistent) :
    openSession.archive.contents
        (hostHolding vaultPath (contents.bytes.toOption.getD [])).directory = .ok contents := by
  obtain ⟨written, bytes, reread⟩ := Contents.reread_of_fitting consistent fitting measured
  have holds : contents.bytes.toOption.getD [] = written := by
    rw [bytes]
    rfl
  have read : (hostHolding vaultPath written).directory.read openSession.archive.path =
      .ok written := rfl
  rw [holds, contents_of_read read, reread]

/-- The number under two paths. -/
def pairContents : Contents :=
  (Contents.empty.put "notes/x" noteEntry [49]).put "notes/m.x" noteEntry [49]

/-- A host with the number under two paths of its vault. -/
def pairHost : Host :=
  Archive.hostHolding vaultPath (pairContents.bytes.toOption.getD [])

theorem pairContents_plaintext {path : String} (known : path ∈ ["notes/x", "notes/m.x"])
    (access : Access) : pairContents.plaintext access path = .ok [49] := by
  have known := List.mem_pair.mp known
  refine plaintext_note ?_ ?_ access <;>
    rcases known with rfl | rfl <;> simp [pairContents, Contents.put, Table.get?_insert]

theorem pairContents_consistent : pairContents.Consistent where
  current := rfl
  listed member := by
    simp only [pairContents, Contents.put, Table.contains, Table.get?_insert]
    split_ifs <;> rfl

theorem contents_pairHost : openSession.archive.contents pairHost.directory = .ok pairContents :=
  Archive.contents_hostHolding (by decide +kernel)
    (Contents.measured_of_lengths (by decide +kernel) (by decide +kernel)) pairContents_consistent

theorem read_pairHost {path : String} (known : path ∈ ["notes/x", "notes/m.x"]) :
    openSession.archive.read path pairHost.directory = .ok [49] := by
  rw [Archive.read_eq contents_pairHost]
  exact pairContents_plaintext known _

theorem opens_pairHost : openSession.archive.checkIntegrity pairHost.directory = .ok () := by
  refine checked_bind_eq_ok_iff.mpr ⟨pairContents, contents_pairHost, ?_⟩
  refine Contents.verify_eq_ok_iff.mpr fun member mem => ⟨[49], pairContents_plaintext ?_ _⟩
  have members : pairContents.manifest.members.keys = ["notes/m.x", "notes/x"] := by
    decide +kernel
  rw [members] at mem
  exact List.mem_pair.mpr (List.mem_pair.mp mem).symm

namespace Session

/-- A hash of the member under the name of a view is accepted, and the view keeps the value that is
looked up through it. -/
theorem viewed_pairHost :
    ∃ arguments,
      openSession.Assertion (assertLine "m.x") (viewWorld pairHost) arguments "notes/m.x"
        "83dcefb7" ∧
      (run (some openSession) none (assertLine "m.x") (viewWorld pairHost)).1.isOk = true ∧
      (run (some openSession) none (assertLine "m.x") (viewWorld pairHost)).2.scope ≠
        (viewWorld pairHost).scope := by
  have opens := opens_pairHost
  have read := @read_pairHost
  -- Nothing else is known of the host, so that no file is looked into again.
  generalize pairHost = host at opens read
  obtain ⟨arguments, assertion, unnamed, changed⟩ :=
    viewed_assertLine opens (read (by simp))
  have told : Matches openSession.archive (viewWorld host).host.directory arguments "notes/m.x"
      "83dcefb7" :=
    (matches_iff opens (measures_note unnamed) (read (by simp))).mpr same_note
  exact ⟨arguments, assertion, assertion.accepted told nofun, changed⟩

/-- More can be touched than what is asked for: an assertion that is accepted can change what a name
stands for, and where the log is the file of the vault, an import makes it. -/
theorem more_is_touched :
    (∃ arguments,
      openSession.Assertion (assertLine "m.x") (viewWorld pairHost) arguments "notes/m.x"
        "83dcefb7" ∧
      (run (some openSession) none (assertLine "m.x") (viewWorld pairHost)).1.isOk = true ∧
      (run (some openSession) none (assertLine "m.x") (viewWorld pairHost)).2.scope ≠
        (viewWorld pairHost).scope) ∧
    noteWorld.host.directory.has openSession.archive.path = false ∧
    (run (some openSession) (some vaultPath) "import notes as m" noteWorld).1.isOk = true ∧
    (run (some openSession) (some vaultPath) "import notes as m"
      noteWorld).2.host.directory.has openSession.archive.path = true :=
  ⟨viewed_pairHost, by decide +kernel, by decide +kernel, by decide +kernel⟩

end Session
end ObjectVault
