import ObjectVault.Proofs.Honesty
import ObjectVault.Proofs.KeptNames

namespace ObjectVault
open ObjectVault.Command ObjectVault.Container ObjectVault.Directory

/-- There is nothing in the vault: no file lies in its place, or one that holds no members. -/
inductive Archive.Vacant (archive : Archive) (d : Directory) : Prop
  | unmade (absent : d.isFile (destination archive.path) = false)
  | emptied {contents : Contents} {written : Bytes}
    (current : contents.manifest.version = Manifest.currentVersion)
    (members : contents.manifest.members = ∅) (payloads : contents.payloads = ∅)
    (bytes : contents.bytes = .ok written) (short : written.length < maxContent)
    (read : d.read archive.path = .ok written)

theorem Archive.Vacant.honest {archive : Archive} {d : Directory} (h : archive.Vacant d) :
    ∃ contents, archive.Honest d contents ∧ ∀ member, contents.sums member = none := by
  cases h with
  | unmade absent =>
    have spoiled : ∀ bytes, d.files.get? (key (destination archive.path)) = some bytes →
        Spoiled bytes := by
      intro bytes found
      rw [isFile, Table.contains, found] at absent
      cases absent
    exact ⟨.empty, ⟨.blank (.unmade spoiled), Contents.described_empty _, List.forall_mem_nil _⟩,
      fun _ => rfl⟩
  | @emptied contents written current members payloads bytes short read =>
    have consistent : contents.Consistent :=
      ⟨current, fun member => by rw [members, payloads]; rfl⟩
    refine ⟨contents, ⟨.wrote ⟨consistent, written, [], bytes, short, ?_⟩, ?_, ?_⟩,
      fun member => ?_⟩
    · rw [List.append_nil]
      exact read
    · intro member entry listed
      rw [members] at listed
      cases listed
    · rw [payloads]
      exact List.forall_mem_nil _
    · rw [Contents.sums, members]
      rfl

/-- The record of a stored variable has the checksums of what is read at the path now, and those of
what was read there before, or none if nothing was there. -/
structure StoreTold (archive : Archive) (before after : Directory) (target : String × String)
    (record : ResultRecord) : Prop where
  subject : record.subject = target.2
  new : ∃ bytes, archive.read target.1 after = .ok bytes ∧ record.new = some (.ofBytes bytes)
  old : record.old = none ∧ archive.contains target.1 before = .ok false ∨
    ∃ bytes, archive.read target.1 before = .ok bytes ∧ record.old = some (.ofBytes bytes)

/-- The record of an imported member has the checksums of what is read at its path. -/
structure LoadTold (archive : Archive) (before : Directory) (target : String × String)
    (record : ResultRecord) : Prop where
  subject : record.subject = target.2
  new : ∃ bytes, archive.read target.1 before = .ok bytes ∧ record.new = some (.ofBytes bytes)
  old : record.old = none

/-- The records of a plan tell the truth about the vault before and after it. -/
inductive Told (archive : Archive) (before after : Directory) : Plan → List ResultRecord → Prop
  | store {targets : List (String × String)} {records : List ResultRecord}
    (each : List.Forall₂ (StoreTold archive before after) (firstTargets [] targets) records) :
    Told archive before after (.store targets) records
  | load {targets : List (String × String)} {records : List ResultRecord}
    (each : List.Forall₂ (LoadTold archive before) targets records) :
    Told archive before after (.load targets) records
  | view (name folder : String) : Told archive before after (.view name folder) [⟨name, none, none⟩]
  | delete {path : String} {bytes : Bytes} (read : archive.read path before = .ok bytes)
    (gone : archive.contains path after = .ok false) :
    Told archive before after (.delete path) [⟨path, some (.ofBytes bytes), none⟩]
  | verify {path : String} {bytes : Bytes} (method : HashMethod)
    (read : archive.read path before = .ok bytes) :
    Told archive before after (.verify path)
      [⟨path, some (.single method (method.digest bytes)), none⟩]

/-- The paths that a plan changes, in the order of its records. -/
def Command.Plan.changed : Plan → List String
  | .store targets => (firstTargets [] targets).map Prod.fst
  | .delete path => [path]
  | .load _ | .view _ _ | .verify _ => []

theorem Command.Form.Deposited.zip_changed {archive : Archive} {arguments : Arguments}
    {targets : List (String × String)} {world after : World} {records : List ResultRecord}
    {deposits : List Deposit} {before later : Contents}
    (h : Deposited archive arguments targets world after records deposits before later) :
    (Plan.store targets).changed.zip (deposits.map Deposit.record) =
      deposits.map fun deposit => (deposit.path, deposit.record) := by
  rw [Plan.changed, ← h.paths, List.zip_map']

/-- The records about one path. -/
def recordsOf (path : String) (entries : List (String × ResultRecord)) : List ResultRecord :=
  (entries.filter (·.1 == path)).map Prod.snd

/-- What records make of the checksums that are known of a path: none if there are no records, else
the record begins with those before and ends with those after it. -/
inductive Linked (before after : Option Checksums) : List ResultRecord → Prop
  | kept (same : after = before) : Linked before after []
  | changed {record : ResultRecord} (old : record.old = before) (new : record.new = after) :
    Linked before after [record]

/-- Each record begins with the checksums that the one before it ends with. -/
def Chained : Option Checksums → List ResultRecord → Prop
  | _, [] => True
  | last, record :: records => record.old = last ∧ Chained record.new records

theorem Linked.chained {before after : Option Checksums} {records more : List ResultRecord}
    (h : Linked before after records) (rest : Chained after more) :
    Chained before (records ++ more) := by
  cases h with
  | kept same => exact same ▸ rest
  | changed old new => exact ⟨old, new ▸ rest⟩

theorem recordsOf_cons (path : String) (entry : String × ResultRecord)
    (entries : List (String × ResultRecord)) :
    recordsOf path (entry :: entries) =
      if entry.1 = path then entry.2 :: recordsOf path entries else recordsOf path entries := by
  rw [recordsOf, List.filter_cons]
  by_cases same : entry.1 = path
  · simp [same, recordsOf]
  · simp [same, recordsOf]

theorem recordsOf_append (path : String) (first second : List (String × ResultRecord)) :
    recordsOf path (first ++ second) = recordsOf path first ++ recordsOf path second := by
  rw [recordsOf, List.filter_append, List.map_append]
  rfl

theorem recordsOf_eq_nil {path : String} {entries : List (String × ResultRecord)}
    (h : ∀ entry ∈ entries, entry.1 ≠ path) : recordsOf path entries = [] := by
  rw [recordsOf, List.filter_eq_nil_iff.mpr fun entry mem => by simpa using h entry mem]
  rfl

theorem StoredAll.linked {password : Option String} {deposits : List Deposit}
    {before after : Contents} (h : StoredAll password deposits before after)
    (distinct : (deposits.map Deposit.path).Nodup) (path : String) :
    Linked (before.sums path) (after.sums path)
      (recordsOf path (deposits.map fun deposit => (deposit.path, deposit.record))) := by
  induction h with
  | nil => exact .kept rfl
  | @cons deposit deposits before between after first old rest ih =>
    rw [List.map_cons, List.nodup_cons] at distinct
    rw [List.map_cons, recordsOf_cons]
    by_cases same : deposit.path = path
    · have apart : ∀ other ∈ deposits, other.path ≠ path := by
        intro other mem again
        exact distinct.1 (same ▸ again ▸ List.mem_map_of_mem mem)
      have others : recordsOf path (deposits.map fun deposit => (deposit.path, deposit.record)) =
          [] := by
        refine recordsOf_eq_nil ?_
        rw [List.forall_mem_map]
        exact apart
      rw [if_pos same, others]
      refine .changed (old.trans (by rw [same]; rfl)) ?_
      rw [Contents.sums, (rest.other apart).1, first.members, Table.get?_insert, if_pos same.symm]
      rfl
    · have kept : between.sums path = before.sums path := by
        rw [Contents.sums, first.members, Table.get?_insert, if_neg (Ne.symm same)]
        rfl
      rw [if_neg same, ← kept]
      exact ih distinct.2

namespace Archive
variable {archive : Archive} {arguments : Arguments} {plan : Plan} {world done : World}
  {contents : Contents} {records : List ResultRecord} {log : Option String} {d : Directory}

theorem contains_eq {path : String} (found : archive.contents d = .ok contents) :
    archive.contains path d = .ok (contents.manifest.members.contains path) := by
  rw [Archive.contains, Archive.manifest, found]
  rfl

/-- What a plan that was carried out makes of an honest archive: it stays honest, the records tell
the truth, and they link what was known before to what is known after. -/
structure Carried (archive : Archive) (before after : Directory) (plan : Plan)
    (records : List ResultRecord) (contents later : Contents) : Prop where
  honest : archive.Honest after later
  told : Told archive before after plan records
  linked : ∀ path, Linked (contents.sums path) (later.sums path)
    (recordsOf path (plan.changed.zip records))

theorem Honest.carried_store {targets : List (String × String)}
    (honest : archive.Honest world.host.directory contents)
    (fits : ∀ target ∈ targets, FittingPath target.1)
    (short : (Plan.store targets).Short archive arguments world)
    (ran : (Plan.store targets).run archive arguments world = (.ok records, done))
    (logged : Logged log done.host.directory d) :
    ∃ later, archive.Carried world.host.directory d (.store targets) records contents later := by
  by_cases empty : targets = []
  · subst empty
    obtain ⟨exporter, between, found, storing⟩ := Effect.bind_eq_ok ran
    obtain ⟨-, rfl⟩ := Form.converter_eq_ok found
    cases storing
    exact ⟨contents, honest.logged logged, .store .nil, fun path => .kept rfl⟩
  obtain ⟨deposits, before, later, deposited⟩ := Form.deposited_of_run empty short ran
  obtain rfl := honest.owns.contents_eq deposited.found
  obtain rfl := deposited.records
  have change := deposited.change
  have distinct := deposited.distinct
  have kept : archive.Honest d later :=
    ⟨(Owns.wrote deposited.wrote).logged logged, honest.described.storedAll change,
      change.forall_keys (fun deposit mem => fits _ (deposited.target_mem deposit mem))
        honest.fitting⟩
  have found : archive.contents d = .ok later :=
    (deposited.wrote.extends logged.extends).contents_of_settled kept.settled
  refine ⟨later, kept, .store ?_, fun path => ?_⟩
  · rw [← deposited.targets, List.forall₂_map_left_iff, List.forall₂_map_right_iff,
      List.forall₂_same]
    intro deposit mem
    refine ⟨rfl, ⟨deposit.bytes, ?_, rfl⟩, ?_⟩
    · rw [read_eq found]
      exact (change.own distinct deposit mem).2
    · have told := change.olds distinct deposit mem
      cases listed : before.manifest.members.get? deposit.path with
      | none =>
        left
        refine ⟨told.trans (by rw [listed]; rfl), ?_⟩
        rw [Deposit.target, contains_eq deposited.found, Table.contains, listed]
        rfl
      | some entry =>
        obtain ⟨old, read, rfl⟩ := honest.described _ _ listed
        right
        refine ⟨old, (read_eq deposited.found _).trans read, ?_⟩
        exact told.trans (by rw [listed]; rfl)
  · rw [deposited.zip_changed]
    exact change.linked distinct path

theorem Honest.carried_delete {path : String}
    (honest : archive.Honest world.host.directory contents)
    (short : (Plan.delete path).Short archive arguments world)
    (ran : (Plan.delete path).run archive arguments world = (.ok records, done))
    (logged : Logged log done.host.directory d) :
    ∃ later, archive.Carried world.host.directory d (.delete path) records contents later := by
  rw [Plan.Short, ran] at short
  obtain ⟨entry, host, deleted, rfl, rfl⟩ := Form.remove_eq_ok ran
  obtain ⟨before, found, listed, wrote⟩ := wrote_of_delete short deleted
  obtain rfl := honest.owns.contents_eq found
  have kept : archive.Honest d (before.erase path) :=
    ⟨(Owns.wrote wrote).logged logged, honest.described.erase path,
      Contents.forall_keys_erase honest.fitting path⟩
  have found' := (wrote.extends logged.extends).contents_of_settled kept.settled
  obtain ⟨bytes, read, rfl⟩ := honest.described _ _ listed
  refine ⟨_, kept, .delete ((read_eq found _).trans read) ?_, fun other => ?_⟩
  · rw [contains_eq found']
    simp [Contents.erase, Table.contains, Table.get?_erase]
  · rw [Plan.changed, List.zip_cons_cons, recordsOf_cons]
    by_cases same : path = other
    · subst same
      rw [if_pos rfl]
      refine .changed (by rw [Contents.sums, listed]; rfl) ?_
      simp [Contents.sums, Contents.erase, Table.get?_erase]
    · rw [if_neg same]
      refine .kept ?_
      simp [Contents.sums, Contents.erase, Table.get?_erase, Ne.symm same]

theorem Honest.carried_load {targets : List (String × String)}
    (honest : archive.Honest world.host.directory contents)
    (ran : (Plan.load targets).run archive arguments world = (.ok records, done))
    (logged : Logged log done.host.directory d) :
    archive.Carried world.host.directory d (.load targets) records contents contents := by
  obtain ⟨importer, arrivals, -, rfl, rfl, reads, rfl⟩ := Form.loadAll_eq_ok ran
  refine ⟨honest.logged logged, .load ?_, fun path => .kept rfl⟩
  rw [List.forall₂_map_left_iff, List.forall₂_map_right_iff, List.forall₂_same]
  intro arrival mem
  exact ⟨rfl, ⟨arrival.bytes, (reads arrival mem).1, rfl⟩, rfl⟩

theorem Honest.carried_verify {path : String}
    (honest : archive.Honest world.host.directory contents)
    (ran : (Plan.verify path).run archive arguments world = (.ok records, done))
    (logged : Logged log done.host.directory d) :
    archive.Carried world.host.directory d (.verify path) records contents contents := by
  obtain ⟨expected, method, bytes, -, -, read, -, rfl, rfl⟩ := Form.compareHash_eq_ok ran
  exact ⟨honest.logged logged, .verify method read, fun path => .kept rfl⟩

theorem Honest.carried (honest : archive.Honest world.host.directory contents) (fits : plan.Fits)
    (short : plan.Short archive arguments world)
    (ran : plan.run archive arguments world = (.ok records, done))
    (logged : Logged log done.host.directory d) :
    ∃ later, archive.Carried world.host.directory d plan records contents later := by
  cases plan with
  | store targets => exact honest.carried_store fits short ran logged
  | load targets => exact ⟨contents, honest.carried_load ran logged⟩
  | view name folder =>
    cases ran
    exact ⟨contents, honest.logged logged, .view name folder, fun path => .kept rfl⟩
  | delete path => exact honest.carried_delete short ran logged
  | verify path => exact ⟨contents, honest.carried_verify ran logged⟩

end Archive

/-- The records of a line, each with the path that it is about; none if the line fails. -/
def Issue.entries (session : Session) (issue : Issue) (world : World) :
    List (String × ResultRecord) :=
  match issue.task? world, (issue.run session world).1 with
  | some task, .ok record => task.plan.changed.zip record.result
  | _, _ => []

theorem Issue.entries_of_run {session : Session} {issue : Issue} {world after : World} {task : Task}
    {record : Metadata} (asked : issue.task? world = some task)
    (ran : issue.run session world = (.ok record, after)) :
    issue.entries session world = task.plan.changed.zip record.result := by
  rw [entries, asked, ran]

namespace Session
variable {session : Session} {issue : Issue} {issues : List Issue} {world after : World}
  {record : Metadata} {contents : Contents}

/-- The records of all lines about the paths that these change, in their order. -/
def ledger (session : Session) : List Issue → World → List (String × ResultRecord)
  | [], _ => []
  | issue :: issues, world =>
    issue.entries session world ++ session.ledger issues (issue.run session world).2

/-- A line that succeeds tells the truth. -/
theorem carried_of_run (honest : session.archive.Honest world.host.directory contents)
    (fits : issue.Fits session world) (ran : issue.run session world = (.ok record, after)) :
    ∃ task later, issue.task? world = some task ∧
      session.archive.Carried world.host.directory after.host.directory task.plan record.result
        contents later := by
  obtain ⟨task, done, carried⟩ := ran_of_run ran
  have start : session.archive.Honest (task.noted (issue.start world)).host.directory contents :=
    honest
  obtain ⟨later, kept⟩ := start.carried (fits.paths task carried.asked)
    (fits.short task carried.asked) carried.ran carried.logged
  exact ⟨task, later, carried.asked, kept⟩

/-- While lines succeed, the records about a path are a chain. -/
theorem chained_ledger (honest : session.archive.Honest world.host.directory contents)
    (fits : session.Throughout (·.Fits session) issues world)
    (succeed : session.Throughout (fun issue world => (issue.run session world).1.isOk = true)
      issues world) (path : String) :
    Chained (contents.sums path) (recordsOf path (session.ledger issues world)) := by
  induction issues generalizing world contents with
  | nil => trivial
  | cons issue issues ih =>
    obtain ⟨fit, fits⟩ := fits
    obtain ⟨succeeds, succeed⟩ := succeed
    rw [ledger, recordsOf_append]
    cases ran : issue.run session world with
    | mk result after =>
      rw [ran] at succeeds succeed fits
      cases result with
      | error e => cases succeeds
      | ok record =>
        obtain ⟨task, later, asked, carried⟩ := carried_of_run honest fit ran
        rw [Issue.entries_of_run asked ran]
        exact (carried.linked path).chained (ih carried.honest fits succeed)

/-- The records of a session tell the truth. However its lines end, each member of the vault is what
the manifest says, and the records of a further line that succeeds have the checksums of what is in
the vault before and after it. While all lines succeed, each record of a store or a deletion begins
with the checksums that the one before it about the same path ends with, and the first with none. -/
theorem provenance_is_true {session : Session} {world : World} {issues : List Issue}
    (vacant : session.archive.Vacant world.host.directory)
    (fits : session.Throughout (·.Fits session) issues world) :
    (∀ contents, session.archive.contents (session.runAll world issues).host.directory =
        .ok contents → contents.Described session.archive.password) ∧
    (∀ (issue : Issue) record after, issue.Fits session (session.runAll world issues) →
      issue.run session (session.runAll world issues) = (.ok record, after) →
      ∃ task, issue.task? (session.runAll world issues) = some task ∧
        Told session.archive (session.runAll world issues).host.directory after.host.directory
          task.plan record.result) ∧
    (session.Throughout (fun issue world => (issue.run session world).1.isOk = true) issues world →
      ∀ path, Chained none (recordsOf path (session.ledger issues world))) := by
  obtain ⟨contents, honest, nothing⟩ := vacant.honest
  obtain ⟨last, honest'⟩ := runAll_outlasts
    (P := fun d => ∃ contents, session.archive.Honest d contents)
    (fun _ _ fit => fit.honest) fits ⟨contents, honest⟩
  refine ⟨fun found readable => ?_, fun issue record after fit ran => ?_, fun succeed path => ?_⟩
  · obtain rfl := honest'.owns.contents_eq readable
    exact honest'.described
  · obtain ⟨task, later, asked, carried⟩ := carried_of_run honest' fit ran
    exact ⟨task, asked, carried.told⟩
  · rw [← nothing path]
    exact chained_ledger honest fits succeed path

/-- The open archive holds some contents in a short file, and can be written. -/
structure Stocked (d : Directory) (contents : Contents) : Prop where
  serves : openSession.archive.Serves d contents
  ready : openSession.archive.Ready d
  short : openSession.archive.Short d

/-- A line succeeds, and tells what it did in some records; it leaves the names as it was given
them, and some contents. -/
structure Went (issue : Issue) (world after : World) (entries : List (String × ResultRecord))
    (contents : Contents) : Prop where
  fits : issue.Fits openSession world
  ran : ∃ record, issue.run openSession world = (.ok record, after)
  told : issue.entries openSession world = entries
  scope : after.scope = issue.names world.scope
  stocked : Stocked after.host.directory contents

/-- Lines fit and succeed one after the other, and tell what they did in some records. -/
structure WentAll (issues : List Issue) (world : World) (entries : List (String × ResultRecord)) :
    Prop where
  fits : openSession.Throughout (·.Fits openSession) issues world
  succeed : openSession.Throughout (fun issue world => (issue.run openSession world).1.isOk = true)
    issues world
  told : openSession.ledger issues world = entries

theorem wentAll_nil (world : World) : WentAll [] world [] :=
  ⟨trivial, trivial, rfl⟩

theorem Went.all {issue : Issue} {issues : List Issue} {world after : World} {contents : Contents}
    {entries more : List (String × ResultRecord)} (h : Went issue world after entries contents)
    (rest : WentAll issues after more) : WentAll (issue :: issues) world (entries ++ more) := by
  obtain ⟨record, ran⟩ := h.ran
  refine ⟨⟨h.fits, ?_⟩, ⟨?_, ?_⟩, ?_⟩
  · rw [ran]
    exact rest.fits
  · simp only [ran]
    rfl
  · rw [ran]
    exact rest.succeed
  · rw [ledger, h.told, ran, rest.told]

section Stocked
variable {issue : Issue} {world : World} {contents : Contents} {name path : String}

theorem Went.of_task {task : Task} {records : List ResultRecord} {host : Host} {later : Contents}
    (asked : issue.task? world = some task) (unlogged : issue.log = none)
    (quiet : task.noted (issue.start world) = issue.start world)
    (carried : task.run openSession.archive (issue.start world) =
      (.ok records, { issue.start world with host }))
    (fits : task.plan.Fits)
    (short : task.plan.Short openSession.archive task.arguments (issue.start world))
    (stocked : Stocked host.directory later) :
    ∃ after, Went issue world after (task.plan.changed.zip records) later := by
  have logs : openSession.CanLog issue.log host.directory := by
    rw [unlogged]
    nofun
  have start : task.run openSession.archive (task.noted (issue.start world)) =
      (.ok records, { issue.start world with host }) := by
    rw [quiet]
    exact carried
  obtain ⟨record, after, ran, rfl, told⟩ := run_of_task asked start logs
  have logged := told.logged
  rw [unlogged] at logged
  have same : after.host.directory = host.directory := logged.eq_of_none
  refine ⟨after, ⟨fun other also => ?_, fun other also => ?_⟩, ⟨record, ran⟩,
    Issue.entries_of_run asked ran, told.scope, same ▸ stocked⟩
  · obtain rfl := Option.some.inj (asked.symm.trans also)
    exact fits
  · obtain rfl := Option.some.inj (asked.symm.trans also)
    rw [quiet]
    exact short

/-- A line stores a variable. -/
theorem Stocked.store {item : Item} (h : Stocked world.host.directory contents)
    (line : issue.line = storeLine [item.name] "notes") (unlogged : issue.log = none)
    (storable : item.Storable "notes" (issue.names world.scope))
    (place : Form.memberPath "notes" item.name = path)
    (brief : (contents.put path (.describe item.bytes false) item.bytes).Brief) :
    ∃ old after, Went issue world after [(path, ⟨item.name, old, some (.ofBytes item.bytes)⟩)]
      (contents.put path (.describe item.bytes false) item.bytes) := by
  subst place
  have start : openSession.archive.Serves (issue.start world).host.directory contents := h.serves
  obtain ⟨host, stored, serves, short, refiled⟩ :=
    start.put rfl h.ready.canSave storable.fits brief
  obtain ⟨old, done⟩ := Form.storeEach_single start.found
    (RunM.valueOf_ok storable.identifier storable.bound) storable.exported stored
  have listing : Listing [item.name] "notes" :=
    ⟨by simp, List.forall_mem_singleton.mpr storable.identifier, by decide⟩
  have known : ∀ name ∈ [item.name], (issue.start world).context.scope.contains name = true := by
    rw [List.forall_mem_singleton, World.context, Table.contains]
    simp [Issue.start, storable.bound]
  have asked := task_storeLine listing known
  rw [← line] at asked
  have quiet :=
    Task.noted_eq asked (List.forall_mem_singleton.mpr ⟨_, storable.bound⟩) (by simp)
  have usual : (twoArguments "store" (",".intercalate [item.name]) "in" "notes").get? "with" =
      none := by
    simp [get?_twoArguments]
  have ran : ∀ targets, (Plan.store targets).run openSession.archive
      (twoArguments "store" (",".intercalate [item.name]) "in" "notes") (issue.start world) =
      Form.storeEach openSession.archive none [] targets (issue.start world) := by
    intro targets
    rw [Plan.store_run, Effect.bind_of_ok (converter_none usual true _)]
  refine ⟨old, Went.of_task asked unlogged quiet ((ran _).trans done)
    (List.forall_mem_singleton.mpr storable.fits) ?_ ⟨serves, h.ready.refiled refiled, short⟩⟩
  intro front part
  rw [ran]
  rcases List.prefix_cons_iff.mp part with rfl | ⟨rest, rfl, inner⟩
  · exact h.short
  · rw [List.prefix_nil.mp inner, done]
    exact short

/-- A line deletes a variable. -/
theorem Stocked.delete {entry : MemberEntry} (h : Stocked world.host.directory contents)
    (line : issue.line = deleteLine name "notes") (unlogged : issue.log = none)
    (named : isIdentifier name = true) (place : Form.memberPath "notes" name = path)
    (starless : '*' ∉ path.toList) (listed : contents.manifest.members.get? path = some entry)
    (brief : (contents.erase path).Brief) :
    ∃ after, Went issue world after [(path, ⟨path, some entry.checksums, none⟩)]
      (contents.erase path) := by
  subst place
  have start : openSession.archive.Serves (issue.start world).host.directory contents := h.serves
  obtain ⟨host, deleted, serves, short, refiled⟩ := start.erase h.ready.canSave listed brief
  have word : Word "notes" := by decide
  have asked := @task_deleteLine (issue.start world).context name "notes" named word
  rw [← line] at asked
  have quiet := Task.noted_eq asked trivial (by simp)
  have ran : (Plan.delete (Form.memberPath "notes" name)).run openSession.archive
      (twoArguments "del" name "from" "notes") (issue.start world) =
      (.ok [⟨Form.memberPath "notes" name, some entry.checksums, none⟩],
        { issue.start world with host }) := Form.remove_ok starless deleted
  refine Went.of_task asked unlogged quiet ran trivial ?_
    ⟨serves, h.ready.refiled refiled, short⟩
  rw [Plan.Short, ran]
  exact short

end Stocked

def noteWorld : World :=
  ⟨Archive.bareHost, noteScope, []⟩

theorem stocked_noteWorld : Stocked noteWorld.host.directory .empty where
  serves := openSession_canStore.serves
  ready := openSession_canStore.saves.ready
  short _ read := by cases read

/-- The number is stored. -/
def noteIssue : Issue :=
  .plain "store x in notes"

theorem line_noteIssue : noteIssue.line = storeLine ["x"] "notes" := by
  decide +kernel

/-- What the archive holds of the number alone. -/
def noteContents : Contents :=
  .put .empty "notes/x" (.describe note.bytes false) note.bytes

theorem brief_noteContents : noteContents.Brief := by
  rw [noteContents, note, Archive.describe_byte]
  exact ⟨by decide +kernel, by decide⟩

theorem went_noteIssue : ∃ old after,
    Went noteIssue noteWorld after [("notes/x", ⟨"x", old, some (.ofBytes note.bytes)⟩)]
      noteContents :=
  @Stocked.store noteIssue noteWorld _ _ note stocked_noteWorld line_noteIssue rfl note_storable
    (by decide +kernel) brief_noteContents

/-- The table, under the name of the number. -/
def noteTable : Item :=
  { label with name := "x" }

theorem noteTable_storable {scope : Scope} (bound : scope.get? "x" = some (.value label.value)) :
    noteTable.Storable "notes" scope := by
  obtain ⟨-, -, exported, imported, -⟩ := pair_storable label (by simp)
  exact ⟨note_storable.identifier, bound, exported, imported, note_storable.fits⟩

/-- What the archive holds of the table, in the place of the number. -/
def tableContents : Contents :=
  noteContents.put "notes/x" (.describe label.bytes false) label.bytes

/-- What it holds once the table was deleted and stored again. -/
def restoredContents : Contents :=
  (tableContents.erase "notes/x").put "notes/x" (.describe label.bytes false) label.bytes

theorem brief_tableContents :
    tableContents.Brief ∧ (tableContents.erase "notes/x").Brief ∧ restoredContents.Brief := by
  simp only [restoredContents, tableContents, noteContents, note, describe_label,
    Archive.describe_byte]
  exact ⟨⟨by decide +kernel, by decide⟩, ⟨by decide +kernel, by decide⟩,
    ⟨by decide +kernel, by decide⟩⟩

/-- The table is what the name of the number stands for, and is stored in its place. -/
def tableIssue : Issue :=
  ⟨fun scope => scope.insert "x" (.value label.value), 0, none, "store x in notes"⟩

def deleteIssue : Issue :=
  .plain "del x from notes"

theorem line_deleteIssue : deleteIssue.line = deleteLine "x" "notes" := by
  decide +kernel

/-- The number is stored, and the table in its place; that is deleted, and stored again. -/
def noteIssues : List Issue :=
  [noteIssue, tableIssue, deleteIssue, noteIssue]

/-- The lines succeed. What they tell of the checksums that are stored is known before it is known
what they tell of those that were there. -/
theorem went_noteIssues : ∃ first second third, WentAll noteIssues noteWorld
    [("notes/x", ⟨"x", first, some (.ofBytes note.bytes)⟩),
      ("notes/x", ⟨"x", second, some (.ofBytes label.bytes)⟩),
      ("notes/x", ⟨"notes/x", some (.ofBytes label.bytes), none⟩),
      ("notes/x", ⟨"x", third, some (.ofBytes label.bytes)⟩)] := by
  have path : Form.memberPath "notes" "x" = "notes/x" := by decide +kernel
  have bound : (noteScope.insert "x" (.value label.value)).get? "x" =
      some (.value label.value) := by
    rw [Table.get?_insert, if_pos rfl]
  have listed : tableContents.manifest.members.get? "notes/x" =
      some (.describe label.bytes false) := by
    simp [tableContents, Contents.put, Table.get?_insert]
  obtain ⟨brief, erased, restored⟩ := brief_tableContents
  obtain ⟨first, one, went⟩ := went_noteIssue
  have scope : tableIssue.names one.scope = noteScope.insert "x" (.value label.value) := by
    rw [tableIssue, went.scope]
    rfl
  obtain ⟨second, two, went'⟩ := @Stocked.store tableIssue one _ _ noteTable went.stocked
    line_noteIssue rfl (noteTable_storable (by rw [scope]; exact bound)) path brief
  obtain ⟨three, gone⟩ := @Stocked.delete deleteIssue two _ "x" _ _ went'.stocked
    line_deleteIssue rfl note_storable.identifier path (by decide) listed erased
  have scope' : noteIssue.names three.scope = noteScope.insert "x" (.value label.value) :=
    gone.scope.trans (went'.scope.trans scope)
  obtain ⟨third, four, again⟩ := @Stocked.store noteIssue three _ _ noteTable gone.stocked
    line_noteIssue rfl (noteTable_storable (by rw [scope']; exact bound)) path restored
  exact ⟨first, second, third, went.all (went'.all (gone.all (again.all (wentAll_nil four))))⟩

/-- The first store tells that nothing was there, and each line after it what the one before it
left. -/
theorem provenance_is_true_note :
    openSession.Throughout (fun issue world => (issue.run openSession world).1.isOk = true)
      noteIssues noteWorld ∧
    openSession.ledger noteIssues noteWorld =
      [("notes/x", ⟨"x", none, some (.ofBytes note.bytes)⟩),
        ("notes/x", ⟨"x", some (.ofBytes note.bytes), some (.ofBytes label.bytes)⟩),
        ("notes/x", ⟨"notes/x", some (.ofBytes label.bytes), none⟩),
        ("notes/x", ⟨"x", none, some (.ofBytes label.bytes)⟩)] := by
  obtain ⟨first, second, third, went⟩ := went_noteIssues
  have vacant : openSession.archive.Vacant noteWorld.host.directory := .unmade (by decide)
  refine ⟨went.succeed, ?_⟩
  -- What the world is has been used: under another name, nothing of it is computed again.
  generalize noteWorld = world at vacant went ⊢
  have chained := (provenance_is_true vacant went.fits).2.2 went.succeed "notes/x"
  rw [went.told] at chained ⊢
  simp only [recordsOf_cons, if_true] at chained
  obtain ⟨rfl, rfl, -, rfl, -⟩ := chained
  rfl

end Session
end ObjectVault
