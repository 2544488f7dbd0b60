import ObjectVault.Proofs.Exchange
import ObjectVault.Proofs.Looking
import ObjectVault.Proofs.Replacing

namespace ObjectVault
open ObjectVault.Command

namespace Archive

/-- The archive is read as before, or as it was when the folder was made that it lies in. -/
def Kept (archive : Archive) (d d' : Directory) : Prop :=
  archive.contents d' = archive.contents d ∨
    archive.contents d' = archive.contents (archive.withFolder d).1

theorem Kept.refl (archive : Archive) (d : Directory) : archive.Kept d d :=
  .inl rfl

variable {archive : Archive} {member : String} {plaintext : Bytes} {host host' : Host}
  {e : ArchiveError}

theorem kept_of_same (h : host'.directory = host.directory) :
    archive.Kept host.directory host'.directory :=
  h ▸ .refl archive _

theorem SaveFails.kept {contents : Contents} {d d' : Directory}
    (h : archive.SaveFails contents d d' e) (apart : ¬ OwnTemporary archive.path) :
    archive.Kept d d' :=
  .inr (contents_of_unmoved (h.unmoved apart))

theorem write_error_kept (apart : ¬ OwnTemporary archive.path)
    (h : archive.write member plaintext host = (.error e, host')) :
    archive.Kept host.directory host'.directory := by
  rcases write_error h with same | ⟨contents, between, same, saving⟩
  · exact kept_of_same same
  · exact same ▸ (saveFails_of_save saving).kept apart

theorem delete_error_kept (apart : ¬ OwnTemporary archive.path)
    (h : archive.delete member host = (.error e, host')) :
    archive.Kept host.directory host'.directory := by
  rcases delete_error h with same | ⟨contents, saving⟩
  · exact kept_of_same same
  · exact (saveFails_of_save saving).kept apart

end Archive

namespace Storage
variable {archive : Archive} {host host' : Host} {e : StorageError}

/-- Where storing a value fails: before any file is touched, or while its bytes are stored. -/
theorem store_error_cases {path : String} {value : Value} {exporter : Option Converter}
    {subject : String} (h : store archive path value exporter subject host = (.error e, host')) :
    host' = host ∨ ∃ bytes e', archive.write path bytes host = (.error e', host') := by
  rcases Effect.bind_eq_error h with looked | ⟨old, start, looked, converting⟩
  · exact .inl (HostM.look_eq looked).2
  obtain ⟨-, rfl⟩ := HostM.look_eq looked
  rcases Effect.bind_eq_error converting with converted | ⟨bytes, start, converted, storing⟩
  · exact .inl (HostM.look_eq converted).2
  obtain ⟨-, rfl⟩ := HostM.look_eq converted
  rcases Effect.bind_eq_error storing with failed | ⟨entry, stored, -, done⟩
  · obtain ⟨e', written⟩ := HostM.mapError_eq_error failed
    exact .inr ⟨bytes, e', written⟩
  · cases done

theorem delete_error {path : String} (apart : ¬ Archive.OwnTemporary archive.path)
    (h : delete archive path host = (.error e, host')) :
    archive.Kept host.directory host'.directory := by
  rcases Effect.bind_eq_error h with failed | ⟨entry, deleted, -, done⟩
  · obtain ⟨e', written⟩ := HostM.mapError_eq_error failed
    exact Archive.delete_error_kept apart written
  · cases done

end Storage

namespace Command

/-- The archive holds what it held, the names are bound as before, save for what views keep, and
nothing was reported. -/
structure Untouched (archive : Archive) (world after : World) : Prop where
  archive : archive.Kept world.host.directory after.host.directory
  scope : world.scope.Looked after.scope
  reports : after.reports = world.reports

variable {archive : Archive} {arguments : Arguments} {world after between : World}
  {e : CommandError}

theorem World.Looked.untouched (h : world.Looked after) : Untouched archive world after :=
  ⟨h.host ▸ .refl archive _, h.scope, h.reports⟩

theorem Untouched.behind (h : Untouched archive between after) (looked : world.Looked between) :
    Untouched archive world after :=
  ⟨looked.host ▸ h.archive, looked.scope.trans h.scope, h.reports.trans looked.reports⟩

namespace Form

variable {exporter : Option Converter} {seen : List String} {targets : List (String × String)}
  {path name : String} {records : List ResultRecord}

/-- A path that was stored to already is passed over. -/
theorem storeEach_again (again : seen.contains path = true) :
    storeEach archive exporter seen ((path, name) :: targets) world =
      storeEach archive exporter seen targets world := by
  rw [storeEach, if_pos again]

/-- What storing several variables does: the first one, if its path is new, and then the others. -/
theorem storeEach_cons_eq_ok
    (h : storeEach archive exporter seen ((path, name) :: targets) world = (.ok records, after)) :
    seen.contains path = true ∧
        storeEach archive exporter seen targets world = (.ok records, after) ∨
      seen.contains path = false ∧ ∃ value between record stored others,
        RunM.valueOf name world = (.ok value, between) ∧
        RunM.onStorage (Storage.store archive path value exporter name) between =
          (.ok record, stored) ∧
        storeEach archive exporter (path :: seen) targets stored = (.ok others, after) ∧
        records = record :: others := by
  rw [storeEach] at h
  split at h
  · next again => exact .inl ⟨again, h⟩
  · next new =>
    obtain ⟨value, between, valued, behind⟩ := Effect.bind_eq_ok h
    obtain ⟨record, stored, storing, behind⟩ := Effect.bind_eq_ok behind
    obtain ⟨others, last, behind, done⟩ := Effect.bind_eq_ok behind
    cases done
    exact .inr ⟨by simpa using new, value, between, record, stored, others, valued, storing, behind,
      rfl⟩

/-- Storing binds no names and reports nothing. -/
theorem storeEach_names
    (h : storeEach archive exporter seen targets world = (.ok records, after)) :
    world.scope.Looked after.scope ∧ after.reports = world.reports := by
  induction targets generalizing seen world records with
  | nil =>
    cases h
    exact ⟨.refl _, rfl⟩
  | cons target targets ih =>
    obtain ⟨path, name⟩ := target
    rcases storeEach_cons_eq_ok h with
      ⟨-, rest⟩ | ⟨-, value, between, record, stored, others, valued, storing, rest, -⟩
    · exact ih rest
    · have same := RunM.looks_valueOf name world
      rw [valued] at same
      obtain ⟨host, -, rfl⟩ := RunM.onStorage_eq_ok storing
      obtain ⟨scope, reports⟩ := ih rest
      exact ⟨same.scope.trans scope, reports.trans same.reports⟩

/-- Where storing several variables fails: those in front are stored, and one more could not be. -/
theorem storeEach_error_at
    (h : storeEach archive exporter seen targets world = (.error e, after)) :
    ∃ front target rest records between, targets = front ++ target :: rest ∧
      storeEach archive exporter seen front world = (.ok records, between) ∧
      between.scope.Looked after.scope ∧ after.reports = between.reports ∧
      (after.host = between.host ∨
        ∃ bytes e', archive.write target.1 bytes between.host = (.error e', after.host)) := by
  induction targets generalizing seen world with
  | nil => cases h
  | cons target targets ih =>
    obtain ⟨path, name⟩ := target
    rw [storeEach] at h
    split at h
    · next again =>
      obtain ⟨front, target, rest, records, between, rfl, done, last⟩ := ih h
      exact ⟨(path, name) :: front, target, rest, records, between, rfl,
        (storeEach_again again).trans done, last⟩
    · next new =>
      rcases (RunM.looks_valueOf name).bind_eq_error h with looked | ⟨value, found, valued, looked,
        others⟩
      · exact ⟨[], _, targets, [], world, rfl, rfl, looked.scope, looked.reports, .inl looked.host⟩
      rcases Effect.bind_eq_error others with storing | ⟨record, stored, storing, others⟩
      · obtain ⟨e', host, failed, rfl⟩ := RunM.onStorage_eq_error storing
        refine ⟨[], (path, name), targets, [], world, rfl, rfl, looked.scope, looked.reports, ?_⟩
        rw [← looked.host]
        exact Storage.store_error_cases failed
      rcases Effect.bind_eq_error others with failed | ⟨_, _, -, done⟩
      · obtain ⟨front, target, rest, records, between, rfl, done, last⟩ := ih failed
        refine ⟨(path, name) :: front, target, rest, record :: records, between, rfl, ?_, last⟩
        rw [storeEach, if_neg new, Effect.bind_of_ok valued, Effect.bind_of_ok storing,
          Effect.bind_of_ok done]
        rfl
      · cases done

/-- Where storing several variables fails: the ones in front are stored, and the failing one leaves
everything as they left it. -/
theorem storeEach_error (apart : ¬ Archive.OwnTemporary archive.path)
    (h : storeEach archive exporter seen targets world = (.error e, after)) :
    ∃ front rest records between, targets = front ++ rest ∧ rest ≠ [] ∧
      storeEach archive exporter seen front world = (.ok records, between) ∧
      Untouched archive between after := by
  obtain ⟨front, target, rest, records, between, rfl, done, scope, reports, last⟩ :=
    storeEach_error_at h
  refine ⟨front, target :: rest, records, between, rfl, by simp, done, ?_, scope, reports⟩
  rcases last with same | ⟨bytes, e', failed⟩
  · exact Archive.kept_of_same (congrArg Host.directory same)
  · exact Archive.write_error_kept apart failed

/-- Importing an object changes one name only. -/
theorem loadOne_ok {importer : Option Converter} {target : String × String}
    {record : ResultRecord} (h : loadOne archive importer target world = (.ok record, after)) :
    ∃ v, after = { world with scope := world.scope.insert target.2 (.value v) } := by
  obtain ⟨path, name⟩ := target
  obtain ⟨loaded, between, looked, rest⟩ := Effect.bind_eq_ok h
  rw [RunM.onStorage_look] at looked
  obtain rfl := congrArg Prod.snd looked
  cases rest
  exact ⟨loaded.value, rfl⟩

theorem loadOne_error {importer : Option Converter} {target : String × String}
    (h : loadOne archive importer target world = (.error e, after)) : after = world := by
  obtain ⟨path, name⟩ := target
  rcases Effect.bind_eq_error h with looked | ⟨loaded, between, -, rest⟩
  · rw [RunM.onStorage_look] at looked
    exact (congrArg Prod.snd looked).symm
  · cases rest

theorem loadOne_of_unread {path : String} {e' : ArchiveError}
    (h : archive.read path world.host.directory = .error e') (importer : Option Converter)
    (name : String) :
    loadOne archive importer (path, name) world = (.error (.storage (.archive e')), world) := by
  have unloaded : Storage.load archive path importer world.host.directory =
      .error (.archive e') := by
    rw [Storage.load, h]
    rfl
  have failed := RunM.onStorage_look (Storage.load archive path importer) world
  rw [unloaded] at failed
  exact Effect.bind_of_error failed

/-- Importing changes only the names that objects are imported to. -/
theorem loadEach_names {importer : Option Converter} {targets : List (String × String)}
    {records : List ResultRecord}
    (h : targets.mapM (loadOne archive importer) world = (.ok records, after)) :
    after.host = world.host ∧ after.reports = world.reports ∧
      ∀ name, name ∉ targets.map Prod.snd → after.scope.get? name = world.scope.get? name := by
  induction targets generalizing world records with
  | nil =>
    cases h
    exact ⟨rfl, rfl, fun _ _ => rfl⟩
  | cons target targets ih =>
    rw [List.mapM_cons] at h
    obtain ⟨record, between, first, rest⟩ := Effect.bind_eq_ok h
    obtain ⟨others, last, behind, done⟩ := Effect.bind_eq_ok rest
    cases done
    obtain ⟨v, rfl⟩ := loadOne_ok first
    obtain ⟨host, reports, names⟩ := ih behind
    refine ⟨host, reports, fun name apart => ?_⟩
    rw [List.map_cons, List.mem_cons, not_or] at apart
    rw [names name apart.2, Table.get?_insert, if_neg apart.1]

/-- Where importing several objects fails: the ones in front are imported, and that is all. -/
theorem loadEach_error {importer : Option Converter} {targets : List (String × String)}
    (h : targets.mapM (loadOne archive importer) world = (.error e, after)) :
    ∃ front rest records, targets = front ++ rest ∧ rest ≠ [] ∧
      front.mapM (loadOne archive importer) world = (.ok records, after) := by
  induction targets generalizing world with
  | nil => cases h
  | cons target targets ih =>
    rw [List.mapM_cons] at h
    rcases Effect.bind_eq_error h with failed | ⟨record, between, first, others⟩
    · obtain rfl := loadOne_error failed
      exact ⟨[], _, [], rfl, by simp, rfl⟩
    rcases Effect.bind_eq_error others with failed | ⟨_, _, -, done⟩
    · obtain ⟨front, rest, records, rfl, left, done⟩ := ih failed
      refine ⟨target :: front, rest, record :: records, rfl, left, ?_⟩
      rw [List.mapM_cons, Effect.bind_of_ok first, Effect.bind_of_ok done]
      rfl
    · cases done

theorem need_eq_ok {keyword value : String}
    (h : need arguments keyword world = (.ok value, after)) :
    arguments.get? keyword = some value := by
  rw [need, Arguments.need] at h
  split at h
  · next found =>
    cases h
    exact found
  · cases h

theorem needNames_eq_ok {keyword : String} {listed : List String}
    (h : needNames arguments keyword world = (.ok listed, after)) :
    ∃ list, arguments.get? keyword = some list ∧ names list = .ok listed := by
  obtain ⟨list, between, given, rest⟩ := Effect.bind_eq_ok h
  refine ⟨list, need_eq_ok given, ?_⟩
  cases named : names list with
  | ok all =>
    rw [named] at rest
    cases rest
    rfl
  | error e =>
    rw [named] at rest
    cases rest

/-- The paths of some names in a folder, with the names. -/
def folderTargets (folder : String) (listed : List String) : List (String × String) :=
  listed.map fun name => (memberPath folder name, name)

/-- An alias is for a single name. -/
theorem importTargets_eq_ok {folder : String} {listed : List String} {rename : Option String}
    {targets : List (String × String)}
    (h : importTargets folder listed rename world = (.ok targets, after)) :
    targets = folderTargets folder listed ∨ targets.length = 1 := by
  unfold importTargets at h
  split at h
  · cases h
    exact .inr rfl
  · cases h
  · cases h
    exact .inl rfl

/-- Some of the objects are stored, the first ones and not all. -/
structure StoredFirst (archive : Archive) (targets : List (String × String))
    (world after : World) : Prop where
  split : ∃ front rest, targets = front ++ rest ∧ front ≠ [] ∧ rest ≠ [] ∧
    ∃ exporter records start between, world.Looked start ∧
      storeEach archive exporter [] front start = (.ok records, between) ∧
      Untouched archive between after
  scope : world.scope.Looked after.scope
  reports : after.reports = world.reports

/-- Some of the objects are imported, the first ones and not all. -/
structure ImportedFirst (archive : Archive) (targets : List (String × String))
    (world after : World) : Prop where
  split : ∃ front rest, targets = front ++ rest ∧ front ≠ [] ∧ rest ≠ [] ∧
    ∃ importer records start, world.Looked start ∧
      front.mapM (loadOne archive importer) start = (.ok records, after) ∧
      ∀ name, name ∉ front.map Prod.snd →
        Option.Rel Binding.Keeps (world.scope.get? name) (after.scope.get? name)
  host : after.host = world.host
  reports : after.reports = world.reports

theorem StoredFirst.behind {targets : List (String × String)}
    (h : StoredFirst archive targets between after) (looked : world.Looked between) :
    StoredFirst archive targets world after := by
  obtain ⟨⟨front, rest, same, begun, left, exporter, records, start, mid, near, done⟩, scope,
    reports⟩ := h
  exact ⟨⟨front, rest, same, begun, left, exporter, records, start, mid, looked.trans near, done⟩,
    looked.scope.trans scope, reports.trans looked.reports⟩

theorem ImportedFirst.behind {targets : List (String × String)}
    (h : ImportedFirst archive targets between after) (looked : world.Looked between) :
    ImportedFirst archive targets world after := by
  obtain ⟨⟨front, rest, same, begun, left, importer, records, start, near, done, names⟩, host,
    reports⟩ := h
  exact ⟨⟨front, rest, same, begun, left, importer, records, start, looked.trans near, done,
      fun name other => Scope.rel_keeps_trans (looked.scope name) (names name other)⟩,
    host.trans looked.host, reports.trans looked.reports⟩

theorem not_split_singleton {α : Type} {a : α} {front rest : List α} (same : [a] = front ++ rest)
    (begun : front ≠ []) (left : rest ≠ []) : False := by
  have count := congrArg List.length same
  have first := List.length_pos_iff.mpr begun
  have last := List.length_pos_iff.mpr left
  rw [List.length_singleton, List.length_append] at count
  omega

theorem storeAll_error (apart : ¬ Archive.OwnTemporary archive.path)
    {targets : List (String × String)}
    (h : storeAll archive arguments targets world = (.error e, after)) :
    Untouched archive world after ∨ StoredFirst archive targets world after := by
  rcases (looks_converter arguments true).bind_eq_error h with looked | ⟨exporter, start, -, looked,
    storing⟩
  · exact .inl looked.untouched
  obtain ⟨front, rest, records, between, rfl, left, done, last⟩ := storeEach_error apart storing
  by_cases empty : front = []
  · subst empty
    cases done
    exact .inl (last.behind looked)
  · obtain ⟨scope, reports⟩ := storeEach_names done
    exact .inr ⟨⟨front, rest, rfl, empty, left, exporter, records, start, between, looked, done,
        last⟩,
      looked.scope.trans (scope.trans last.scope),
      last.reports.trans (reports.trans looked.reports)⟩

theorem loadAll_error {targets : List (String × String)}
    (h : loadAll archive arguments targets world = (.error e, after)) :
    Untouched archive world after ∨ ImportedFirst archive targets world after := by
  rcases (looks_converter arguments false).bind_eq_error h with looked | ⟨importer, start, -,
    looked, loading⟩
  · exact .inl looked.untouched
  obtain ⟨front, rest, records, rfl, left, done⟩ := loadEach_error loading
  by_cases empty : front = []
  · subst empty
    cases done
    exact .inl looked.untouched
  · obtain ⟨host, reports, names⟩ := loadEach_names done
    refine .inr ⟨⟨front, rest, rfl, empty, left, importer, records, start, looked, done, ?_⟩,
      host.trans looked.host, reports.trans looked.reports⟩
    intro name apart
    rw [names name apart]
    exact looked.scope name

theorem storeOne_error (apart : ¬ Archive.OwnTemporary archive.path) {target : String × String}
    (h : storeAll archive arguments [target] world = (.error e, after)) :
    Untouched archive world after := by
  rcases storeAll_error apart h with untouched | ⟨⟨front, rest, same, begun, left, -⟩, -⟩
  · exact untouched
  · exact (not_split_singleton same begun left).elim

theorem importOne_error {target : String × String}
    (h : loadAll archive arguments [target] world = (.error e, after)) :
    Untouched archive world after := by
  rcases loadAll_error h with untouched | ⟨⟨front, rest, same, begun, left, -⟩, -⟩
  · exact untouched
  · exact (not_split_singleton same begun left).elim

theorem remove_error (apart : ¬ Archive.OwnTemporary archive.path) {path : String}
    (h : remove archive path world = (.error e, after)) : Untouched archive world after := by
  simp only [remove] at h
  split at h
  · cases h
    exact (World.Looked.refl world).untouched
  · rcases Effect.bind_eq_error h with failed | ⟨record, between, -, done⟩
    · obtain ⟨e', host, deleting, rfl⟩ := RunM.onStorage_eq_error failed
      exact ⟨Storage.delete_error apart deleting, .refl _, rfl⟩
    · cases done

end Form

/-- How a command leaves things that fails while it is performed: as they were, or with the first of
several objects stored or imported. -/
inductive Left (archive : Archive) (arguments : Arguments) (world after : World) : Prop
  | untouched (h : Untouched archive world after)
  | stored {folder list : String} {listed : List String}
    (into : arguments.get? "in" = some folder) (given : arguments.get? "store" = some list)
    (named : names list = .ok listed)
    (first : Form.StoredFirst archive (Form.folderTargets folder listed) world after)
  | imported {folder list : String} {listed : List String}
    (origin : arguments.get? "from" = some folder) (given : arguments.get? "import" = some list)
    (named : names list = .ok listed)
    (first : Form.ImportedFirst archive (Form.folderTargets folder listed) world after)

theorem Left.behind (h : Left archive arguments between after) (looked : world.Looked between) :
    Left archive arguments world after := by
  cases h with
  | untouched h => exact .untouched (h.behind looked)
  | stored into given named first => exact .stored into given named (first.behind looked)
  | imported origin given named first => exact .imported origin given named (first.behind looked)

theorem left_of_looks {α : Type} {run : RunM α} (looks : RunM.Looks run)
    (h : run world = (.error e, after)) : Left archive arguments world after := by
  have looked := looks world
  rw [h] at looked
  exact .untouched looked.untouched

/-- What fails behind a look leaves what it would leave without the look. -/
theorem left_behind {α β : Type} {run : RunM α} {f : α → RunM β} (looks : RunM.Looks run)
    (h : (run >>= f) world = (.error e, after))
    (rest : ∀ a between, run world = (.ok a, between) → f a between = (.error e, after) →
      Left archive arguments between after) : Left archive arguments world after := by
  rcases looks.bind_eq_error h with looked | ⟨a, between, ran, looked, failed⟩
  · exact .untouched looked.untouched
  · exact (rest a between ran failed).behind looked

theorem Form.run_error (apart : ¬ Archive.OwnTemporary archive.path) {form : Form}
    (h : form.run archive arguments world = (.error e, after)) :
    Left archive arguments world after := by
  cases form with
  | storeAs =>
    refine left_behind (looks_needNames arguments "store") h fun listed _ _ rest => ?_
    split at rest
    · exact left_behind (looks_needMember arguments "in" "as") rest fun _ _ _ storing =>
        .untouched (storeOne_error apart storing)
    · exact left_of_looks (.throw _) rest
  | storeNames =>
    refine left_behind (looks_need arguments "in") h fun folder _ into rest => ?_
    refine left_behind (looks_needNames arguments "store") rest fun listed _ given storing => ?_
    obtain ⟨list, given, named⟩ := needNames_eq_ok given
    rcases storeAll_error apart storing with untouched | first
    · exact .untouched untouched
    · exact .stored (need_eq_ok into) given named first
  | storeAt =>
    refine left_behind (looks_needPath arguments "in") h fun path _ _ rest => ?_
    exact left_behind (looks_need arguments "store") rest fun _ _ _ storing =>
      .untouched (storeOne_error apart storing)
  | importAs =>
    refine left_behind (looks_needMember arguments "from" "import") h fun path _ _ rest => ?_
    exact left_behind (looks_need arguments "as") rest fun _ _ _ loading =>
      .untouched (importOne_error loading)
  | importNames =>
    refine left_behind (looks_need arguments "from") h fun folder _ origin rest => ?_
    refine left_behind (looks_needNames arguments "import") rest fun listed _ given rest => ?_
    refine left_behind (looks_importTargets folder listed _) rest fun targets _ chosen loading => ?_
    rcases importTargets_eq_ok chosen with rfl | single
    · obtain ⟨list, given, named⟩ := needNames_eq_ok given
      rcases loadAll_error loading with untouched | first
      · exact .untouched untouched
      · exact .imported (need_eq_ok origin) given named first
    · obtain ⟨target, rfl⟩ := List.length_eq_one_iff.mp single
      exact .untouched (importOne_error loading)
  | importAt =>
    refine left_behind (looks_needPath arguments "import") h fun path _ _ rest => ?_
    exact left_behind (looks_need arguments "as") rest fun _ _ _ loading =>
      .untouched (importOne_error loading)
  | importFolder =>
    refine left_behind (looks_need arguments "import") h fun folder _ _ rest => ?_
    cases rest
  | deleteName =>
    exact left_behind (looks_needMember arguments "from" "del") h fun _ _ _ removing =>
      .untouched (remove_error apart removing)
  | deleteAt =>
    exact left_behind (looks_needPath arguments "del") h fun _ _ _ removing =>
      .untouched (remove_error apart removing)
  | verifyName =>
    exact left_behind (looks_needMember arguments "in" "assert") h fun path _ _ =>
      left_of_looks (looks_compareHash archive arguments path)
  | verifyAt =>
    exact left_behind (looks_needPath arguments "assert") h fun path _ _ =>
      left_of_looks (looks_compareHash archive arguments path)

theorem Action.perform_error (apart : ¬ Archive.OwnTemporary archive.path) {action : Action}
    (h : action.perform archive arguments world = (.error e, after)) :
    Left archive arguments world after := by
  refine left_behind (fun world => .refl world) h fun start between _ rest => ?_
  refine left_behind (RunM.looks_noteLookups _) rest fun _ between' _ rest => ?_
  cases chosen : action.choose start.context arguments with
  | none =>
    rw [chosen] at rest
    exact left_of_looks (.throw _) rest
  | some form =>
    rw [chosen] at rest
    cases valid : form.signature.validate start.context arguments with
    | error fault =>
      simp only [valid] at rest
      exact left_of_looks (.throw _) rest
    | ok _ =>
      simp only [valid] at rest
      exact Form.run_error apart rest

end Command

namespace Session
variable {log : Option String} {line : String} {world after : World} {e : CommandError}

/-- How a line leaves things that fails: its command fails while it is performed, or it is performed
and its record cannot be added to the log. -/
inductive Left (session : Session) (log : Option String) (line : String) (world after : World) :
    Prop
  | unread (same : after = world)
  | performing {arguments : Arguments} (given : Arguments.ofLine line = .ok arguments)
    (left : Command.Left session.archive arguments world after)
  | reporting {arguments : Arguments} {action : Action} {records : List ResultRecord}
    {done : World} {report : Report} {path : String}
    (given : Arguments.ofLine line = .ok arguments)
    (performed : action.perform session.archive arguments world = (.ok records, done))
    (kept : log = some path) (logged : session.settings.metadata = true)
    (reported : after = { done with reports := done.reports ++ [report] })

theorem emit_error {report : Report} (h : emit log report world = (.error e, after)) :
    log.isSome = true ∧ report.record.isSome = true ∧
      after = { world with reports := world.reports ++ [report] } := by
  rcases Effect.bind_eq_error h with noted | ⟨_, between, noted, rest⟩
  · cases noted
  obtain rfl := congrArg Prod.snd noted
  cases log with
  | none => cases rest
  | some path =>
    cases recorded : report.record with
    | none =>
      rw [recorded] at rest
      cases rest
    | some record =>
      rw [recorded] at rest
      obtain ⟨e', host, failed, rfl⟩ := RunM.onStorage_eq_error rest
      obtain ⟨rfl, -⟩ := HostM.change_eq_error failed
      exact ⟨rfl, rfl, rfl⟩

/-- A line that fails changes nothing, save that of several objects the first ones may be stored or
imported, and that what was done stays done when only its record cannot be kept. -/
theorem left_by_failed_line {session : Option Session}
    (apart : ∀ opened ∈ session, ¬ Archive.OwnTemporary opened.archive.path)
    (h : run session log line world = (.error e, after)) :
    after = world ∨ ∃ opened ∈ session, opened.Left log line world after := by
  cases session with
  | none =>
    cases h
    exact .inl rfl
  | some opened =>
    refine .inr ⟨opened, rfl, ?_⟩
    rw [run, Effect.bind_of_ok (needOpen_some opened world)] at h
    rcases Effect.bind_eq_error h with unread | ⟨arguments, start, read, choosing⟩
    · exact .unread (RunM.wellFormed_eq_error unread)
    obtain ⟨given, rfl⟩ := RunM.wellFormed_eq_ok read
    rcases Effect.bind_eq_error choosing with unread | ⟨action, start', chosen, performing⟩
    · exact .unread (RunM.wellFormed_eq_error unread)
    obtain ⟨-, rfl⟩ := RunM.wellFormed_eq_ok chosen
    rw [Effect.bind_of_ok (now_apply _)] at performing
    rcases Effect.bind_eq_error performing with failed | ⟨records, done, performed, reporting⟩
    · exact .performing given (Action.perform_error (apart opened rfl) failed)
    rw [Effect.bind_of_ok (now_apply _)] at reporting
    rcases Effect.bind_eq_error reporting with failed | ⟨_, _, -, returned⟩
    · obtain ⟨kept, recorded, reported⟩ := emit_error failed
      obtain ⟨path, kept⟩ := Option.isSome_iff_exists.mp kept
      refine .reporting given performed kept ?_ reported
      by_contra unlogged
      simp [unlogged] at recorded
    · cases returned

/-- What a line leaves if it fails. -/
def failure? (session : Option Session) (log : Option String) (line : String) (world : World) :
    Option World :=
  match run session log line world with
  | (.ok _, _) => none
  | (.error _, after) => some after

/-- A number, and a function that cannot be stored. -/
def importerScope : Scope :=
  noteScope.insert "text" (.converter (.importer "text" fun _ => .ok .null))

theorem left_by_failed_line_importer :
    ∃ after, failure? (some openSession) none (storeLine ["x", "text"] "notes")
        ⟨Archive.bareHost, importerScope, []⟩ = some after ∧
      openSession.Left none (storeLine ["x", "text"] "notes")
        ⟨Archive.bareHost, importerScope, []⟩ after := by
  have fails : (failure? (some openSession) none (storeLine ["x", "text"] "notes")
      ⟨Archive.bareHost, importerScope, []⟩).isSome = true := by decide +kernel
  have apart : ∀ opened ∈ some openSession, ¬ Archive.OwnTemporary opened.archive.path := by
    rintro opened ⟨⟩
    decide
  rw [failure?] at fails ⊢
  cases ran : run (some openSession) none (storeLine ["x", "text"] "notes")
      ⟨Archive.bareHost, importerScope, []⟩ with
  | mk result after =>
    rw [ran] at fails
    cases result with
    | ok record => cases fails
    | error e =>
      refine ⟨after, rfl, ?_⟩
      rcases left_by_failed_line apart ran with rfl | ⟨opened, ⟨⟩, left⟩
      · exact .unread rfl
      · exact left

theorem failure_of_perform {opened : Session} {arguments : Arguments} {action : Action}
    (read : Arguments.ofLine line = .ok arguments)
    (acts : Action.ofArguments arguments = .ok action)
    (failed : action.perform opened.archive arguments world = (.error e, after)) :
    failure? (some opened) log line world = some after := by
  rw [failure?, run_of_perform_error read acts failed]

theorem serves_hostWith_note :
    ∃ contents, openSession.archive.Serves (Archive.hostWith "notes/x").directory contents ∧
      Stored openSession.archive.password "notes/x" [49] .empty contents := by
  obtain ⟨contents, host, stored, change, serves, -, -⟩ := openSession_canStore.serves.write
    openSession_canStore.saves (by decide : FittingPath "notes/x") fun written read =>
      Archive.sized_of_storedShortly Archive.storedShortly_note read
  obtain ⟨_, stored'⟩ := Archive.write_of_storedShortly Archive.storedShortly_note
  have same : host = Archive.hostWith "notes/x" := congrArg Prod.snd (stored.symm.trans stored')
  exact ⟨contents, same ▸ serves, change⟩

theorem read_hostWith_note :
    openSession.archive.read "notes/x" (Archive.hostWith "notes/x").directory = .ok [49] := by
  obtain ⟨contents, serves, change⟩ := serves_hostWith_note
  rw [Archive.read_eq serves.found]
  exact change.opens

theorem unread_hostWith_note {path : String} (other : path ≠ "notes/x") :
    openSession.archive.read path (Archive.hostWith "notes/x").directory =
      .error (.memberNotFound path) := by
  obtain ⟨contents, serves, change⟩ := serves_hostWith_note
  have unlisted : contents.manifest.members.get? path = none := by
    simp [change.members, Table.get?_insert, Contents.empty, Manifest.empty, other]
  rw [Archive.read_eq serves.found, Contents.plaintext, unlisted]

/-- The first of two names is imported, though there is no second one. -/
theorem failure_importLine :
    (failure? (some openSession) none (importLine "notes" [note.name, "y"])
      ⟨Archive.hostWith "notes/x", ∅, []⟩).map (·.scope.contains note.name) = some true := by
  have read := read_hostWith_note
  have unread := unread_hostWith_note (by decide : "notes/y" ≠ "notes/x")
  -- Nothing else is known of the host, so that no file is looked into again.
  generalize Archive.hostWith "notes/x" = host at read unread
  let world : World := ⟨host, ∅, []⟩
  let after : World := { world with scope := world.scope.insert note.name (.value note.back) }
  let arguments := twoArguments "from" "notes" "import" (",".intercalate [note.name, "y"])
  have listing : Listing [note.name, "y"] "notes" := ⟨by simp, by decide +kernel, by decide⟩
  have plain : arguments.get? "with" = none := by simp [arguments, get?_twoArguments]
  have path : "notes/y" = Form.memberPath "notes" "y" := by decide
  have first := @Form.loadOne_of_read openSession.archive "notes" note world read
    note_storable.imported
  have second := @Form.loadOne_of_unread openSession.archive after _ _ unread none "y"
  have performed : Action.load.perform openSession.archive arguments world =
      (.error (.storage (.archive (.memberNotFound "notes/y"))), after) := by
    rw [perform_importLine listing, Form.loadAll,
      Effect.bind_of_ok (converter_none plain false world), List.map_cons, List.mapM_cons,
      Effect.bind_of_ok first, List.map_cons, List.mapM_cons, ← path]
    exact Effect.bind_of_error (Effect.bind_of_error second)
  rw [failure_of_perform (ofLine_importLine listing) (ofArguments_importLine _ _) performed,
    Option.map_some, Option.some.injEq, Table.contains, Table.get?_insert, if_pos rfl]
  rfl

/-- A session whose vault lies beyond a folder and back. -/
def roundSession : Session :=
  ⟨.default, ⟨"a/../storage.vault", none, Archive.defaultIterations⟩⟩

/-- A line that fails can change everything: it stores the first of two variables, imports the first
of two objects, stores and reports what cannot be logged, and by making the folder of the vault it
can bring to light a file that was not read before. -/
theorem failed_lines_change :
    (failure? (some openSession) none (storeLine ["x", "text"] "notes")
      ⟨Archive.bareHost, importerScope, []⟩).map (·.host.directory.has vaultPath) = some true ∧
    (failure? (some openSession) none (importLine "notes" [note.name, "y"])
      ⟨Archive.hostWith "notes/x", ∅, []⟩).map (·.scope.contains note.name) = some true ∧
    (failure? (some openSession) (some "logs/log") (storeLine ["x"] "notes")
      ⟨Archive.bareHost, noteScope, []⟩).map (fun after =>
        (after.reports.length, after.host.directory.has vaultPath)) = some (1, true) ∧
    (roundSession.archive.contents (Archive.hostHolding vaultPath [1]).directory).isOk = true ∧
    (failure? (some roundSession) none "store x in \"../y\""
      ⟨Archive.hostHolding vaultPath [1], noteScope, []⟩).map (fun after =>
        (roundSession.archive.contents after.host.directory).isOk) = some false :=
  ⟨by decide +kernel, failure_importLine, by decide +kernel, by decide +kernel, by decide +kernel⟩

end Session
end ObjectVault
