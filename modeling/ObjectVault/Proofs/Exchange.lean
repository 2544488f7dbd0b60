import ObjectVault.Proofs.Logging
import ObjectVault.Proofs.Variables

namespace ObjectVault
open ObjectVault.Command ObjectVault.Directory

/-- The session can read its vault, write into it, and report what it did. -/
structure Session.CanStore (session : Session) (log : Option String) (d made : Directory)
    (contents : Contents) : Prop where
  serves : session.archive.Serves d contents
  saves : session.archive.CanSave d made
  logs : session.CanLog log made

theorem Item.listing {items : List Item} {folder : String} {scope : Scope} (nonempty : items ≠ [])
    (word : Word folder) (storable : ∀ item ∈ items, item.Storable folder scope) :
    Listing (items.map Item.name) folder := by
  refine ⟨by simpa using nonempty, ?_, word⟩
  rw [List.forall_mem_map]
  exact fun item mem => (storable item mem).identifier

theorem Item.targets_eq (folder : String) (items : List Item) :
    ((items.map Item.name).map fun name => (Form.memberPath folder name, name)) =
      Item.targets folder items := by
  rw [List.map_map]
  rfl

/-- A line that stores variables succeeds, and then they can be read. -/
theorem run_storeLine {session : Session} {log : Option String} {world : World}
    {made : Directory} {contents : Contents} {folder : String} {items : List Item}
    (can : session.CanStore log world.host.directory made contents) (nonempty : items ≠ [])
    (word : Word folder) (storable : ∀ item ∈ items, item.Storable folder world.scope)
    (distinct : (items.map Item.name).Nodup)
    (sized : session.archive.SizedStores (Item.members folder items) world.host) :
    ∃ stored after, Session.run (some session) log (storeLine (items.map Item.name) folder) world =
        (.ok stored, after) ∧ Form.Records items stored.result ∧
      ∀ item ∈ items, session.archive.read (Form.memberPath folder item.name)
        after.host.directory = .ok item.bytes := by
  have listing := Item.listing nonempty word storable
  have bound : ∀ name ∈ items.map Item.name, world.scope.contains name = true := by
    rw [List.forall_mem_map]
    intro item mem
    simp [Table.contains, (storable item mem).bound]
  have holds : session.archive.Holds world.host.directory [] := ⟨⟨contents, can.serves⟩, by simp⟩
  obtain ⟨records, host, done, recorded, held, changed⟩ :=
    Form.storeEach_ok holds can.saves storable distinct (by simp) sized
  obtain ⟨refiled, saved⟩ := changed.resolve_right nonempty
  let arguments := twoArguments "store" (",".intercalate (items.map Item.name)) "in" folder
  have performed : Action.store.perform session.archive arguments world =
      (.ok records, { world with host }) := by
    have plain : arguments.get? "with" = none := by simp [arguments, get?_twoArguments]
    rw [perform_storeLine listing bound, Item.targets_eq, Form.storeAll,
      Effect.bind_of_ok (converter_none plain true world)]
    exact done
  obtain ⟨stored, after, ran, same, reported⟩ := Session.run_of_perform (ofLine_storeLine listing)
    (ofArguments_storeLine _ _) performed (can.logs.refiled refiled)
  refine ⟨stored, after, ran, same ▸ recorded, fun item mem => ?_⟩
  have read := held.reads (Form.memberPath folder item.name, item.bytes) (by
    simpa [Item.members] using ⟨item, mem, rfl, rfl⟩)
  rw [Archive.read, saved.contents_of_extends reported.files]
  exact read

/-- A line that imports names below a folder succeeds if they can be read. -/
theorem run_importLine {session : Session} {log : Option String} {world : World} {folder : String}
    {items : List Item} (listing : Listing (items.map Item.name) folder)
    (logs : session.CanLog log world.host.directory)
    (reads : ∀ item ∈ items, session.archive.read (Form.memberPath folder item.name)
      world.host.directory = .ok item.bytes ∧ Codec.importDefault item.bytes = .ok item.back) :
    ∃ loaded after, Session.run (some session) log (importLine folder (items.map Item.name)) world =
        (.ok loaded, after) ∧ Form.Records items loaded.result ∧
      after.scope = Form.loadedScope items world.scope := by
  obtain ⟨records, done, recorded⟩ := Form.loadEach_ok reads
  let arguments := twoArguments "from" folder "import" (",".intercalate (items.map Item.name))
  have performed : Action.load.perform session.archive arguments world =
      (.ok records, { world with scope := Form.loadedScope items world.scope }) := by
    have plain : arguments.get? "with" = none := by simp [arguments, get?_twoArguments]
    rw [perform_importLine listing, Item.targets_eq, Form.loadAll,
      Effect.bind_of_ok (converter_none plain false world)]
    exact done
  obtain ⟨loaded, after, ran, same, reported⟩ := Session.run_of_perform (ofLine_importLine listing)
    (ofArguments_importLine _ _) performed logs
  exact ⟨loaded, after, ran, same ▸ recorded, reported.scope⟩

/-- What one session stores another one with the same password imports from the same file: each
variable is bound to what its bytes are read as, no other name changes, and the checksums of both
commands agree. -/
theorem import_undoes_store {session : Session} {log : Option String} {world : World}
    {made : Directory} {contents : Contents} {folder : String} {items : List Item}
    (can : session.CanStore log world.host.directory made contents) (nonempty : items ≠ [])
    (word : Word folder) (storable : ∀ item ∈ items, item.Storable folder world.scope)
    (distinct : (items.map Item.name).Nodup)
    (sized : session.archive.SizedStores (Item.members folder items) world.host) :
    ∃ stored after, Session.run (some session) log (storeLine (items.map Item.name) folder) world =
        (.ok stored, after) ∧ stored.result.map (·.subject) = items.map Item.name ∧
      ∀ (other : Session) (log' : Option String) (world' : World),
        other.archive.path = session.archive.path →
        other.archive.password = session.archive.password →
        world'.host.directory = after.host.directory → other.CanLog log' world'.host.directory →
        ∃ loaded last,
          Session.run (some other) log' (importLine folder (items.map Item.name)) world' =
            (.ok loaded, last) ∧
          (∀ item ∈ items, last.scope.get? item.name = some (.value item.back)) ∧
          (∀ name, name ∉ items.map Item.name → last.scope.get? name = world'.scope.get? name) ∧
          loaded.result.map (·.new) = stored.result.map (·.new) := by
  obtain ⟨stored, after, ran, recorded, reads⟩ :=
    run_storeLine can nonempty word storable distinct sized
  refine ⟨stored, after, ran, recorded.subjects, ?_⟩
  intro other log' world' path password same logs
  have readable : ∀ item ∈ items, other.archive.read (Form.memberPath folder item.name)
      world'.host.directory = .ok item.bytes ∧ Codec.importDefault item.bytes = .ok item.back := by
    intro item mem
    refine ⟨?_, (storable item mem).imported⟩
    rw [same, Archive.read_of_same path password]
    exact reads item mem
  obtain ⟨loaded, last, imported, recorded', scope⟩ :=
    run_importLine (Item.listing nonempty word storable) logs readable
  refine ⟨loaded, last, imported, fun item mem => ?_, fun name apart => ?_, ?_⟩
  · rw [scope]
    exact Form.get?_loadedScope_of_mem distinct mem _
  · rw [scope]
    exact Form.get?_loadedScope_of_not_mem apart _
  · rw [recorded.checksums, recorded'.checksums]

/-- A session without a password. -/
def openSession : Session :=
  ⟨.default, Archive.openArchive⟩

/-- The number one under a name. -/
def note : Item :=
  ⟨"x", .int 1, [49], .int 1⟩

def noteScope : Scope :=
  .ofList [("x", .value (.int 1))]

theorem note_storable : note.Storable "notes" noteScope where
  identifier := by decide +kernel
  bound := by simp [noteScope, note, Table.get?_ofList]
  exported := by decide +kernel
  imported := by cbv
  fits := by decide +kernel

theorem listing_note : Listing ["x"] "notes" :=
  ⟨by simp, List.forall_mem_singleton.mpr note_storable.identifier, by decide⟩

theorem openSession_canStore :
    openSession.CanStore none Archive.bareHost.directory Archive.bareHost.directory .empty where
  serves := ⟨rfl, rfl, fun locked => (by cases locked), fun _ mem => (by cases mem)⟩
  saves := ⟨rfl, .inl (by decide), ⟨["storage.vault"], by decide, by decide⟩,
    ⟨["storage.tmp"], by decide, by decide⟩⟩
  logs := fun path kept => by cases kept

/-- A table of one row that has a label alone, which is loaded as that label. -/
def label : Item :=
  ⟨"y", .frame ⟨[], [.int 2], [[]]⟩, [10, 50, 10], .int 2⟩

/-- What the manifest says of the table. -/
def labelEntry : MemberEntry :=
  ⟨3, "FF73E1AB", "AC01D162DF437D8A5943A8439E00C15B7294F28AC05E06421EE0BCD878F61079", false⟩

theorem describe_label : MemberEntry.describe label.bytes false = labelEntry := by
  decide +kernel

def pairScope : Scope :=
  .ofList [("x", .value note.value), ("y", .value label.value)]

theorem pair_storable : ∀ item ∈ [label, note], item.Storable "notes" pairScope := by
  refine List.forall_mem_cons.mpr ⟨?_, List.forall_mem_singleton.mpr ?_⟩
  · exact ⟨by decide +kernel, rfl, by cbv, by cbv, by decide +kernel⟩
  · exact ⟨note_storable.identifier, rfl, note_storable.exported, note_storable.imported,
      note_storable.fits⟩

theorem pair_sized :
    openSession.archive.SizedStores (Item.members "notes" [label, note]) Archive.bareHost := by
  have first : (Contents.empty.put "notes/y" (.describe label.bytes false) label.bytes).Brief := by
    rw [describe_label]
    exact ⟨by decide +kernel, by decide⟩
  have second : ((Contents.empty.put "notes/y" (.describe label.bytes false) label.bytes).put
      "notes/x" (.describe note.bytes false) note.bytes).Brief := by
    rw [describe_label, note, Archive.describe_byte]
    exact ⟨by decide +kernel, by decide⟩
  obtain ⟨host, stored, serves, short, refiled⟩ :=
    openSession_canStore.serves.put rfl openSession_canStore.saves (by decide) first
  obtain ⟨_, stored', -, short', -⟩ :=
    serves.put rfl (openSession_canStore.saves.ready.refiled refiled).canSave (by decide) second
  obtain rfl := congrArg Prod.snd stored
  obtain rfl := congrArg Prod.snd stored'
  have members : Item.members "notes" [label, note] =
      [("notes/y", label.bytes), ("notes/x", note.bytes)] := by decide +kernel
  rw [members]
  exact ⟨short, short', trivial⟩

/-- A scope in which one of the names stands for something else, and another name for a number. -/
def laterScope : Scope :=
  .ofList [("x", .value .null), ("z", .value (.int 3))]

/-- The table and the number are stored, and imported into another scope. -/
theorem import_undoes_store_note :
    ∃ stored after, Session.run (some openSession) none (storeLine ["y", "x"] "notes")
        ⟨Archive.bareHost, pairScope, []⟩ = (.ok stored, after) ∧
      stored.result.map (·.subject) = ["y", "x"] ∧
      ∃ loaded last, Session.run (some openSession) none (importLine "notes" ["y", "x"])
          { after with scope := laterScope } = (.ok loaded, last) ∧
        last.scope.get? "y" = some (.value (.int 2)) ∧
        last.scope.get? "x" = some (.value (.int 1)) ∧
        last.scope.get? "z" = some (.value (.int 3)) ∧
        loaded.result.map (·.new) = stored.result.map (·.new) := by
  obtain ⟨stored, after, ran, subjects, others⟩ :=
    @import_undoes_store openSession none ⟨Archive.bareHost, pairScope, []⟩ _ _ _ _
      openSession_canStore (by simp) (by decide) pair_storable (by decide) pair_sized
  obtain ⟨loaded, last, imported, bound, kept, sums⟩ :=
    others openSession none { after with scope := laterScope } rfl rfl rfl
      fun path kept => by cases kept
  have other : last.scope.get? "z" = laterScope.get? "z" := kept "z" (by decide)
  refine ⟨stored, after, ran, subjects, loaded, last, imported, bound label (by simp),
    bound note (by simp), other.trans ?_, sums⟩
  simp [laterScope, Table.get?_ofList]

/-- Sessions that read an empty vault: with a password and no iterations, with a folder in the place
of the file that is written first, and with a log in a folder that is not there. -/
def unfitSessions : List (Session × Option String × Host) :=
  [(⟨.default, ⟨"storage.vault", some "word", 0⟩⟩, none, Archive.bareHost),
    (openSession, none,
      { Archive.bareHost with directory := ⟨∅, [["storage.tmp"]]⟩ }),
    (openSession, some "logs/log", Archive.bareHost)]

/-- A vault that can be read is not enough for storing into it. -/
theorem storeLine_fails :
    note.Storable "notes" noteScope ∧ Word "notes" ∧
      ∀ unfit ∈ unfitSessions,
        (unfit.1.archive.checkIntegrity unfit.2.2.directory).isOk = true ∧
        (Session.run (some unfit.1) unfit.2.1 (storeLine ["x"] "notes")
          ⟨unfit.2.2, noteScope, []⟩).1.isOk = false :=
  ⟨note_storable, by decide, by decide +kernel⟩

end ObjectVault
