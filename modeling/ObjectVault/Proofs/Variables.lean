import ObjectVault.Proofs.Commands
import ObjectVault.Proofs.Serving

namespace ObjectVault
open ObjectVault.Command ObjectVault.Container

/-- A variable on its way through the vault: its value, the bytes that are stored, and the value
that these are loaded as. -/
structure Item where
  name : String
  value : Value
  bytes : Bytes
  back : Value

/-- The variable is bound, and its value can be written below the folder and loaded. -/
structure Item.Storable (item : Item) (folder : String) (scope : Scope) : Prop where
  identifier : isIdentifier item.name = true
  bound : scope.get? item.name = some (.value item.value)
  exported : Codec.exportDefault item.value = .ok item.bytes
  imported : Codec.importDefault item.bytes = .ok item.back
  fits : FittingPath (Form.memberPath folder item.name)

/-- The paths of variables below a folder, with what is stored under them. -/
def Item.members (folder : String) (items : List Item) : List (String × Bytes) :=
  items.map fun item => (Form.memberPath folder item.name, item.bytes)

/-- The paths of variables below a folder, with their names. -/
def Item.targets (folder : String) (items : List Item) : List (String × String) :=
  items.map fun item => (Form.memberPath folder item.name, item.name)

theorem memberPath_inj {folder name other : String}
    (h : Form.memberPath folder name = Form.memberPath folder other) : name = other := by
  apply String.toList_inj.mp
  simpa [Form.memberPath, String.toList_append] using congrArg String.toList h

namespace Archive

/-- None of the files that stores write is too long for a 64-bit size. -/
def SizedStores (archive : Archive) : List (String × Bytes) → Host → Prop
  | [], _ => True
  | (member, plaintext) :: rest, host =>
    (∀ written, (archive.write member plaintext host).2.directory.read archive.path = .ok written →
      written.length < maxContent) ∧
    archive.SizedStores rest (archive.write member plaintext host).2

/-- The archive serves, and some members hold some bytes. -/
structure Holds (archive : Archive) (d : Directory) (held : List (String × Bytes)) : Prop where
  serves : ∃ contents, archive.Serves d contents
  reads : ∀ member ∈ held, archive.read member.1 d = .ok member.2

/-- What is read depends on the file and on the password. -/
theorem read_of_same {archive other : Archive} (path : other.path = archive.path)
    (password : other.password = archive.password) {member : String} {d : Directory} :
    other.read member d = archive.read member d := by
  rw [Archive.read, Archive.read, Archive.contents, Archive.contents, path, password]

/-- Storing a new member keeps those that are held. -/
theorem Holds.write {archive : Archive} {host : Host} {made : Directory}
    {held : List (String × Bytes)} (h : archive.Holds host.directory held)
    (can : archive.CanSave host.directory made) {member : String} {plaintext : Bytes}
    (fits : FittingPath member) (fresh : member ∉ held.map Prod.fst)
    (sized : ∀ written, (archive.write member plaintext host).2.directory.read archive.path =
      .ok written → written.length < maxContent) :
    ∃ host', archive.write member plaintext host =
        (.ok (.describe plaintext archive.password.isSome), host') ∧
      archive.Holds host'.directory ((member, plaintext) :: held) ∧
      Directory.Refiled made host'.directory ∧ archive.Written host'.directory := by
  obtain ⟨before, serves⟩ := h.serves
  obtain ⟨after, host', stored, change, serves', saved⟩ := serves.write can fits sized
  refine ⟨host', stored, ⟨⟨after, serves'⟩, ?_⟩, saved⟩
  intro other mem
  rw [read_eq serves'.found]
  rcases List.mem_cons.mp mem with rfl | mem
  · exact change.opens
  · have apart : other.1 ≠ member := fun same => fresh (same ▸ List.mem_map_of_mem mem)
    have old := h.reads other mem
    rw [read_eq serves.found] at old
    exact (change.plaintext_other apart (by rw [old]; exact nofun)).trans old

end Archive

namespace Storage

theorem store_ok {archive : Archive} {path : String} {value : Value} {bytes : Bytes}
    {contents : Contents} {entry : MemberEntry} {host host' : Host} (subject : String)
    (found : archive.contents host.directory = .ok contents)
    (exported : Codec.exportDefault value = .ok bytes)
    (stored : archive.write path bytes host = (.ok entry, host')) :
    ∃ old, store archive path value none subject host =
      (.ok ⟨subject, old, some entry.checksums⟩, host') := by
  refine ⟨(contents.manifest.members.get? path).map (·.checksums), ?_⟩
  have looked : checksumsAt archive path host.directory =
      .ok ((contents.manifest.members.get? path).map (·.checksums)) := by
    rw [checksumsAt, Archive.manifest, found]
    rfl
  have converted : (Codec.exportWith none value).mapError StorageError.codec = .ok bytes := by
    simp only [Codec.exportWith, exported]
    rfl
  rw [store, Effect.bind_of_ok (HostM.look_of_ok looked),
    Effect.bind_of_ok (HostM.look_of_ok converted),
    Effect.bind_of_ok (HostM.mapError_of_ok StorageError.archive stored)]
  rfl

theorem load_ok {archive : Archive} {path : String} {bytes : Bytes} {value : Value} {d : Directory}
    (read : archive.read path d = .ok bytes) (imported : Codec.importDefault bytes = .ok value) :
    load archive path none d = .ok ⟨value, .ofBytes bytes⟩ := by
  rw [load, read]
  simp only [Codec.importWith, Except.mapError, bind, Except.bind, imported]
  rfl

end Storage

namespace Command

theorem RunM.onStorage_of_ok {α : Type} {run : HostM StorageError α} {a : α} {world : World}
    {host : Host} (h : run world.host = (.ok a, host)) :
    RunM.onStorage run world = (.ok a, { world with host }) := by
  simp only [onStorage, onHost, HostM.mapError_of_ok _ h]

theorem RunM.valueOf_of_dotted {name : String} {value : Value} {world : World}
    (dotted : isDottedIdentifier name = true)
    (bound : world.scope.get? name = some (.value value)) :
    RunM.valueOf name world = (.ok value, world) := by
  have noted : RunM.noteLookups [name] world = (.ok (), world) := by
    apply RunM.noteLookups_of_bound
    simp [Table.contains, bound]
  have looked : RunM.lookup "variable" name world = (.ok (.value value), world) := by
    rw [lookup, Effect.bind_of_ok (Effect.get_apply world), Effect.bind_of_ok noted,
      lookup_of_dotted dotted bound]
    rfl
  rw [valueOf, Effect.bind_of_ok looked]
  rfl

theorem RunM.valueOf_ok {name : String} {value : Value} {world : World}
    (identifier : isIdentifier name = true)
    (bound : world.scope.get? name = some (.value value)) :
    RunM.valueOf name world = (.ok value, world) :=
  RunM.valueOf_of_dotted (isDottedIdentifier_of_isIdentifier identifier) bound

namespace Form

/-- What is stored of a variable: its name and the checksums of its bytes. -/
def Records (items : List Item) (records : List ResultRecord) : Prop :=
  records.map (fun record => (record.subject, record.new)) =
    items.map fun item => (item.name, some (Checksums.ofBytes item.bytes))

theorem Records.subjects {items : List Item} {records : List ResultRecord}
    (h : Records items records) : records.map (·.subject) = items.map Item.name := by
  have names := congrArg (List.map Prod.fst) h
  simpa only [List.map_map, Function.comp_def] using names

theorem Records.checksums {items : List Item} {records : List ResultRecord}
    (h : Records items records) :
    records.map (·.new) = items.map fun item => some (Checksums.ofBytes item.bytes) := by
  have sums := congrArg (List.map Prod.snd) h
  simpa only [List.map_map, Function.comp_def] using sums

/-- One variable is stored, and the command goes on with the others. The paths that are held already
are those that it is done with. -/
theorem storeEach_cons {archive : Archive} {folder : String} {item : Item} {world : World}
    {made : Directory} {held : List (String × Bytes)}
    (holds : archive.Holds world.host.directory held)
    (can : archive.CanSave world.host.directory made)
    (storable : item.Storable folder world.scope)
    (fresh : memberPath folder item.name ∉ held.map Prod.fst)
    (sized : ∀ written, (archive.write (memberPath folder item.name) item.bytes
      world.host).2.directory.read archive.path = .ok written → written.length < maxContent) :
    ∃ old host, (archive.write (memberPath folder item.name) item.bytes world.host).2 = host ∧
      archive.Holds host.directory ((memberPath folder item.name, item.bytes) :: held) ∧
      Directory.Refiled made host.directory ∧ archive.Written host.directory ∧
      ∀ targets, storeEach archive none (held.map Prod.fst)
          ((memberPath folder item.name, item.name) :: targets) world =
        (storeEach archive none (memberPath folder item.name :: held.map Prod.fst) targets >>=
          fun records => pure (⟨item.name, old, some (.ofBytes item.bytes)⟩ :: records))
          { world with host } := by
  obtain ⟨contents, serves⟩ := holds.serves
  obtain ⟨host, stored, holds', changed, saved⟩ := holds.write can storable.fits fresh sized
  obtain ⟨old, done⟩ := Storage.store_ok item.name serves.found storable.exported stored
  refine ⟨old, host, by rw [stored], holds', changed, saved, fun targets => ?_⟩
  have value := RunM.valueOf_ok storable.identifier storable.bound
  have todo : (held.map Prod.fst).contains (memberPath folder item.name) = false := by
    simpa using fresh
  rw [storeEach, todo]
  simp only [Bool.false_eq_true, ↓reduceIte]
  rw [Effect.bind_of_ok value, Effect.bind_of_ok (RunM.onStorage_of_ok done)]
  rfl

/-- Variables are stored one after the other, and all of them are held in the end. -/
theorem storeEach_ok {archive : Archive} {folder : String} {items : List Item} {world : World}
    {made : Directory} {held : List (String × Bytes)}
    (holds : archive.Holds world.host.directory held)
    (can : archive.CanSave world.host.directory made)
    (storable : ∀ item ∈ items, item.Storable folder world.scope)
    (distinct : (items.map Item.name).Nodup)
    (fresh : ∀ item ∈ items, memberPath folder item.name ∉ held.map Prod.fst)
    (sized : archive.SizedStores (Item.members folder items) world.host) :
    ∃ records host', storeEach archive none (held.map Prod.fst) (Item.targets folder items) world =
        (.ok records, { world with host := host' }) ∧ Records items records ∧
      archive.Holds host'.directory ((Item.members folder items).reverse ++ held) ∧
      (Directory.Refiled made host'.directory ∧ archive.Written host'.directory ∨ items = []) := by
  induction items generalizing world made held with
  | nil => exact ⟨[], world.host, rfl, rfl, holds, .inr rfl⟩
  | cons item items ih =>
    obtain ⟨named, distinct⟩ := List.nodup_cons.mp distinct
    obtain ⟨first, others⟩ := List.forall_mem_cons.mp storable
    obtain ⟨new, news⟩ := List.forall_mem_cons.mp fresh
    obtain ⟨short, shorts⟩ := sized
    obtain ⟨old, host, rfl, holds', changed, saved, step⟩ :=
      storeEach_cons holds can first new short
    have later : ∀ other ∈ items, memberPath folder other.name ∉
        ((memberPath folder item.name, item.bytes) :: held).map Prod.fst := by
      intro other mem again
      rcases List.mem_cons.mp again with same | old
      · exact named (memberPath_inj same ▸ List.mem_map_of_mem mem)
      · exact news other mem old
    obtain ⟨records, host', rest, recorded, holds'', further⟩ :=
      @ih { world with host := _ } _ _ holds' (can.ready.refiled changed).canSave others distinct
        later shorts
    refine ⟨⟨item.name, old, some (.ofBytes item.bytes)⟩ :: records, host', ?_, ?_, ?_, .inl ?_⟩
    · exact (step _).trans (Effect.bind_of_ok rest)
    · rw [Records, List.map_cons, List.map_cons, recorded]
    · simpa [Item.members] using holds''
    · rcases further with ⟨more, saved'⟩ | rfl
      · exact ⟨changed.trans more, saved'⟩
      · cases rest
        exact ⟨changed, saved⟩

/-- The scope after the values of variables were loaded. -/
def loadedScope (items : List Item) (scope : Scope) : Scope :=
  items.foldl (fun scope item => scope.insert item.name (.value item.back)) scope

theorem get?_loadedScope_of_not_mem {items : List Item} {name : String}
    (h : name ∉ items.map Item.name) (scope : Scope) :
    (loadedScope items scope).get? name = scope.get? name := by
  induction items generalizing scope with
  | nil => rfl
  | cons item items ih =>
    rw [List.map_cons, List.mem_cons, not_or] at h
    rw [loadedScope, List.foldl_cons]
    exact (ih h.2 _).trans (by rw [Table.get?_insert, if_neg h.1])

theorem get?_loadedScope_of_mem {items : List Item} (distinct : (items.map Item.name).Nodup)
    {item : Item} (h : item ∈ items) (scope : Scope) :
    (loadedScope items scope).get? item.name = some (.value item.back) := by
  induction items generalizing scope with
  | nil => cases h
  | cons first items ih =>
    obtain ⟨named, distinct⟩ := List.nodup_cons.mp distinct
    rw [loadedScope, List.foldl_cons]
    rcases List.mem_cons.mp h with rfl | mem
    · exact (get?_loadedScope_of_not_mem named _).trans (by simp [Table.get?_insert])
    · exact ih distinct mem _

/-- A member that can be read is loaded under its name. -/
theorem loadOne_of_read {archive : Archive} {folder : String} {item : Item} {world : World}
    (read : archive.read (memberPath folder item.name) world.host.directory = .ok item.bytes)
    (imported : Codec.importDefault item.bytes = .ok item.back) :
    loadOne archive none (memberPath folder item.name, item.name) world =
      (.ok ⟨item.name, none, some (.ofBytes item.bytes)⟩,
        { world with scope := world.scope.insert item.name (.value item.back) }) := by
  have loaded := HostM.look_of_ok (Storage.load_ok read imported)
  simp only [loadOne]
  rw [Effect.bind_of_ok (RunM.onStorage_of_ok loaded)]
  rfl

/-- Members that can be read are loaded one after the other, each under its name. -/
theorem loadEach_ok {archive : Archive} {folder : String} {items : List Item} {world : World}
    (h : ∀ item ∈ items,
      archive.read (memberPath folder item.name) world.host.directory = .ok item.bytes ∧
        Codec.importDefault item.bytes = .ok item.back) :
    ∃ records, (Item.targets folder items).mapM (loadOne archive none) world =
        (.ok records, { world with scope := loadedScope items world.scope }) ∧
      Records items records := by
  induction items generalizing world with
  | nil => exact ⟨[], rfl, rfl⟩
  | cons item items ih =>
    obtain ⟨⟨read, imported⟩, others⟩ := List.forall_mem_cons.mp h
    let bound : World := { world with scope := world.scope.insert item.name (.value item.back) }
    obtain ⟨records, rest, recorded⟩ := @ih bound others
    refine ⟨⟨item.name, none, some (.ofBytes item.bytes)⟩ :: records, ?_, ?_⟩
    · rw [Item.targets, List.map_cons, List.mapM_cons,
        Effect.bind_of_ok (loadOne_of_read read imported)]
      exact Effect.bind_of_ok rest
    · rw [Records, List.map_cons, List.map_cons, recorded]

end Form
end Command
end ObjectVault
