import ObjectVault.Proofs.Converters
import ObjectVault.Proofs.PlanEffects

namespace ObjectVault
open ObjectVault.Command ObjectVault.Container ObjectVault.Directory

/-- A variable on its way into the vault: its path, its name, the bytes of its value, and what was
known of the member that had the path. -/
structure Deposit where
  path : String
  name : String
  bytes : Bytes
  old : Option Checksums

def Deposit.target (deposit : Deposit) : String × String :=
  (deposit.path, deposit.name)

def Deposit.record (deposit : Deposit) : ResultRecord :=
  ⟨deposit.name, deposit.old, some (.ofBytes deposit.bytes)⟩

/-- What storing variables one after the other makes of the contents. -/
inductive StoredAll (password : Option String) : List Deposit → Contents → Contents → Prop
  | nil (contents : Contents) : StoredAll password [] contents contents
  | cons {deposit : Deposit} {deposits : List Deposit} {before between after : Contents}
    (first : Stored password deposit.path deposit.bytes before between)
    (old : deposit.old = (before.manifest.members.get? deposit.path).map (·.checksums))
    (rest : StoredAll password deposits between after) :
    StoredAll password (deposit :: deposits) before after

namespace StoredAll
variable {password : Option String} {deposits : List Deposit} {before after : Contents}

theorem forall_keys (h : StoredAll password deposits before after) {p : String → Prop}
    (each : ∀ deposit ∈ deposits, p deposit.path)
    (own : ∀ member ∈ before.payloads.keys, p member) :
    ∀ member ∈ after.payloads.keys, p member := by
  induction h with
  | nil => exact own
  | cons first old rest ih =>
    obtain ⟨one, others⟩ := List.forall_mem_cons.mp each
    exact ih others ((first.forall_keys p).mpr ⟨one, own⟩)

/-- Nothing is said anew of a member that is not stored, and its payload stays. -/
theorem other (h : StoredAll password deposits before after) {member : String}
    (apart : ∀ deposit ∈ deposits, deposit.path ≠ member) :
    after.manifest.members.get? member = before.manifest.members.get? member ∧
      after.payloads.get? member = before.payloads.get? member := by
  induction h with
  | nil => exact ⟨rfl, rfl⟩
  | cons first old rest ih =>
    obtain ⟨one, others⟩ := List.forall_mem_cons.mp apart
    obtain ⟨payload, payloads⟩ := first.payloads
    obtain ⟨entry, data⟩ := ih others
    rw [entry, data, first.members, payloads, Table.get?_insert, Table.get?_insert,
      if_neg one.symm, if_neg one.symm]
    exact ⟨rfl, rfl⟩

/-- A member that could be read and is not stored is read as before. -/
theorem plaintext_other (h : StoredAll password deposits before after) {member : String}
    {plaintext : Bytes} (apart : ∀ deposit ∈ deposits, deposit.path ≠ member)
    (read : before.plaintext (before.access password) member = .ok plaintext) :
    after.plaintext (after.access password) member = .ok plaintext := by
  induction h with
  | nil => exact read
  | cons first old rest ih =>
    obtain ⟨one, others⟩ := List.forall_mem_cons.mp apart
    refine ih others ?_
    rw [first.plaintext_other one.symm (by rw [read]; exact nofun), read]

/-- Every stored member is described by what was stored, and reads as that. -/
theorem own (h : StoredAll password deposits before after)
    (distinct : (deposits.map Deposit.path).Nodup) :
    ∀ deposit ∈ deposits,
      after.manifest.members.get? deposit.path =
        some (.describe deposit.bytes password.isSome) ∧
      after.plaintext (after.access password) deposit.path = .ok deposit.bytes := by
  induction h with
  | nil => intro _ mem; cases mem
  | @cons deposit deposits before between after first old rest ih =>
    rw [List.map_cons, List.nodup_cons] at distinct
    have apart : ∀ other ∈ deposits, other.path ≠ deposit.path := by
      intro other mem same
      exact distinct.1 (same ▸ List.mem_map_of_mem mem)
    intro stored mem
    rcases List.mem_cons.mp mem with rfl | mem
    · refine ⟨?_, rest.plaintext_other apart first.opens⟩
      rw [(rest.other apart).1, first.members, Table.get?_insert, if_pos rfl]
    · exact ih distinct.2 stored mem

/-- What is recorded of older members is what the contents said of them in the beginning. -/
theorem olds (h : StoredAll password deposits before after)
    (distinct : (deposits.map Deposit.path).Nodup) :
    ∀ deposit ∈ deposits,
      deposit.old = (before.manifest.members.get? deposit.path).map (·.checksums) := by
  induction h with
  | nil => intro _ mem; cases mem
  | @cons deposit deposits before between after first old rest ih =>
    rw [List.map_cons, List.nodup_cons] at distinct
    intro stored mem
    rcases List.mem_cons.mp mem with rfl | mem
    · exact old
    · have apart : stored.path ≠ deposit.path := by
        intro same
        exact distinct.1 (same ▸ List.mem_map_of_mem mem)
      rw [ih distinct.2 stored mem, first.members, Table.get?_insert, if_neg apart]

end StoredAll

/-- Of several targets with one path only the first one counts, and none with a path that is done
already. -/
def firstTargets (done : List String) : List (String × String) → List (String × String)
  | [] => []
  | (path, name) :: rest =>
    if done.contains path then firstTargets done rest
    else (path, name) :: firstTargets (path :: done) rest

theorem not_mem_firstTargets {done : List String} {path : String} (h : path ∈ done)
    (targets : List (String × String)) : path ∉ (firstTargets done targets).map Prod.fst := by
  induction targets generalizing done with
  | nil => simp [firstTargets]
  | cons target targets ih =>
    obtain ⟨first, name⟩ := target
    rw [firstTargets]
    split
    · exact ih h
    · next new =>
      rw [List.map_cons, List.mem_cons, not_or]
      refine ⟨?_, ih (List.mem_cons_of_mem _ h)⟩
      rintro rfl
      exact new (by simpa using h)

theorem nodup_firstTargets (done : List String) (targets : List (String × String)) :
    ((firstTargets done targets).map Prod.fst).Nodup := by
  induction targets generalizing done with
  | nil => simp [firstTargets]
  | cons target targets ih =>
    obtain ⟨first, name⟩ := target
    rw [firstTargets]
    split
    · exact ih done
    · rw [List.map_cons, List.nodup_cons]
      exact ⟨not_mem_firstTargets List.mem_cons_self targets, ih _⟩

theorem firstTargets_subset (done : List String) (targets : List (String × String)) :
    firstTargets done targets ⊆ targets := by
  induction targets generalizing done with
  | nil => simp [firstTargets]
  | cons target targets ih =>
    obtain ⟨first, name⟩ := target
    rw [firstTargets]
    split
    · exact fun _ mem => List.mem_cons_of_mem _ (ih done mem)
    · exact List.cons_subset_cons _ (ih _)

/-- A member on its way to a name: its path, the name, its bytes, and the value they are read as. -/
structure Arrival where
  path : String
  name : String
  bytes : Bytes
  value : Value

def Arrival.target (arrival : Arrival) : String × String :=
  (arrival.path, arrival.name)

def Arrival.record (arrival : Arrival) : ResultRecord :=
  ⟨arrival.name, none, some (.ofBytes arrival.bytes)⟩

/-- The scope after values arrived at their names, one after the other. -/
def arrivedScope (arrivals : List Arrival) (scope : Scope) : Scope :=
  arrivals.foldl (fun scope arrival => scope.insert arrival.name (.value arrival.value)) scope

/-- Where arrivals at one name agree, the name is bound to their value. -/
theorem get?_arrivedScope_of_agree {arrivals : List Arrival} {name : String} {value : Value}
    (agree : ∀ arrival ∈ arrivals, arrival.name = name → arrival.value = value) {scope : Scope}
    (there : name ∈ arrivals.map Arrival.name ∨ scope.get? name = some (.value value)) :
    (arrivedScope arrivals scope).get? name = some (.value value) := by
  induction arrivals generalizing scope with
  | nil =>
    rcases there with mem | bound
    · cases mem
    · exact bound
  | cons first arrivals ih =>
    obtain ⟨one, others⟩ := List.forall_mem_cons.mp agree
    rw [arrivedScope, List.foldl_cons]
    refine ih others ?_
    rw [Table.get?_insert]
    by_cases same : name = first.name
    · rw [if_pos same, one same.symm]
      exact .inr rfl
    · rw [if_neg same]
      exact there.imp_left fun mem => (List.mem_cons.mp mem).resolve_left same

namespace Command
variable {archive : Archive} {arguments : Arguments} {world after : World}
  {records : List ResultRecord}

namespace Form

/-- The converter that the arguments name, which is bound and converts the right way; none if they
name none. -/
inductive Converts (context : Context) (arguments : Arguments) (toBytes : Bool) :
    Option Converter → Prop
  | usual (absent : arguments.get? "with" = none) : Converts context arguments toBytes none
  | named {name : String} {c : Converter} (given : arguments.get? "with" = some name)
    (found : context.lookup "function" name = .ok (.converter c)) (way : c.exports = toBytes) :
    Converts context arguments toBytes (some c)

/-- The checksum that a hash is compared with. -/
def methodFor (arguments : Arguments) (expected : String) : Option HashMethod :=
  match arguments.get? "with" with
  | some name => HashMethod.ofName? name
  | none => HashMethod.ofDigits? expected.utf8ByteSize

/-- Nothing changes when a converter is looked up and found. -/
theorem converter_eq_ok {toBytes : Bool} {chosen : Option Converter}
    (h : converter arguments toBytes world = (.ok chosen, after)) :
    Converts world.context arguments toBytes chosen ∧ after = world := by
  rw [converter] at h
  cases given : arguments.get? "with" with
  | none =>
    rw [given] at h
    cases h
    exact ⟨.usual given, rfl⟩
  | some name =>
    rw [given] at h
    simp only at h
    obtain ⟨b, between, looked, chose⟩ := Effect.bind_eq_ok h
    obtain ⟨found, rfl⟩ := RunM.lookup_eq_ok looked
    cases b with
    | converter c =>
      simp only at chose
      split at chose
      · next way =>
        cases chose
        refine ⟨.named given found (by simpa using way), ?_⟩
        rw [Context.afterLookup_of_converter found]
        rfl
      · cases chose
    | _ => cases chose

theorem hashMethod_eq_ok {expected : String} {method : HashMethod}
    (h : hashMethod arguments expected world = (.ok method, after)) :
    methodFor arguments expected = some method ∧ after = world := by
  rw [hashMethod] at h
  rw [methodFor]
  cases given : arguments.get? "with" with
  | none =>
    cases found : HashMethod.ofDigits? expected.utf8ByteSize with
    | none =>
      simp only [given, found] at h
      cases h
    | some own =>
      simp only [given, found] at h
      cases h
      exact ⟨rfl, rfl⟩
  | some name =>
    cases found : HashMethod.ofName? name with
    | none =>
      simp only [given, found] at h
      cases h
    | some own =>
      simp only [given, found] at h
      cases h
      exact ⟨found, rfl⟩

/-- The variable's value as it was when it was stored. Nothing else had changed by then but what
views keep. -/
def Exported (exporter : Option Converter) (scope : Scope) (deposit : Deposit) : Prop :=
  ∃ (value : Value) (seen : World), scope.Looked seen.scope ∧
    (RunM.valueOf deposit.name seen).1 = .ok value ∧
    Codec.exportWith exporter value = .ok deposit.bytes

/-- What is known when variables were stored one after the other in an archive of which it is known
what it holds, if it can be read. -/
theorem storeEach_eq_ok {exporter : Option Converter} {seen : List String}
    {targets : List (String × String)} {before : Contents}
    (known : ∀ contents, archive.contents world.host.directory = .ok contents → contents = before)
    (short : ∀ front, front <+: targets →
      archive.Short (storeEach archive exporter seen front world).2.host.directory)
    (h : storeEach archive exporter seen targets world = (.ok records, after)) :
    ∃ deposits later, records = deposits.map Deposit.record ∧
      deposits.map Deposit.target = firstTargets seen targets ∧
      StoredAll archive.password deposits before later ∧
      (∀ deposit ∈ deposits, Exported exporter world.scope deposit) ∧
      (archive.Wrote after.host.directory later ∨ deposits = [] ∧ after.host = world.host) := by
  induction targets generalizing seen world before records with
  | nil =>
    cases h
    exact ⟨[], before, rfl, rfl, .nil before, nofun, .inr ⟨rfl, rfl⟩⟩
  | cons target targets ih =>
    obtain ⟨path, name⟩ := target
    have rest : ∀ front, front <+: targets → archive.Short
        (storeEach archive exporter seen ((path, name) :: front) world).2.host.directory :=
      fun front part => short _ (List.cons_prefix_cons.mpr ⟨rfl, part⟩)
    rcases storeEach_cons_eq_ok h with
      ⟨again, behind⟩ | ⟨new, value, between, record, stored, others, valued, storing, behind, rfl⟩
    · simp only [storeEach_again again] at rest
      rw [firstTargets, if_pos again]
      exact ih known rest behind
    · have looked := RunM.looks_valueOf name world
      rw [valued] at looked
      simp only [storeEach_new new valued storing] at rest
      have one := rest [] List.nil_prefix
      obtain ⟨host, ran, rfl⟩ := RunM.onStorage_eq_ok storing
      obtain ⟨before', bytes, entry, found', exported, written, rfl⟩ := Storage.store_eq_ok ran
      obtain ⟨own, between', found'', change, wrote, rfl⟩ := Archive.wrote_of_write one written
      rw [looked.host] at found' found''
      obtain rfl := known _ found'
      obtain rfl := known _ found''
      obtain ⟨deposits, later, rfl, targeted, change', exports, wrote'⟩ :=
        ih (fun _ => wrote.contents_eq) rest behind
      let deposit : Deposit :=
        ⟨path, name, bytes, (own.manifest.members.get? path).map (·.checksums)⟩
      refine ⟨deposit :: deposits, later, rfl, ?_,
        @StoredAll.cons _ deposit _ _ _ _ change rfl change', ?_, .inl ?_⟩
      · rw [firstTargets, new, List.map_cons, targeted]
        rfl
      · refine List.forall_mem_cons.mpr ⟨⟨value, world, .refl _, by rw [valued], exported⟩, ?_⟩
        intro other mem
        obtain ⟨value', seen', near, valued', exported'⟩ := exports other mem
        exact ⟨value', seen', looked.scope.trans near, valued', exported'⟩
      · rcases wrote' with wrote' | ⟨rfl, same⟩
        · exact wrote'
        · cases change'
          rw [same]
          exact wrote

theorem loadOne_eq_ok {importer : Option Converter} {path name : String} {record : ResultRecord}
    (h : loadOne archive importer (path, name) world = (.ok record, after)) :
    ∃ bytes value, archive.read path world.host.directory = .ok bytes ∧
      Codec.importWith importer bytes = .ok value ∧ record = ⟨name, none, some (.ofBytes bytes)⟩ ∧
      after = { world with scope := world.scope.insert name (.value value) } := by
  obtain ⟨loaded, between, looked, bound⟩ := Effect.bind_eq_ok h
  rw [RunM.onStorage_look] at looked
  obtain rfl := congrArg Prod.snd looked
  cases loading : Storage.load archive path importer world.host.directory with
  | error e =>
    rw [loading] at looked
    cases looked
  | ok loaded' =>
    rw [loading] at looked
    cases looked
    obtain ⟨bytes, read, imported, sums⟩ := Storage.load_eq_ok loading
    cases bound
    exact ⟨bytes, _, read, imported, by rw [sums], rfl⟩

/-- What is known when members were imported one after the other. -/
theorem loadEach_eq_ok {importer : Option Converter} {targets : List (String × String)}
    (h : targets.mapM (loadOne archive importer) world = (.ok records, after)) :
    ∃ arrivals : List Arrival, records = arrivals.map Arrival.record ∧
      arrivals.map Arrival.target = targets ∧
      (∀ arrival ∈ arrivals, archive.read arrival.path world.host.directory = .ok arrival.bytes ∧
        Codec.importWith importer arrival.bytes = .ok arrival.value) ∧
      after = { world with scope := arrivedScope arrivals world.scope } := by
  induction targets generalizing world records with
  | nil =>
    cases h
    exact ⟨[], rfl, rfl, nofun, rfl⟩
  | cons target targets ih =>
    obtain ⟨path, name⟩ := target
    rw [List.mapM_cons] at h
    obtain ⟨record, between, first, h⟩ := Effect.bind_eq_ok h
    obtain ⟨others, last, behind, done⟩ := Effect.bind_eq_ok h
    cases done
    obtain ⟨bytes, value, read, imported, rfl, rfl⟩ := loadOne_eq_ok first
    obtain ⟨arrivals, rfl, rfl, reads, rfl⟩ := ih behind
    exact ⟨⟨path, name, bytes, value⟩ :: arrivals, rfl, rfl,
      List.forall_mem_cons.mpr ⟨⟨read, imported⟩, reads⟩, rfl⟩

/-- What is known when the members of a plan were imported. -/
theorem loadAll_eq_ok {targets : List (String × String)}
    (h : loadAll archive arguments targets world = (.ok records, after)) :
    ∃ importer, ∃ arrivals : List Arrival, Converts world.context arguments false importer ∧
      records = arrivals.map Arrival.record ∧ arrivals.map Arrival.target = targets ∧
      (∀ arrival ∈ arrivals, archive.read arrival.path world.host.directory = .ok arrival.bytes ∧
        Codec.importWith importer arrival.bytes = .ok arrival.value) ∧
      after = { world with scope := arrivedScope arrivals world.scope } := by
  obtain ⟨importer, between, found, loading⟩ := Effect.bind_eq_ok h
  obtain ⟨converts, rfl⟩ := converter_eq_ok found
  obtain ⟨arrivals, told⟩ := loadEach_eq_ok loading
  exact ⟨importer, arrivals, converts, told⟩

/-- A variable that is bound to a value is stored. -/
theorem storeEach_single {path name : String} {value : Value} {bytes : Bytes} {contents : Contents}
    {entry : MemberEntry} {host : Host}
    (found : archive.contents world.host.directory = .ok contents)
    (valued : RunM.valueOf name world = (.ok value, world))
    (exported : Codec.exportDefault value = .ok bytes)
    (stored : archive.write path bytes world.host = (.ok entry, host)) :
    ∃ old, storeEach archive none [] [(path, name)] world =
      (.ok [⟨name, old, some entry.checksums⟩], { world with host }) := by
  obtain ⟨old, done⟩ := Storage.store_ok name found exported stored
  refine ⟨old, ?_⟩
  rw [storeEach, if_neg (by simp), Effect.bind_of_ok valued,
    Effect.bind_of_ok (RunM.onStorage_of_ok done)]
  rfl

theorem remove_ok {path : String} {entry : MemberEntry} {host : Host}
    (starless : '*' ∉ path.toList)
    (deleted : archive.delete path world.host = (.ok entry, host)) :
    remove archive path world =
      (.ok [⟨path, some entry.checksums, none⟩], { world with host }) := by
  have removed : Storage.delete archive path world.host =
      (.ok ⟨path, some entry.checksums, none⟩, host) :=
    Effect.bind_of_ok (HostM.mapError_of_ok _ deleted)
  rw [remove, if_neg (by simp [starless])]
  exact Effect.bind_of_ok (RunM.onStorage_of_ok removed)

theorem remove_eq_ok {path : String} (h : remove archive path world = (.ok records, after)) :
    ∃ entry host, archive.delete path world.host = (.ok entry, host) ∧
      records = [⟨path, some entry.checksums, none⟩] ∧ after = { world with host } := by
  simp only [remove] at h
  split at h
  · cases h
  · obtain ⟨record, between, deleting, done⟩ := Effect.bind_eq_ok h
    cases done
    obtain ⟨host, ran, rfl⟩ := RunM.onStorage_eq_ok deleting
    obtain ⟨entry, deleted, rfl⟩ := Storage.delete_eq_ok ran
    exact ⟨entry, host, deleted, rfl, rfl⟩

theorem digest_eq_ok {path digest : String} {method : HashMethod} {d : Directory}
    (h : Storage.digest archive path method d = .ok digest) :
    ∃ bytes, archive.read path d = .ok bytes ∧ digest = method.digest bytes := by
  rw [Storage.digest] at h
  cases read : archive.read path d with
  | error e =>
    rw [read] at h
    cases h
  | ok bytes =>
    rw [read] at h
    cases h
    exact ⟨bytes, rfl, rfl⟩

theorem compareHash_eq_ok {path : String}
    (h : compareHash archive arguments path world = (.ok records, after)) :
    ∃ expected method bytes, arguments.get? "is" = some expected ∧
      methodFor arguments expected = some method ∧
      archive.read path world.host.directory = .ok bytes ∧
      (method.digest bytes).toLower = expected.toLower ∧
      records = [⟨path, some (.single method (method.digest bytes)), none⟩] ∧ after = world := by
  obtain ⟨expected, between, given, hashing⟩ := Effect.bind_eq_ok h
  have hash := need_eq_ok given
  obtain rfl := congrArg Prod.snd ((need_ok hash).symm.trans given)
  obtain ⟨method, between, chosen, looking⟩ := Effect.bind_eq_ok hashing
  obtain ⟨named, rfl⟩ := hashMethod_eq_ok chosen
  obtain ⟨digest, looked, looked', comparing⟩ := Effect.bind_eq_ok looking
  rw [RunM.onStorage_look] at looked'
  obtain rfl := congrArg Prod.snd looked'
  cases calculated : Storage.digest archive path method between.host.directory with
  | error e =>
    rw [calculated] at looked'
    cases looked'
  | ok _ =>
    rw [calculated] at looked'
    cases looked'
    obtain ⟨bytes, read, rfl⟩ := digest_eq_ok calculated
    split at comparing
    · cases comparing
    · next same =>
      cases comparing
      exact ⟨expected, method, bytes, hash, named, read, Decidable.not_not.mp same, rfl, rfl⟩

/-- What is known when the variables of a plan were stored. -/
structure Deposited (archive : Archive) (arguments : Arguments) (targets : List (String × String))
    (world after : World) (records : List ResultRecord) (deposits : List Deposit)
    (before later : Contents) : Prop where
  found : archive.contents world.host.directory = .ok before
  records : records = deposits.map Deposit.record
  targets : deposits.map Deposit.target = firstTargets [] targets
  change : StoredAll archive.password deposits before later
  exports : ∃ exporter, Converts world.context arguments true exporter ∧
    ∀ deposit ∈ deposits, Exported exporter world.scope deposit
  wrote : archive.Wrote after.host.directory later

section Deposited
variable {targets : List (String × String)} {deposits : List Deposit} {before later : Contents}

theorem Deposited.paths
    (h : Deposited archive arguments targets world after records deposits before later) :
    deposits.map Deposit.path = (firstTargets [] targets).map Prod.fst := by
  rw [← h.targets, List.map_map]
  rfl

theorem Deposited.distinct
    (h : Deposited archive arguments targets world after records deposits before later) :
    (deposits.map Deposit.path).Nodup :=
  h.paths ▸ nodup_firstTargets [] targets

theorem Deposited.target_mem
    (h : Deposited archive arguments targets world after records deposits before later) :
    ∀ deposit ∈ deposits, deposit.target ∈ targets := by
  intro deposit mem
  refine firstTargets_subset [] targets ?_
  rw [← h.targets]
  exact List.mem_map_of_mem mem

/-- Storing a variable takes an archive that can be read. -/
theorem contents_of_storeEach {exporter : Option Converter} {target : String × String}
    (h : storeEach archive exporter [] (target :: targets) world = (.ok records, after)) :
    ∃ contents, archive.contents world.host.directory = .ok contents := by
  obtain ⟨path, name⟩ := target
  have looked := RunM.looks_valueOf name world
  rw [storeEach, if_neg (by simp)] at h
  obtain ⟨value, between, valued, h⟩ := Effect.bind_eq_ok h
  rw [valued] at looked
  obtain ⟨record, stored, storing, -⟩ := Effect.bind_eq_ok h
  obtain ⟨host, ran, -⟩ := RunM.onStorage_eq_ok storing
  obtain ⟨before, -, -, found, -⟩ := Storage.store_eq_ok ran
  exact ⟨before, looked.host ▸ found⟩

theorem deposited_of_run (nonempty : targets ≠ [])
    (short : (Plan.store targets).Short archive arguments world)
    (ran : (Plan.store targets).run archive arguments world = (.ok records, after)) :
    ∃ deposits before later,
      Deposited archive arguments targets world after records deposits before later := by
  rw [Plan.store_run] at ran
  simp only [Plan.Short, Plan.store_run, Effect.bind_apply] at short
  obtain ⟨exporter, between, found, storing⟩ := Effect.bind_eq_ok ran
  rw [found] at short
  obtain ⟨converts, rfl⟩ := converter_eq_ok found
  obtain ⟨first, others, rfl⟩ := List.exists_cons_of_ne_nil nonempty
  obtain ⟨before, readable⟩ := contents_of_storeEach storing
  obtain ⟨deposits, later, same, targeted, change, exports, wrote⟩ :=
    storeEach_eq_ok (fun _ found => Except.ok.inj (found.symm.trans readable)) short storing
  have stored : deposits ≠ [] := by
    rintro rfl
    rw [firstTargets, if_neg (by simp)] at targeted
    cases targeted
  exact ⟨deposits, before, later, readable, same, targeted, change, ⟨exporter, converts, exports⟩,
    wrote.resolve_right fun empty => stored empty.1⟩

end Deposited
end Form
end Command
end ObjectVault
