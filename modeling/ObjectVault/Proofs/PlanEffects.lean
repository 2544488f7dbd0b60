import ObjectVault.Proofs.OwnFile
import Mathlib.Data.List.Infix

namespace ObjectVault
open ObjectVault.Command ObjectVault.Container ObjectVault.Directory

/-- Rewording a result changes nothing else. -/
theorem Effect.bind_pure_snd {σ ε α β : Type} (run : Effect σ ε α) (f : α → β) (s : σ) :
    ((run >>= fun a => pure (f a)) s).2 = (run s).2 := by
  rw [bind_apply]
  cases run s with
  | mk result s' => cases result <;> rfl

theorem HostM.mapError_snd {ε δ α : Type} (f : δ → ε) (run : HostM δ α) (host : Host) :
    (mapError f run host).2 = (run host).2 := by
  rw [mapError]
  cases run host with
  | mk result host' => cases result <;> rfl

namespace Storage
variable {archive : Archive} {path subject : String} {value : Value}
  {exporter importer : Option Converter} {record : ResultRecord} {host host' : Host}

/-- Storing a value leaves the files as they are, or as storing its bytes leaves them. -/
theorem store_directory (archive : Archive) (path : String) (value : Value)
    (exporter : Option Converter) (subject : String) (host : Host) :
    (store archive path value exporter subject host).2.directory = host.directory ∨
      ∃ bytes, (store archive path value exporter subject host).2 =
        (archive.write path bytes host).2 := by
  rw [store, Effect.bind_apply, HostM.look_apply]
  cases checksumsAt archive path host.directory with
  | error e => exact .inl rfl
  | ok old =>
    simp only
    rw [Effect.bind_apply, HostM.look_apply]
    cases (Codec.exportWith exporter value).mapError StorageError.codec with
    | error e => exact .inl rfl
    | ok bytes =>
      right
      refine ⟨bytes, ?_⟩
      simp only [Effect.bind_pure_snd, HostM.mapError_snd]

/-- What a value was stored as, and what of the older member the record holds. -/
theorem store_eq_ok (h : store archive path value exporter subject host = (.ok record, host')) :
    ∃ before bytes entry, archive.contents host.directory = .ok before ∧
      Codec.exportWith exporter value = .ok bytes ∧
      archive.write path bytes host = (.ok entry, host') ∧
      record = ⟨subject, (before.manifest.members.get? path).map (·.checksums),
        some entry.checksums⟩ := by
  obtain ⟨old, start, looked, converting⟩ := Effect.bind_eq_ok h
  obtain ⟨looked, rfl⟩ := HostM.look_eq looked
  obtain ⟨bytes, start, converted, storing⟩ := Effect.bind_eq_ok converting
  obtain ⟨converted, rfl⟩ := HostM.look_eq converted
  obtain ⟨entry, stored, written, done⟩ := Effect.bind_eq_ok storing
  cases done
  rw [checksumsAt, Archive.manifest] at looked
  cases found : archive.contents start.directory with
  | error e =>
    rw [found] at looked
    cases looked
  | ok before =>
    rw [found] at looked
    cases looked
    cases exported : Codec.exportWith exporter value with
    | error e =>
      rw [exported] at converted
      cases converted
    | ok exported' =>
      rw [exported] at converted
      cases converted
      exact ⟨before, bytes, entry, rfl, rfl, HostM.mapError_eq_ok written, rfl⟩

theorem delete_eq_ok (h : delete archive path host = (.ok record, host')) :
    ∃ entry, archive.delete path host = (.ok entry, host') ∧
      record = ⟨path, some entry.checksums, none⟩ := by
  obtain ⟨entry, deleted, ran, done⟩ := Effect.bind_eq_ok h
  cases done
  exact ⟨entry, HostM.mapError_eq_ok ran, rfl⟩

theorem load_eq_ok {loaded : Loaded} {d : Directory}
    (h : load archive path importer d = .ok loaded) :
    ∃ bytes, archive.read path d = .ok bytes ∧
      Codec.importWith importer bytes = .ok loaded.value ∧ loaded.checksums = .ofBytes bytes := by
  rw [load] at h
  cases read : archive.read path d with
  | error e =>
    rw [read] at h
    cases h
  | ok bytes =>
    rw [read] at h
    cases imported : Codec.importWith importer bytes with
    | error e =>
      simp only [bind, Except.bind, Except.mapError, imported] at h
      cases h
    | ok value =>
      simp only [bind, Except.bind, Except.mapError, imported] at h
      cases h
      exact ⟨bytes, rfl, imported, rfl⟩

end Storage

namespace Command.Plan
variable {archive : Archive} {arguments : Arguments} {world after : World}

/-- None of the files that a plan writes is too long for a 64-bit size. A store writes one for each
of its variables. -/
def Short (archive : Archive) (arguments : Arguments) (world : World) : Plan → Prop
  | store targets => ∀ front, front <+: targets →
      archive.Short ((store front).run archive arguments world).2.host.directory
  | delete path => archive.Short ((delete path).run archive arguments world).2.host.directory
  | load _ | view _ _ | verify _ => True

instance (archive : Archive) (arguments : Arguments) (world : World) (plan : Plan) :
    Decidable (plan.Short archive arguments world) :=
  match plan with
  | store targets => decidable_of_iff (∀ front ∈ targets.inits,
      archive.Short ((store front).run archive arguments world).2.host.directory) <| by
        simp only [List.mem_inits, Short]
  | delete path => inferInstanceAs
      (Decidable (archive.Short ((delete path).run archive arguments world).2.host.directory))
  | load _ | view _ _ | verify _ => .isTrue trivial

/-- A property of the files that outlasts a store under one of some paths and a deletion of one of
others, if these leave no file that is too long. -/
structure Outlasts (archive : Archive) (plan : Plan) (P : Directory → Prop) : Prop where
  store : ∀ targets, plan = .store targets → ∀ target ∈ targets, ∀ bytes host, P host.directory →
    archive.Short (archive.write target.1 bytes host).2.directory →
      P (archive.write target.1 bytes host).2.directory
  delete : ∀ path, plan = .delete path → ∀ host, P host.directory →
    archive.Short (archive.delete path host).2.directory → P (archive.delete path host).2.directory

end Command.Plan

namespace Command.Form
variable {archive : Archive} {arguments : Arguments} {exporter : Option Converter}
  {seen : List String} {targets : List (String × String)} {world : World} {P : Directory → Prop}

/-- Storing one variable more goes on behind it. -/
theorem storeEach_new {path name : String} {value : Value} {record : ResultRecord}
    {between stored : World} (new : seen.contains path = false)
    (valued : RunM.valueOf name world = (.ok value, between))
    (storing : RunM.onStorage (Storage.store archive path value exporter name) between =
      (.ok record, stored)) (rest : List (String × String)) :
    (storeEach archive exporter seen ((path, name) :: rest) world).2 =
      (storeEach archive exporter (path :: seen) rest stored).2 := by
  rw [storeEach, new]
  simp only [Bool.false_eq_true, ↓reduceIte]
  rw [Effect.bind_of_ok valued, Effect.bind_of_ok storing, Effect.bind_pure_snd]

/-- What outlasts the store of its bytes outlasts the store of a variable, however it ends. -/
theorem onStorage_store_outlasts {path name : String} {value : Value} {between stored : World}
    {result : Except CommandError ResultRecord}
    (each : ∀ bytes host, P host.directory →
      archive.Short (archive.write path bytes host).2.directory →
        P (archive.write path bytes host).2.directory)
    (storing : RunM.onStorage (Storage.store archive path value exporter name) between =
      (result, stored))
    (short : archive.Short stored.host.directory) (h : P between.host.directory) :
    P stored.host.directory := by
  obtain ⟨host, ran, rfl⟩ := RunM.onHost_eq storing
  have same : (Storage.store archive path value exporter name between.host).2 = host := by
    rw [← HostM.mapError_snd CommandError.storage, ran]
  subst same
  rcases Storage.store_directory archive path value exporter name between.host with
    untouched | ⟨bytes, wrote⟩
  · rw [untouched]
    exact h
  · rw [wrote] at short ⊢
    exact each bytes _ h short

/-- What outlasts each single store outlasts all of them, wherever they end. -/
theorem storeEach_outlasts
    (each : ∀ target ∈ targets, ∀ bytes host, P host.directory →
      archive.Short (archive.write target.1 bytes host).2.directory →
        P (archive.write target.1 bytes host).2.directory)
    (short : ∀ front, front <+: targets →
      archive.Short (storeEach archive exporter seen front world).2.host.directory)
    (h : P world.host.directory) :
    P (storeEach archive exporter seen targets world).2.host.directory := by
  induction targets generalizing seen world with
  | nil => exact h
  | cons target targets ih =>
    obtain ⟨path, name⟩ := target
    obtain ⟨first, others⟩ := List.forall_mem_cons.mp each
    have one := short [(path, name)] (List.cons_prefix_cons.mpr ⟨rfl, List.nil_prefix⟩)
    have rest : ∀ front, front <+: targets → archive.Short
        (storeEach archive exporter seen ((path, name) :: front) world).2.host.directory :=
      fun front part => short _ (List.cons_prefix_cons.mpr ⟨rfl, part⟩)
    by_cases again : seen.contains path = true
    · simp only [storeEach_again again] at rest ⊢
      exact ih others rest h
    have looked := RunM.looks_valueOf name world
    cases valued : RunM.valueOf name world with
    | mk result between =>
      rw [valued] at looked
      rw [← looked.host] at h
      cases result with
      | error e =>
        rw [storeEach, if_neg again, Effect.bind_of_error valued]
        exact h
      | ok value =>
        cases storing : RunM.onStorage (Storage.store archive path value exporter name) between with
        | mk result stored =>
          cases result with
          | error e =>
            simp only [storeEach, if_neg again, Effect.bind_of_ok valued,
              Effect.bind_of_error storing] at one ⊢
            exact onStorage_store_outlasts first storing one h
          | ok record =>
            have new : seen.contains path = false := by simpa using again
            simp only [storeEach_new new valued storing] at one rest ⊢
            exact ih others rest (onStorage_store_outlasts first storing one h)

end Command.Form

namespace Command.Plan
open Form
variable {archive : Archive} {plan : Plan} {arguments : Arguments} {world : World}
  {P : Directory → Prop}

theorem store_run (archive : Archive) (arguments : Arguments) (targets : List (String × String))
    (world : World) : (store targets).run archive arguments world =
      (converter arguments true >>= fun exporter => storeEach archive exporter [] targets) world :=
  rfl

/-- Importing leaves the host alone, however it ends. -/
theorem load_host (archive : Archive) (arguments : Arguments) (targets : List (String × String))
    (world : World) : ((load targets).run archive arguments world).2.host = world.host := by
  have looked := looks_converter arguments false world
  rw [run, loadAll, Effect.bind_apply]
  split
  · next importer between found =>
    rw [found] at looked
    rw [← looked.host]
    cases loading : targets.mapM (loadOne archive importer) between with
    | mk result after =>
      cases result with
      | ok records => exact (loadEach_names loading).1
      | error e =>
        obtain ⟨front, rest, records, -, -, done⟩ := loadEach_error loading
        exact (loadEach_names done).1
  · next e after failed =>
    rw [failed] at looked
    exact looked.host

/-- A deletion leaves the host alone, or it ends as that of the member does. -/
theorem delete_host (archive : Archive) (arguments : Arguments) (path : String) (world : World) :
    ((delete path).run archive arguments world).2.host = world.host ∨
      ((delete path).run archive arguments world).2.host = (archive.delete path world.host).2 ∧
        ((delete path).run archive arguments world).1.isOk =
          (archive.delete path world.host).1.isOk := by
  simp only [run, Form.remove]
  split
  · exact .inl rfl
  · right
    rw [Effect.bind_apply, RunM.onStorage, RunM.onHost, HostM.mapError, Storage.delete,
      Effect.bind_apply, HostM.mapError]
    cases archive.delete path world.host with
    | mk result host => cases result <;> exact ⟨rfl, rfl⟩

/-- What outlasts the writing of a plan outlasts the plan, however it ends. -/
theorem run_outlasts (outlasts : plan.Outlasts archive P)
    (short : plan.Short archive arguments world)
    (h : P world.host.directory) : P (plan.run archive arguments world).2.host.directory := by
  cases plan with
  | store targets =>
    have looked := looks_converter arguments true world
    simp only [Short, store_run, Effect.bind_apply] at short ⊢
    cases found : converter arguments true world with
    | mk result between =>
      rw [found] at looked short
      cases result with
      | error e => exact looked.host ▸ h
      | ok exporter =>
        exact storeEach_outlasts (outlasts.store targets rfl) short (looked.host ▸ h)
  | load targets => exact (load_host archive arguments targets world).symm ▸ h
  | view name folder => exact h
  | delete path =>
    rw [Short] at short
    rcases delete_host archive arguments path world with same | ⟨deleted, -⟩
    · exact same.symm ▸ h
    · rw [deleted] at short ⊢
      exact outlasts.delete path rfl world.host h short
  | verify path => exact (looks_compareHash archive arguments path world).host.symm ▸ h

end Command.Plan

namespace Session
variable {session : Session} {log : Option String} {line : String} {world : World}
  {P : Directory → Prop}

/-- What a line's task and its report keep is kept by the line, however it ends. -/
theorem run_keeps
    (each : ∀ task, Task.ofLine? world.context line = some task →
      P (task.noted world).host.directory →
        P (task.run session.archive (task.noted world)).2.host.directory)
    (logged : ∀ d d', Logged (session.keptLog log) d d' → P d → P d')
    (h : P world.host.directory) :
    P (run (some session) log line world).2.host.directory := by
  cases ran : run (some session) log line world with
  | mk result after =>
    rcases run_cases ran with ⟨e, -, unstarted⟩ | ⟨task, asked, rest⟩
    · exact unstarted.looked.host ▸ h
    have kept := each task asked ((task.looked_noted world).host ▸ h)
    rcases rest with ⟨e, -, failed⟩ | ⟨records, done, carried, -⟩
    · rw [failed] at kept
      exact kept
    · rw [carried.ran] at kept
      exact logged _ _ carried.logged kept

end Session
end ObjectVault
