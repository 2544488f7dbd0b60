import ObjectVault.Proofs.CallOrder
import ObjectVault.Proofs.FileNames
import ObjectVault.Proofs.Refiling

namespace ObjectVault
open ObjectVault.Text

namespace Directory
variable {d d' d'' : Directory} {path other : String} {place target : Location} {bytes : Bytes}

/-- The path leads to the same place as before, if to any, and what lies there is the same. -/
structure Unmoved (path : String) (d d' : Directory) : Prop where
  folders : d'.folders = d.folders
  located : ∀ place, d'.locate path = .ok place ↔ d.locate path = .ok place
  file : ∀ place, d.locate path = .ok place → d'.files.get? (key place) = d.files.get? (key place)

theorem Unmoved.refl (path : String) (d : Directory) : Unmoved path d d :=
  ⟨rfl, fun _ => .rfl, fun _ _ => rfl⟩

theorem Unmoved.trans (first : Unmoved path d d') (second : Unmoved path d' d'') :
    Unmoved path d d'' where
  folders := second.folders.trans first.folders
  located place := (second.located place).trans (first.located place)
  file place h := (second.file place ((first.located place).mpr h)).trans (first.file place h)

theorem Unmoved.isFolder (h : Unmoved path d d') (place : Location) :
    d'.isFolder place = d.isFolder place := by
  rw [Directory.isFolder, Directory.isFolder, h.folders]

theorem Unmoved.has (h : Unmoved path d d') : d'.has path = d.has path := by
  rw [Directory.has, Directory.has]
  cases located : d.locate path with
  | ok place =>
    rw [(h.located place).mpr located]
    simp only [h.isFolder, isFile, Table.contains, h.file place located]
  | error fault =>
    cases located' : d'.locate path with
    | ok place =>
      rw [(h.located place).mp located'] at located
      cases located
    | error fault' => rfl

theorem Unmoved.read (h : Unmoved path d d') (located : d.locate path = .ok place) :
    d'.read path = d.read path := by
  have same := (h.located place).mpr located
  simp only [Directory.read, same, located, bind, Except.bind, h.isFolder, h.file place located]

theorem grows_of_others (reached : Reached target) (free : d.isFolder target = false)
    (folders : d'.folders = d.folders)
    (others : ∀ name, name ≠ key target → d'.files.get? name = d.files.get? name) : Grows d d' := by
  have folder : ∀ place, d'.isFolder place = d.isFolder place := by simp [isFolder, folders]
  refine ⟨fun place h => (folder place).trans h, fun place reached' inside file => ?_⟩
  have apart : key place ≠ key target := by
    intro same
    rw [key_inj reached' reached same, free] at inside
    cases inside
  rwa [isFile, Table.contains, others _ apart] at file

/-- A change of one file leaves the file of a path that leads elsewhere. -/
theorem unmoved_of_others (reached : Reached target) (free : d.isFolder target = false)
    (folders : d'.folders = d.folders)
    (others : ∀ name, name ≠ key target → d'.files.get? name = d.files.get? name)
    (apart : d.locate path ≠ .ok target) : Unmoved path d d' := by
  have forth := grows_of_others reached free folders others
  have back : Grows d' d := by
    refine grows_of_others reached ?_ folders.symm fun name h => (others name h).symm
    rw [isFolder, folders]
    exact free
  refine ⟨folders, fun place => ⟨back.locate, forth.locate⟩, fun place located => others _ ?_⟩
  intro same
  rw [key_inj (locate_reached located) reached same] at located
  exact apart located

theorem unmoved_write (apart : ∀ place, d.locate path = .ok place → d.isFolder place = false →
      d.locate other ≠ .ok place) (h : d.write other bytes = .ok d') : Unmoved path d d' := by
  obtain ⟨place, located, free, rfl⟩ := write_eq_ok_iff.mp h
  exact unmoved_of_others (locate_reached located) free rfl
    (fun name ne => by simp [Table.get?_insert, ne]) fun own => apart place own free located

theorem unmoved_remove (apart : ∀ place, d.locate path = .ok place → d.isFolder place = false →
      d.locate other ≠ .ok place) (h : d.remove other = .ok d') : Unmoved path d d' := by
  obtain ⟨place, located, free, rfl⟩ := remove_eq_ok h
  exact unmoved_of_others (locate_reached located) free rfl
    (fun name ne => by simp [Table.get?_erase, ne]) fun own => apart place own free located

end Directory

namespace Archive
open Directory

theorem contents_of_unmoved {archive : Archive} {d d' : Directory}
    (h : Unmoved archive.path d d') : archive.contents d' = archive.contents d := by
  rw [Archive.contents, Archive.contents, h.has]
  cases located : d.locate archive.path with
  | ok place => rw [h.read located]
  | error fault =>
    have absent : d.has archive.path = false := by rw [Directory.has, located]
    rw [absent]
    rfl

/-- How saving some contents fails, with the files before and after it: the folder cannot be made,
the file that is written first cannot be begun, a name does not fit and that file is removed again,
or it cannot be filled or moved. -/
inductive SaveFails (archive : Archive) (contents : Contents) (d d' : Directory) :
    ArchiveError → Prop
  | folder {fault : FileFault} (failed : (archive.withFolder d).2 = .error fault)
    (same : d' = (archive.withFolder d).1) : SaveFails archive contents d d' (.file fault)
  | begin {fault : FileFault}
    (failed : (archive.withFolder d).1.write (temporaryPath archive.path) [] = .error fault)
    (same : d' = (archive.withFolder d).1) : SaveFails archive contents d d' (.file fault)
  | name {e : ArchiveError} {cleared : Directory}
    (begun : (archive.withFolder d).1.write (temporaryPath archive.path) [] = .ok cleared)
    (failed : contents.bytes = .error e)
    (removed : cleared.remove (temporaryPath archive.path) = .ok d') :
    SaveFails archive contents d d' e
  | fill {fault : FileFault} {written : Bytes}
    (begun : (archive.withFolder d).1.write (temporaryPath archive.path) [] = .ok d')
    (failed : d'.write (temporaryPath archive.path) written = .error fault) :
    SaveFails archive contents d d' (.file fault)
  | move {fault : FileFault} {cleared : Directory} {written : Bytes}
    (begun : (archive.withFolder d).1.write (temporaryPath archive.path) [] = .ok cleared)
    (filled : cleared.write (temporaryPath archive.path) written = .ok d')
    (failed : d'.rename (temporaryPath archive.path) archive.path = .error fault) :
    SaveFails archive contents d d' (.file fault)

variable {archive : Archive} {contents : Contents} {host host' : Host} {e : ArchiveError}

theorem saveFails_of_save (h : archive.save contents host = (.error e, host')) :
    archive.SaveFails contents host.directory host'.directory e := by
  rw [Archive.save] at h
  rcases Effect.bind_eq_error h with made | ⟨_, made, folder, rest⟩
  · rw [makeFolder_apply] at made
    cases failed : (archive.withFolder host.directory).2 with
    | ok _ =>
      rw [failed] at made
      cases made
    | error fault =>
      rw [failed] at made
      cases made
      exact .folder failed rfl
  rw [makeFolder_apply] at folder
  obtain rfl : { host with directory := (archive.withFolder host.directory).1 } = made :=
    congrArg Prod.snd folder
  rcases Effect.bind_eq_error rest with first | ⟨_, cleared, first, rest⟩
  · obtain ⟨rfl, fault, failed, rfl⟩ := HostM.change_eq_error first
    exact .begin failed rfl
  have begun := (HostM.change_eq_ok first).1
  cases bytes : contents.bytes with
  | error error =>
    rw [bytes] at rest
    rcases Effect.bind_eq_error rest with second | ⟨_, removed, second, thrown⟩
    · -- What was just begun can be removed.
      obtain ⟨-, fault, failed, -⟩ := HostM.change_eq_error second
      obtain ⟨_, gone, -⟩ := remove_of_read (read_write begun)
      rw [gone] at failed
      cases failed
    · cases thrown
      exact .name begun bytes (HostM.change_eq_ok second).1
  | ok written =>
    rw [bytes] at rest
    rcases Effect.bind_eq_error rest with second | ⟨_, filled, second, third⟩
    · obtain ⟨rfl, fault, failed, rfl⟩ := HostM.change_eq_error second
      exact .fill begun failed
    · obtain ⟨rfl, fault, failed, rfl⟩ := HostM.change_eq_error third
      exact .move begun (HostM.change_eq_ok second).1 failed

/-- Unless it is written first under its own name, nothing happens to the archive when it could not
be saved, save that the folder it lies in was made. -/
theorem SaveFails.unmoved {d d' : Directory} (h : archive.SaveFails contents d d' e)
    (apart : ¬ OwnTemporary archive.path) :
    Unmoved archive.path (archive.withFolder d).1 d' := by
  have write : ∀ {start stop : Directory} {bytes : Bytes},
      start.write (temporaryPath archive.path) bytes = .ok stop →
        Unmoved archive.path start stop :=
    unmoved_write fun _ => temporary_apart apart
  cases h with
  | folder failed same => exact same ▸ .refl _ _
  | begin failed same => exact same ▸ .refl _ _
  | name begun failed removed =>
    exact (write begun).trans (unmoved_remove (fun _ => temporary_apart apart) removed)
  | fill begun failed => exact write begun
  | move begun filled failed => exact (write begun).trans (write filled)

theorem withFolder_of_located {d : Directory} {place : Location}
    (located : d.locate archive.path = .ok place) : archive.withFolder d = (d, .ok ()) :=
  withFolder_of_hasFolder (hasFolder_parent located)

/-- An archive that is written first under its own name is lost when it could not be saved, which
is for a name that does not fit. -/
theorem SaveFails.lost {d d' : Directory} {old : Bytes} (h : archive.SaveFails contents d d' e)
    (own : OwnTemporary archive.path) (there : d.read archive.path = .ok old) :
    contents.bytes = .error e ∧ d'.has archive.path = false := by
  obtain ⟨place, located, free, -⟩ := read_eq_ok_iff.mp there
  have made : (archive.withFolder d).1 = d := by rw [withFolder_of_located located]
  have writes : ∀ {start : Directory}, Refiled d start → ∀ bytes : Bytes,
      ∃ stop, start.write (temporaryPath archive.path) bytes = .ok stop ∧ Refiled d stop := by
    intro start changed bytes
    obtain ⟨stop, written⟩ :=
      Writable.write (Writable.refiled ⟨place, temporary_own own located, free⟩ changed) bytes
    exact ⟨stop, written, changed.trans (refiled_write written)⟩
  obtain ⟨cleared, first, changed⟩ := writes (.refl d) []
  cases h with
  | folder failed same =>
    rw [withFolder_of_located located] at failed
    cases failed
  | begin failed same =>
    rw [made, first] at failed
    cases failed
  | name begun failed removed =>
    rw [made, first] at begun
    cases begun
    refine ⟨failed, ?_⟩
    have here := changed.grows.locate located
    obtain ⟨place', located', -, rfl⟩ := remove_eq_ok removed
    obtain rfl : place = place' :=
      Except.ok.inj ((temporary_own own here).symm.trans located')
    have still := (grows_erase cleared (key place)).locate here
    simp only [has, still, isFile, Table.contains, Table.get?_erase, if_true, Option.isSome_none,
      Bool.or_false]
    exact (changed.isFolder place).trans free
  | fill begun failed =>
    rw [made, first] at begun
    cases begun
    obtain ⟨_, filled, -⟩ := writes changed ‹Bytes›
    rw [filled] at failed
    cases failed
  | move begun filled failed =>
    rw [made, first] at begun
    cases begun
    have target : Writable _ archive.path :=
      Writable.refiled ⟨place, located, free⟩ (changed.trans (refiled_write filled))
    obtain ⟨_, moved, -⟩ := rename_of_read (read_write filled) target
    rw [moved] at failed
    cases failed

end Archive

/-- The error says that an entry of the container cannot have its name. -/
def ArchiveError.isNaming : ArchiveError → Bool
  | .entryName _ _ => true
  | _ => false

theorem Access.key_error {access : Access} {member : String} {e : ArchiveError}
    (h : access.key member = .error e) : e.isNaming = false := by
  cases access <;> cases h <;> rfl

theorem Access.openMember_error {access : Access} {member : String} {payload : Bytes}
    {e : ArchiveError} (h : access.openMember member payload = .error e) : e.isNaming = false := by
  rw [Access.openMember] at h
  cases key : access.key member with
  | error e' =>
    rw [key] at h
    cases h
    exact Access.key_error key
  | ok key' =>
    rw [key] at h
    simp only [bind, Except.bind] at h
    split at h
    · cases h
    · cases h
      rfl

namespace Contents

theorem bytes_error {contents : Contents} {e : ArchiveError} (h : contents.bytes = .error e) :
    e.isNaming = true := by
  rw [bytes, Contents.stream] at h
  cases streamed : Container.stream contents.entries with
  | ok stream =>
    rw [streamed] at h
    cases h
  | error fault =>
    rw [streamed] at h
    cases h
    rfl

theorem plaintext_error {contents : Contents} {access : Access} {member : String}
    {e : ArchiveError} (h : contents.plaintext access member = .error e) : e.isNaming = false := by
  cases listed : contents.manifest.members.get? member with
  | none =>
    rw [Contents.plaintext, listed] at h
    cases h
    rfl
  | some entry =>
    cases found : contents.payloads.get? member with
    | none =>
      rw [Contents.plaintext, listed, found] at h
      cases h
      rfl
    | some payload =>
      rw [plaintext_eq listed found] at h
      cases opened : access.unsealed member entry payload with
      | error e' =>
        rw [opened] at h
        cases h
        rw [Access.unsealed] at opened
        split at opened
        · exact Access.openMember_error opened
        · cases opened
      | ok plaintext =>
        rw [opened] at h
        simp only [Except.bind, MemberEntry.checked] at h
        split at h
        · cases h
        · cases h
          rfl

theorem verify_error {contents : Contents} {access : Access} {e : ArchiveError}
    (h : contents.verify access = .error e) :
    ∃ member ∈ contents.manifest.members.keys, contents.plaintext access member = .error e := by
  rw [verify] at h
  generalize contents.manifest.members.keys = members at h ⊢
  induction members with
  | nil => cases h
  | cons member members ih =>
    rw [List.forM] at h
    cases read : contents.plaintext access member with
    | error e' =>
      rw [read] at h
      cases h
      exact ⟨member, List.mem_cons_self, read⟩
    | ok plaintext =>
      rw [read] at h
      obtain ⟨other, mem, failed⟩ := ih h
      exact ⟨other, List.mem_cons_of_mem _ mem, failed⟩

end Contents

namespace Archive
variable {archive : Archive} {before : Contents} {member : String} {plaintext : Bytes}
  {host host' : Host} {e : ArchiveError}

/-- A member cannot be put in only for want of a key. -/
theorem revised_error (h : archive.revised member plaintext before host = (.error e, host')) :
    ∃ access : Access, access.key member = .error e := by
  simp only [revised, revisedBy] at h
  split at h
  · rcases Effect.bind_eq_error h with failed | ⟨keyed, between, -, rest⟩
    · rw [Archive.keyed] at failed
      cases key : before.manifest.key <;> rw [key] at failed <;> cases failed
    · rcases Effect.bind_eq_error rest with failed | ⟨key, between', -, rest⟩
      · exact ⟨_, (Effect.lift_eq failed).1⟩
      · rcases Effect.bind_eq_error rest with failed | ⟨nonce, drawn, -, done⟩
        · cases failed
        · cases done
  · cases h

/-- A store that fails on a readable archive has failed with nothing written, or while saving. -/
theorem write_error_saves (found : archive.contents host.directory = .ok before)
    (h : archive.write member plaintext host = (.error e, host')) :
    host'.directory = host.directory ∧ e.isNaming = false ∨
      ∃ contents, archive.SaveFails contents host.directory host'.directory e := by
  rcases write_error_cases h with ⟨unread, -⟩ | ⟨before', -, failed⟩
  · rw [found] at unread
    cases unread
  · rcases failed with ⟨failed, untouched⟩ |
      ⟨after, between, -, untouched, ⟨failed, rfl⟩ | ⟨-, saving⟩⟩
    · obtain ⟨access, noKey⟩ := revised_error failed
      exact .inl ⟨untouched, Access.key_error noKey⟩
    · obtain ⟨other, -, unread⟩ := Contents.verify_error failed
      exact .inl ⟨untouched, Contents.plaintext_error unread⟩
    · have saving := saveFails_of_save saving
      rw [untouched] at saving
      exact .inr ⟨after, saving⟩

theorem delete_error_saves (found : archive.contents host.directory = .ok before)
    (h : archive.delete member host = (.error e, host')) :
    host'.directory = host.directory ∧ e.isNaming = false ∨
      ∃ contents, archive.SaveFails contents host.directory host'.directory e := by
  rcases Effect.bind_eq_error h with looked | ⟨before', start, looked, rest⟩
  · have unread := (HostM.look_eq looked).1
    rw [found] at unread
    cases unread
  · obtain ⟨-, rfl⟩ := HostM.look_eq looked
    cases listed : before'.manifest.members.get? member with
    | none =>
      rw [listed] at rest
      cases rest
      exact .inl ⟨rfl, rfl⟩
    | some entry =>
      rw [listed] at rest
      rcases Effect.bind_eq_error rest with failed | ⟨_, saved, -, done⟩
      · exact .inr ⟨_, saveFails_of_save failed⟩
      · cases done

end Archive

/-- What a request makes of the contents. -/
def Request.Revises (password : Option String) (before after : Contents) : Request → Prop
  | .write member plaintext => Stored password member plaintext before after
  | .delete member => before.manifest.members.contains member = true ∧ after = before.erase member

theorem Handle.perform_error_saves {handle : Handle} (sound : handle.Sound) {request : Request}
    {before : Contents} {host host' : Host} {e : ArchiveError}
    (found : handle.archive.contents host.directory = .ok before)
    (h : handle.perform request host = (.error e, host')) :
    host'.directory = host.directory ∧ e.isNaming = false ∨
      ∃ contents, handle.archive.SaveFails contents host.directory host'.directory e := by
  cases request with
  | write member plaintext =>
    rw [Handle.perform, sound.write_eq] at h
    exact Archive.write_error_saves found h
  | delete member => exact Archive.delete_error_saves found h

theorem Handle.perform_ok {handle : Handle} (sound : handle.Sound) {request : Request}
    {before : Contents} {host host' : Host} {entry : MemberEntry}
    (found : handle.archive.contents host.directory = .ok before)
    (h : handle.perform request host = (.ok entry, host')) :
    ∃ after written, request.Revises handle.archive.password before after ∧
      after.bytes = .ok written ∧ host'.directory.read handle.archive.path = .ok written := by
  cases request with
  | write member plaintext =>
    rw [Handle.perform, sound.write_eq] at h
    obtain ⟨before', after, written, found', change, -, bytes, read, -⟩ := Archive.write_ok h
    rw [found] at found'
    cases found'
    exact ⟨after, written, change, bytes, read⟩
  | delete member =>
    obtain ⟨before', written, found', listed, bytes, read⟩ := Archive.delete_ok h
    rw [found] at found'
    cases found'
    refine ⟨_, written, ⟨?_, rfl⟩, bytes, read⟩
    rw [Table.contains, listed]
    rfl

/-- A change of a readable archive leaves the complete new file when it succeeds, and the old file
when it fails; but an archive that is written first under its own name is lost when the change fails
for a name that does not fit. -/
theorem changed_or_kept {handle : Handle} (sound : handle.Sound) {before : Contents} {old : Bytes}
    {host : Host} (there : host.directory.read handle.archive.path = .ok old)
    (readable : Contents.ofBytes old = .ok before) (request : Request) :
    (∀ entry host', handle.perform request host = (.ok entry, host') →
      ∃ after written, request.Revises handle.archive.password before after ∧
        after.bytes = .ok written ∧ host'.directory.read handle.archive.path = .ok written) ∧
    ∀ e host', handle.perform request host = (.error e, host') →
      if Archive.OwnTemporary handle.archive.path ∧ e.isNaming = true then
        host'.directory.has handle.archive.path = false
      else host'.directory.read handle.archive.path = .ok old := by
  have found : handle.archive.contents host.directory = .ok before :=
    (Archive.contents_of_read there).trans readable
  refine ⟨fun entry host' ran => Handle.perform_ok sound found ran, fun e host' ran => ?_⟩
  obtain ⟨place, located, -⟩ := Directory.read_eq_ok_iff.mp there
  have made : (handle.archive.withFolder host.directory).1 = host.directory := by
    rw [Archive.withFolder_of_located located]
  rcases Handle.perform_error_saves sound found ran with ⟨same, other⟩ | ⟨contents, failed⟩
  · rw [if_neg (by simp [other]), same]
    exact there
  · by_cases own : Archive.OwnTemporary handle.archive.path
    · obtain ⟨bytes, gone⟩ := failed.lost own there
      rw [if_pos ⟨own, Contents.bytes_error bytes⟩]
      exact gone
    · have kept := failed.unmoved own
      rw [made] at kept
      rw [if_neg fun both => own both.1, kept.read located]
      exact there

open Archive (hostHolding)

/-- A handle without a password. -/
def openHandle (path : String) : Handle :=
  .opened ⟨path, none, Archive.defaultIterations⟩

/-- Contents that cannot be written, since the name of their member leads out of a folder. -/
def climbing : Contents :=
  Contents.empty.put "../y" (.describe [] false) []

theorem perform_climbing {path : String} (own : path = "storage.tmp" ∨ path = "storage.vault")
    {old : Bytes} (readable : Contents.ofBytes old = .ok .empty) :
    ∃ host', (openHandle path).perform (.write "../y" []) (hostHolding path old) =
      (.error (.entryName "vault/data/../y" .climbs), host') := by
  have unwritable : climbing.bytes = .error (.entryName "vault/data/../y" .climbs) := by
    decide +kernel
  have verified : climbing.verify (climbing.access (openHandle path).archive.password) = .ok () :=
    (by decide +kernel : climbing.verify .noPassword = .ok ())
  have there : (hostHolding path old).directory.read (openHandle path).archive.path = .ok old := by
    rcases own with rfl | rfl <;> rfl
  have found : (openHandle path).archive.contents (hostHolding path old).directory = .ok .empty :=
    (Archive.contents_of_read there).trans readable
  have revised : (openHandle path).archive.revised "../y" [] .empty (hostHolding path old) =
      (.ok climbing, hostHolding path old) := by
    have locked : (openHandle path).archive.password = none := rfl
    simp only [Archive.revised, Archive.revisedBy, locked]
    rfl
  obtain ⟨host', saved⟩ : ∃ host', (openHandle path).archive.save climbing (hostHolding path old) =
      (.error (.entryName "vault/data/../y" .climbs), host') := by
    rw [Archive.save, unwritable]
    rcases own with rfl | rfl <;> exact ⟨_, rfl⟩
  have sound : (openHandle path).Sound := Handle.sound_opened _
  refine ⟨host', ?_⟩
  rw [Handle.perform, sound.write_eq, Archive.write_eq,
    Effect.bind_of_ok (HostM.look_of_ok found), Effect.bind_of_ok revised,
    Effect.lift_bind_of_ok verified, Effect.bind_of_error saved]

theorem changed_or_kept_climbing :
    ∃ old e lost kept, Contents.ofBytes old = .ok .empty ∧
      (openHandle "storage.tmp").perform (.write "../y" []) (hostHolding "storage.tmp" old) =
        (.error e, lost) ∧ lost.directory.has "storage.tmp" = false ∧
      (openHandle "storage.vault").perform (.write "../y" []) (hostHolding "storage.vault" old) =
        (.error e, kept) ∧ kept.directory.read "storage.vault" = .ok old := by
  obtain ⟨old, -, readable⟩ :
      ∃ old, Contents.empty.bytes = .ok old ∧ Contents.ofBytes old = .ok .empty :=
    Contents.reread_of_fitting Contents.consistent_empty (fun _ mem => nomatch mem)
      (Contents.measured_of_lengths (by decide +kernel) (fun _ mem => nomatch mem))
  have sound : ∀ path, (openHandle path).Sound := fun _ => Handle.sound_opened _
  obtain ⟨lost, failed⟩ := perform_climbing (.inl rfl) readable
  obtain ⟨kept, failed'⟩ := perform_climbing (.inr rfl) readable
  have first := (changed_or_kept (sound "storage.tmp") rfl readable _).2 _ _ failed
  have second := (changed_or_kept (sound "storage.vault") rfl readable _).2 _ _ failed'
  rw [if_pos ⟨by decide, rfl⟩] at first
  rw [if_neg fun own => absurd own.1 (by decide)] at second
  exact ⟨old, _, lost, kept, readable, failed, first, failed', second⟩

end ObjectVault
