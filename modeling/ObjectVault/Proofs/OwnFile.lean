import ObjectVault.Proofs.LogFile

namespace ObjectVault
open ObjectVault.Text ObjectVault.Container ObjectVault.Directory

namespace Directory
variable {d d' : Directory} {path : String} {start place : Location}

/-- The place that a path leads to when every folder on the way is there. -/
def destination (path : String) : Location :=
  match pathParts path with
  | "" :: rest => rest.foldl step ["/"]
  | parts => parts.foldl step []

theorem walk_eq_foldl {parts : List String} (h : d.walk start parts = .ok place) :
    place = parts.foldl step start := by
  induction parts generalizing start with
  | nil =>
    cases h
    rfl
  | cons part parts ih =>
    rw [walk] at h
    split at h
    · cases h
    · split at h
      · cases h
      · exact ih h

theorem destination_of_rooted {rest : List String} (rooted : pathParts path = "" :: rest) :
    destination path = rest.foldl step ["/"] := by
  rw [destination, rooted]
  rfl

theorem destination_of_relative (relative : ∀ rest, pathParts path = "" :: rest → False) :
    destination path = (pathParts path).foldl step [] := by
  rw [destination]
  split
  · next rest rooted => exact absurd rooted (relative rest)
  · rfl

theorem locate_destination (h : d.locate path = .ok place) : place = destination path := by
  rw [locate] at h
  split at h
  · next rest rooted =>
    split at h
    · cases h
    · rw [destination_of_rooted rooted]
      exact walk_eq_foldl h
  · next relative =>
    rw [destination_of_relative relative]
    exact walk_eq_foldl h

/-- A new folder changes nothing else. -/
theorem makeFolder_eq_ok (h : d.makeFolder path = .ok d') :
    ∃ place, d.locate path = .ok place ∧ d' = { d with folders := d.folders ++ [place] } := by
  rw [makeFolder] at h
  cases located : d.locate path with
  | error fault => simp [located, bind, Except.bind] at h
  | ok place =>
    simp only [located, bind, Except.bind] at h
    split at h
    · cases h
    · cases h
      exact ⟨place, rfl, rfl⟩

theorem makeFolder_files (h : d.makeFolder path = .ok d') : d'.files = d.files := by
  obtain ⟨place, -, rfl⟩ := makeFolder_eq_ok h
  rfl

/-- Making folders changes no files, whether it succeeds or not. -/
theorem makeFolders_files (d : Directory) (names : List String) :
    (d.makeFolders names).1.files = d.files := by
  induction names generalizing d with
  | nil => rfl
  | cons name parents ih =>
    have before := ih d
    rw [makeFolders]
    split
    · next made eq => exact makeFolder_files eq
    · split
      · next eq =>
        rw [eq] at before
        exact before
      · next between eq =>
        rw [eq] at before
        split
        · next made eq' => exact (makeFolder_files eq').trans before
        · exact before
    · rfl

theorem hasFolder_of_makeFolder (h : d.makeFolder path = .ok d') : d'.hasFolder path = true := by
  obtain ⟨place, located, rfl⟩ := makeFolder_eq_ok h
  have grows : Grows d { d with folders := d.folders ++ [place] } := by
    refine ⟨fun other folder => ?_, fun _ _ _ file => file⟩
    simp only [isFolder, Bool.or_eq_true] at folder ⊢
    rcases folder with known | listed
    · exact .inl known
    · exact .inr (by simpa using .inl (List.elem_iff.mp listed))
  rw [hasFolder, grows.locate located]
  simp [isFolder]

/-- Folders that could be made are there. -/
theorem hasFolder_of_makeFolders {name : String} {parents : List String}
    (h : (d.makeFolders (name :: parents)).2 = .ok ()) :
    (d.makeFolders (name :: parents)).1.hasFolder (ofComponents (name :: parents).reverse) =
      true := by
  have present : ∀ {d : Directory} {fault : FileFault},
      (if d.hasFolder (ofComponents (name :: parents).reverse) = true then Except.ok ()
        else Except.error fault) = Except.ok () →
      d.hasFolder (ofComponents (name :: parents).reverse) = true := by
    intro d fault own
    by_contra missing
    rw [if_neg missing] at own
    cases own
  rw [makeFolders] at h ⊢
  split
  · next made eq => exact hasFolder_of_makeFolder eq
  · next eq =>
    simp only [eq] at h
    split
    · next eq' =>
      simp only [eq'] at h
      cases h
    · next between eq' =>
      simp only [eq'] at h
      split
      · next made eq'' => exact hasFolder_of_makeFolder eq''
      · next fault eq'' =>
        simp only [eq''] at h
        exact present h
  · next fault other eq =>
    simp only [eq] at h
    exact present h

theorem has_of_hasFolder (h : d.hasFolder path = true) : d.has path = true := by
  rw [hasFolder] at h
  rw [has]
  cases located : d.locate path with
  | error fault => simp [located] at h
  | ok place =>
    rw [located] at h
    exact Bool.or_eq_true_iff.mpr (.inl h)

end Directory

namespace Archive
variable {archive : Archive} {d d' : Directory} {contents : Contents} {host host' : Host}
  {e : ArchiveError}

/-- No folder is made before the archive is saved. -/
def Housed (archive : Archive) (d : Directory) : Prop :=
  parentComponents archive.path = [] ∨
    d.has (ofComponents (parentComponents archive.path).reverse) = true

theorem withFolder_of_housed (h : archive.Housed d) : archive.withFolder d = (d, .ok ()) := by
  rw [Archive.withFolder, if_neg]
  rcases h with folderless | there
  · simp [folderless]
  · simp [there]

theorem housed_of_withFolder (h : (archive.withFolder d).2 = .ok ()) :
    archive.Housed (archive.withFolder d).1 := by
  by_cases need : (!(parentComponents archive.path).isEmpty &&
      !d.has (ofComponents (parentComponents archive.path).reverse)) = true
  · rw [Archive.withFolder, if_pos need] at h ⊢
    right
    cases parents : parentComponents archive.path with
    | nil => simp [parents] at need
    | cons name others =>
      rw [parents] at h
      exact has_of_hasFolder (hasFolder_of_makeFolders h)
  · rw [Archive.withFolder, if_neg need]
    rw [Bool.and_eq_true, not_and_or] at need
    rcases need with folderless | there
    · exact .inl (by simpa using folderless)
    · exact .inr (by simpa using there)

theorem withFolder_files (archive : Archive) (d : Directory) :
    (archive.withFolder d).1.files = d.files := by
  rw [Archive.withFolder]
  split
  · exact makeFolders_files d _
  · rfl

theorem Housed.insert {place : Location} {bytes : Bytes} (h : archive.Housed d)
    (reached : Reached place) (free : d.isFolder place = false) :
    archive.Housed { d with files := d.files.insert (key place) bytes } :=
  h.imp_right (has_insert reached free)

theorem Housed.write {path : String} {bytes : Bytes} (h : archive.Housed d)
    (written : d.write path bytes = .ok d') : archive.Housed d' := by
  obtain ⟨place, located, free, rfl⟩ := write_eq_ok_iff.mp written
  exact h.insert (locate_reached located) free

/-- Nothing can be read from the archive, and nothing will be by making folders or by adding to
files: what lies in its place is spoiled, or no path leads there and none will. -/
inductive Blank (archive : Archive) (d : Directory) : Prop
  | unmade (spoiled : ∀ bytes, d.files.get? (key (destination archive.path)) = some bytes →
      Spoiled bytes)
  | barred (housed : archive.Housed d)
    (spoiled : ∀ bytes, d.read archive.path = .ok bytes → Spoiled bytes)

/-- What the archive begins with is what some contents are written as. -/
structure Wrote (archive : Archive) (d : Directory) (contents : Contents) : Prop where
  consistent : contents.Consistent
  file : ∃ written extra, contents.bytes = .ok written ∧ written.length < maxContent ∧
    d.read archive.path = .ok (written ++ extra)

/-- What is in the archive is known to whoever wrote it all: some contents, or nothing yet. -/
inductive Owns (archive : Archive) (d : Directory) : Contents → Prop
  | blank (h : archive.Blank d) : Owns archive d .empty
  | wrote {contents : Contents} (h : archive.Wrote d contents) : Owns archive d contents

theorem Blank.spoiled {bytes : Bytes} (h : archive.Blank d)
    (read : d.read archive.path = .ok bytes) : Spoiled bytes := by
  cases h with
  | unmade spoiled =>
    obtain ⟨place, located, -, found⟩ := read_eq_ok_iff.mp read
    rw [locate_destination located] at found
    exact spoiled bytes found
  | barred housed spoiled => exact spoiled bytes read

theorem Blank.contents_eq (h : archive.Blank d) (found : archive.contents d = .ok contents) :
    contents = .empty := by
  rw [Archive.contents] at found
  split at found
  · cases found
    rfl
  · split at found
    · next bytes read => exact absurd found ((h.spoiled read).unread contents)
    · cases found

theorem Wrote.contents_eq {other : Contents} (h : archive.Wrote d contents)
    (found : archive.contents d = .ok other) : other = contents := by
  obtain ⟨written, extra, bytes, short, read⟩ := h.file
  have measured := Contents.measured_of_bytes bytes short
  rw [contents_of_read read, Contents.ofBytes_append bytes measured] at found
  exact ((Contents.ofBytes_bytes_eq_ok_iff bytes measured h.consistent).mp found).1

theorem Wrote.contents_of_settled (h : archive.Wrote d contents)
    (settled : ∀ member ∈ contents.payloads.keys, Settled member) :
    archive.contents d = .ok contents := by
  obtain ⟨written, extra, bytes, short, read⟩ := h.file
  rw [contents_of_read read,
    Contents.ofBytes_append bytes (Contents.measured_of_bytes bytes short)]
  exact Contents.ofBytes_bytes_of_settled bytes short h.consistent settled

theorem Owns.contents_eq {other : Contents} (h : archive.Owns d contents)
    (found : archive.contents d = .ok other) : other = contents := by
  cases h with
  | blank h => exact h.contents_eq found
  | wrote h => exact h.contents_eq found

theorem Wrote.extends (h : archive.Wrote d contents) (more : d.Extends d') :
    archive.Wrote d' contents := by
  obtain ⟨written, extra, bytes, short, read⟩ := h.file
  obtain ⟨rest, longer⟩ := more archive.path _ read
  exact ⟨h.consistent, written, extra ++ rest, bytes, short, by rw [longer, List.append_assoc]⟩

/-- What is added to a file repairs nothing, if it is spoiled itself. -/
theorem Blank.append {path : String} {bytes : Bytes} (h : archive.Blank d) (bad : Spoiled bytes)
    (appended : d.append path bytes = .ok d') : archive.Blank d' := by
  obtain ⟨place, located, free, rfl⟩ := append_eq_ok appended
  have reached := locate_reached located
  have longer : (∀ old, d.files.get? (key place) = some old → Spoiled old) →
      Spoiled ((d.files.get? (key place)).getD [] ++ bytes) := by
    intro before
    cases old : d.files.get? (key place) with
    | none => exact bad
    | some old => exact (before _ ‹_›).append bytes
  cases h with
  | unmade spoiled =>
    refine .unmade fun whole found => ?_
    rw [Table.get?_insert] at found
    split at found
    · next same =>
      cases found
      exact longer (same ▸ spoiled)
    · exact spoiled whole found
  | barred housed spoiled =>
    refine .barred (housed.insert reached free) fun whole read => ?_
    obtain ⟨target, there, apart, found⟩ := read_eq_ok_iff.mp read
    have before := locate_of_insert reached free there
    have reads : ∀ old, d.files.get? (key target) = some old → Spoiled old := fun old own =>
      spoiled old (read_eq_ok_iff.mpr ⟨target, before, apart, own⟩)
    rw [Table.get?_insert] at found
    split at found
    · next same =>
      cases found
      exact longer (same ▸ reads)
    · exact reads whole found

theorem Owns.logged {log : Option String} (h : archive.Owns d contents) (logged : Logged log d d') :
    archive.Owns d' contents := by
  cases h with
  | blank h =>
    cases logged with
    | quiet => exact .blank h
    | noted kept appended => exact .blank (h.append (spoiled_logLine _) appended)
  | wrote h => exact .wrote (h.extends logged.extends)

theorem Blank.withFolder (h : archive.Blank d) : archive.Blank (archive.withFolder d).1 := by
  cases h with
  | unmade spoiled => exact .unmade (by rw [withFolder_files]; exact spoiled)
  | barred housed spoiled =>
    rw [withFolder_of_housed housed]
    exact .barred housed spoiled

/-- Where the archive cannot be saved though its contents can be written, it stays blank: only its
folder may have been made, or the file that is written first lies beside a path that leads
nowhere. -/
theorem Blank.save_error {written : Bytes} (h : archive.Blank host.directory)
    (bytes : contents.bytes = .ok written)
    (failed : archive.save contents host = (.error e, host')) : archive.Blank host'.directory := by
  cases folder : (archive.withFolder host.directory).2 with
  | error fault =>
    have made : archive.makeFolder host =
        (.error (.file fault),
          { host with directory := (archive.withFolder host.directory).1 }) := by
      rw [makeFolder_apply, folder]
      rfl
    rw [Archive.save, Effect.bind_of_error made] at failed
    cases failed
    exact h.withFolder
  | ok _ =>
    cases saveFails_of_save failed with
    | folder faulty same =>
      rw [folder] at faulty
      cases faulty
    | begin _ same =>
      rw [same]
      exact h.withFolder
    | name _ unnamed _ =>
      rw [bytes] at unnamed
      cases unnamed
    | fill begun faulty =>
      obtain ⟨place, located, free, -⟩ := write_eq_ok_iff.mp begun
      obtain ⟨_, filled⟩ :=
        (Writable.refiled ⟨place, located, free⟩ (refiled_write begun)).write ‹Bytes›
      rw [filled] at faulty
      cases faulty
    | move begun filled faulty =>
      refine .barred (((housed_of_withFolder folder).write begun).write filled) fun old read => ?_
      obtain ⟨place, located, free, -⟩ := read_eq_ok_iff.mp read
      obtain ⟨_, moved, -⟩ := rename_of_read (read_write filled) ⟨place, located, free⟩
      rw [moved] at faulty
      cases faulty

/-- Where the archive cannot be saved, what it begins with stays, unless it is written first under
its own name and the new contents cannot be written. -/
theorem Wrote.save_error {new : Contents} (h : archive.Wrote host.directory contents)
    (whole : ¬ OwnTemporary archive.path ∨ ∃ written, new.bytes = .ok written)
    (failed : archive.save new host = (.error e, host')) :
    archive.Wrote host'.directory contents := by
  obtain ⟨written, extra, bytes, short, read⟩ := h.file
  obtain ⟨place, located, -, -⟩ := read_eq_ok_iff.mp read
  have fails := saveFails_of_save failed
  have apart : ¬ OwnTemporary archive.path := by
    intro own
    rcases whole with apart | ⟨new', bytes'⟩
    · exact apart own
    · rw [(fails.lost own read).1] at bytes'
      cases bytes'
  have kept := fails.unmoved apart
  rw [withFolder_of_located located] at kept
  exact ⟨h.consistent, written, extra, bytes, short, (kept.read located).trans read⟩

/-- New contents over old ones can be written, or the old ones are safe from the attempt. -/
def Safe (archive : Archive) (old new : Contents) : Prop :=
  (∃ written, new.bytes = .ok written) ∨ ¬ OwnTemporary archive.path ∧ old ≠ .empty

theorem Owns.save_error {new : Contents} (h : archive.Owns host.directory contents)
    (safe : archive.Safe contents new) (failed : archive.save new host = (.error e, host')) :
    archive.Owns host'.directory contents := by
  cases h with
  | blank h =>
    rcases safe with ⟨written, bytes⟩ | ⟨-, unlike⟩
    · exact .blank (h.save_error bytes failed)
    · exact absurd rfl unlike
  | wrote h => exact .wrote (h.save_error (safe.symm.imp_left And.left) failed)

/-- The file of the archive is not too long for a 64-bit size. -/
def Short (archive : Archive) (d : Directory) : Prop :=
  ∀ bytes, d.read archive.path = .ok bytes → bytes.length < maxContent

instance (archive : Archive) (d : Directory) : Decidable (archive.Short d) :=
  match read : d.read archive.path with
  | .ok bytes => decidable_of_iff (bytes.length < maxContent)
      ⟨fun short _ again => by rw [read] at again; cases again; exact short,
        fun short => short bytes read⟩
  | .error _ => .isTrue fun _ again => by rw [read] at again; cases again

theorem wrote_of_write {member : String} {plaintext : Bytes} {entry : MemberEntry}
    (short : archive.Short host'.directory)
    (stored : archive.write member plaintext host = (.ok entry, host')) :
    ∃ before after, archive.contents host.directory = .ok before ∧
      Stored archive.password member plaintext before after ∧
      archive.Wrote host'.directory after ∧
      entry = .describe plaintext archive.password.isSome := by
  obtain ⟨before, after, written, found, change, -, bytes, read, rfl⟩ := write_ok stored
  refine ⟨before, after, found, change, ⟨change.consistent (consistent_of_contents found), written,
    [], bytes, short written read, ?_⟩, rfl⟩
  rw [List.append_nil]
  exact read

theorem wrote_of_delete {member : String} {entry : MemberEntry}
    (short : archive.Short host'.directory)
    (deleted : archive.delete member host = (.ok entry, host')) :
    ∃ before, archive.contents host.directory = .ok before ∧
      before.manifest.members.get? member = some entry ∧
      archive.Wrote host'.directory (before.erase member) := by
  obtain ⟨before, written, found, listed, bytes, read⟩ := delete_ok deleted
  refine ⟨before, found, listed, ⟨(consistent_of_contents found).erase member, written, [], bytes,
    short written read, ?_⟩⟩
  rw [List.append_nil]
  exact read

/-- Who owns the archive owns it as before when a member could not be stored. -/
theorem Owns.write_error {member : String} {plaintext : Bytes}
    (h : archive.Owns host.directory contents)
    (safe : ∀ after, Stored archive.password member plaintext contents after →
      archive.Safe contents after)
    (failed : archive.write member plaintext host = (.error e, host')) :
    archive.Owns host'.directory contents := by
  rcases write_error_cases failed with ⟨-, rfl⟩ | ⟨before, found, ⟨-, same⟩ |
    ⟨after, between, revised, same, ⟨-, rfl⟩ | ⟨-, saving⟩⟩⟩
  · exact h
  · exact same ▸ h
  · exact same ▸ h
  · obtain rfl := h.contents_eq found
    rw [← same] at h
    exact h.save_error (safe after (revised_ok revised)) saving

/-- Who owns the archive owns it after a member was stored, or could not be stored. -/
theorem Owns.write {member : String} {plaintext : Bytes}
    {result : Except ArchiveError MemberEntry} (h : archive.Owns host.directory contents)
    (safe : ∀ after, Stored archive.password member plaintext contents after →
      archive.Safe contents after)
    (short : archive.Short host'.directory)
    (ran : archive.write member plaintext host = (result, host')) :
    archive.Owns host'.directory contents ∨
      ∃ after, Stored archive.password member plaintext contents after ∧
        archive.Owns host'.directory after := by
  cases result with
  | ok entry =>
    obtain ⟨before, after, found, change, wrote, -⟩ := wrote_of_write short ran
    obtain rfl := h.contents_eq found
    exact .inr ⟨after, change, .wrote wrote⟩
  | error e => exact .inl (h.write_error safe ran)

/-- Where deleting a member fails: before any file is touched, or while the others are saved. -/
theorem delete_error_cases {member : String} (h : archive.delete member host = (.error e, host')) :
    host'.directory = host.directory ∨
      ∃ before, archive.contents host.directory = .ok before ∧
        archive.save (before.erase member) host = (.error e, host') := by
  rcases Effect.bind_eq_error h with looked | ⟨before, start, looked, rest⟩
  · obtain ⟨-, rfl⟩ := HostM.look_eq looked
    exact .inl rfl
  · obtain ⟨found, rfl⟩ := HostM.look_eq looked
    cases listed : before.manifest.members.get? member with
    | none =>
      rw [listed] at rest
      cases rest
      exact .inl rfl
    | some entry =>
      rw [listed] at rest
      rcases Effect.bind_eq_error rest with failed | ⟨_, saved, -, done⟩
      · exact .inr ⟨before, found, failed⟩
      · cases done

/-- Who owns the archive owns it as before when a member could not be deleted. -/
theorem Owns.delete_error {member : String} (h : archive.Owns host.directory contents)
    (safe : archive.Safe contents (contents.erase member))
    (failed : archive.delete member host = (.error e, host')) :
    archive.Owns host'.directory contents := by
  rcases delete_error_cases failed with same | ⟨before, found, saving⟩
  · exact same ▸ h
  · obtain rfl := h.contents_eq found
    exact h.save_error safe saving

/-- Who owns the archive owns it after a member was deleted, or could not be deleted. -/
theorem Owns.delete {member : String} {result : Except ArchiveError MemberEntry}
    (h : archive.Owns host.directory contents)
    (safe : archive.Safe contents (contents.erase member))
    (short : archive.Short host'.directory)
    (ran : archive.delete member host = (result, host')) :
    archive.Owns host'.directory contents ∨
      archive.Owns host'.directory (contents.erase member) := by
  cases result with
  | ok entry =>
    obtain ⟨before, found, -, wrote⟩ := wrote_of_delete short ran
    obtain rfl := h.contents_eq found
    exact .inr (.wrote wrote)
  | error e => exact .inl (h.delete_error safe ran)

end Archive
end ObjectVault
