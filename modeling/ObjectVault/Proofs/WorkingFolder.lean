import ObjectVault.Proofs.Saving

namespace ObjectVault
open ObjectVault.Text

namespace Directory

/-- The name of a file in the working folder. -/
structure FileName (name : String) : Prop where
  whole : pathParts name = [name]
  named : step [] name = [name]

/-- Nothing has happened to what is at the path. -/
structure SameAt (path : String) (d d' : Directory) : Prop where
  read : d'.read path = d.read path
  has : d'.has path = d.has path

theorem SameAt.refl (path : String) (d : Directory) : SameAt path d d :=
  ⟨rfl, rfl⟩

theorem SameAt.trans {path : String} {d d' d'' : Directory} (first : SameAt path d d')
    (second : SameAt path d' d'') : SameAt path d d'' :=
  ⟨second.read.trans first.read, second.has.trans first.has⟩

variable {d d' : Directory} {name other : String}

theorem FileName.ne_empty (h : FileName name) : name ≠ "" := by
  rintro rfl
  exact absurd h.named (by decide)

theorem FileName.locate (h : FileName name) (d : Directory) :
    d.locate name = if d.isFile [] then .error .notAFolder else .ok [name] := by
  have working : d.isFolder [] = true := by simp [isFolder]
  rw [Directory.locate, h.whole]
  split
  · next eq => exact absurd (List.cons.inj eq).1 h.ne_empty
  · simp [walk, working, h.named]

theorem key_name (name : String) : key [name] = name := by
  simp [key]

/-- What is at a name depends on the folders, on its own entry, and on there being no file in the
place of the working folder. -/
theorem FileName.sameAt (h : FileName name) (folders : d'.folders = d.folders)
    (working : d'.files.get? "" = d.files.get? "")
    (own : d'.files.get? name = d.files.get? name) : SameAt name d d' := by
  have free : d'.isFile [] = d.isFile [] := by simp [isFile, key, Table.contains, working]
  have located : d'.locate name = d.locate name := by rw [h.locate, h.locate, free]
  have folder : ∀ place, d'.isFolder place = d.isFolder place := by simp [isFolder, folders]
  have kept : d.locate name = .ok [name] ∨ d.locate name = .error .notAFolder := by
    rw [h.locate]
    split
    · exact .inr rfl
    · exact .inl rfl
  constructor
  · rcases kept with eq | eq
    · simp only [read, located, eq, bind, Except.bind, folder, key_name, own]
    · simp only [read, located, eq, bind, Except.bind]
  · rcases kept with eq | eq
    · simp only [has, located, eq, folder, isFile, key_name, Table.contains, own]
    · simp only [has, located, eq]

theorem FileName.located_eq (h : FileName name) {place : Location}
    (located : d.locate name = .ok place) :
    key place = name := by
  rw [h.locate] at located
  split at located
  · cases located
  · cases located
    exact key_name name

/-- Writing one file leaves the others. -/
theorem FileName.sameAt_write (h : FileName name) (h' : FileName other) (apart : other ≠ name)
    {bytes : Bytes} (written : d.write other bytes = .ok d') : SameAt name d d' := by
  obtain ⟨place, located, -, rfl⟩ := write_eq_ok_iff.mp written
  rw [h'.located_eq located]
  exact h.sameAt rfl (by simp [Table.get?_insert, Ne.symm h'.ne_empty])
    (by simp [Table.get?_insert, Ne.symm apart])

theorem remove_eq_ok (h : d.remove name = .ok d') :
    ∃ place, d.locate name = .ok place ∧ d.isFolder place = false ∧
      d' = { d with files := d.files.erase (key place) } := by
  rw [remove] at h
  cases located : d.locate name with
  | error fault => simp [located, bind, Except.bind] at h
  | ok place =>
    simp only [located, bind, Except.bind] at h
    split at h
    · cases h
    · next free =>
      split at h
      · cases h
      · cases h
        exact ⟨place, rfl, by simpa using free, rfl⟩

theorem FileName.sameAt_remove (h : FileName name) (h' : FileName other) (apart : other ≠ name)
    (removed : d.remove other = .ok d') : SameAt name d d' := by
  obtain ⟨place, located, -, rfl⟩ := remove_eq_ok removed
  rw [h'.located_eq located]
  exact h.sameAt rfl (by simp [Table.get?_erase, Ne.symm h'.ne_empty])
    (by simp [Table.get?_erase, Ne.symm apart])

end Directory

namespace Archive
open Directory

/-- The archive is a file of the working folder, and the file that is written first is another. -/
structure InWorkingFolder (path : String) : Prop where
  file : FileName path
  temporary : FileName (temporaryPath path)
  apart : temporaryPath path ≠ path
  parents : parentComponents path = []

/-- Nothing happens to the archive when it could not be saved. -/
theorem save_error {archive : Archive} (place : InWorkingFolder archive.path) {contents : Contents}
    {host host' : Host} {e : ArchiveError} (h : archive.save contents host = (.error e, host')) :
    SameAt archive.path host.directory host'.directory := by
  have ready : archive.makeFolder host = (.ok (), host) := by
    rw [makeFolder, place.parents]
    rfl
  rw [save, Effect.bind_of_ok ready] at h
  have put : ∀ {start stop : Host} {bytes : Bytes},
      HostM.change ArchiveError.file (·.write (temporaryPath archive.path) bytes) start =
        (.ok (), stop) → SameAt archive.path start.directory stop.directory := by
    intro start stop bytes done
    exact place.file.sameAt_write place.temporary place.apart (HostM.change_eq_ok done).1
  have failed : ∀ {start stop : Host} {f : Directory → Except FileFault Directory},
      HostM.change ArchiveError.file f start = (.error e, stop) →
        SameAt archive.path start.directory stop.directory := by
    intro start stop f done
    rw [(HostM.change_eq_error done).1]
    exact .refl _ _
  rcases Effect.bind_eq_error h with first | ⟨_, cleared, first, rest⟩
  · exact failed first
  · refine (put first).trans ?_
    cases eq : contents.bytes with
    | error error =>
      rw [eq] at rest
      rcases Effect.bind_eq_error rest with second | ⟨_, removed, second, thrown⟩
      · exact failed second
      · cases thrown
        exact place.file.sameAt_remove place.temporary place.apart (HostM.change_eq_ok second).1
    | ok written =>
      rw [eq] at rest
      rcases Effect.bind_eq_error rest with second | ⟨_, filled, second, third⟩
      · exact failed second
      · exact (put second).trans (failed third)

theorem write_error_sameAt {archive : Archive} (place : InWorkingFolder archive.path)
    {member : String} {plaintext : Bytes} {host host' : Host} {e : ArchiveError}
    (h : archive.write member plaintext host = (.error e, host')) :
    SameAt archive.path host.directory host'.directory := by
  rcases write_error h with same | ⟨contents, between, same, failed⟩
  · rw [same]
    exact .refl _ _
  · rw [← same]
    exact save_error place failed

theorem delete_error_sameAt {archive : Archive} (place : InWorkingFolder archive.path)
    {member : String} {host host' : Host} {e : ArchiveError}
    (h : archive.delete member host = (.error e, host')) :
    SameAt archive.path host.directory host'.directory := by
  rcases delete_error h with same | ⟨contents, failed⟩
  · rw [same]
    exact .refl _ _
  · exact save_error place failed

end Archive
end ObjectVault
