import ObjectVault.Proofs.Saving

namespace ObjectVault
open ObjectVault.Text

namespace Directory
variable {d d' d'' : Directory} {path other : String} {bytes : Bytes}

/-- Only files were changed, and none of them in the place of a folder. -/
structure Refiled (d d' : Directory) : Prop where
  folders : d'.folders = d.folders
  grows : Grows d d'

theorem Refiled.refl (d : Directory) : Refiled d d :=
  ⟨rfl, .refl d⟩

theorem Refiled.trans (first : Refiled d d') (second : Refiled d' d'') : Refiled d d'' :=
  ⟨second.folders.trans first.folders, first.grows.trans second.grows⟩

theorem Refiled.isFolder (h : Refiled d d') (place : Location) :
    d'.isFolder place = d.isFolder place := by
  rw [Directory.isFolder, Directory.isFolder, h.folders]

/-- The path leads to a place that a file can have. -/
def Writable (d : Directory) (path : String) : Prop :=
  ∃ place, d.locate path = .ok place ∧ d.isFolder place = false

theorem Writable.refiled (h : d.Writable path) (changed : Refiled d d') : d'.Writable path := by
  obtain ⟨place, located, free⟩ := h
  exact ⟨place, changed.grows.locate located, (changed.isFolder place).trans free⟩

theorem refiled_write (h : d.write path bytes = .ok d') : Refiled d d' := by
  have grows := grows_write h
  obtain ⟨place, located, free, rfl⟩ := write_eq_ok_iff.mp h
  exact ⟨rfl, grows⟩

theorem Writable.write (h : d.Writable path) (bytes : Bytes) :
    ∃ d', d.write path bytes = .ok d' := by
  obtain ⟨place, located, free⟩ := h
  exact ⟨_, write_eq_ok_iff.mpr ⟨place, located, free, rfl⟩⟩

/-- A file that can be read can be removed. -/
theorem remove_of_read (h : d.read path = .ok bytes) :
    ∃ d', d.remove path = .ok d' ∧ Refiled d d' := by
  obtain ⟨place, located, free, found⟩ := read_eq_ok_iff.mp h
  have file : d.isFile place = true := by simp [isFile, Table.contains, found]
  refine ⟨{ d with files := d.files.erase (key place) }, ?_, rfl, grows_erase d _⟩
  simp [remove, located, free, file, bind, Except.bind, pure, Except.pure]

/-- A file that can be read can be moved to where a file can be. -/
theorem rename_of_read (own : d.read path = .ok bytes) (target : d.Writable other) :
    ∃ d', d.rename path other = .ok d' ∧ d'.read other = .ok bytes ∧ Refiled d d' := by
  obtain ⟨place, located, -, -⟩ := read_eq_ok_iff.mp own
  obtain ⟨removed, gone, changed⟩ := remove_of_read own
  obtain ⟨place', located', free⟩ := target
  by_cases same : place = place'
  · obtain ⟨d', written⟩ := Writable.write ⟨place', located', free⟩ bytes
    have renamed : d.rename path other = .ok d' := by
      simp [rename, own, located, located', same, written, bind, Except.bind, pure, Except.pure]
    exact ⟨d', renamed, read_rename renamed own, refiled_write written⟩
  · obtain ⟨d', written⟩ := Writable.write (Writable.refiled ⟨place', located', free⟩ changed) bytes
    have renamed : d.rename path other = .ok d' := by
      simp [rename, own, located, located', same, gone, written, bind, Except.bind]
    exact ⟨d', renamed, read_rename renamed own, changed.trans (refiled_write written)⟩

/-- Every file is still there, with more bytes at its end at most. -/
def Extends (d d' : Directory) : Prop :=
  ∀ path bytes, d.read path = .ok bytes → ∃ extra, d'.read path = .ok (bytes ++ extra)

theorem Extends.refl (d : Directory) : Extends d d :=
  fun _ bytes read => ⟨[], by rw [List.append_nil]; exact read⟩

theorem Writable.append (h : d.Writable path) (bytes : Bytes) :
    ∃ d', d.append path bytes = .ok d' ∧ Extends d d' := by
  obtain ⟨place, located, free⟩ := h
  let whole := (d.files.get? (key place)).getD [] ++ bytes
  refine ⟨{ d with files := d.files.insert (key place) whole }, ?_, fun other old read => ?_⟩
  · simp only [Directory.append, located, bind, Except.bind, free]
    rfl
  · have grows : Grows d { d with files := d.files.insert (key place) whole } :=
      grows_insert (locate_reached located) free
    obtain ⟨place', located', free', found⟩ := read_eq_ok_iff.mp read
    by_cases same : key place' = key place
    · refine ⟨bytes, read_eq_ok_iff.mpr ⟨place', grows.locate located', free', ?_⟩⟩
      rw [same] at found ⊢
      simp [Table.get?_insert, whole, found]
    · refine ⟨[], read_eq_ok_iff.mpr ⟨place', grows.locate located', free', ?_⟩⟩
      rw [List.append_nil, Table.get?_insert, if_neg same, found]

end Directory

namespace Archive
open Directory

/-- The folder of the archive is there, and its files can be written. -/
structure Ready (archive : Archive) (d : Directory) : Prop where
  folder : parentComponents archive.path = [] ∨
    d.hasFolder (ofComponents (parentComponents archive.path).reverse) = true
  file : d.Writable archive.path
  temporary : d.Writable (temporaryPath archive.path)

theorem Ready.refiled {archive : Archive} {d d' : Directory} (h : archive.Ready d)
    (changed : Refiled d d') : archive.Ready d' := by
  refine ⟨h.folder.imp_right fun folder => ?_, h.file.refiled changed,
    h.temporary.refiled changed⟩
  rw [hasFolder] at folder ⊢
  cases located : d.locate (ofComponents (parentComponents archive.path).reverse) with
  | error fault => simp [located] at folder
  | ok place =>
    rw [located] at folder
    rw [changed.grows.locate located]
    exact (changed.isFolder place).trans folder

/-- The files with the folder of the archive made, and whether that could be done. -/
def withFolder (archive : Archive) (d : Directory) : Directory × Except FileFault Unit :=
  if !(parentComponents archive.path).isEmpty &&
      !d.has (ofComponents (parentComponents archive.path).reverse) then
    d.makeFolders (parentComponents archive.path)
  else (d, .ok ())

theorem makeFolder_apply (archive : Archive) (host : Host) :
    archive.makeFolder host =
      ((archive.withFolder host.directory).2.mapError .file,
        { host with directory := (archive.withFolder host.directory).1 }) := by
  simp only [withFolder, Archive.makeFolder]
  rw [Effect.bind_of_ok (Effect.get_apply host)]
  split
  · generalize host.directory.makeFolders (parentComponents archive.path) = made
    obtain ⟨d, result⟩ := made
    cases result <;> rfl
  · rfl

theorem makeFolder_of_withFolder {archive : Archive} {host : Host} {made : Directory}
    (h : archive.withFolder host.directory = (made, .ok ())) :
    archive.makeFolder host = (.ok (), { host with directory := made }) := by
  rw [makeFolder_apply, h]
  rfl

theorem withFolder_of_hasFolder {archive : Archive} {d : Directory}
    (h : parentComponents archive.path = [] ∨
      d.hasFolder (ofComponents (parentComponents archive.path).reverse) = true) :
    archive.withFolder d = (d, .ok ()) := by
  have there : (!(parentComponents archive.path).isEmpty &&
      !d.has (ofComponents (parentComponents archive.path).reverse)) = false := by
    rcases h with folderless | folder
    · simp [folderless]
    · rw [hasFolder] at folder
      cases located : d.locate (ofComponents (parentComponents archive.path).reverse)
      · simp [located] at folder
      · simp_all [has]
  rw [Archive.withFolder, there]
  rfl

theorem Ready.withFolder {archive : Archive} {d : Directory} (h : archive.Ready d) :
    archive.withFolder d = (d, .ok ()) :=
  withFolder_of_hasFolder h.folder

/-- The folder of the archive can be made, and then its files can be written. -/
structure CanSave (archive : Archive) (d made : Directory) : Prop where
  folder : archive.withFolder d = (made, .ok ())
  ready : archive.Ready made

theorem Ready.canSave {archive : Archive} {d : Directory} (h : archive.Ready d) :
    archive.CanSave d d :=
  ⟨h.withFolder, h⟩

theorem CanSave.save {archive : Archive} {host : Host} {made : Directory}
    (h : archive.CanSave host.directory made) {contents : Contents} {written : Bytes}
    (bytes : contents.bytes = .ok written) :
    ∃ host', archive.save contents host = (.ok (), host') ∧
      host'.directory.read archive.path = .ok written ∧ Refiled made host'.directory := by
  obtain ⟨folder, place⟩ := h
  obtain ⟨cleared, first⟩ := place.temporary.write []
  have emptied := refiled_write first
  obtain ⟨filled, second⟩ := (place.temporary.refiled emptied).write written
  have changed := emptied.trans (refiled_write second)
  obtain ⟨moved, third, read, last⟩ :=
    rename_of_read (read_write second) (place.file.refiled changed)
  refine ⟨{ host with directory := moved }, ?_, read, changed.trans last⟩
  have clear : HostM.change ArchiveError.file (·.write (temporaryPath archive.path) [])
      { host with directory := made } = (.ok (), { host with directory := cleared }) :=
    HostM.change_of_ok first
  have fill : HostM.change ArchiveError.file (·.write (temporaryPath archive.path) written)
      { host with directory := cleared } = (.ok (), { host with directory := filled }) :=
    HostM.change_of_ok second
  have move : HostM.change ArchiveError.file (·.rename (temporaryPath archive.path) archive.path)
      { host with directory := filled } = (.ok (), { host with directory := moved }) :=
    HostM.change_of_ok third
  rw [Archive.save, Effect.bind_of_ok (makeFolder_of_withFolder folder),
    Effect.bind_of_ok clear, bytes]
  exact (Effect.bind_of_ok fill).trans move

end Archive
end ObjectVault
