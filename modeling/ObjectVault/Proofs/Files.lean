import ObjectVault.Proofs.Places

namespace ObjectVault.Directory
open ObjectVault.Text

theorem reached_root : Reached ["/"] :=
  .inr ⟨[], rfl, by simp⟩

theorem reached_working : Reached [] :=
  .inl (by simp)

theorem reached_append {place : Location} {name : String} (reached : Reached place)
    (segment : Segment name) : Reached (place ++ [name]) := by
  rcases reached with segments | ⟨names, rfl, segments⟩
  · left
    intro other mem
    rcases List.mem_append.mp mem with mem | mem
    · exact segments other mem
    · rw [List.mem_singleton.mp mem]
      exact segment
  · right
    refine ⟨names ++ [name], rfl, fun other mem => ?_⟩
    rcases List.mem_append.mp mem with mem | mem
    · exact segments other mem
    · rw [List.mem_singleton.mp mem]
      exact segment

theorem reached_parent {place : Location} (reached : Reached place) : Reached (parent place) := by
  have up : Segment ".." := ⟨by decide, by decide⟩
  unfold parent
  split
  · exact reached
  · split
    · exact reached_append reached up
    · next root _ =>
      rcases reached with segments | ⟨names, rfl, segments⟩
      · exact .inl fun name mem => segments name ((List.dropLast_sublist _).subset mem)
      · have nonempty : names ≠ [] := by
          rintro rfl
          exact root (by decide)
        refine .inr ⟨names.dropLast, List.dropLast_cons_of_ne_nil nonempty, fun name mem => ?_⟩
        exact segments name ((List.dropLast_sublist _).subset mem)

theorem reached_step {place : Location} {part : String} (reached : Reached place)
    (slashless : '/' ∉ part.toList) : Reached (step place part) := by
  unfold step
  split
  · exact reached
  · next named =>
    split
    · exact reached_parent reached
    · refine reached_append reached ⟨fun empty => named ?_, slashless⟩
      rw [empty]
      decide

/-- The parts between slashes hold none. -/
theorem slashless_of_mem_pathParts {path part : String} (h : part ∈ pathParts path) :
    '/' ∉ part.toList := by
  obtain ⟨cs, mem, rfl⟩ := List.mem_map.mp h
  rw [String.toList_ofList]
  exact separator_not_mem mem

/-- Folders stay folders and become no files. -/
structure Grows (d d' : Directory) : Prop where
  folder : ∀ place, d.isFolder place = true → d'.isFolder place = true
  file : ∀ place, Reached place → d.isFolder place = true → d'.isFile place = true →
    d.isFile place = true

theorem Grows.refl (d : Directory) : Grows d d :=
  ⟨fun _ h => h, fun _ _ _ h => h⟩

theorem Grows.trans {d d' d'' : Directory} (first : Grows d d') (second : Grows d' d'') :
    Grows d d'' :=
  ⟨fun place h => second.folder place (first.folder place h), fun place reached h file =>
    first.file place reached h (second.file place reached (first.folder place h) file)⟩

variable {d d' : Directory} {path other : String} {place : Location} {bytes : Bytes}

theorem walk_reached {start : Location} {parts : List String} (h : d.walk start parts = .ok place)
    (reached : Reached start) (slashless : ∀ part ∈ parts, '/' ∉ part.toList) : Reached place := by
  induction parts generalizing start with
  | nil =>
    cases h
    exact reached
  | cons part parts ih =>
    rw [walk] at h
    split at h
    · cases h
    · split at h
      · cases h
      · exact ih h (reached_step reached (slashless part List.mem_cons_self))
          fun p mem => slashless p (List.mem_cons_of_mem _ mem)

/-- The same walk leads to the same place when folders were added or files changed. -/
theorem Grows.walk (grows : Grows d d') {start : Location} {parts : List String}
    (h : d.walk start parts = .ok place) (reached : Reached start)
    (slashless : ∀ part ∈ parts, '/' ∉ part.toList) : d'.walk start parts = .ok place := by
  induction parts generalizing start with
  | nil => exact h
  | cons part parts ih =>
    rw [Directory.walk] at h ⊢
    split at h
    · cases h
    · next noFile =>
      split at h
      · cases h
      · next folder =>
        have stays : d.isFolder start = true := by simpa using folder
        have free : ¬ d'.isFile start = true := fun file =>
          noFile (grows.file start reached stays file)
        rw [if_neg free, if_neg (by simp [grows.folder start stays])]
        exact ih h (reached_step reached (slashless part List.mem_cons_self))
          fun p mem => slashless p (List.mem_cons_of_mem _ mem)

theorem locate_eq_ok (h : d.locate path = .ok place) :
    ∃ start parts, Reached start ∧ (∀ part ∈ parts, '/' ∉ part.toList) ∧
      d.walk start parts = .ok place ∧ ∀ d' : Directory, d'.locate path = d'.walk start parts := by
  have slashless : ∀ part ∈ pathParts path, '/' ∉ part.toList :=
    fun _ mem => slashless_of_mem_pathParts mem
  simp only [locate] at h ⊢
  split at h
  · next rest eq =>
    split at h
    · cases h
    · next nonempty =>
      rw [eq] at slashless
      refine ⟨["/"], rest, reached_root, fun p mem => slashless p (List.mem_cons_of_mem _ mem), h,
        fun d' => ?_⟩
      rw [if_neg nonempty]
  · exact ⟨[], pathParts path, reached_working, slashless, h, fun _ => rfl⟩

theorem locate_reached (h : d.locate path = .ok place) : Reached place := by
  obtain ⟨start, parts, reached, slashless, walked, -⟩ := locate_eq_ok h
  exact walk_reached walked reached slashless

theorem Grows.locate (grows : Grows d d') (h : d.locate path = .ok place) :
    d'.locate path = .ok place := by
  obtain ⟨start, parts, reached, slashless, walked, same⟩ := locate_eq_ok h
  rw [same]
  exact grows.walk walked reached slashless

theorem isFile_insert (reached : Reached place) {target : Location} (reached' : Reached target) :
    ({ d with files := d.files.insert (key target) bytes } : Directory).isFile place =
      (place == target || d.isFile place) := by
  rw [isFile, Table.contains, Table.get?_insert]
  by_cases same : place = target
  · simp [same]
  · have apart : key place ≠ key target := fun eq => same (key_inj reached reached' eq)
    simp [same, apart, isFile, Table.contains]

theorem grows_insert (reached : Reached place) (free : d.isFolder place = false) :
    Grows d { d with files := d.files.insert (key place) bytes } := by
  refine ⟨fun _ h => h, fun p reached' folder file => ?_⟩
  rw [isFile_insert reached' reached] at file
  rcases Bool.or_eq_true_iff.mp file with same | file
  · rw [beq_iff_eq.mp same, free] at folder
    cases folder
  · exact file

theorem grows_erase (d : Directory) (name : String) :
    Grows d { d with files := d.files.erase name } := by
  refine ⟨fun _ h => h, fun p _ _ file => ?_⟩
  simp only [isFile, Table.contains, Table.get?_erase] at file ⊢
  split at file
  · cases file
  · exact file

theorem write_eq_ok_iff :
    d.write path bytes = .ok d' ↔ ∃ place, d.locate path = .ok place ∧ d.isFolder place = false ∧
      d' = { d with files := d.files.insert (key place) bytes } := by
  rw [write]
  cases h : d.locate path with
  | error fault => simp [bind, Except.bind]
  | ok place =>
    cases folder : d.isFolder place with
    | true => simp [bind, Except.bind, folder, throw, throwThe, MonadExceptOf.throw]
    | false =>
      simp only [bind, Except.bind, folder, pure, Except.pure, Bool.false_eq_true, ↓reduceIte,
        Except.ok.injEq, exists_eq_left', true_and]
      exact eq_comm

theorem read_eq_ok_iff :
    d.read path = .ok bytes ↔ ∃ place, d.locate path = .ok place ∧ d.isFolder place = false ∧
      d.files.get? (key place) = some bytes := by
  rw [read]
  cases h : d.locate path with
  | error fault => simp [bind, Except.bind]
  | ok place =>
    cases folder : d.isFolder place with
    | true => simp [bind, Except.bind, folder, throw, throwThe, MonadExceptOf.throw]
    | false =>
      cases found : d.files.get? (key place) with
      | none =>
        simp [bind, Except.bind, folder, found, throw, throwThe, MonadExceptOf.throw]
      | some b => simp [bind, Except.bind, folder, found, pure, Except.pure]

theorem grows_write (h : d.write path bytes = .ok d') : Grows d d' := by
  obtain ⟨place, located, free, rfl⟩ := write_eq_ok_iff.mp h
  exact grows_insert (locate_reached located) free

/-- A file that was written is read. -/
theorem read_write (h : d.write path bytes = .ok d') : d'.read path = .ok bytes := by
  have grows := grows_write h
  obtain ⟨place, located, free, rfl⟩ := write_eq_ok_iff.mp h
  exact read_eq_ok_iff.mpr ⟨place, grows.locate located, free, by simp [Table.get?_insert]⟩

theorem has_of_read (h : d.read path = .ok bytes) : d.has path = true := by
  obtain ⟨place, located, -, found⟩ := read_eq_ok_iff.mp h
  simp [has, located, isFile, Table.contains, found]

/-- A file that is moved is written at its new path. -/
theorem rename_eq_ok (h : d.rename path other = .ok d') :
    ∃ bytes between, d.read path = .ok bytes ∧ (between = d ∨ d.remove path = .ok between) ∧
      between.write other bytes = .ok d' := by
  rw [rename] at h
  cases own : d.read path with
  | error fault => simp [own, bind, Except.bind] at h
  | ok bytes =>
    cases source : d.locate path with
    | error fault => simp [own, source, bind, Except.bind] at h
    | ok place =>
      cases target : d.locate other with
      | error fault => simp [own, source, target, bind, Except.bind] at h
      | ok place' =>
        simp only [own, source, target, bind, Except.bind, pure, Except.pure] at h
        by_cases same : place = place'
        · rw [if_pos same] at h
          exact ⟨bytes, d, rfl, .inl rfl, h⟩
        · rw [if_neg same] at h
          cases removed : d.remove path with
          | error fault => simp [removed] at h
          | ok between => exact ⟨bytes, between, rfl, .inr rfl, by simpa [removed] using h⟩

theorem read_rename (h : d.rename path other = .ok d') (own : d.read path = .ok bytes) :
    d'.read other = .ok bytes := by
  obtain ⟨moved, between, read, -, written⟩ := rename_eq_ok h
  rw [own] at read
  cases read
  exact read_write written

end ObjectVault.Directory
