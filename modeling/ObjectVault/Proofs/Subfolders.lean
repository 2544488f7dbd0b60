import ObjectVault.Proofs.Asserting
import ObjectVault.Proofs.SortedMap
import Mathlib.Data.List.TakeWhile

namespace ObjectVault
open ObjectVault.Text

theorem toList_behind (folder name : String) :
    (folder ++ "/" ++ name).toList = folder.toList ++ '/' :: name.toList := by
  simp

/-- The path goes on behind the folder. -/
def Below (folder path : String) : Prop :=
  ∃ rest, path = folder ++ "/" ++ rest

theorem below_iff_isPrefixOf {folder path : String} :
    Below folder path ↔ (folder.toList ++ ['/']).isPrefixOf path.toList = true := by
  rw [List.isPrefixOf_iff_prefix]
  constructor
  · rintro ⟨rest, rfl⟩
    exact ⟨rest.toList, by simp⟩
  · rintro ⟨rest, same⟩
    exact ⟨.ofList rest, String.toList_inj.mp (by simp [← same])⟩

instance (folder path : String) : Decidable (Below folder path) :=
  decidable_of_iff _ below_iff_isPrefixOf.symm

/-- The path is the one of the folder, or goes on behind it. -/
def Within (folder path : String) : Prop :=
  path = folder ∨ Below folder path

instance (folder path : String) : Decidable (Within folder path) :=
  inferInstanceAs (Decidable (path = folder ∨ Below folder path))

theorem below_behind (folder name : String) : Below folder (folder ++ "/" ++ name) :=
  ⟨name, rfl⟩

theorem Below.trans {first second third : String} (h : Below first second)
    (h' : Below second third) : Below first third := by
  obtain ⟨rest, rfl⟩ := h
  obtain ⟨more, rfl⟩ := h'
  exact ⟨rest ++ "/" ++ more, by simp [String.append_assoc]⟩

theorem Within.behind {name rest : String} (h : Within name rest) (folder : String) :
    Within (folder ++ "/" ++ name) (folder ++ "/" ++ rest) := by
  rcases h with rfl | ⟨more, rfl⟩
  · exact .inl rfl
  · exact .inr ⟨more, by simp [String.append_assoc]⟩

theorem Below.length_lt {folder path : String} (h : Below folder path) :
    folder.length < path.length := by
  obtain ⟨rest, rfl⟩ := h
  have slash : "/".length = 1 := rfl
  rw [String.length_append, String.length_append, slash]
  omega

/-- Of a list without separators and another one that both stand in front of a separator in the
same list, the first is the other, or stands in front of a separator in it. -/
theorem eq_or_behind {α : Type} {a : α} {xs ys zs ws : List α} (plain : a ∉ xs)
    (same : xs ++ a :: zs = ys ++ a :: ws) : ys = xs ∨ ∃ rest, ys = xs ++ a :: rest := by
  rcases List.append_eq_append_iff.mp same with ⟨between, rfl, eq⟩ | ⟨between, rfl, eq⟩
  · cases between with
    | nil => exact .inl (by simp)
    | cons b between =>
      obtain ⟨rfl, -⟩ := List.cons.inj eq
      exact .inr ⟨between, rfl⟩
  · cases between with
    | nil => exact .inl (by simp)
    | cons b between =>
      obtain ⟨rfl, -⟩ := List.cons.inj eq
      exact absurd (List.mem_append_right ys List.mem_cons_self) plain

section Names
variable {folder name other path : String}

/-- A path goes on behind no more than one name of a folder. -/
theorem Within.unique (plain : '/' ∉ name.toList) (plain' : '/' ∉ other.toList)
    (h : Within (folder ++ "/" ++ name) path) (h' : Within (folder ++ "/" ++ other) path) :
    name = other := by
  -- Behind the folder stand the name and perhaps more, which a separator begins.
  have lead : ∀ {name : String}, '/' ∉ name.toList → Within (folder ++ "/" ++ name) path →
      path.toList = folder.toList ++ '/' :: name.toList ∨
        ∃ rest, path.toList = folder.toList ++ '/' :: (name.toList ++ '/' :: rest) := by
    rintro name - (rfl | ⟨rest, rfl⟩)
    · exact .inl (toList_behind _ _)
    · exact .inr ⟨rest.toList, by rw [toList_behind, toList_behind]; simp⟩
  have same : ∀ {xs ys zs : List Char}, '/' ∉ ys → ys = xs ++ '/' :: zs → False := by
    rintro xs ys zs plain rfl
    exact plain (List.mem_append_right xs List.mem_cons_self)
  rcases lead plain h with eq | ⟨rest, eq⟩ <;> rcases lead plain' h' with eq' | ⟨rest', eq'⟩ <;>
    have names := (List.cons.inj (List.append_cancel_left (eq.symm.trans eq'))).2
  · exact String.toList_inj.mp names
  · exact (same plain names).elim
  · exact (same plain' names.symm).elim
  · rcases eq_or_behind plain names with alike | ⟨more, longer⟩
    · exact (String.toList_inj.mp alike).symm
    · exact (same plain' longer).elim

/-- What goes on behind a path that goes on behind a folder is the path of a name there, or goes on
behind one. -/
theorem Below.name_or_below (plain : '/' ∉ name.toList) (h : Below folder other)
    (behind : Below other path) (own : Within (folder ++ "/" ++ name) path) :
    other = folder ++ "/" ++ name ∨ Below (folder ++ "/" ++ name) other := by
  obtain ⟨middle, rfl⟩ := h
  obtain ⟨last, rfl⟩ := behind
  rcases own with same | ⟨more, same⟩
  · have lists := congrArg String.toList same
    simp only [toList_behind, List.append_assoc] at lists
    have names := (List.cons.inj (List.append_cancel_left lists)).2
    exact absurd (names ▸ List.mem_append_right _ List.mem_cons_self) plain
  · have lists := congrArg String.toList same
    simp only [toList_behind, List.append_assoc, List.cons_append] at lists
    have names := (List.cons.inj (List.append_cancel_left lists)).2
    rcases eq_or_behind plain names.symm with alike | ⟨rest, longer⟩
    · exact .inl (by rw [String.toList_inj.mp alike])
    · refine .inr ⟨.ofList rest, String.toList_inj.mp ?_⟩
      simp [longer]

end Names

/-- The name of a folder: some text with no slash at its end. -/
structure FolderText (folder : String) : Prop where
  nonempty : folder ≠ ""
  ended : folder.toList.getLast? ≠ some '/'

instance (folder : String) : Decidable (FolderText folder) :=
  decidable_of_iff (folder ≠ "" ∧ folder.toList.getLast? ≠ some '/')
    ⟨fun h => ⟨h.1, h.2⟩, fun h => ⟨h.nonempty, h.ended⟩⟩

namespace FolderText
variable {folder path rest : String}

theorem trimmed_eq (h : FolderText folder) : Archive.trimmed folder = folder := by
  have kept : folder.toList.reverse.dropWhile (· == '/') = folder.toList.reverse := by
    have ended := h.ended
    rw [← List.head?_reverse] at ended
    cases eq : folder.toList.reverse with
    | nil => rfl
    | cons c cs =>
      rw [eq] at ended
      rw [List.dropWhile_cons_of_neg (by simpa using ended)]
  rw [Archive.trimmed, kept, List.reverse_reverse, String.ofList_toList]

theorem below?_eq_some_iff (h : FolderText folder) :
    Archive.below? folder path = some rest ↔ path = folder ++ "/" ++ rest := by
  rw [Archive.below?_eq_some_iff, h.trimmed_eq]

end FolderText

section Normal
variable {folder path : String}

theorem NormalPath.of_below (h : NormalPath path) (below : Below folder path) :
    NormalPath folder := by
  obtain ⟨rest, rfl⟩ := below
  have parts := h.named
  rw [toList_behind, List.splitOn_append_cons_self] at parts
  refine ⟨fun part mem => parts part (List.mem_append_left _ mem), fun zero => h.nonzero ?_⟩
  rw [encodeUtf8_append, encodeUtf8_append]
  exact List.mem_append_left _ (List.mem_append_left _ zero)

theorem NormalPath.of_within (h : NormalPath path) (within : Within folder path) :
    NormalPath folder := by
  rcases within with rfl | below
  · exact h
  · exact h.of_below below

theorem NormalPath.name_ne_empty {name : String} (h : NormalPath (folder ++ "/" ++ name)) :
    name ≠ "" := by
  rintro rfl
  have parts := h.named
  rw [toList_behind, List.splitOn_append_cons_self] at parts
  exact (parts [] (List.mem_append_right _ (by simp))).1 rfl

theorem NormalPath.ne_empty (h : NormalPath path) : path ≠ "" := by
  rintro rfl
  exact (h.named [] (by simp)).1 rfl

/-- A path of segments that name something ends with no slash. -/
theorem NormalPath.folderText (h : NormalPath path) : FolderText path := by
  refine ⟨h.ne_empty, fun last => ?_⟩
  obtain ⟨front, eq⟩ := List.getLast?_eq_some_iff.mp last
  have parts := h.named
  rw [eq, List.splitOn_append_cons_self] at parts
  exact (parts [] (by simp)).1 rfl

end Normal

/-- The value of a member that comes of its bytes by default. -/
def Archive.valueAt (archive : Archive) (path : String) (d : Directory) :
    Except StorageError Value :=
  (Storage.load archive path none d).map (·.value)

namespace View
variable {view : View} {contents : Contents} {d : Directory} {name rest : String}

theorem firstPart_eq_iff :
    firstPart rest = name ↔ '/' ∉ name.toList ∧ Within name rest := by
  have parted : rest.toList = (firstPart rest).toList ++ rest.toList.dropWhile (· != '/') := by
    rw [firstPart, String.toList_ofList, List.takeWhile_append_dropWhile]
  have plain : '/' ∉ (firstPart rest).toList := by
    rw [firstPart, String.toList_ofList]
    intro mem
    have other := List.mem_takeWhile_imp mem
    simp at other
  constructor
  · rintro rfl
    refine ⟨plain, ?_⟩
    cases behind : rest.toList.dropWhile (· != '/') with
    | nil =>
      rw [behind, List.append_nil] at parted
      exact .inl (String.toList_inj.mp parted)
    | cons c cs =>
      have slash : c = '/' := by
        have first := List.head?_dropWhile_not (· != '/') rest.toList
        rw [behind] at first
        simpa using first
      refine .inr ⟨.ofList cs, String.toList_inj.mp ?_⟩
      rw [parted, behind, slash]
      simp
  · rintro ⟨plain', rfl | ⟨more, rfl⟩⟩
    · have whole : rest.toList.takeWhile (· != '/') = rest.toList :=
        List.takeWhile_eq_self_iff.mpr fun c mem => by
          simpa using fun slash : c = '/' => plain' (slash ▸ mem)
      rw [firstPart, whole, String.ofList_toList]
    · have front : ∀ c ∈ name.toList, (c != '/') = true := fun c mem => by
        simpa using fun slash : c = '/' => plain' (slash ▸ mem)
      rw [firstPart, toList_behind, List.takeWhile_append_of_pos front]
      simp

/-- The view has not kept what lies under the name, and has no importer for it. -/
structure Unread (view : View) (name : String) : Prop where
  unkept : view.kept.get? name = none
  plain : view.importers.get? name = none

theorem unread_ofFolder (archive : Archive) (folder name : String) :
    (ofFolder archive folder).Unread name :=
  ⟨rfl, rfl⟩

/-- What is kept under one name makes no difference for another. -/
theorem Unread.afterLook {other : String} (h : view.Unread name) (apart : name ≠ other) :
    (view.afterLook other d).Unread name := by
  rw [View.afterLook]
  split
  · refine ⟨?_, h.plain⟩
    rw [Table.get?_insert, if_neg apart]
    exact h.unkept
  · exact h

/-- The members below the folder of a view, as they are seen from there. -/
theorem list_eq (found : view.archive.contents d = .ok contents)
    (folder : FolderText view.folder) :
    Storage.list view.archive view.folder d =
      .ok (contents.manifest.members.keys.filterMap (Archive.below? view.folder)) := by
  have named : view.folder.isEmpty = false := by
    simpa using folder.nonempty
  simp [Storage.list, Archive.list, Archive.manifest, found, Except.map, Except.mapError, bind,
    Except.bind, pure, Except.pure, named]

/-- The names in the folder of a view are the first parts of what lies there. -/
theorem children_ok (found : view.archive.contents d = .ok contents)
    (folder : FolderText view.folder) :
    ∃ names, view.children d = .ok names ∧ names.Pairwise (· < ·) ∧
      ∀ name, name ∈ names ↔ name ≠ "" ∧ '/' ∉ name.toList ∧
        ∃ member ∈ contents.manifest.members.keys, Within (view.path name) member := by
  let members := contents.manifest.members.keys.filterMap (Archive.below? view.folder)
  let names := (members.map firstPart).filter (· != "")
  refine ⟨(Table.ofList (names.map (·, ()))).keys, ?_, Table.sorted_keys _, fun name => ?_⟩
  · rw [children, list_eq found folder]
    rfl
  · have listed : name ∈ (Table.ofList (names.map (·, ()))).keys ↔
        name ≠ "" ∧ ∃ rest, firstPart rest = name ∧
          view.folder ++ "/" ++ rest ∈ contents.manifest.members.keys := by
      rw [← Table.contains_iff, Table.contains_ofList]
      simp only [names, members, List.map_map, Function.comp_def, List.map_id', List.mem_filter,
        List.mem_map, List.mem_filterMap, folder.below?_eq_some_iff, bne_iff_ne, ne_eq]
      constructor
      · rintro ⟨⟨rest, ⟨member, mem, rfl⟩, rfl⟩, nonempty⟩
        exact ⟨nonempty, rest, rfl, mem⟩
      · rintro ⟨nonempty, rest, rfl, mem⟩
        exact ⟨⟨rest, ⟨_, mem, rfl⟩, rfl⟩, nonempty⟩
    rw [listed]
    simp only [firstPart_eq_iff]
    refine and_congr_right fun _ => ⟨?_, ?_⟩
    · rintro ⟨rest, ⟨plain, rfl | ⟨more, rfl⟩⟩, mem⟩
      · exact ⟨plain, _, mem, .inl rfl⟩
      · exact ⟨plain, _, mem, .inr ⟨more, by simp [path, String.append_assoc]⟩⟩
    · rintro ⟨plain, member, mem, rfl | ⟨more, rfl⟩⟩
      · exact ⟨name, ⟨plain, .inl rfl⟩, mem⟩
      · refine ⟨name ++ "/" ++ more, ⟨plain, .inr ⟨more, rfl⟩⟩, ?_⟩
        simpa [path, String.append_assoc] using mem

theorem contains_eq (found : view.archive.contents d = .ok contents) :
    Storage.contains view.archive (view.path name) d =
      .ok (decide (view.path name ∈ contents.manifest.members.keys)) := by
  rw [Storage.contains, Archive.contains_eq found]
  exact congrArg Except.ok (Bool.eq_iff_iff.mpr (by rw [Table.contains_iff, decide_eq_true_iff]))

/-- Where nothing is kept under the name, the member there is loaded. -/
theorem child?_of_member (unkept : view.kept.get? name = none)
    (found : view.archive.contents d = .ok contents)
    (listed : view.path name ∈ contents.manifest.members.keys) :
    view.child? name d =
      (Storage.load view.archive (view.path name) (view.importers.get? name) d).map
        fun loaded => some (.value loaded.value) := by
  simp only [child?, unkept, contains_eq found, listed, bind, Except.bind, pure, Except.pure,
    decide_true, ↓reduceIte]
  cases Storage.load view.archive (view.path name) (view.importers.get? name) d <;> rfl

/-- Where no member lies under the name, all that can lie there is a folder. -/
theorem child?_of_no_member (unkept : view.kept.get? name = none)
    (found : view.archive.contents d = .ok contents)
    (unlisted : view.path name ∉ contents.manifest.members.keys) :
    view.child? name d = (view.subfolder? name d).map (Option.map .folder) := by
  simp only [child?, unkept, contains_eq found, unlisted, bind, Except.bind, pure, Except.pure,
    decide_false, Bool.false_eq_true, ↓reduceIte]
  cases view.subfolder? name d <;> rfl

/-- A folder is there if some member lies below it. -/
theorem subfolder?_eq (found : view.archive.contents d = .ok contents)
    (folder : FolderText view.folder) :
    view.subfolder? name d =
      .ok (if ∃ member ∈ contents.manifest.members.keys, Below (view.path name) member then
        some (ofFolder view.archive (view.path name)) else none) := by
  have lead : ((contents.manifest.members.keys.filterMap (Archive.below? view.folder)).any
      ((name.toList ++ ['/']).isPrefixOf ·.toList)) = true ↔
        ∃ member ∈ contents.manifest.members.keys, Below (view.path name) member := by
    simp only [List.any_eq_true, List.mem_filterMap, folder.below?_eq_some_iff,
      ← below_iff_isPrefixOf]
    constructor
    · rintro ⟨_, ⟨_, mem, rfl⟩, more, rfl⟩
      exact ⟨_, mem, more, by simp [path, String.append_assoc]⟩
    · rintro ⟨_, mem, more, rfl⟩
      exact ⟨name ++ "/" ++ more, ⟨_, mem, by simp [path, String.append_assoc]⟩, more, rfl⟩
  rw [subfolder?, list_eq found folder]
  simp only [bind, Except.bind, pure, Except.pure, lead]

/-- Where no member lies under the name but some lies below it, a folder does. -/
theorem child?_of_inner (unkept : view.kept.get? name = none)
    (found : view.archive.contents d = .ok contents) (folder : FolderText view.folder)
    (unlisted : view.path name ∉ contents.manifest.members.keys) {member : String}
    (mem : member ∈ contents.manifest.members.keys) (below : Below (view.path name) member) :
    view.child? name d = .ok (some (.folder (ofFolder view.archive (view.path name)))) := by
  rw [child?_of_no_member unkept found unlisted, subfolder?_eq found folder,
    if_pos ⟨member, mem, below⟩]
  rfl

/-- A value, or the reason why it cannot be had, lies exactly under the name of a member. -/
theorem value_or_error_iff (unkept : view.kept.get? name = none)
    (found : view.archive.contents d = .ok contents) (folder : FolderText view.folder) :
    ((∃ v, view.child? name d = .ok (some (.value v))) ∨ ∃ e, view.child? name d = .error e) ↔
      view.path name ∈ contents.manifest.members.keys := by
  by_cases listed : view.path name ∈ contents.manifest.members.keys
  · rw [child?_of_member unkept found listed]
    refine iff_of_true ?_ listed
    cases Storage.load view.archive (view.path name) (view.importers.get? name) d with
    | ok loaded => exact .inl ⟨loaded.value, rfl⟩
    | error e => exact .inr ⟨e, rfl⟩
  · rw [child?_of_no_member unkept found listed, subfolder?_eq found folder]
    refine iff_of_false ?_ listed
    split <;> rintro (⟨v, other⟩ | ⟨e, other⟩) <;> cases other

/-- Nothing lies under a name exactly if no member lies there or below. -/
theorem child?_eq_none_iff (unkept : view.kept.get? name = none)
    (found : view.archive.contents d = .ok contents) (folder : FolderText view.folder) :
    view.child? name d = .ok none ↔
      ∀ member ∈ contents.manifest.members.keys, ¬ Within (view.path name) member := by
  constructor
  · intro nothing member mem within
    have unlisted : view.path name ∉ contents.manifest.members.keys := by
      intro listed
      rcases (value_or_error_iff unkept found folder).mpr listed with ⟨v, other⟩ | ⟨e, other⟩
      · cases nothing.symm.trans other
      · cases nothing.symm.trans other
    rcases within with rfl | below
    · exact unlisted mem
    · cases nothing.symm.trans (child?_of_inner unkept found folder unlisted mem below)
  · intro missing
    have unlisted : view.path name ∉ contents.manifest.members.keys :=
      fun listed => missing _ listed (.inl rfl)
    rw [child?_of_no_member unkept found unlisted, subfolder?_eq found folder, if_neg]
    · rfl
    · rintro ⟨member, mem, below⟩
      exact missing member mem (.inr below)

/-- Where a member lies under the name, it is loaded. -/
theorem child?_of_listed (h : view.Unread name) (found : view.archive.contents d = .ok contents)
    (listed : view.path name ∈ contents.manifest.members.keys) :
    view.child? name d =
      (view.archive.valueAt (view.path name) d).map fun v => some (.value v) := by
  rw [child?_of_member h.unkept found listed, h.plain, Archive.valueAt]
  cases Storage.load view.archive (view.path name) none d <;> rfl

/-- Where no member lies under the name or below it, nothing does. -/
theorem child?_of_missing (h : view.Unread name) (found : view.archive.contents d = .ok contents)
    (folder : FolderText view.folder)
    (missing : ∀ member ∈ contents.manifest.members.keys, ¬ Within (view.path name) member) :
    view.child? name d = .ok none :=
  (child?_eq_none_iff h.unkept found folder).mpr missing

/-- In an archive that cannot be read nothing is found, for the reason that it cannot be read. -/
theorem child?_of_unreadable {e : ArchiveError} (unkept : view.kept.get? name = none)
    (broken : view.archive.contents d = .error e) : view.child? name d = .error (.archive e) := by
  have failed : Storage.contains view.archive (view.path name) d = .error (.archive e) := by
    rw [Storage.contains, Archive.contains, Archive.manifest, broken]
    rfl
  simp only [child?, unkept, failed, bind, Except.bind]

theorem valueAt_of_unreadable {archive : Archive} {path : String} {e : ArchiveError}
    (broken : archive.contents d = .error e) : archive.valueAt path d = .error (.archive e) := by
  have failed : archive.read path d = .error e := by
    rw [Archive.read, broken]
    rfl
  rw [Archive.valueAt, Storage.load, failed]
  rfl

end View
end ObjectVault
