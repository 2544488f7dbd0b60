import ObjectVault.Proofs.Subfolders
import ObjectVault.Proofs.Touching

namespace ObjectVault
open ObjectVault.Text

/-- The member lies below the folder, and no other member that lies there is in its way. -/
structure Contents.Shows (contents : Contents) (folder path : String) : Prop where
  listed : path ∈ contents.manifest.members.keys
  below : Below folder path
  unhidden : ∀ other ∈ contents.manifest.members.keys, Below folder other → ¬ Below other path

instance (contents : Contents) (folder path : String) : Decidable (contents.Shows folder path) :=
  decidable_of_iff (path ∈ contents.manifest.members.keys ∧ Below folder path ∧
      ∀ other ∈ contents.manifest.members.keys, Below folder other → ¬ Below other path)
    ⟨fun h => ⟨h.1, h.2.1, h.2.2⟩, fun h => ⟨h.listed, h.below, h.unhidden⟩⟩

namespace View

/-- Names lead from a view through folders, each of them a view that nothing was read through yet,
and the last one to a value or to the reason why there is none. -/
inductive Leads (d : Directory) : View → List String → Except StorageError Value → Prop
  | last {view : View} {name : String} {result : Except StorageError Value}
    (child : view.child? name d = result.map fun v => some (.value v)) :
    Leads d view [name] result
  | folder {view : View} {name next : String} {names : List String}
    {result : Except StorageError Value}
    (child : view.child? name d = .ok (some (.folder (ofFolder view.archive (view.path name)))))
    (behind : Leads d (ofFolder view.archive (view.path name)) (next :: names) result) :
    Leads d view (name :: next :: names) result

/-- The values that were found, with their paths, or the reasons why they cannot be had. -/
abbrev Findings := List (String × Except StorageError Value)

/-- What is found under a name of a view. A folder there is looked through by `inner`. -/
def findings (view : View) (name : String) (d : Directory)
    (inner : View → Except StorageError Findings) : Except StorageError Findings :=
  match view.child? name d with
  | .ok (some (.value v)) => .ok [(view.path name, .ok v)]
  | .ok (some (.folder next)) => inner next
  | .ok none => .ok []
  | .error e => .ok [(view.path name, .error e)]

/-- Looks under one name of a view after the other, and under all names of the folders that are
found there, down to some depth. -/
def walk (d : Directory) : Nat → View → List String → Except StorageError Findings
  | 0, _, _ => .ok []
  | _ + 1, _, [] => .ok []
  | depth + 1, view, name :: names => do
    let found ← view.findings name d fun next => do walk d depth next (← next.children d)
    return found ++ (← walk d (depth + 1) (view.afterLook name d) names)

end View

namespace Contents
variable {contents : Contents} {folder name path : String}

/-- What a folder shows behind a name that is a member itself is that member alone. -/
theorem shows_listed_iff (plain : '/' ∉ name.toList)
    (listed : folder ++ "/" ++ name ∈ contents.manifest.members.keys) :
    contents.Shows folder path ∧ Within (folder ++ "/" ++ name) path ↔
      path = folder ++ "/" ++ name := by
  constructor
  · rintro ⟨shown, same | below⟩
    · exact same
    · exact absurd below (shown.unhidden _ listed (below_behind folder name))
  · rintro rfl
    refine ⟨⟨listed, below_behind folder name, fun other _ inner behind => ?_⟩, .inl rfl⟩
    rcases inner.name_or_below plain behind (.inl rfl) with rfl | longer
    · exact absurd behind.length_lt (Nat.lt_irrefl _)
    · exact absurd (longer.trans behind).length_lt (Nat.lt_irrefl _)

/-- What a folder shows behind a name that is no member is what the folder of that name shows. -/
theorem shows_unlisted_iff (plain : '/' ∉ name.toList)
    (unlisted : folder ++ "/" ++ name ∉ contents.manifest.members.keys) :
    contents.Shows folder path ∧ Within (folder ++ "/" ++ name) path ↔
      contents.Shows (folder ++ "/" ++ name) path := by
  have front := below_behind folder name
  constructor
  · rintro ⟨shown, rfl | below⟩
    · exact absurd shown.listed unlisted
    · exact ⟨shown.listed, below,
        fun other mem inner => shown.unhidden other mem (front.trans inner)⟩
  · intro shown
    refine ⟨⟨shown.listed, front.trans shown.below, fun other mem inner behind => ?_⟩,
      .inr shown.below⟩
    rcases inner.name_or_below plain behind (.inr shown.below) with rfl | longer
    · exact unlisted mem
    · exact shown.unhidden other mem longer behind

end Contents

section Archive
variable {archive : Archive} {d : Directory} {contents : Contents}

/-- The names of the path of a member that a folder shows lead to its value. -/
theorem View.leads_of_shows (found : archive.contents d = .ok contents)
    (normal : ∀ member ∈ contents.manifest.members.keys, NormalPath member) {names : List String}
    (nonempty : names ≠ []) {folder : String}
    (shown : contents.Shows folder ("/".intercalate (folder :: names))) :
    Leads d (ofFolder archive folder) names
      (archive.valueAt ("/".intercalate (folder :: names)) d) := by
  induction names generalizing folder with
  | nil => exact absurd rfl nonempty
  | cons name names ih =>
    have unread := unread_ofFolder archive folder name
    have front := below_behind folder name
    have joined : "/".intercalate (folder :: name :: names) =
        "/".intercalate ((folder ++ "/" ++ name) :: names) := by
      apply String.toList_inj.mp
      cases names <;> simp
    rw [joined] at shown ⊢
    have normalFolder : NormalPath folder := (normal _ shown.listed).of_below shown.below
    cases names with
    | nil =>
      have own : "/".intercalate [folder ++ "/" ++ name] = folder ++ "/" ++ name := by
        simp
      rw [own] at shown ⊢
      exact .last (child?_of_listed unread found shown.listed)
    | cons next names =>
      have below : Below (folder ++ "/" ++ name)
          ("/".intercalate ((folder ++ "/" ++ name) :: next :: names)) :=
        ⟨"/".intercalate (next :: names), by
          apply String.toList_inj.mp
          simp⟩
      have unlisted : folder ++ "/" ++ name ∉ contents.manifest.members.keys := fun mem =>
        shown.unhidden _ mem front below
      have inner : contents.Shows (folder ++ "/" ++ name)
          ("/".intercalate ((folder ++ "/" ++ name) :: next :: names)) :=
        ⟨shown.listed, below, fun other mem behind => shown.unhidden other mem (front.trans behind)⟩
      exact .folder
        (child?_of_inner unread.unkept found normalFolder.folderText unlisted shown.listed below)
        (ih (by simp) inner)

end Archive

namespace View
variable {view : View} {d : Directory} {contents : Contents} {depth : Nat} {names : List String}

/-- Names of the folder of a view, each once, under none of which it was looked yet. -/
structure Pending (view : View) (contents : Contents) (names : List String) : Prop where
  folder : NormalPath view.folder
  unread : ∀ name ∈ names, view.Unread name
  distinct : names.Nodup
  plain : ∀ name ∈ names, '/' ∉ name.toList
  there : ∀ name ∈ names, ∃ member ∈ contents.manifest.members.keys, Within (view.path name) member

theorem Pending.tail {name : String} (h : view.Pending contents (name :: names)) (d : Directory) :
    (view.afterLook name d).Pending contents names := by
  have same := view.keeps_afterLook name d
  obtain ⟨apart, distinct⟩ := List.nodup_cons.mp h.distinct
  refine ⟨?_, fun other mem => ?_, distinct, fun other mem => h.plain other (.tail _ mem),
    fun other mem => ?_⟩
  · rw [same.folder]
    exact h.folder
  · exact (h.unread other (.tail _ mem)).afterLook fun eq => apart (eq ▸ mem)
  · rw [path, same.folder]
    exact h.there other (.tail _ mem)

/-- The findings are the values of the members that a folder shows behind some names, each once. -/
structure Covers (view : View) (contents : Contents) (names : List String) (d : Directory)
    (results : Findings) : Prop where
  distinct : (results.map Prod.fst).Nodup
  mem_iff : ∀ path result, (path, result) ∈ results ↔
    (contents.Shows view.folder path ∧ ∃ name ∈ names, Within (view.path name) path) ∧
      result = view.archive.valueAt path d

theorem Covers.mem_fst {results : Findings} {path : String}
    (h : view.Covers contents names d results) :
    path ∈ results.map Prod.fst ↔
      contents.Shows view.folder path ∧ ∃ name ∈ names, Within (view.path name) path := by
  rw [List.mem_map]
  constructor
  · rintro ⟨⟨path, result⟩, mem, rfl⟩
    exact ((h.mem_iff path result).mp mem).1
  · intro shown
    exact ⟨(path, view.archive.valueAt path d), (h.mem_iff _ _).mpr ⟨shown, rfl⟩, rfl⟩

/-- What is found under a name, and then under others, is what lies under all of them. -/
theorem Covers.append {name : String} {found others : Findings}
    (pending : view.Pending contents (name :: names)) (first : view.Covers contents [name] d found)
    (rest : view.Covers contents names d others) :
    view.Covers contents (name :: names) d (found ++ others) := by
  constructor
  · rw [List.map_append, List.nodup_append]
    refine ⟨first.distinct, rest.distinct, ?_⟩
    rintro path own _ later rfl
    obtain ⟨-, _, alone, within⟩ := first.mem_fst.mp own
    obtain ⟨-, other, mem, within'⟩ := rest.mem_fst.mp later
    obtain rfl := List.mem_singleton.mp alone
    have same :=
      within.unique (pending.plain _ (.head _)) (pending.plain other (.tail _ mem)) within'
    exact (List.nodup_cons.mp pending.distinct).1 (same ▸ mem)
  · intro path result
    rw [List.mem_append, first.mem_iff, rest.mem_iff]
    simp only [List.mem_cons, List.not_mem_nil, or_false, exists_eq_left, exists_eq_or_imp]
    tauto

/-- Where the folders below are looked through, so is what lies under a name. -/
theorem findings_ok {name : String} (inner : View → Except StorageError Findings)
    (found : view.archive.contents d = .ok contents)
    (normal : ∀ member ∈ contents.manifest.members.keys, NormalPath member)
    (pending : view.Pending contents (name :: names))
    (deeper : view.path name ∉ contents.manifest.members.keys →
      NormalPath (view.path name) →
      ∃ listed results, inner (ofFolder view.archive (view.path name)) = .ok results ∧
        (ofFolder view.archive (view.path name)).Covers contents listed d results ∧
        ∀ path, contents.Shows (view.path name) path →
          ∃ next ∈ listed, Within (view.path name ++ "/" ++ next) path) :
    ∃ results, view.findings name d inner = .ok results ∧
      view.Covers contents [name] d results := by
  have unread := pending.unread name (.head _)
  have plain := pending.plain name (.head _)
  by_cases listed : view.path name ∈ contents.manifest.members.keys
  · -- The member is the only finding, be there a value or not.
    refine ⟨[(view.path name, view.archive.valueAt (view.path name) d)], ?_, by simp,
      fun path result => ?_⟩
    · rw [findings, child?_of_listed unread found listed]
      cases view.archive.valueAt (view.path name) d <;> rfl
    · have shown : contents.Shows view.folder path ∧ Within (view.folder ++ "/" ++ name) path ↔
          path = view.folder ++ "/" ++ name :=
        contents.shows_listed_iff plain listed
      simp only [List.mem_singleton, Prod.mk.injEq, exists_eq_left]
      rw [show view.path name = view.folder ++ "/" ++ name from rfl, shown]
      constructor
      · rintro ⟨rfl, rfl⟩
        exact ⟨rfl, rfl⟩
      · rintro ⟨rfl, rfl⟩
        exact ⟨rfl, rfl⟩
  · obtain ⟨member, mem, within⟩ := pending.there name (.head _)
    have below : Below (view.path name) member := by
      rcases within with rfl | below
      · exact absurd mem listed
      · exact below
    obtain ⟨others, results, looked, covers, all⟩ :=
      deeper listed ((normal member mem).of_below below)
    refine ⟨results, ?_, covers.distinct, fun path result => ?_⟩
    · rw [findings, child?_of_inner unread.unkept found pending.folder.folderText listed mem below]
      exact looked
    · have shown : contents.Shows view.folder path ∧ Within (view.folder ++ "/" ++ name) path ↔
          contents.Shows (view.folder ++ "/" ++ name) path :=
        contents.shows_unlisted_iff plain listed
      simp only [List.mem_singleton, exists_eq_left]
      rw [covers.mem_iff, show view.path name = view.folder ++ "/" ++ name from rfl, shown]
      constructor
      · rintro ⟨⟨own, -⟩, same⟩
        exact ⟨own, same⟩
      · rintro ⟨own, same⟩
        exact ⟨⟨own, all path own⟩, same⟩

/-- All names of a folder are pending in a fresh view, and behind them lies what it shows. -/
theorem pending_children {archive : Archive} {folder : String}
    (found : archive.contents d = .ok contents) (normalFolder : NormalPath folder)
    (normal : ∀ member ∈ contents.manifest.members.keys, NormalPath member) :
    ∃ names, (ofFolder archive folder).children d = .ok names ∧
      (ofFolder archive folder).Pending contents names ∧
      ∀ path, contents.Shows folder path → ∃ name ∈ names, Within (folder ++ "/" ++ name) path := by
  have found' : (ofFolder archive folder).archive.contents d = .ok contents := found
  obtain ⟨names, listed, sorted, mem⟩ := children_ok found' normalFolder.folderText
  refine ⟨names, listed, ⟨normalFolder, fun name _ => unread_ofFolder archive folder name, ?_,
    fun name own => ((mem name).mp own).2.1, fun name own => ((mem name).mp own).2.2⟩, ?_⟩
  · apply sorted.imp
    rintro name _ less rfl
    exact String.lt_irrefl name less
  · rintro path shown
    obtain ⟨rest, rfl⟩ := shown.below
    obtain ⟨plain, first⟩ := firstPart_eq_iff.mp (rfl : firstPart rest = firstPart rest)
    have within : Within (folder ++ "/" ++ firstPart rest) (folder ++ "/" ++ rest) :=
      first.behind folder
    have named := ((normal _ shown.listed).of_within within).name_ne_empty
    exact ⟨firstPart rest, (mem _).mpr ⟨named, plain, _, shown.listed, within⟩, within⟩

theorem Covers.of_keeps {later : View} {results : Findings} (same : view.Keeps later)
    (h : later.Covers contents names d results) : view.Covers contents names d results := by
  refine ⟨h.distinct, fun path result => ?_⟩
  have mem_iff := h.mem_iff path result
  simp only [View.path, same.folder, same.archive] at mem_iff
  exact mem_iff

/-- What is found behind some names of a folder is what it shows there. -/
theorem walk_ok (found : view.archive.contents d = .ok contents)
    (normal : ∀ member ∈ contents.manifest.members.keys, NormalPath member)
    (pending : view.Pending contents names)
    (deep : ∀ member ∈ contents.manifest.members.keys, Below view.folder member →
      member.length < view.folder.length + depth) :
    ∃ results, walk d depth view names = .ok results ∧ view.Covers contents names d results := by
  induction depth generalizing view names with
  | zero =>
    refine ⟨[], by rw [walk], by simp, fun path result => ⟨nofun, ?_⟩⟩
    rintro ⟨⟨shown, -⟩, -⟩
    have bound := deep path shown.listed shown.below
    have longer := shown.below.length_lt
    omega
  | succ depth ih =>
    induction names generalizing view with
    | nil => exact ⟨[], by rw [walk], by simp, fun path result => ⟨nofun, by simp⟩⟩
    | cons name names later =>
      have same := view.keeps_afterLook name d
      obtain ⟨first, looked, covers⟩ := findings_ok
        (fun next => do walk d depth next (← next.children d)) found normal pending
        fun _ folder => by
          have found' : (ofFolder view.archive (view.path name)).archive.contents d =
            .ok contents := found
          obtain ⟨listed, children, pending', all⟩ := pending_children found folder normal
          obtain ⟨results, walked, covers⟩ := ih found' pending' fun member mem below => by
              have front := below_behind view.folder name
              have bound := deep member mem (front.trans below)
              have longer := front.length_lt
              simp only [ofFolder, View.path] at longer ⊢
              omega
          refine ⟨listed, results, ?_, covers, all⟩
          simp only [children, bind, Except.bind]
          exact walked
      have found' : (view.afterLook name d).archive.contents d = .ok contents := by
        rw [same.archive]
        exact found
      obtain ⟨others, walked, rest⟩ := later found' (pending.tail d)
        (by rw [same.folder]; exact deep)
      refine ⟨first ++ others, ?_, covers.append pending (rest.of_keeps same)⟩
      rw [walk, looked]
      simp only [bind, Except.bind, walked]
      rfl

/-- Browsing a folder loses no member but those below another member. The names of the path of each
other member lead to its value, through folders that nothing was read through yet, and a walk
through all that is listed finds each of these members once and nothing else. -/
theorem browsing_finds_what_is_shown {archive : Archive} (found : archive.contents d = .ok contents)
    (normal : ∀ member ∈ contents.manifest.members.keys, NormalPath member) {folder : String}
    (named : NormalPath folder) :
    (∀ names, names ≠ [] → contents.Shows folder ("/".intercalate (folder :: names)) →
      Leads d (ofFolder archive folder) names
        (archive.valueAt ("/".intercalate (folder :: names)) d)) ∧
    ∀ depth, (∀ member ∈ contents.manifest.members.keys, member.length ≤ depth) →
      ∃ names results, (ofFolder archive folder).children d = .ok names ∧
        walk d depth (ofFolder archive folder) names = .ok results ∧
        (results.map Prod.fst).Nodup ∧
        ∀ path result, (path, result) ∈ results ↔
          contents.Shows folder path ∧ result = archive.valueAt path d := by
  refine ⟨fun names nonempty shown => leads_of_shows found normal nonempty shown,
    fun depth deep => ?_⟩
  obtain ⟨names, children, pending, all⟩ := pending_children found named normal
  have found' : (ofFolder archive folder).archive.contents d = .ok contents := found
  have bounded : ∀ member ∈ contents.manifest.members.keys,
      Below (ofFolder archive folder).folder member →
        member.length < (ofFolder archive folder).folder.length + depth := by
    intro member mem _
    have positive : folder.length ≠ 0 := by
      rw [← String.length_toList, ne_eq, List.length_eq_zero_iff, String.toList_eq_nil_iff]
      exact named.ne_empty
    have bound := deep member mem
    simp only [ofFolder]
    omega
  obtain ⟨results, walked, covers⟩ := walk_ok found' normal pending bounded
  refine ⟨names, results, children, walked, covers.distinct, fun path result => ?_⟩
  rw [covers.mem_iff]
  constructor
  · rintro ⟨⟨shown, -⟩, same⟩
    exact ⟨shown, same⟩
  · rintro ⟨shown, same⟩
    exact ⟨⟨shown, all path shown⟩, same⟩

end View

/-- The number under three paths, one of which is behind another. -/
def nestedContents : Contents :=
  ((Contents.empty.put "a/b" noteEntry [49]).put "a/b/c" noteEntry [49]).put "a/d/e" noteEntry [49]

/-- A host with the number under three paths of its vault. -/
def nestedHost : Host :=
  Archive.hostHolding vaultPath (nestedContents.bytes.toOption.getD [])

theorem nestedContents_keys :
    nestedContents.manifest.members.keys = ["a/b", "a/b/c", "a/d/e"] := by
  decide +kernel

theorem contents_nestedHost :
    openSession.archive.contents nestedHost.directory = .ok nestedContents := by
  refine Archive.contents_hostHolding (by decide +kernel)
    (Contents.measured_of_lengths (by decide +kernel) (by decide +kernel)) ⟨rfl, fun member => ?_⟩
  simp only [nestedContents, Contents.put, Table.contains, Table.get?_insert]
  split_ifs <;> rfl

theorem normal_nestedContents :
    ∀ member ∈ nestedContents.manifest.members.keys, NormalPath member := by
  rw [nestedContents_keys]
  decide +kernel

theorem nestedContents_plaintext {path : String} (known : path ∈ ["a/b", "a/b/c", "a/d/e"])
    (access : Access) : nestedContents.plaintext access path = .ok [49] := by
  simp only [List.mem_cons, List.not_mem_nil, or_false] at known
  refine plaintext_note ?_ ?_ access <;>
    rcases known with rfl | rfl | rfl <;> simp [nestedContents, Contents.put, Table.get?_insert]

theorem opens_nestedHost : openSession.archive.checkIntegrity nestedHost.directory = .ok () := by
  refine checked_bind_eq_ok_iff.mpr ⟨nestedContents, contents_nestedHost, ?_⟩
  refine Contents.verify_eq_ok_iff.mpr fun member mem => ⟨[49], nestedContents_plaintext ?_ _⟩
  rwa [nestedContents_keys] at mem

theorem valueAt_nestedHost {path : String} (known : path ∈ ["a/b", "a/b/c", "a/d/e"]) :
    openSession.archive.valueAt path nestedHost.directory = .ok (.int 1) := by
  have read : openSession.archive.read path nestedHost.directory = .ok [49] := by
    rw [Archive.read_eq contents_nestedHost]
    exact nestedContents_plaintext known _
  rw [Archive.valueAt, Storage.load_ok read note_storable.imported]
  rfl

namespace View

/-- What no other member is in front of is found, by its names and by a walk. -/
theorem browsing_finds_nested :
    openSession.archive.contents nestedHost.directory = .ok nestedContents ∧
    Leads nestedHost.directory (ofFolder openSession.archive "a") ["d", "e"] (.ok (.int 1)) ∧
    ∃ names results, (ofFolder openSession.archive "a").children nestedHost.directory = .ok names ∧
      walk nestedHost.directory 5 (ofFolder openSession.archive "a") names = .ok results ∧
      ("a/b", .ok (.int 1)) ∈ results ∧ ("a/d/e", .ok (.int 1)) ∈ results := by
  obtain ⟨leads, walks⟩ := browsing_finds_what_is_shown contents_nestedHost normal_nestedContents
    (by decide : NormalPath "a")
  have value := @valueAt_nestedHost
  -- Nothing else is known of the host, so that no file is looked into again.
  have found := contents_nestedHost
  generalize nestedHost = host at found value leads walks
  refine ⟨found, ?_, ?_⟩
  · have led := leads ["d", "e"] (by simp) (by decide +kernel)
    rwa [show "/".intercalate ["a", "d", "e"] = "a/d/e" by decide +kernel, value (by simp)] at led
  · obtain ⟨names, results, listed, walked, -, mem_iff⟩ := walks 5 (by
      rw [nestedContents_keys]
      decide +kernel)
    refine ⟨names, results, listed, walked, (mem_iff _ _).mpr ⟨by decide +kernel, ?_⟩,
      (mem_iff _ _).mpr ⟨by decide +kernel, ?_⟩⟩
    · rw [value (by simp)]
    · rw [value (by simp)]

/-- A folder need not lead to all that lies below it: of two members of which one is behind the
other, the names of that one lead to a value and no further. -/
theorem member_is_hidden :
    openSession.archive.checkIntegrity nestedHost.directory = .ok () ∧
    openSession.archive.contents nestedHost.directory = .ok nestedContents ∧
    (∀ member ∈ nestedContents.manifest.members.keys, NormalPath member) ∧
    "a/b/c" ∈ nestedContents.manifest.members.keys ∧
    openSession.archive.valueAt "a/b/c" nestedHost.directory = .ok (.int 1) ∧
    (ofFolder openSession.archive "a").child? "b" nestedHost.directory =
      .ok (some (.value (.int 1))) ∧
    ∀ result,
      ¬ Leads nestedHost.directory (ofFolder openSession.archive "a") ["b", "c"] result := by
  have opens := opens_nestedHost
  have found := contents_nestedHost
  have value := @valueAt_nestedHost
  generalize nestedHost = host at opens found value
  have child : (ofFolder openSession.archive "a").child? "b" host.directory =
      .ok (some (.value (.int 1))) := by
    rw [child?_of_listed (unread_ofFolder openSession.archive "a" "b") found
      (by rw [nestedContents_keys]; decide)]
    have one : openSession.archive.valueAt "a/b" host.directory = .ok (.int 1) := value (by simp)
    exact congrArg (Except.map fun v => some (Child.value v)) one
  refine ⟨opens, found, normal_nestedContents, by rw [nestedContents_keys]; decide, value (by simp),
    child, fun result leads => ?_⟩
  cases leads with
  | folder other => cases child.symm.trans other

end View
end ObjectVault
