import ObjectVault.Proofs.Browsing

namespace ObjectVault.View
variable {view : View} {d : Directory} {contents : Contents}

/-- A folder lists the names under which something lies in it, in order and each once. What lies in
another folder, of which the text only begins alike, is not listed. Under the name of a member lies
its value, or the reason why it cannot be had, also if there are members below it, and under each
other name that is listed lies a folder. -/
theorem listing_agrees_with_lookup (found : view.archive.contents d = .ok contents)
    (folder : FolderText view.folder) (unread : view.kept = ∅) :
    ∃ names, view.children d = .ok names ∧ names.Pairwise (· < ·) ∧
      (∀ name, name ∈ names ↔ name ≠ "" ∧ '/' ∉ name.toList ∧
        ∃ member ∈ contents.manifest.members.keys, Within (view.path name) member) ∧
      ∀ name, name ≠ "" → '/' ∉ name.toList →
        (view.child? name d = .ok none ↔ name ∉ names) ∧
        (((∃ v, view.child? name d = .ok (some (.value v))) ∨
          ∃ e, view.child? name d = .error e) ↔
            view.path name ∈ contents.manifest.members.keys) ∧
        (view.path name ∈ contents.manifest.members.keys →
          view.child? name d =
            (Storage.load view.archive (view.path name) (view.importers.get? name) d).map
              fun loaded => some (.value loaded.value)) ∧
        (name ∈ names → view.path name ∉ contents.manifest.members.keys →
          view.child? name d =
            .ok (some (.folder (ofFolder view.archive (view.path name))))) := by
  obtain ⟨names, listed, sorted, mem⟩ := children_ok found folder
  refine ⟨names, listed, sorted, mem, fun name nonempty plain => ?_⟩
  have unkept : view.kept.get? name = none := by
    rw [unread]
    rfl
  have there : name ∈ names ↔
      ∃ member ∈ contents.manifest.members.keys, Within (view.path name) member := by
    simp only [mem, nonempty, plain, ne_eq, not_false_eq_true, true_and]
  refine ⟨?_, value_or_error_iff unkept found folder, child?_of_member unkept found, ?_⟩
  · rw [child?_eq_none_iff unkept found folder, there]
    simp only [not_exists, not_and]
  · intro own unlisted
    obtain ⟨member, mem, within⟩ := there.mp own
    rcases within with rfl | below
    · exact absurd mem unlisted
    · exact child?_of_inner unkept found folder unlisted mem below

/-- Of a member and another one behind it the value is found, and where no member lies a folder. -/
theorem listing_agrees_with_lookup_nested :
    openSession.archive.contents nestedHost.directory = .ok nestedContents ∧
    FolderText "a" ∧ (ofFolder openSession.archive "a").kept = ∅ ∧
    ∃ names, (ofFolder openSession.archive "a").children nestedHost.directory = .ok names ∧
      "b" ∈ names ∧ "d" ∈ names ∧ "c" ∉ names ∧
      (ofFolder openSession.archive "a").child? "d" nestedHost.directory =
        .ok (some (.folder (ofFolder openSession.archive "a/d"))) ∧
      (ofFolder openSession.archive "a").child? "c" nestedHost.directory = .ok none := by
  have folder : FolderText "a" := by decide
  have found : (ofFolder openSession.archive "a").archive.contents nestedHost.directory =
      .ok nestedContents := contents_nestedHost
  -- Nothing else is known of the host, so that no file is looked into again.
  generalize nestedHost = host at found
  obtain ⟨names, listed, -, mem, looks⟩ := listing_agrees_with_lookup found folder rfl
  have first : "b" ∈ names := (mem "b").mpr (by rw [nestedContents_keys]; decide)
  have second : "d" ∈ names := (mem "d").mpr (by rw [nestedContents_keys]; decide)
  have other : "c" ∉ names := by
    rw [mem, nestedContents_keys]
    decide
  refine ⟨found, folder, rfl, names, listed, first, second, other, ?_, ?_⟩
  · have unlisted : (ofFolder openSession.archive "a").path "d" ∉
        nestedContents.manifest.members.keys := by
      rw [nestedContents_keys]
      decide
    exact (looks "d" (by decide) (by decide)).2.2.2 second unlisted
  · exact (looks "c" (by decide) (by decide)).1.mpr other

end ObjectVault.View
