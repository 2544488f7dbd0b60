import ObjectVault.Proofs.Browsing

namespace ObjectVault.View

/-- What is done with a view: it is looked under a name in the directory as it is by then, importers
are chosen, or all that was kept is forgotten. -/
inductive Use
  | look (name : String) (d : Directory)
  | choose (importers : Table Converter)
  | clear

namespace Use

/-- A look under another name has nothing to do with this one. -/
def concerns (name : String) : Use → Bool
  | look other _ => other == name
  | choose _ | clear => true

def importers? : Use → Option (Table Converter)
  | choose importers => some importers
  | look _ _ | clear => none

end Use

def afterUse (view : View) : Use → View
  | .look name d => view.afterLook name d
  | .choose importers => view.withImporters importers
  | .clear => view.cleared

/-- The view after it was used, from the first use to the last. -/
def used (view : View) (history : List Use) : View :=
  history.foldl afterUse view

/-- The importers that were chosen last. -/
def chosenImporters (start : View) (history : List Use) : Table Converter :=
  (history.reverse.findSome? Use.importers?).getD start.importers

/-- A look under the name gave the value, and nothing was forgotten since. -/
def Gave (start : View) (history : List Use) (name : String) (v : Value) : Prop :=
  ∃ early d late, history = early ++ .look name d :: late ∧ .clear ∉ late ∧
    (start.used early).child? name d = .ok (some (.value v))

/-- The first look under the name that gave a value since all was forgotten gave this one. -/
def First (start : View) (history : List Use) (name : String) (v : Value) : Prop :=
  ∃ early d late, history = early ++ .look name d :: late ∧ .clear ∉ late ∧
    (start.used early).child? name d = .ok (some (.value v)) ∧ ∀ w, ¬ Gave start early name w

section Kept
variable {start view : View} {history : List Use} {use : Use} {name other : String} {v : Value}
  {d : Directory}

theorem used_concat : view.used (history ++ [use]) = (view.used history).afterUse use := by
  rw [used, List.foldl_append]
  rfl

theorem child?_of_kept (kept : view.kept.get? name = some v) :
    view.child? name d = .ok (some (.value v)) := by
  rw [child?, kept]

/-- A look keeps what it gives under its name, and nothing else. -/
theorem kept_afterLook_iff : (view.afterLook other d).kept.get? name = some v ↔
    view.kept.get? name = some v ∨
      other = name ∧ view.child? name d = .ok (some (.value v)) := by
  rw [afterLook]
  split
  · next w found =>
    rw [Table.get?_insert]
    by_cases same : name = other
    · subst same
      rw [if_pos rfl, found]
      constructor
      · intro given
        cases given
        exact .inr ⟨rfl, rfl⟩
      · rintro (kept | ⟨-, given⟩)
        · rw [child?_of_kept kept] at found
          cases found
          rfl
        · cases given
          rfl
    · rw [if_neg same]
      exact ⟨.inl, fun h => h.resolve_right fun own => same own.1.symm⟩
  · next missing =>
    refine ⟨.inl, fun h => h.resolve_right ?_⟩
    rintro ⟨rfl, found⟩
    exact missing v found

/-- The value that a look gave is still known after one more use, or this use gave it. -/
theorem gave_concat_iff : Gave start (history ++ [use]) name v ↔
    use ≠ .clear ∧ Gave start history name v ∨
      ∃ d, use = .look name d ∧ (start.used history).child? name d = .ok (some (.value v)) := by
  constructor
  · rintro ⟨early, d, late, same, remembered, found⟩
    -- The look that gave the value is the last use, or the last use came after it.
    rcases List.eq_nil_or_concat late with rfl | ⟨front, last, rfl⟩
    · obtain ⟨rfl, own⟩ := List.append_inj' same rfl
      cases own
      exact .inr ⟨d, rfl, found⟩
    · rw [List.concat_eq_append, ← List.cons_append, ← List.append_assoc] at same
      obtain ⟨rfl, own⟩ := List.append_inj' same rfl
      cases own
      simp only [List.concat_eq_append, List.mem_append, List.mem_singleton, not_or] at remembered
      exact .inl ⟨fun clear => remembered.2 clear.symm, early, d, front, rfl, remembered.1, found⟩
  · rintro (⟨other, early, d, late, rfl, remembered, found⟩ | ⟨d, rfl, found⟩)
    · refine ⟨early, d, late ++ [use], by simp, ?_, found⟩
      simp only [List.mem_append, List.mem_singleton, not_or]
      exact ⟨remembered, fun clear => other clear.symm⟩
    · exact ⟨history, d, [], rfl, nofun, found⟩

/-- A view that has kept nothing yet keeps the values that looks give, until it forgets them. -/
theorem kept_used_iff (fresh : start.kept = ∅) :
    (start.used history).kept.get? name = some v ↔ Gave start history name v := by
  induction history using List.reverseRecOn with
  | nil =>
    have nothing : start.kept.get? name = none := by
      rw [fresh]
      rfl
    refine iff_of_false ?_ ?_
    · rw [used, List.foldl_nil, nothing]
      exact nofun
    · rintro ⟨early, d, late, same, -⟩
      cases early <;> cases same
  | append_singleton history use ih =>
    rw [used_concat, gave_concat_iff, ← ih]
    cases use with
    | look other d =>
      rw [afterUse, kept_afterLook_iff]
      simp only [ne_eq, reduceCtorEq, not_false_eq_true, true_and, Use.look.injEq]
      refine or_congr_right ⟨fun h => ⟨d, ⟨h.1, rfl⟩, h.2⟩, ?_⟩
      rintro ⟨d', ⟨rfl, rfl⟩, found⟩
      exact ⟨rfl, found⟩
    | choose importers =>
      simp only [afterUse, withImporters, ne_eq, reduceCtorEq, not_false_eq_true, true_and,
        false_and, exists_false, or_false]
    | clear =>
      simp only [afterUse, cleared, ne_eq, not_true_eq_false, false_and, reduceCtorEq, exists_false,
        or_false, iff_false]
      exact nofun

theorem Gave.of_first (h : First start history name v) : Gave start history name v := by
  obtain ⟨early, d, late, same, remembered, found, -⟩ := h
  exact ⟨early, d, late, same, remembered, found⟩

theorem First.concat (h : First start history name v) (other : use ≠ .clear) :
    First start (history ++ [use]) name v := by
  obtain ⟨early, d, late, rfl, remembered, found, unlooked⟩ := h
  refine ⟨early, d, late ++ [use], by simp, ?_, found, unlooked⟩
  simp only [List.mem_append, List.mem_singleton, not_or]
  exact ⟨remembered, fun clear => other clear.symm⟩

/-- Each look under a name gives what the first one gave. -/
theorem first_of_gave (fresh : start.kept = ∅) (h : Gave start history name v) :
    First start history name v := by
  induction history using List.reverseRecOn with
  | nil =>
    obtain ⟨early, d, late, same, -⟩ := h
    cases early <;> cases same
  | append_singleton history use ih =>
    rcases gave_concat_iff.mp h with ⟨other, gave⟩ | ⟨d, rfl, found⟩
    · exact (ih gave).concat other
    · -- What an earlier look gave is kept, so that this one gives it again.
      by_cases known : ∃ w, Gave start history name w
      · obtain ⟨w, gave⟩ := known
        rw [child?_of_kept ((kept_used_iff fresh).mpr gave)] at found
        cases found
        exact (ih gave).concat nofun
      · exact ⟨history, d, [], rfl, nofun, found, not_exists.mp known⟩

theorem kept_used_iff_first (fresh : start.kept = ∅) :
    (start.used history).kept.get? name = some v ↔ First start history name v := by
  rw [kept_used_iff fresh]
  exact ⟨first_of_gave fresh, .of_first⟩

end Kept

section Unkept
variable {view : View} {history : List Use} {d : Directory}

theorem archive_afterUse (view : View) (use : Use) :
    (view.afterUse use).archive = view.archive := by
  cases use with
  | look other d => exact (view.keeps_afterLook other d).archive
  | choose importers => rfl
  | clear => rfl

theorem folder_afterUse (view : View) (use : Use) : (view.afterUse use).folder = view.folder := by
  cases use with
  | look other d => exact (view.keeps_afterLook other d).folder
  | choose importers => rfl
  | clear => rfl

/-- A view stays one of the same folder, whatever it is used for. -/
theorem place_used (start : View) (history : List Use) :
    (start.used history).archive = start.archive ∧ (start.used history).folder = start.folder := by
  induction history using List.reverseRecOn with
  | nil => exact ⟨rfl, rfl⟩
  | append_singleton history use ih =>
    rw [used_concat, archive_afterUse, folder_afterUse]
    exact ih

theorem importers_used (start : View) (history : List Use) :
    (start.used history).importers = start.chosenImporters history := by
  induction history using List.reverseRecOn with
  | nil => rfl
  | append_singleton history use ih =>
    rw [used_concat, chosenImporters, List.reverse_append]
    cases use with
    | look other d => exact ((start.used history).keeps_afterLook other d).importers.trans ih
    | choose importers => rfl
    | clear => exact ih

/-- In an archive that can be read, what lies below a name is a folder that nothing was read
through. -/
theorem subfolder?_ok {contents : Contents} (name : String)
    (found : view.archive.contents d = .ok contents) :
    ∃ inner, view.subfolder? name d = .ok inner ∧
      (inner = none ∨ inner = some (ofFolder view.archive (view.path name))) := by
  have listed : ∃ members, Storage.list view.archive view.folder d = .ok members := by
    rw [Storage.list, Archive.list, Archive.manifest, found]
    exact ⟨_, rfl⟩
  obtain ⟨members, listed⟩ := listed
  rw [subfolder?, listed]
  refine ⟨_, rfl, ?_⟩
  split
  · exact .inr rfl
  · exact .inl rfl

end Unkept

section Names
variable {start view other : View} {history : List Use} {use : Use} {name : String} {d : Directory}

/-- Nothing that bears on the name tells the views apart. -/
structure AlikeAt (name : String) (view other : View) : Prop where
  archive : view.archive = other.archive
  folder : view.folder = other.folder
  importers : view.importers = other.importers
  kept : view.kept.get? name = other.kept.get? name

theorem AlikeAt.child? (h : AlikeAt name view other) :
    view.child? name d = other.child? name d := by
  cases view
  cases other
  obtain ⟨rfl, rfl, rfl, kept⟩ := h
  simp only at kept
  rw [View.child?, View.child?, kept]
  rfl

/-- Views that are alike are so after the same use. -/
theorem AlikeAt.afterUse (h : AlikeAt name view other) (use : Use) :
    AlikeAt name (view.afterUse use) (other.afterUse use) := by
  cases use with
  | look named d =>
    have left := view.keeps_afterLook named d
    have right := other.keeps_afterLook named d
    refine ⟨left.archive.trans (h.archive.trans right.archive.symm),
      left.folder.trans (h.folder.trans right.folder.symm),
      left.importers.trans (h.importers.trans right.importers.symm), Option.ext fun v => ?_⟩
    simp only [View.afterUse]
    rw [kept_afterLook_iff, kept_afterLook_iff, h.kept, h.child?]
  | choose importers => exact ⟨h.archive, h.folder, rfl, h.kept⟩
  | clear => exact ⟨h.archive, h.folder, h.importers, rfl⟩

/-- A look under another name is no use of the view that bears on this one. -/
theorem alikeAt_afterUse (view : View) (apart : use.concerns name = false) :
    AlikeAt name (view.afterUse use) view := by
  cases use with
  | look named d =>
    have same := view.keeps_afterLook named d
    have other : named ≠ name := by simpa [Use.concerns] using apart
    refine ⟨same.archive, same.folder, same.importers, Option.ext fun v => ?_⟩
    rw [afterUse, kept_afterLook_iff]
    exact ⟨fun h => h.resolve_right fun own => other own.1, .inl⟩
  | choose importers => cases apart
  | clear => cases apart

theorem AlikeAt.trans {third : View} (h : AlikeAt name view other)
    (h' : AlikeAt name other third) : AlikeAt name view third :=
  ⟨h.archive.trans h'.archive, h.folder.trans h'.folder, h.importers.trans h'.importers,
    h.kept.trans h'.kept⟩

/-- What lies under a name depends on the uses alone that concern it. -/
theorem alikeAt_used_filter (start : View) (history : List Use) (name : String) :
    AlikeAt name (start.used history) (start.used (history.filter (Use.concerns name))) := by
  induction history using List.reverseRecOn with
  | nil => exact ⟨rfl, rfl, rfl, rfl⟩
  | append_singleton history use ih =>
    rw [used_concat, List.filter_append]
    cases own : use.concerns name with
    | true =>
      rw [List.filter_cons_of_pos own, List.filter_nil, used_concat]
      exact ih.afterUse use
    | false =>
      rw [List.filter_cons_of_neg (by simp [own]), List.filter_nil, List.append_nil]
      exact (alikeAt_afterUse _ own).trans ih

end Names

/-- A view that has kept nothing yet gives, under each name, what the first look there gave that
gave a value since all was forgotten, whatever has become of the archive and of the importers. If
there was none, it gives what lies in the archive by now: of a member the value that the importer
chosen last makes of it, and else a folder that nothing was read through, or nothing. Nothing but
these values is kept, and looks under other names make no difference. -/
theorem looks_are_pinned {start : View} (fresh : start.kept = ∅) (history : List Use)
    (name : String) :
    (∀ v, First start history name v →
      ∀ d, (start.used history).child? name d = .ok (some (.value v))) ∧
    ((∀ v, ¬ First start history name v) → ∀ d,
      (∀ contents, start.archive.contents d = .ok contents →
        (start.path name ∈ contents.manifest.members.keys →
          (start.used history).child? name d =
            (Storage.load start.archive (start.path name)
              ((start.chosenImporters history).get? name) d).map
                fun loaded => some (.value loaded.value)) ∧
        (start.path name ∉ contents.manifest.members.keys →
          ∃ inner, start.subfolder? name d = .ok inner ∧
            (inner = none ∨ inner = some (ofFolder start.archive (start.path name))) ∧
            (start.used history).child? name d = .ok (inner.map .folder))) ∧
      ∀ e, start.archive.contents d = .error e →
        (start.used history).child? name d = .error (.archive e)) ∧
    (∀ v, (start.used history).kept.get? name = some v ↔ First start history name v) ∧
    ∀ d, (start.used history).child? name d =
      (start.used (history.filter (Use.concerns name))).child? name d := by
  obtain ⟨archive, folder⟩ := start.place_used history
  have path_eq : (start.used history).path name = start.path name := by
    rw [path, path, folder]
  refine ⟨fun v first d => child?_of_kept ((kept_used_iff_first fresh).mpr first),
    fun never d => ?_, fun v => kept_used_iff_first fresh,
    fun d => (start.alikeAt_used_filter history name).child?⟩
  have unkept : (start.used history).kept.get? name = none :=
    Option.eq_none_iff_forall_ne_some.mpr fun v kept =>
      never v ((kept_used_iff_first fresh).mp kept)
  refine ⟨fun contents found => ⟨fun listed => ?_, fun unlisted => ?_⟩, fun e broken => ?_⟩
  · rw [← archive] at found
    rw [child?_of_member unkept found (by rwa [path_eq]), archive, path_eq, importers_used]
  · have same : (start.used history).subfolder? name d = start.subfolder? name d := by
      rw [subfolder?, subfolder?, archive, folder, path_eq]
    obtain ⟨inner, there, fresh⟩ := subfolder?_ok name found
    refine ⟨inner, there, fresh, ?_⟩
    rw [← archive] at found
    rw [child?_of_no_member unkept found (by rwa [path_eq]), same, there]
    rfl
  · rw [← archive] at broken
    exact child?_of_unreadable unkept broken

/-- The number that was looked at is still given where no archive is left, until it is
forgotten. -/
theorem looks_are_pinned_nested :
    (ofFolder openSession.archive "a").kept = ∅ ∧
    ((ofFolder openSession.archive "a").used [.look "b" nestedHost.directory]).child? "b"
      Archive.bareHost.directory = .ok (some (.value (.int 1))) ∧
    ((ofFolder openSession.archive "a").used [.look "b" nestedHost.directory, .clear]).child? "b"
      Archive.bareHost.directory = .ok none := by
  have found := contents_nestedHost
  have value : openSession.archive.valueAt "a/b" nestedHost.directory = .ok (.int 1) :=
    valueAt_nestedHost (by simp)
  -- Nothing else is known of the host, so that no file is looked into again.
  generalize nestedHost = host at found value
  have seen : (ofFolder openSession.archive "a").child? "b" host.directory =
      .ok (some (.value (.int 1))) := by
    rw [child?_of_listed (unread_ofFolder openSession.archive "a" "b") found
      (by rw [nestedContents_keys]; decide)]
    exact congrArg (Except.map fun v => some (Child.value v)) value
  have bare : openSession.archive.contents Archive.bareHost.directory = .ok .empty := rfl
  refine ⟨rfl, ?_, ?_⟩
  · have first : First (ofFolder openSession.archive "a") [.look "b" host.directory] "b" (.int 1) :=
      first_of_gave rfl ⟨[], host.directory, [], rfl, nofun, seen⟩
    exact (looks_are_pinned rfl _ "b").1 _ first _
  · have never : ∀ v, ¬ First (ofFolder openSession.archive "a")
        [.look "b" host.directory, .clear] "b" v := by
      intro v first
      have kept := (kept_used_iff_first rfl).mpr first
      cases kept
    obtain ⟨inner, there, -, answer⟩ :=
      (((looks_are_pinned rfl _ "b").2.1 never Archive.bareHost.directory).1 _ bare).2 nofun
    rw [answer]
    cases there
    rfl

end ObjectVault.View
