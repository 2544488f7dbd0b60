import ObjectVault.Archive.Basic
import ObjectVault.Proofs.Files

namespace ObjectVault.Directory
open ObjectVault.Text

/-- A part that a path has as a component wherever it stands. -/
def isNamed (part : String) : Bool :=
  part != "" && part != "."

variable {d : Directory} {path name ending : String} {start place : Location}

theorem components_eq (path : String) :
    components path =
      match pathParts path with
      | [] => []
      | "" :: rest => if rest.isEmpty then [] else "/" :: rest.filter isNamed
      | first :: rest => first :: rest.filter isNamed := rfl

/-- The place where components begin, and the parts that lead on from it. -/
def route : List String → Location × List String
  | "/" :: rest => (["/"], rest)
  | parts => ([], parts)

theorem route_of_ne {first : String} {rest : List String} (h : first ≠ "/") :
    route (first :: rest) = ([], first :: rest) := by
  rw [route]
  intro rest' eq
  exact h (List.cons.inj eq).1

theorem route_concat (front : List String) {last : String} (h : last ≠ "/") :
    route (front ++ [last]) = ((route front).1, (route front).2 ++ [last]) := by
  cases front with
  | nil => exact route_of_ne h
  | cons first rest =>
    by_cases root : first = "/"
    · subst root
      rfl
    · rw [List.cons_append, route_of_ne root, route_of_ne root, List.cons_append]

theorem Segment.ne_slash (h : Segment name) : name ≠ "/" := by
  rintro rfl
  exact h.2 (by decide)

/-- Walking on by one part needs a folder to walk from. -/
theorem walk_concat {parts : List String} {part : String} :
    d.walk start (parts ++ [part]) = .ok place ↔
      ∃ folder, d.walk start parts = .ok folder ∧ d.isFile folder = false ∧
        d.isFolder folder = true ∧ step folder part = place := by
  induction parts generalizing start with
  | nil =>
    rw [List.nil_append, walk]
    by_cases file : d.isFile start = true
    · simp [walk, file]
    · by_cases folder : d.isFolder start = true
      · simp [walk, file, folder]
      · simp [walk, file, folder]
  | cons first parts ih =>
    rw [List.cons_append, walk, walk]
    split
    · simp
    · split
      · simp
      · exact ih

/-- Parts that are no components can be left out of a walk. -/
theorem walk_filter {parts : List String} (h : d.walk start parts = .ok place) :
    d.walk start (parts.filter isNamed) = .ok place := by
  induction parts generalizing start with
  | nil => exact h
  | cons part parts ih =>
    rw [walk] at h
    split at h
    · cases h
    · next free =>
      split at h
      · cases h
      · next folder =>
        by_cases named : isNamed part = true
        · rw [List.filter_cons_of_pos named, walk, if_neg free, if_neg folder]
          exact ih h
        · have stays : step start part = start := by
            rw [step, if_pos]
            by_cases empty : part = "" <;> simp_all [isNamed]
          rw [List.filter_cons_of_neg named]
          rw [stays] at h
          exact ih h

/-- A path that leads somewhere leads there by its components. -/
theorem walk_components (h : d.locate path = .ok place) :
    d.walk (route (components path)).1 (route (components path)).2 = .ok place := by
  have slashless : ∀ part ∈ pathParts path, '/' ∉ part.toList :=
    fun _ mem => slashless_of_mem_pathParts mem
  rw [components_eq]
  rw [locate] at h
  cases parts : pathParts path with
  | nil =>
    rw [parts] at h
    exact h
  | cons first rest =>
    rw [parts] at h
    by_cases absolute : first = ""
    · subst absolute
      cases rest with
      | nil => cases h
      | cons next rest => exact walk_filter h
    · have own : first ≠ "/" := by
        rintro rfl
        exact slashless "/" (parts ▸ List.mem_cons_self) (by decide)
      have relative : d.walk [] (first :: rest) = .ok place := by
        split at h
        · next eq => exact absurd (List.cons.inj eq).1 absolute
        · exact h
      split
      · next eq => cases eq
      · next eq => exact absurd (List.cons.inj eq).1 absolute
      · next eq =>
        cases eq
        rw [route_of_ne own]
        rw [walk] at relative ⊢
        split at relative
        · cases relative
        · next free =>
          split at relative
          · cases relative
          · next folder =>
            rw [if_neg free, if_neg folder]
            exact walk_filter relative

theorem components_reached (path : String) : Reached (components path) := by
  have slashless : ∀ part ∈ pathParts path, '/' ∉ part.toList :=
    fun _ mem => slashless_of_mem_pathParts mem
  have named : ∀ {rest : List String}, (∀ part ∈ rest, '/' ∉ part.toList) →
      ∀ part ∈ rest.filter isNamed, Segment part := by
    intro rest own part mem
    obtain ⟨mem, named⟩ := List.mem_filter.mp mem
    refine ⟨fun empty => ?_, own part mem⟩
    rw [empty] at named
    exact absurd named (by decide)
  rw [components_eq]
  split
  · exact .inl (by simp)
  · next rest eq =>
    rw [eq] at slashless
    split
    · exact .inl (by simp)
    · exact .inr ⟨_, rfl, named fun part mem => slashless part (List.mem_cons_of_mem _ mem)⟩
  · next first rest absolute eq =>
    rw [eq] at slashless
    left
    intro part mem
    rcases List.mem_cons.mp mem with rfl | mem
    · refine ⟨fun empty => ?_, slashless _ List.mem_cons_self⟩
      exact absolute (empty ▸ rfl)
    · exact named (fun p inner => slashless p (List.mem_cons_of_mem _ inner)) part mem

theorem pathParts_intercalate {names : List String} (nonempty : names ≠ [])
    (segments : ∀ name ∈ names, Segment name) : pathParts ("/".intercalate names) = names := by
  have slash : "/".toList = ['/'] := rfl
  have slashless : ∀ part ∈ names.map String.toList, '/' ∉ part := by
    intro part mem
    obtain ⟨name, own, rfl⟩ := List.mem_map.mp mem
    exact (segments name own).2
  rw [pathParts, String.toList_intercalate, slash,
    List.splitOn_intercalate '/' slashless fun empty => nonempty (List.map_eq_nil_iff.mp empty)]
  simp [List.map_map, Function.comp_def]

/-- Components spell a path that leads where they lead. -/
theorem locate_ofComponents {parts : List String} (reached : Reached parts) (nonempty : parts ≠ [])
    (walked : d.walk (route parts).1 (route parts).2 = .ok place)
    (free : parts = ["/"] → d.isFile place = false) :
    d.locate (ofComponents parts) = .ok place := by
  rcases reached with segments | ⟨names, rfl, segments⟩
  · obtain ⟨first, rest, rfl⟩ := List.exists_cons_of_ne_nil nonempty
    have own := segments first List.mem_cons_self
    have spelled : ofComponents (first :: rest) = "/".intercalate (first :: rest) := by
      rw [ofComponents]
      intro rest' eq
      exact own.ne_slash (List.cons.inj eq).1
    rw [locate, spelled, pathParts_intercalate nonempty segments]
    rw [route_of_ne own.ne_slash] at walked
    split
    · next eq => exact absurd (List.cons.inj eq).1 own.1
    · exact walked
  · have spelled : pathParts (ofComponents ("/" :: names)) =
        "" :: if names = [] then [""] else names := by
      have slash : ("/" ++ "/".intercalate names).toList =
          '/' :: ("/".intercalate names).toList := by
        rw [String.toList_append]
        rfl
      rw [ofComponents, pathParts, slash, List.splitOn_cons_eq_if_modifyHead, if_pos (by decide),
        List.map_cons]
      split
      · next empty =>
        rw [empty]
        decide
      · next more =>
        have rest := pathParts_intercalate more segments
        rw [pathParts] at rest
        rw [rest]
    have walked : d.walk ["/"] names = .ok place := walked
    rw [locate, spelled]
    by_cases empty : names = []
    · -- Behind the slash stands an empty part, which stays in the root.
      subst empty
      obtain rfl : ["/"] = place := Except.ok.inj walked
      have folder : d.isFolder ["/"] = true := by simp [isFolder]
      simp [walk, step, free rfl, folder]
    · simpa [empty, List.isEmpty_iff] using walked

/-- Every place on the way to the place is a folder. -/
def Rooted (d : Directory) (place : Location) : Prop :=
  ∀ front, front <+: place → front ≠ place → d.isFolder front = true

theorem isFolder_up {names : Location} (h : ∀ name ∈ names, name = "..") :
    d.isFolder names = true := by
  have up : names.all (· == "..") = true := by simpa using h
  rw [isFolder, up]
  rfl

theorem rooted_up {names : Location} (h : ∀ name ∈ names, name = "..") : Rooted d names :=
  fun _ part _ => isFolder_up fun name mem => h name (part.subset mem)

theorem Rooted.parent (rooted : Rooted d place) (folder : d.isFolder place = true) :
    Rooted d (parent place) ∧ d.isFolder (parent place) = true := by
  unfold Directory.parent
  split
  · exact ⟨rooted, folder⟩
  · next root =>
    split
    · next up =>
      have up : ∀ name ∈ place ++ [".."], name = ".." := by
        simpa [or_imp, forall_and] using up
      exact ⟨rooted_up up, isFolder_up up⟩
    · next low =>
      have nonempty : place ≠ [] := by
        rintro rfl
        exact low rfl
      have shorter : place.dropLast.length < place.length := by
        have := List.length_pos_iff.mpr nonempty
        rw [List.length_dropLast]
        omega
      have proper : ∀ front, front <+: place.dropLast → front ≠ place := by
        intro front part same
        have := part.length_le
        rw [same] at this
        omega
      exact ⟨fun front part _ => rooted front (part.trans (List.dropLast_prefix place))
          (proper front part),
        rooted _ (List.dropLast_prefix place) (proper _ (List.prefix_refl _))⟩

theorem Rooted.concat (rooted : Rooted d place) (folder : d.isFolder place = true) :
    Rooted d (place ++ [name]) := by
  intro front part apart
  rcases List.prefix_concat_iff.mp part with whole | part
  · exact absurd whole apart
  · by_cases same : front = place
    · rw [same]
      exact folder
    · exact rooted front part same

theorem Rooted.step (rooted : Rooted d place) (folder : d.isFolder place = true) (part : String) :
    Rooted d (step place part) := by
  unfold Directory.step
  split
  · exact rooted
  · split
    · exact (rooted.parent folder).1
    · exact rooted.concat folder

theorem Rooted.walk {parts : List String} (rooted : Rooted d start)
    (h : d.walk start parts = .ok place) : Rooted d place := by
  induction parts generalizing start with
  | nil =>
    cases h
    exact rooted
  | cons part parts ih =>
    rw [Directory.walk] at h
    split at h
    · cases h
    · split at h
      · cases h
      · next folder => exact ih (rooted.step (by simpa using folder) part) h

theorem rooted_route (parts : List String) : Rooted d (route parts).1 := by
  unfold route
  split
  · intro front part apart
    rcases List.prefix_cons_iff.mp part with rfl | ⟨rest, rfl, inner⟩
    · exact isFolder_up (by simp)
    · rw [List.prefix_nil.mp inner] at apart
      exact absurd rfl apart
  · exact rooted_up (by simp)

/-- The file name that a path ends in, if it ends in one. -/
def fileName? (path : String) : Option String :=
  match (components path).getLast? with
  | none => none
  | some name => if name == "/" || name == "." || name == ".." then none else some name

/-- The path with another file name in the place of its own. -/
def beside (path other : String) : String :=
  ofComponents ((components path).dropLast ++ [other])

theorem withExtension_eq (path ending : String) :
    withExtension path ending =
      match fileName? path with
      | none => path
      | some name => beside path (stem name ++ "." ++ ending) := by
  rcases List.eq_nil_or_concat (components path) with empty | ⟨front, name, eq⟩
  · rw [withExtension, fileName?, empty]
    rfl
  · rw [List.concat_eq_append] at eq
    have spelled : ∀ other, beside path other = ofComponents (front ++ [other]) := by
      intro other
      rw [beside, eq, List.dropLast_concat]
    rw [withExtension, fileName?, eq, List.reverse_concat, List.getLast?_concat]
    simp only [List.reverse_reverse, spelled]
    split <;> rfl

theorem Reached.segment {names : Location} (h : Reached names) (mem : name ∈ names)
    (root : name ≠ "/") : Segment name := by
  rcases h with segments | ⟨rest, rfl, segments⟩
  · exact segments name mem
  · rcases List.mem_cons.mp mem with same | mem
    · exact absurd same root
    · exact segments name mem

theorem Reached.of_concat {front : Location} (h : Reached (front ++ [name])) : Reached front := by
  rcases h with segments | ⟨rest, eq, segments⟩
  · exact .inl fun other mem => segments other (List.mem_append_left _ mem)
  · cases front with
    | nil => exact reached_working
    | cons first front =>
      obtain ⟨rfl, rfl⟩ := List.cons.inj eq
      exact .inr ⟨front, rfl, fun other mem => segments other (List.mem_append_left _ mem)⟩

/-- The root is a component only at the beginning. -/
theorem Reached.eq_nil_of_concat_root {front : Location} (h : Reached (front ++ ["/"])) :
    front = [] := by
  rcases h with segments | ⟨rest, eq, segments⟩
  · exact absurd rfl (segments "/" (by simp)).ne_slash
  · cases front with
    | nil => rfl
    | cons first front =>
      rw [List.cons_append, List.cons.injEq] at eq
      exact absurd rfl (segments "/" (eq.2 ▸ by simp)).ne_slash

/-- A path that leads somewhere is a root, or it leads on from a folder by its last component. -/
theorem locate_last (h : d.locate path = .ok place) :
    components path = [] ∧ place = [] ∨ components path = ["/"] ∧ place = ["/"] ∨
      ∃ front name folder, components path = front ++ [name] ∧ name ≠ "/" ∧ Reached front ∧
        d.walk (route front).1 (route front).2 = .ok folder ∧ d.isFile folder = false ∧
        d.isFolder folder = true ∧ step folder name = place := by
  have walked := walk_components h
  have reached := components_reached path
  rcases List.eq_nil_or_concat (components path) with empty | ⟨front, name, eq⟩
  · rw [empty] at walked
    exact .inl ⟨empty, (Except.ok.inj walked).symm⟩
  · rw [List.concat_eq_append] at eq
    rw [eq] at walked reached
    by_cases root : name = "/"
    · subst root
      have first := reached.eq_nil_of_concat_root
      subst first
      exact .inr (.inl ⟨eq, (Except.ok.inj walked).symm⟩)
    · rw [route_concat front root] at walked
      obtain ⟨folder, before, free, isFolder, stepped⟩ := walk_concat.mp walked
      exact .inr (.inr ⟨front, name, folder, eq, root, reached.of_concat, before, free, isFolder,
        stepped⟩)

/-- A path that leads somewhere without a file name leads to a folder; with one, it leads into a
folder, and every other file name leads into the same. -/
theorem locate_cases (h : d.locate path = .ok place) :
    fileName? path = none ∧ d.isFolder place = true ∨
      ∃ folder name, fileName? path = some name ∧ place = folder ++ [name] ∧
        d.isFolder folder = true ∧
        ∀ other, Segment other → other ≠ "." → other ≠ ".." →
          d.locate (beside path other) = .ok (folder ++ [other]) := by
  rcases locate_last h with ⟨empty, rfl⟩ | ⟨root, rfl⟩ |
    ⟨front, name, folder, eq, root, reached, before, free, isFolder, rfl⟩
  · exact .inl ⟨by rw [fileName?, empty]; rfl, isFolder_up (by simp)⟩
  · exact .inl ⟨by rw [fileName?, root]; rfl, by simp [Directory.isFolder]⟩
  · have named : fileName? path =
        if name == "/" || name == "." || name == ".." then none else some name := by
      rw [fileName?, eq, List.getLast?_concat]
    by_cases up : name = ".."
    · subst up
      have rooted : Rooted d folder := (rooted_route front).walk before
      exact .inl ⟨named, (rooted.parent isFolder).2⟩
    by_cases dot : name = "."
    · subst dot
      exact .inl ⟨named, isFolder⟩
    · have segment : Segment name := (components_reached path).segment (by simp [eq]) root
      have onwards : ∀ other, Segment other → other ≠ "." → other ≠ ".." →
          step folder other = folder ++ [other] := by
        intro other own dot up
        simp [step, own.1, dot, up]
      refine .inr ⟨folder, name, by simp [named, root, dot, up], onwards name segment dot up,
        isFolder, fun other own dot up => ?_⟩
      have moved : d.walk (route (front ++ [other])).1 (route (front ++ [other])).2 =
          .ok (folder ++ [other]) := by
        rw [route_concat front own.ne_slash]
        exact walk_concat.mpr ⟨folder, before, free, isFolder, onwards other own dot up⟩
      rw [beside, eq, List.dropLast_concat]
      refine locate_ofComponents (reached_append reached own) (by simp) moved fun whole => ?_
      rw [List.append_eq_singleton_iff] at whole
      simp [own.ne_slash] at whole

/-- The folder of a path that leads somewhere is there. -/
theorem hasFolder_parent (h : d.locate path = .ok place) :
    parentComponents path = [] ∨
      d.hasFolder (ofComponents (parentComponents path).reverse) = true := by
  rcases locate_last h with ⟨empty, -⟩ | ⟨root, -⟩ |
    ⟨front, name, folder, eq, -, reached, before, free, isFolder, -⟩
  · exact .inl (by rw [parentComponents, empty]; rfl)
  · exact .inl (by rw [parentComponents, root]; rfl)
  · have parents : (parentComponents path).reverse = front := by
      rw [parentComponents, eq, List.reverse_concat, List.drop_one, List.tail_cons,
        List.reverse_reverse]
    by_cases empty : front = []
    · rw [empty] at parents
      exact .inl (List.reverse_eq_nil_iff.mp parents)
    · right
      rw [parents, hasFolder, locate_ofComponents reached empty before fun _ => free]
      exact isFolder

theorem segment_fileName? (h : fileName? path = some name) : Segment name := by
  rw [fileName?] at h
  split at h
  · cases h
  · next last ends =>
    split at h
    · cases h
    · next proper =>
      cases h
      refine (components_reached path).segment (List.mem_of_getLast? ends) ?_
      rintro rfl
      exact proper rfl

/-- The characters of a stem are characters of the name. -/
theorem mem_stem {c : Char} (h : c ∈ (stem name).toList) : c ∈ name.toList := by
  rw [stem] at h
  split at h
  · exact h
  · exact h
  · next dot before eq =>
    rw [String.toList_ofList, List.mem_reverse] at h
    have inner : c ∈ name.toList.reverse.dropWhile (· != '.') := by
      rw [eq]
      exact List.mem_cons_of_mem _ h
    exact List.mem_reverse.mp ((List.dropWhile_sublist _).subset inner)

end ObjectVault.Directory

namespace ObjectVault.Archive
open ObjectVault.Directory

/-- The file name with the ending of files that are written first. -/
def temporaryName (name : String) : String :=
  stem name ++ "." ++ "tmp"

variable {d : Directory} {path name : String} {place : Location}

theorem temporaryPath_eq (h : fileName? path = some name) :
    temporaryPath path = beside path (temporaryName name) := by
  rw [temporaryPath, withExtension_eq, h]
  rfl

theorem four_le_length_temporaryName (name : String) : 4 ≤ (temporaryName name).toList.length := by
  have ending : ".".toList.length = 1 ∧ "tmp".toList.length = 3 := by decide
  simp only [temporaryName, String.toList_append, List.length_append]
  omega

theorem segment_temporaryName (h : Segment name) : Segment (temporaryName name) := by
  refine ⟨fun empty => ?_, fun slash => ?_⟩
  · have long := four_le_length_temporaryName name
    rw [empty] at long
    exact absurd long (by decide)
  · simp only [temporaryName, String.toList_append, List.mem_append] at slash
    rcases slash with (own | dot) | ending
    · exact h.2 (mem_stem own)
    · exact absurd dot (by decide)
    · exact absurd ending (by decide)

/-- The file that is written first is the archive itself, which has the ending already. -/
def OwnTemporary (path : String) : Prop :=
  ∃ name ∈ fileName? path, temporaryName name = name

instance (path : String) : Decidable (OwnTemporary path) :=
  inferInstanceAs (Decidable (∃ name ∈ fileName? path, temporaryName name = name))

/-- The file that is written first lies in the folder of the archive. -/
theorem locate_temporaryPath (named : fileName? path = some name)
    (located : d.locate path = .ok place) :
    ∃ folder, place = folder ++ [name] ∧ d.isFolder folder = true ∧
      d.locate (temporaryPath path) = .ok (folder ++ [temporaryName name]) := by
  rcases locate_cases located with ⟨unnamed, -⟩ | ⟨folder, own, same, rfl, inside, others⟩
  · rw [unnamed] at named
    cases named
  · rw [same] at named
    cases named
    have long := four_le_length_temporaryName name
    have short : ∀ {text : String}, text.toList.length < 4 → temporaryName name ≠ text := by
      rintro text less rfl
      omega
    refine ⟨folder, rfl, inside, ?_⟩
    rw [temporaryPath_eq same]
    exact others _ (segment_temporaryName (segment_fileName? same)) (short (by decide))
      (short (by decide))

/-- Unless it is the archive itself, the file that is written first lies at another place. -/
theorem temporary_apart (own : ¬ OwnTemporary path) (located : d.locate path = .ok place)
    (free : d.isFolder place = false) : d.locate (temporaryPath path) ≠ .ok place := by
  intro first
  rcases locate_cases located with ⟨-, folder⟩ | ⟨folder, name, named, -⟩
  · rw [folder] at free
    cases free
  · obtain ⟨folder, rfl, -, other⟩ := locate_temporaryPath named located
    rw [other] at first
    have same := List.append_cancel_left (Except.ok.inj first)
    exact own ⟨name, named, List.singleton_inj.mp same⟩

theorem temporary_own (own : OwnTemporary path) (located : d.locate path = .ok place) :
    d.locate (temporaryPath path) = .ok place := by
  obtain ⟨name, named, same⟩ := own
  obtain ⟨folder, rfl, -, first⟩ := locate_temporaryPath named located
  rw [first, same]

end ObjectVault.Archive
