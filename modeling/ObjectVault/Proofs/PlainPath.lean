import ObjectVault.Archive.Contents
import ObjectVault.Proofs.Splitting

namespace ObjectVault
open ObjectVault.Text ObjectVault.Container

/-- A path of segments that name something. -/
structure NormalPath (path : String) : Prop where
  named : ∀ part ∈ path.toList.splitOn '/', part ≠ [] ∧ part ≠ ['.'] ∧ part ≠ ['.', '.']
  nonzero : 0 ∉ encodeUtf8 path

instance (path : String) : Decidable (NormalPath path) :=
  decidable_of_iff ((∀ part ∈ path.toList.splitOn '/',
      part ≠ [] ∧ part ≠ ['.'] ∧ part ≠ ['.', '.']) ∧ 0 ∉ encodeUtf8 path)
    ⟨fun h => ⟨h.1, h.2⟩, fun h => ⟨h.1, h.2⟩⟩

/-- The segments that a header keeps. An empty one is kept at the end, as a slash. -/
def keptSegments : List (List Char) → List (List Char)
  | [] => []
  | [last] => if last = ['.'] then [] else [last]
  | part :: next :: rest =>
    if part = [] ∨ part = ['.'] then keptSegments (next :: rest)
    else part :: keptSegments (next :: rest)

/-- Every segment names something, except that the last one may be empty. -/
def settledSegments : List (List Char) → Bool
  | [] => true
  | [last] => last ≠ ['.']
  | part :: next :: rest => part ≠ [] && part ≠ ['.'] && settledSegments (next :: rest)

/-- A path that a header holds as it is. -/
def Settled (member : String) : Prop :=
  settledSegments (member.toList.splitOn '/') = true

instance (member : String) : Decidable (Settled member) :=
  inferInstanceAs (Decidable (_ = true))

theorem NormalPath.settled {path : String} (h : NormalPath path) : Settled path := by
  have named := h.named
  rw [Settled]
  generalize path.toList.splitOn '/' = parts at named
  fun_induction settledSegments parts with
  | case1 => rfl
  | case2 last => simpa using (named last (by simp)).2.1
  | case3 part next rest ih =>
    obtain ⟨nonempty, noDot, -⟩ := named part List.mem_cons_self
    simp [nonempty, noDot, ih fun p mem => named p (List.mem_cons_of_mem _ mem)]

theorem keptSegments_of_settled {parts : List (List Char)} (h : settledSegments parts = true) :
    keptSegments parts = parts := by
  fun_induction settledSegments parts with
  | case1 => rfl
  | case2 last => simp_all [keptSegments]
  | case3 part next rest ih => simp_all [keptSegments]

theorem settledSegments_kept (parts : List (List Char)) :
    settledSegments (keptSegments parts) = true := by
  fun_induction keptSegments parts with
  | case1 => rfl
  | case2 => rfl
  | case3 last h => simpa [settledSegments] using h
  | case4 part next rest h ih => exact ih
  | case5 part next rest h ih =>
    cases eq : keptSegments (next :: rest) with
    | nil => simp_all [settledSegments]
    | cons first others => simp_all [settledSegments]

theorem mem_of_mem_keptSegments {parts : List (List Char)} {part : List Char}
    (h : part ∈ keptSegments parts) : part ∈ parts := by
  fun_induction keptSegments parts with
  | case1 => exact h
  | case2 => cases h
  | case3 => exact h
  | case4 first next rest _ ih => exact List.mem_cons_of_mem _ (ih h)
  | case5 first next rest _ ih =>
    rcases List.mem_cons.mp h with rfl | h
    · exact List.mem_cons_self
    · exact List.mem_cons_of_mem _ (ih h)

/-- A path behind a slash ends with one exactly if its last segment is empty. -/
theorem getLast?_behind_slash (before cs : List Char) :
    (before ++ '/' :: cs).getLast? = some '/' ↔ (cs.splitOn '/').getLast? = some [] := by
  obtain ⟨firsts, last, parts⟩ : ∃ firsts last, cs.splitOn '/' = firsts ++ [last] :=
    ⟨_, _, (List.dropLast_concat_getLast (List.splitOn_ne_nil '/' cs)).symm⟩
  have own : '/' ∉ last := separator_not_mem (by rw [parts]; simp)
  have joined : ['/'].intercalate (firsts ++ [last]) = cs := by
    rw [← parts, List.intercalate_splitOn]
  obtain ⟨front, ended⟩ : ∃ front, before ++ '/' :: cs = front ++ '/' :: last := by
    by_cases first : firsts = []
    · exact ⟨before, by simp [← joined, first]⟩
    · exact ⟨before ++ '/' :: ['/'].intercalate firsts, by
        rw [← joined, intercalate_concat first]; simp⟩
  have shown : (front ++ '/' :: last).getLast? = some (last.getLast?.getD '/') := by
    simp [List.getLast?_cons]
  rw [ended, parts, List.getLast?_concat, shown, Option.some.injEq, Option.some.injEq]
  cases eq : last.getLast? with
  | none => simp [List.getLast?_eq_none_iff.mp eq]
  | some c =>
    have mem : c ∈ last := List.mem_of_getLast? eq
    have other : c ≠ '/' := fun slash => own (slash ▸ mem)
    simp [other, List.ne_nil_of_mem mem]

/-- Dropping the segments that name nothing leaves those that a header keeps. -/
theorem intercalate_filter (first : List (List Char)) (nonempty : first ≠ [])
    {parts : List (List Char)} (nonempty' : parts ≠ []) :
    ['/'].intercalate (first ++ parts.filter fun part => part ≠ [] && part ≠ ['.']) ++
        (if parts.getLast? = some [] then ['/'] else []) =
      ['/'].intercalate (first ++ keptSegments parts) := by
  induction parts generalizing first with
  | nil => exact absurd rfl nonempty'
  | cons part parts ih =>
    cases parts with
    | nil =>
      by_cases empty : part = []
      · subst empty
        simp [keptSegments, intercalate_concat nonempty]
      · by_cases dot : part = ['.']
        · simp [keptSegments, dot]
        · simp [keptSegments, empty, dot]
    | cons next rest =>
      by_cases named : part = [] ∨ part = ['.']
      · have dropped : ((part :: next :: rest).filter fun part => part ≠ [] && part ≠ ['.']) =
            (next :: rest).filter fun part => part ≠ [] && part ≠ ['.'] := by
          rcases named with rfl | rfl <;> rfl
        rw [dropped, List.getLast?_cons_cons, keptSegments, if_pos named]
        exact ih first nonempty (by simp)
      · have taken : ((part :: next :: rest).filter fun part => part ≠ [] && part ≠ ['.']) =
            part :: (next :: rest).filter fun part => part ≠ [] && part ≠ ['.'] := by
          rw [not_or] at named
          rw [List.filter_cons_of_pos (by simpa using named)]
        rw [taken, List.getLast?_cons_cons, keptSegments, if_neg named]
        simpa using ih (first ++ [part]) (by simp) (by simp)

/-- The two segments in front of every payload. -/
def dataSegments : List (List Char) :=
  ["vault".toList, "data".toList]

theorem splitOn_dataFolder (member : String) :
    (Contents.dataFolder ++ member).toList.splitOn '/' =
      dataSegments ++ member.toList.splitOn '/' := by
  have parts : (Contents.dataFolder ++ member).toList =
      "vault".toList ++ '/' :: ("data".toList ++ '/' :: member.toList) := by
    rw [String.toList_append]
    rfl
  rw [parts, List.splitOn_append_cons_self_of_not_mem (by decide),
    List.splitOn_append_cons_self_of_not_mem (by decide)]
  rfl

/-- The name that reading finds the payload of a member under. -/
theorem plainPath_dataFolder (member : String) :
    plainPath (Contents.dataFolder ++ member) =
      .ofList (['/'].intercalate (dataSegments ++ keptSegments (member.toList.splitOn '/'))) := by
  have ended : (Contents.dataFolder ++ member).toList.getLast? = some '/' ↔
      (member.toList.splitOn '/').getLast? = some [] := by
    have parts : (Contents.dataFolder ++ member).toList =
        "vault/data".toList ++ '/' :: member.toList := by
      rw [String.toList_append]
      rfl
    rw [parts, getLast?_behind_slash]
  have slash : "/".toList = ['/'] := rfl
  rw [← intercalate_filter dataSegments (by simp [dataSegments])
    (List.splitOn_ne_nil '/' member.toList), plainPath, pathParts, splitOn_dataFolder,
    List.filter_append, slash]
  simp only [ended]
  split <;> simp [dataSegments]

theorem keptSegments_slashless {member : String} :
    ∀ part ∈ keptSegments (member.toList.splitOn '/'), '/' ∉ part :=
  fun _ mem => separator_not_mem (mem_of_mem_keptSegments mem)

theorem plainPath_of_settled {member : String} (h : Settled member) :
    plainPath (Contents.dataFolder ++ member) = Contents.dataFolder ++ member := by
  rw [plainPath_dataFolder, keptSegments_of_settled h, ← splitOn_dataFolder,
    List.intercalate_splitOn, String.ofList_toList]

namespace Contents

/-- The member that reading takes the payload of a member for. -/
def storedAs? (member : String) : Option String :=
  memberOf? (plainPath (dataFolder ++ member))

theorem memberOf?_dataFolder (member : String) :
    memberOf? (dataFolder ++ member) = some member := by
  rw [memberOf?, String.toList_append, if_pos (by simp), List.drop_left' rfl, String.ofList_toList]

theorem storedAs?_eq (member : String) :
    storedAs? member =
      if keptSegments (member.toList.splitOn '/') = [] then none
      else some (.ofList (['/'].intercalate (keptSegments (member.toList.splitOn '/')))) := by
  rw [storedAs?, plainPath_dataFolder]
  split
  · next empty =>
    rw [empty]
    decide
  · next nonempty =>
    obtain ⟨part, parts, eq⟩ := List.exists_cons_of_ne_nil nonempty
    have joined : String.ofList (['/'].intercalate (dataSegments ++ part :: parts)) =
        dataFolder ++ .ofList (['/'].intercalate (part :: parts)) := by
      apply String.toList_inj.mp
      simp only [String.toList_append, String.toList_ofList, dataSegments, List.cons_append,
        List.nil_append, List.intercalate_cons_cons]
      rfl
    rw [eq, joined, memberOf?_dataFolder]

/-- A payload comes back under the name of its member exactly if that name is a path that a header
holds as it is. -/
theorem storedAs?_eq_self_iff {member : String} :
    storedAs? member = some member ↔ Settled member := by
  constructor
  · intro h
    rw [storedAs?_eq] at h
    split at h
    · cases h
    · next nonempty =>
      have same : ['/'].intercalate (keptSegments (member.toList.splitOn '/')) =
          ['/'].intercalate (member.toList.splitOn '/') := by
        have joined := congrArg String.toList (Option.some.inj h)
        rw [String.toList_ofList] at joined
        rw [List.intercalate_splitOn, joined]
      have kept := intercalate_inj keptSegments_slashless (fun _ => separator_not_mem) nonempty
        (List.splitOn_ne_nil '/' member.toList) same
      rw [Settled, ← kept]
      exact settledSegments_kept _
  · intro h
    rw [storedAs?, plainPath_of_settled h, memberOf?_dataFolder]

theorem settled_of_storedAs? {member other : String} (h : storedAs? member = some other) :
    Settled other := by
  rw [storedAs?_eq] at h
  split at h
  · cases h
  · next nonempty =>
    rw [Settled, ← Option.some.inj h, String.toList_ofList,
      List.splitOn_intercalate '/' keptSegments_slashless nonempty]
    exact settledSegments_kept _

theorem plainPath_ne_manifestName (member : String) :
    plainPath (dataFolder ++ member) ≠ manifestName := by
  rw [plainPath_dataFolder]
  intro h
  have sixth := congrArg (fun name : String => name.toList[6]?) h
  have data : (['/'].intercalate
      (dataSegments ++ keptSegments (member.toList.splitOn '/')))[6]? = some 'd' := by
    cases keptSegments (member.toList.splitOn '/') <;> rfl
  have manifest : manifestName.toList[6]? = some 'M' := rfl
  simp only [String.toList_ofList, data, manifest] at sixth
  exact absurd (Option.some.inj sixth) (by decide)

end Contents

/-- The bytes of a path that the name field has room for behind the folder of the payloads. -/
def longestPath : Nat := 89

/-- A normal path that the name field has room for. -/
structure FittingPath (path : String) : Prop extends NormalPath path where
  short : (encodeUtf8 path).length ≤ longestPath

instance (path : String) : Decidable (FittingPath path) :=
  decidable_of_iff (NormalPath path ∧ (encodeUtf8 path).length ≤ longestPath)
    ⟨fun h => ⟨h.1, h.2⟩, fun h => ⟨h.toNormalPath, h.short⟩⟩

theorem nameBytes_of_fitting {path : String} (h : FittingPath path) :
    nameBytes (Contents.dataFolder ++ path) = .ok (encodeUtf8 (Contents.dataFolder ++ path)) := by
  have level : ['.', '.'] ∉ pathParts (Contents.dataFolder ++ path) := by
    intro mem
    rw [pathParts, splitOn_dataFolder] at mem
    rcases List.mem_append.mp (List.mem_filter.mp mem).1 with data | own
    · exact absurd data (by decide)
    · exact (h.named _ own).2.2 rfl
  have width : ¬ Field.name.width < (encodeUtf8 (Contents.dataFolder ++ path)).length := by
    have folder : (encodeUtf8 Contents.dataFolder).length = 11 := by decide
    have room : longestPath = 89 := rfl
    have short := h.short
    have name : Field.name.width = 100 := rfl
    rw [encodeUtf8_append, List.length_append]
    omega
  have nonzero : 0 ∉ encodeUtf8 (Contents.dataFolder ++ path) := by
    rw [encodeUtf8_append, List.mem_append, not_or]
    exact ⟨by decide, h.nonzero⟩
  rw [nameBytes, plainPath_of_settled h.settled, if_neg level, if_neg width, if_neg nonzero]

end ObjectVault
