import ObjectVault.Proofs.CallOrder
import ObjectVault.Proofs.Serving

namespace ObjectVault
open ObjectVault.Container ObjectVault.Directory

namespace Archive

/-- A folder without the slashes at its end. -/
def trimmed (folder : String) : String :=
  .ofList (folder.toList.reverse.dropWhile (· == '/')).reverse

theorem below?_eq_some_iff {folder member rest : String} :
    below? folder member = some rest ↔ member = trimmed folder ++ "/" ++ rest := by
  have slash : "/".toList = ['/'] := rfl
  rw [← String.toList_inj, String.toList_append, String.toList_append, trimmed,
    String.toList_ofList, slash]
  simp only [below?]
  generalize (folder.toList.reverse.dropWhile (· == '/')).reverse ++ ['/'] = lead
  constructor
  · intro h
    split at h
    · next front =>
      obtain ⟨behind, same⟩ := List.isPrefixOf_iff_prefix.mp front
      obtain rfl := Option.some.inj h
      rw [← same, List.drop_left, String.toList_ofList]
    · cases h
  · intro same
    have front : lead.isPrefixOf member.toList = true :=
      List.isPrefixOf_iff_prefix.mpr ⟨rest.toList, same.symm⟩
    rw [if_pos front, same, List.drop_left, String.ofList_toList]

end Archive

theorem lt_of_append_lt {lead cs ds : List Char} (h : lead ++ cs < lead ++ ds) : cs < ds := by
  induction lead with
  | nil => exact h
  | cons c lead ih =>
    rcases List.cons_lt_cons_iff.mp h with less | ⟨-, behind⟩
    · exact absurd less (Char.lt_irrefl c)
    · exact ih behind

theorem Table.sorted_keys {α : Type} (t : Table α) : t.keys.Pairwise (· < ·) :=
  List.pairwise_map.mpr t.sorted

/-- What lies below a folder is in the order of the names that it has there. -/
theorem Archive.sorted_below (folder : String) {members : List String}
    (sorted : members.Pairwise (· < ·)) : (members.filterMap (below? folder)).Pairwise (· < ·) := by
  have lead : ∀ rest, (trimmed folder ++ "/" ++ rest).toList =
      (trimmed folder ++ "/").toList ++ rest.toList := fun _ => String.toList_append
  refine List.Pairwise.filterMap _ (fun first second less rest found other found' => ?_) sorted
  rw [below?_eq_some_iff.mp found, below?_eq_some_iff.mp found', String.lt_iff, lead, lead] at less
  exact String.lt_iff.mpr (lt_of_append_lt less)

theorem Table.erase_of_missing {α : Type} {t : Table α} {name : String}
    (missing : t.get? name = none) : t.erase name = t := by
  refine Table.ext_get? fun other => ?_
  rw [Table.get?_erase]
  split
  · next own => rw [own, missing]
  · rfl

/-- Tables with the same names have them in the same order. -/
theorem Table.keys_eq {α β : Type} {s : Table α} {t : Table β}
    (h : ∀ name, s.contains name = t.contains name) : s.keys = t.keys := by
  have mem : ∀ name, name ∈ s.keys ↔ name ∈ t.keys := fun name => by
    rw [← Table.contains_iff, ← Table.contains_iff, h name]
  have nodup : ∀ {γ : Type} (t : Table γ), t.keys.Nodup := by
    intro γ t
    apply t.sorted_keys.imp
    rintro name _ less rfl
    exact String.lt_irrefl name less
  exact ((List.perm_ext_iff_of_nodup (nodup s) (nodup t)).mpr mem).eq_of_pairwise
    (fun a b _ _ lt gt => absurd (String.lt_trans lt gt) (String.lt_irrefl _)) s.sorted_keys
    t.sorted_keys

namespace Archive

theorem delete_unlisted {archive : Archive} {host : Host} {contents : Contents} {member : String}
    (found : archive.contents host.directory = .ok contents)
    (unlisted : contents.manifest.members.get? member = none) :
    archive.delete member host = (.error (.memberNotFound member), host) := by
  rw [Archive.delete, Effect.bind_of_ok (HostM.look_of_ok found), unlisted]
  rfl

end Archive

/-- Something that a handle is asked for or told to do. -/
inductive Operation
  | change (request : Request)
  | read (member : String)
  | contains (member : String)
  | entry (member : String)
  | list (folder : Option String)
  | check

inductive Answer
  | entry (entry : MemberEntry)
  | plaintext (bytes : Bytes)
  | found (b : Bool)
  | members (names : List String)
  | passed

/-- A handle and the host that it works on. -/
structure Client where
  handle : Handle
  host : Host

namespace Operation

def run (client : Client) : Operation → Except ArchiveError Answer × Host
  | .change request =>
    ((client.handle.perform request client.host).1.map .entry,
      (client.handle.perform request client.host).2)
  | .read member => ((client.handle.read member client.host.directory).map .plaintext, client.host)
  | .contains member =>
    ((client.handle.archive.contains member client.host.directory).map .found, client.host)
  | .entry member =>
    ((client.handle.archive.entry member client.host.directory).map .entry, client.host)
  | .list folder =>
    ((client.handle.archive.list (folder.getD "") client.host.directory).map .members, client.host)
  | .check =>
    ((client.handle.checkIntegrity client.host.directory).map fun _ => .passed, client.host)

/-- The handle with the key that it keeps after the operation. -/
def handleAfter (client : Client) : Operation → Handle
  | .change request => client.handle.after client.host request
  | .read member => client.handle.afterRead member client.host.directory
  | .check => client.handle.afterCheck client.host.directory
  | .contains _ | .entry _ | .list _ => client.handle

def step (client : Client) (operation : Operation) : Client :=
  ⟨operation.handleAfter client, (operation.run client).2⟩

/-- The answers to operations one after the other. -/
def runAll (client : Client) : List Operation → List (Except ArchiveError Answer)
  | [] => []
  | operation :: rest => (operation.run client).1 :: runAll (operation.step client) rest

/-- The map from paths to plaintexts after the operation. -/
def mapAfter (map : Table Bytes) : Operation → Table Bytes
  | .change (.write member plaintext) => map.insert member plaintext
  | .change (.delete member) => map.erase member
  | _ => map

/-- What a map answers. The names below a folder are those that are paths of the map with the folder
and a slash in front. -/
def Answered (encrypted : Bool) (map : Table Bytes) (answer : Except ArchiveError Answer) :
    Operation → Prop
  | .change (.write _ plaintext) => answer = .ok (.entry (.describe plaintext encrypted))
  | .change (.delete member) | .entry member =>
    answer = match map.get? member with
      | some plaintext => .ok (.entry (.describe plaintext encrypted))
      | none => .error (.memberNotFound member)
  | .read member =>
    answer = match map.get? member with
      | some plaintext => .ok (.plaintext plaintext)
      | none => .error (.memberNotFound member)
  | .contains member => answer = .ok (.found (map.contains member))
  | .list none => answer = .ok (.members map.keys)
  | .list (some folder) => ∃ names, answer = .ok (.members names) ∧ names.Pairwise (· < ·) ∧
      ∀ name, name ∈ names ↔ map.contains (Archive.trimmed folder ++ "/" ++ name) = true
  | .check => answer = .ok .passed

/-- Each answer is the one of a map that all operations before were made on. -/
def AllAnswered (encrypted : Bool) :
    Table Bytes → List Operation → List (Except ArchiveError Answer) → Prop
  | _, [], [] => True
  | map, operation :: rest, answer :: answers =>
    operation.Answered encrypted map answer ∧
      AllAnswered encrypted (operation.mapAfter map) rest answers
  | _, _, _ => False

/-- What is stored has a path that fits, and a folder that is listed has a name. -/
def Fits : Operation → Prop
  | .change (.write member _) => FittingPath member
  | .list folder => folder ≠ some ""
  | _ => True

/-- No file that the operations leave is too long for a 64-bit size. -/
def Sized (client : Client) : List Operation → Prop
  | [] => True
  | operation :: rest =>
    (∀ written, (operation.step client).host.directory.read vaultPath = .ok written →
      written.length < maxContent) ∧ Sized (operation.step client) rest

end Operation

/-- The archive serves contents that are those of the map. -/
structure Mirrors (archive : Archive) (d : Directory) (map : Table Bytes) : Prop where
  ready : archive.Ready d
  serves : ∃ contents, archive.Serves d contents ∧
    (∀ member, contents.manifest.members.get? member =
      (map.get? member).map (.describe · archive.password.isSome)) ∧
    ∀ member plaintext, map.get? member = some plaintext →
      contents.plaintext (contents.access archive.password) member = .ok plaintext

namespace Mirrors
variable {archive : Archive} {host : Host} {map : Table Bytes} {member : String}

theorem write {plaintext : Bytes} (h : Mirrors archive host.directory map)
    (fits : FittingPath member)
    (sized : ∀ written, (archive.write member plaintext host).2.directory.read archive.path =
      .ok written → written.length < maxContent) :
    ∃ host', archive.write member plaintext host =
        (.ok (.describe plaintext archive.password.isSome), host') ∧
      Mirrors archive host'.directory (map.insert member plaintext) := by
  obtain ⟨before, serves, entries, opens⟩ := h.serves
  obtain ⟨after, host', stored, change, serves', changed, -⟩ :=
    serves.write h.ready.canSave fits sized
  refine ⟨host', stored, h.ready.refiled changed, after, serves', fun other => ?_, ?_⟩
  · rw [change.members, Table.get?_insert, Table.get?_insert]
    split
    · rfl
    · exact entries other
  · intro other old held
    rw [Table.get?_insert] at held
    split at held
    · next same =>
      cases held
      rw [same]
      exact change.opens
    · next apart =>
      have read := opens other old held
      exact (change.plaintext_other apart (by rw [read]; exact nofun)).trans read

theorem delete {plaintext : Bytes} (h : Mirrors archive host.directory map)
    (held : map.get? member = some plaintext)
    (sized : ∀ written, (archive.delete member host).2.directory.read archive.path =
      .ok written → written.length < maxContent) :
    ∃ host', archive.delete member host =
        (.ok (.describe plaintext archive.password.isSome), host') ∧
      Mirrors archive host'.directory (map.erase member) := by
  obtain ⟨before, serves, entries, opens⟩ := h.serves
  have listed : before.manifest.members.get? member =
      some (.describe plaintext archive.password.isSome) := by
    rw [entries, held]
    rfl
  obtain ⟨host', deleted, serves', changed⟩ := serves.delete h.ready.canSave listed sized
  refine ⟨host', deleted, h.ready.refiled changed, _, serves', fun other => ?_, ?_⟩
  · rw [Contents.erase, Table.get?_erase, Table.get?_erase]
    split
    · rfl
    · exact entries other
  · intro other old held'
    rw [Table.get?_erase] at held'
    split at held'
    · cases held'
    · next apart => exact (Contents.plaintext_erase apart).trans (opens other old held')

theorem delete_missing (h : Mirrors archive host.directory map)
    (missing : map.get? member = none) :
    archive.delete member host = (.error (.memberNotFound member), host) := by
  obtain ⟨contents, serves, entries, -⟩ := h.serves
  exact Archive.delete_unlisted serves.found (by rw [entries, missing]; rfl)

theorem read {d : Directory} (h : Mirrors archive d map) (member : String) :
    archive.read member d = match map.get? member with
      | some plaintext => .ok plaintext
      | none => .error (.memberNotFound member) := by
  obtain ⟨contents, serves, entries, opens⟩ := h.serves
  rw [Archive.read_eq serves.found]
  cases held : map.get? member with
  | some plaintext => exact opens member plaintext held
  | none => rw [Contents.plaintext, entries, held]; rfl

theorem contains {d : Directory} (h : Mirrors archive d map) (member : String) :
    archive.contains member d = .ok (map.contains member) := by
  obtain ⟨contents, serves, entries, -⟩ := h.serves
  rw [Archive.contains, Archive.manifest, serves.found]
  simp only [Except.map, Table.contains, entries, Option.isSome_map]

theorem entry {d : Directory} (h : Mirrors archive d map) (member : String) :
    archive.entry member d = match map.get? member with
      | some plaintext => .ok (.describe plaintext archive.password.isSome)
      | none => .error (.memberNotFound member) := by
  obtain ⟨contents, serves, entries, -⟩ := h.serves
  rw [Archive.entry, Archive.manifest, serves.found]
  simp only [Except.map, bind, Except.bind, entries]
  cases map.get? member <;> rfl

theorem list {d : Directory} (h : Mirrors archive d map) (folder : String) :
    archive.list folder d = .ok (if folder.isEmpty then map.keys
      else map.keys.filterMap (Archive.below? folder)) := by
  obtain ⟨contents, serves, entries, -⟩ := h.serves
  have keys : contents.manifest.members.keys = map.keys := by
    refine Table.keys_eq fun name => ?_
    rw [Table.contains, Table.contains, entries, Option.isSome_map]
  rw [Archive.list, Archive.manifest, serves.found]
  simp only [Except.map, bind, Except.bind, keys]
  rfl

/-- Below a folder are the names that are paths of the map with the folder in front. -/
theorem list_below {d : Directory} (h : Mirrors archive d map) {folder : String}
    (named : folder ≠ "") :
    ∃ names, archive.list folder d = .ok names ∧ names.Pairwise (· < ·) ∧
      ∀ name, name ∈ names ↔
        map.contains (Archive.trimmed folder ++ "/" ++ name) = true := by
  refine ⟨map.keys.filterMap (Archive.below? folder), ?_,
    Archive.sorted_below folder map.sorted_keys, fun name => ?_⟩
  · rw [h.list, if_neg (mt String.isEmpty_iff.mp named)]
  · rw [List.mem_filterMap, Table.contains_iff]
    simp only [Archive.below?_eq_some_iff]
    simp

theorem check {d : Directory} (h : Mirrors archive d map) : archive.checkIntegrity d = .ok () := by
  obtain ⟨contents, serves, -⟩ := h.serves
  rw [Archive.checkIntegrity, serves.found]
  exact serves.verified

end Mirrors

namespace Operation

theorem follows_handleAfter (client : Client) (operation : Operation) :
    client.handle.Follows (operation.handleAfter client) := by
  cases operation with
  | change request => exact follows_after _ _ _
  | read member => exact Handle.follows_afterRead _ _ _
  | check => exact Handle.follows_afterCheck _ _
  | contains member => exact .refl _
  | entry member => exact .refl _
  | list folder => exact .refl _

/-- One operation is answered as by the map, and leaves the map that the operation makes of it. -/
theorem answered_step {client : Client} {map : Table Bytes} {operation : Operation}
    (h : Mirrors client.handle.archive client.host.directory map) (sound : client.handle.Sound)
    (fits : operation.Fits)
    (sized : ∀ written, (operation.step client).host.directory.read client.handle.archive.path =
      .ok written → written.length < maxContent) :
    operation.Answered client.handle.archive.password.isSome map (operation.run client).1 ∧
      Mirrors client.handle.archive (operation.step client).host.directory
        (operation.mapAfter map) := by
  cases operation with
  | change request =>
    cases request with
    | write member plaintext =>
      simp only [step, run, Handle.perform, sound.write_eq] at sized ⊢
      obtain ⟨host', stored, mirrors⟩ := h.write fits sized
      rw [stored]
      exact ⟨rfl, mirrors⟩
    | delete member =>
      simp only [step, run, Handle.perform] at sized ⊢
      cases held : map.get? member with
      | some plaintext =>
        obtain ⟨host', deleted, mirrors⟩ := h.delete held sized
        rw [deleted]
        exact ⟨by simp only [Answered, held]; rfl, mirrors⟩
      | none =>
        rw [h.delete_missing held]
        refine ⟨by simp only [Answered, held]; rfl, ?_⟩
        rw [mapAfter, Table.erase_of_missing held]
        exact h
  | read member =>
    refine ⟨?_, h⟩
    simp only [run, Answered, sound.read_eq, h.read]
    cases map.get? member <;> rfl
  | contains member =>
    refine ⟨?_, h⟩
    simp only [run, Answered, h.contains]
    rfl
  | entry member =>
    refine ⟨?_, h⟩
    simp only [run, Answered, h.entry]
    cases map.get? member <;> rfl
  | list folder =>
    refine ⟨?_, h⟩
    cases folder with
    | none =>
      simp only [run, Answered, h.list]
      rfl
    | some folder =>
      obtain ⟨names, listed, sorted, members⟩ := h.list_below fun empty =>
        fits (congrArg some empty)
      refine ⟨names, ?_, sorted, members⟩
      simp only [run, Option.getD_some, listed]
      rfl
  | check =>
    refine ⟨?_, h⟩
    simp only [run, Answered, sound.checkIntegrity_eq, h.check]
    rfl

/-- A run is answered as by the map, whatever the map is at its beginning. -/
theorem answered_runAll {client : Client} {map : Table Bytes} {operations : List Operation}
    (h : Mirrors client.handle.archive client.host.directory map) (sound : client.handle.Sound)
    (own : client.handle.archive.path = vaultPath)
    (fits : ∀ operation ∈ operations, operation.Fits) (sized : Sized client operations) :
    AllAnswered client.handle.archive.password.isSome map operations
      (runAll client operations) := by
  induction operations generalizing client map with
  | nil => trivial
  | cons operation operations ih =>
    obtain ⟨first, others⟩ := List.forall_mem_cons.mp fits
    obtain ⟨short, shorts⟩ := sized
    obtain ⟨answered, mirrors⟩ := answered_step h sound first (own ▸ short)
    have follows := follows_handleAfter client operation
    have same : (operation.step client).handle.archive = client.handle.archive := follows.archive
    refine ⟨answered, ?_⟩
    rw [← same] at own mirrors ⊢
    exact ih mirrors (follows.sound sound) own others shorts

/-- A vault that was never written holds an empty map. -/
theorem mirrors_new {archive : Archive} {d : Directory} (own : archive.path = vaultPath)
    (absent : d.has vaultPath = false) (ready : archive.Ready d)
    (iterated : archive.password.isSome = true → archive.iterations ≠ 0) : Mirrors archive d ∅ := by
  have found : archive.contents d = .ok .empty := Archive.contents_of_missing (own ▸ absent)
  have serves : archive.Serves d .empty := ⟨found, rfl, iterated, fun _ mem => nomatch mem⟩
  exact ⟨ready, .empty, serves, fun _ => rfl, fun _ _ held => nomatch held⟩

/-- An archive file behaves as a sorted map from paths to plaintexts: each of any operations that
are made through one handle on a new vault is answered as the map answers it that all operations
before were made on. -/
theorem archive_is_sorted_map {client : Client} {operations : List Operation}
    (sound : client.handle.Sound) (own : client.handle.archive.path = vaultPath)
    (absent : client.host.directory.has vaultPath = false)
    (ready : client.handle.archive.Ready client.host.directory)
    (iterated : client.handle.archive.password.isSome = true →
      client.handle.archive.iterations ≠ 0)
    (fits : ∀ operation ∈ operations, operation.Fits) (sized : Sized client operations) :
    AllAnswered client.handle.archive.password.isSome ∅ operations (runAll client operations) :=
  answered_runAll (mirrors_new own absent ready iterated) sound own fits sized

/-- A handle without a password on a new vault. -/
def openClient : Client :=
  ⟨.opened Archive.openArchive, Archive.bareHost⟩

theorem openClient_ready : Archive.openArchive.Ready Archive.bareHost.directory :=
  ⟨.inl (by decide), ⟨["storage.vault"], by decide, by decide⟩,
    ⟨["storage.tmp"], by decide, by decide⟩⟩

theorem short_note {written : Bytes}
    (read : (Archive.hostWith "notes/x").directory.read vaultPath = .ok written) :
    written.length < maxContent :=
  Archive.sized_of_storedShortly Archive.storedShortly_note read

def noteOperations : List Operation :=
  [.change (.write "notes/x" [49]), .read "notes/x", .check]

theorem archive_is_sorted_map_note :
    runAll openClient noteOperations =
      [.ok (.entry (.describe [49] false)), .ok (.plaintext [49]), .ok .passed] := by
  have sound : openClient.handle.Sound := Handle.sound_opened _
  have fits : ∀ operation ∈ noteOperations, operation.Fits :=
    List.forall_mem_cons.mpr ⟨(by decide : FittingPath "notes/x"),
      List.forall_mem_cons.mpr ⟨trivial, List.forall_mem_singleton.mpr trivial⟩⟩
  obtain ⟨stored, read, passed, -⟩ := archive_is_sorted_map sound rfl (by decide) openClient_ready
    nofun fits ⟨fun _ => short_note, fun _ => short_note, fun _ => short_note, trivial⟩
  simp only [noteOperations, runAll]
  rw [stored, read, passed]
  rfl

/-- A member is stored, and a folder without a name is listed. -/
def namelessOperations : List Operation :=
  [.change (.write "notes/x" [49]), .list (some "")]

/-- A new vault with a folder in the place of the file that is written first. -/
def blockedClient : Client :=
  ⟨.opened Archive.openArchive, { Archive.bareHost with directory := ⟨∅, [["storage.tmp"]]⟩ }⟩

/-- A folder without a name is listed as the whole archive, and what cannot be written is not
stored, where a map would list nothing and would store it. -/
theorem no_map_answers :
    ¬ AllAnswered false ∅ namelessOperations (runAll openClient namelessOperations) ∧
      ¬ AllAnswered false ∅ [.change (.write "notes/x" [49])]
        (runAll blockedClient [.change (.write "notes/x" [49])]) := by
  constructor
  · rintro ⟨-, ⟨names, listed, -, members⟩, -⟩
    have mirrors : Mirrors openClient.handle.archive openClient.host.directory ∅ :=
      mirrors_new rfl (by decide) openClient_ready nofun
    have fits : ∀ operation ∈ [.change (.write "notes/x" [49]), .list none],
        Operation.Fits operation :=
      List.forall_mem_cons.mpr ⟨(by decide : FittingPath "notes/x"),
        List.forall_mem_singleton.mpr nofun⟩
    obtain ⟨-, whole, -⟩ := answered_runAll mirrors (Handle.sound_opened _) rfl fits
      ⟨fun _ => short_note, fun _ => short_note, trivial⟩
    -- Both lists are made by the same call.
    have same : names = ["notes/x"] := by
      have both := Except.ok.inj (listed.symm.trans whole)
      cases both
      decide
    have inside := (members "notes/x").mp (by rw [same]; exact List.mem_singleton_self _)
    exact absurd inside (by decide)
  · rintro ⟨stored, -⟩
    have failed : (run blockedClient (.change (.write "notes/x" [49]))).1.isOk = false := by
      decide +kernel
    rw [stored] at failed
    cases failed

end Operation
end ObjectVault
