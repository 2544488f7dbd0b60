import ObjectVault.Proofs.FailedCommands
import ObjectVault.Proofs.Provenance
import ObjectVault.Proofs.Standing
import ObjectVault.Proofs.Validating
import Mathlib.Data.String.Basic

namespace ObjectVault
open ObjectVault.Command ObjectVault.Text

theorem utf8Size_toLower (c : Char) : c.toLower.utf8Size = c.utf8Size := by
  rw [Char.toLower]
  split
  · next upper =>
    have top : c.toNat ≤ 90 := UInt32.le_iff_toNat_le.mp upper.2
    have shift : 'a'.val - 'A'.val = 32 := by decide
    have sum : (c.val + ('a'.val - 'A'.val)).toNat = c.toNat + 32 := by
      rw [shift, UInt32.toNat_add]
      exact Nat.mod_eq_of_lt (by simp; omega)
    rw [Char.utf8Size_eq_one_iff.mpr (UInt32.le_iff_toNat_le.mpr (by rw [sum]; simp; omega)),
      Char.utf8Size_eq_one_iff.mpr (UInt32.le_iff_toNat_le.mpr (Nat.le_trans top (by decide)))]
  · rfl

theorem utf8ByteSize_toLower (text : String) : text.toLower.utf8ByteSize = text.utf8ByteSize := by
  have sum : ∀ cs : List Char, String.utf8Len (cs.map Char.toLower) = String.utf8Len cs := by
    intro cs
    induction cs with
    | nil => rfl
    | cons c cs ih =>
      rw [List.map_cons, String.utf8Len_cons, String.utf8Len_cons, ih, utf8Size_toLower]
  rw [← String.utf8Len_toList, ← String.utf8Len_toList, String.toLower, String.toList_map, sum]

theorem Bytes.utf8Size_hexDigit {n : Nat} (h : n < 16) : (hexDigit n).utf8Size = 1 := by
  revert n
  decide

theorem Bytes.utf8ByteSize_hex (bytes : Bytes) : (hex bytes).utf8ByteSize = 2 * bytes.length := by
  rw [hex, String.utf8ByteSize_ofList]
  induction bytes with
  | nil => rfl
  | cons b bytes ih =>
    have := b.toNat_lt
    rw [List.flatMap_cons, String.utf8Len_append, ih, String.utf8Len_cons, String.utf8Len_cons,
      utf8Size_hexDigit (by omega), utf8Size_hexDigit (by omega), List.length_cons]
    simp [String.utf8Len]
    omega

theorem HashMethod.utf8ByteSize_digest (method : HashMethod) (bytes : Bytes) :
    (method.digest bytes).utf8ByteSize = method.digits := by
  cases method with
  | crc32 => rw [digest, Crc32.digest, Bytes.utf8ByteSize_hex, Bytes.length_bigEndian]; rfl
  | sha256 =>
    rw [digest, Sha256.digest, Bytes.utf8ByteSize_hex, Sha256.hash, Sha256.State.length_bytes]
    rfl

theorem HashMethod.ofDigits?_digits (method : HashMethod) :
    ofDigits? method.digits = some method := by
  cases method <;> rfl

/-- The checksum that is recorded under a method. -/
def Checksums.under (sums : Checksums) : HashMethod → Option String
  | .crc32 => sums.crc32
  | .sha256 => sums.sha256

theorem Checksums.under_ofBytes (bytes : Bytes) (method : HashMethod) :
    (ofBytes bytes).under method = some (method.digest bytes) := by
  cases method <;> rfl

/-- In an archive whose members can all be read, its members are what can be read. -/
theorem Archive.contains_iff_read {archive : Archive} {path : String} {d : Directory}
    (opens : archive.checkIntegrity d = .ok ()) :
    archive.contains path d = .ok true ↔ ∃ bytes, archive.read path d = .ok bytes := by
  obtain ⟨contents, found, verified⟩ := checked_bind_eq_ok_iff.mp opens
  rw [contains_eq found, read_eq found, Except.ok.injEq]
  constructor
  · intro listed
    exact Contents.verify_eq_ok_iff.mp verified path (Table.contains_iff.mp listed)
  · rintro ⟨bytes, read⟩
    rw [Contents.plaintext] at read
    split at read
    · next entry payload listed _ => simp [Table.contains, listed]
    · cases read

/-- What lies under a name in a view that has neither kept it nor has an importer for it is the
value of the member. -/
theorem View.child?_of_read {view : View} {name : String} {d : Directory} {bytes : Bytes}
    {value : Value} (unkept : view.kept.get? name = none) (plain : view.importers.get? name = none)
    (opens : view.archive.checkIntegrity d = .ok ())
    (read : view.archive.read (view.path name) d = .ok bytes)
    (imported : Codec.importDefault bytes = .ok value) :
    view.child? name d = .ok (some (.value value)) := by
  have held : Storage.contains view.archive (view.path name) d = .ok true := by
    rw [Storage.contains, (Archive.contains_iff_read opens).mpr ⟨_, read⟩]
    rfl
  have loaded := Storage.load_ok read imported
  simp only [child?, unkept, plain, bind, Except.bind, held, loaded]
  rfl

theorem View.afterLook_of_child {view : View} {name : String} {d : Directory} {value : Value}
    (child : view.child? name d = .ok (some (.value value))) :
    view.afterLook name d = { view with kept := view.kept.insert name value } := by
  rw [afterLook, child]

namespace Command
variable {context : Context} {arguments : Arguments} {path hash line : String}
  {method : HashMethod} {archive : Archive} {world : World} {bytes : Bytes}

/-- Where the first name that is looked up leads to a value in a folder, the view of the folder
keeps it, whatever is looked up after it. -/
theorem Context.afterLookups_ne {context : Context} {name head part : String} {rest : List String}
    {view : View} {v : Value} (names : List String) (dotted : isDottedIdentifier name = true)
    (free : context.scope.get? name = none) (parts : dottedParts name = head :: part :: rest)
    (bound : context.scope.get? head = some (.view view)) (unkept : view.kept.get? part = none)
    (child : view.child? part context.directory = .ok (some (.value v))) :
    ((name :: names).foldl afterLookup context).scope ≠ context.scope := by
  have first : (context.afterLookup name).scope =
      context.scope.insert head (.view { view with kept := view.kept.insert part v }) := by
    rw [afterLookup, if_pos dotted, Scope.afterResolve, Table.contains, free, parts]
    simp only [bound, View.afterLook_of_child child]
    rfl
  have later := looked_afterLookups names (context.afterLookup name) head
  rw [first, Table.get?_insert, if_pos rfl] at later
  intro same
  rw [List.foldl_cons] at same
  rw [same, bound] at later
  cases later with
  | some keeps =>
    have kept := keeps.of_view.kept part v (by rw [Table.get?_insert, if_pos rfl])
    cases unkept.symm.trans kept

/-- How the arguments of an assertion name its member: as a variable in a folder, or by its path. -/
inductive Asserts (context : Context) (arguments : Arguments) : String → Prop
  | named {name folder : String} {b : Binding} (given : arguments.get? "assert" = some name)
    (found : context.lookup "variable" name = .ok b) (place : arguments.get? "in" = some folder)
    (bare : Rule.isLiteral folder = .ok false) :
    Asserts context arguments (Form.memberPath folder name)
  | literal {token path : String} (given : arguments.get? "assert" = some token)
    (quoted : Rule.isLiteral token = .ok true) (text : unquote token = .ok path) :
    Asserts context arguments path

/-- The hash has as many digits as a checksum, and is compared with that of a known method. -/
structure Measures (arguments : Arguments) (hash : String) (method : HashMethod) : Prop where
  digits : hash.utf8ByteSize = 8 ∨ hash.utf8ByteSize = 64
  method : Form.methodFor arguments hash = some method

theorem Measures.unique {other : HashMethod} (h : Measures arguments hash method)
    (h' : Measures arguments hash other) : other = method :=
  Option.some.inj (h'.method.symm.trans h.method)

theorem met_hash_iff :
    Rule.hash.Met context hash ↔ hash.utf8ByteSize = 8 ∨ hash.utf8ByteSize = 64 := by
  constructor
  · rintro ⟨method, known⟩
    have digits := List.find?_some known
    cases method <;> simp [HashMethod.digits] at digits <;> simp [← digits]
  · rintro (short | long)
    · exact ⟨.crc32, by rw [short]; rfl⟩
    · exact ⟨.sha256, by rw [long]; rfl⟩

theorem exists_measures_iff :
    (∃ method, Measures arguments hash method) ↔ Rule.hash.Met context hash ∧
      Signature.Passes [("with", .hashMethod)] context arguments := by
  constructor
  · rintro ⟨method, digits, known⟩
    refine ⟨met_hash_iff.mpr digits, ?_⟩
    rintro rule (_ | ⟨_, ⟨⟩⟩) name given
    rw [Form.methodFor, given] at known
    exact ⟨method, known⟩
  · rintro ⟨met, passes⟩
    have digits := met_hash_iff.mp met
    cases given : arguments.get? "with" with
    | none =>
      obtain ⟨method, known⟩ := met
      exact ⟨method, digits, by rw [Form.methodFor, given]; exact known⟩
    | some name =>
      obtain ⟨method, known⟩ := passes _ List.mem_cons_self name given
      exact ⟨method, digits, by rw [Form.methodFor, given]; exact known⟩

/-- The form of an assertion: the one by which the member is named, if there is a hash. -/
theorem Asserts.choose (h : Asserts context arguments path)
    (given : arguments.get? "is" = some hash) (met : Rule.hash.Met context hash) :
    ∃ form : Form, Action.verify.choose context arguments = some form ∧
      form.plan arguments = .ok (.verify path) ∧
      (form.signature.validate context arguments = .ok () ↔
        Signature.Passes [("with", .hashMethod)] context arguments) := by
  have validated : ∀ form ∈ Action.verify.forms, form.signature.Complete context arguments →
      (form.signature.validate context arguments = .ok () ↔
        Signature.Passes [("with", .hashMethod)] context arguments) := by
    intro form own complete
    rw [Signature.validate_eq_ok_iff form.required_ne_nil, and_iff_right complete]
    rcases List.mem_pair.mp own with rfl | rfl
    · exact and_iff_left nofun
    · exact and_iff_left nofun
  cases h with
  | @named name folder b named found place bare =>
    have complete : Form.verifyName.signature.Complete context arguments := by
      intro rule mem
      simp only [Form.signature, List.mem_cons, List.not_mem_nil, or_false] at mem
      rcases mem with rfl | rfl | rfl
      · exact ⟨name, named, b, found⟩
      · exact ⟨folder, place, bare⟩
      · exact ⟨hash, given, met⟩
    refine ⟨.verifyName, Action.choose_first rfl complete, ?_,
      validated _ List.mem_cons_self complete⟩
    simp only [Form.plan, Form.member, Form.value, Arguments.need, named, place]
    rfl
  | @literal token path named quoted text =>
    have incomplete : ¬ Form.verifyName.signature.Complete context arguments := by
      intro complete
      obtain ⟨value, named', b, found⟩ := complete _ List.mem_cons_self
      rw [named] at named'
      cases named'
      have bare := isLiteral_of_word
        (word_of_isDottedIdentifier (Context.isDottedIdentifier_of_lookup found))
      rw [quoted] at bare
      cases bare
    have complete : Form.verifyAt.signature.Complete context arguments := by
      intro rule mem
      simp only [Form.signature, List.mem_cons, List.not_mem_nil, or_false] at mem
      rcases mem with rfl | rfl
      · exact ⟨token, named, quoted⟩
      · exact ⟨hash, given, met⟩
    refine ⟨.verifyAt, Action.choose_second rfl incomplete complete, ?_,
      validated _ (List.mem_cons_of_mem _ List.mem_cons_self) complete⟩
    simp only [Form.plan, Form.literal, Form.value, Arguments.need, named]
    simp only [Except.mapError, bind, Except.bind, text]
    rfl

theorem hash_of_choose {form : Form} (chosen : Action.verify.choose context arguments = some form) :
    ∃ hash, arguments.get? "is" = some hash ∧ Rule.hash.Met context hash := by
  obtain ⟨own, complete⟩ := Action.complete_of_choose chosen
  rcases List.mem_pair.mp own with rfl | rfl
  · exact complete ("is", .hash) (by simp [Form.signature])
  · exact complete ("is", .hash) (by simp [Form.signature])

/-- A line whose hash can be measured asks for the check of its member. -/
theorem Asserts.task (names : Asserts context arguments path)
    (read : Arguments.ofLine line = .ok arguments)
    (acts : Action.ofArguments arguments = .ok .verify) (given : arguments.get? "is" = some hash)
    (measures : Measures arguments hash method) :
    ∃ form, Task.ofLine? context line = some ⟨arguments, .verify, form, .verify path⟩ := by
  obtain ⟨met, passes⟩ := exists_measures_iff.mp ⟨method, measures⟩
  obtain ⟨form, chosen, planned, valid⟩ := names.choose given met
  exact ⟨form, Task.ofLine?_eq_some_iff.mpr ⟨read, acts, chosen, valid.mpr passes, planned⟩⟩

/-- A line that asks for an assertion has a hash that can be measured. -/
theorem Asserts.measures (names : Asserts context arguments path)
    (read : Arguments.ofLine line = .ok arguments)
    (acts : Action.ofArguments arguments = .ok .verify) (given : arguments.get? "is" = some hash)
    {task : Task} (asked : Task.ofLine? context line = some task) :
    ∃ method, Measures arguments hash method := by
  obtain ⟨arguments', action, form, plan⟩ := task
  obtain ⟨read', acts', chosen, valid, -⟩ := Task.ofLine?_eq_some_iff.mp asked
  cases read.symm.trans read'
  cases acts.symm.trans acts'
  obtain ⟨hash', given', met⟩ := hash_of_choose chosen
  cases given.symm.trans given'
  obtain ⟨form', chosen', -, valid'⟩ := names.choose given met
  cases chosen.symm.trans chosen'
  exact exists_measures_iff.mpr ⟨met, valid'.mp valid⟩

/-- What comes of comparing a hash with the checksum of what is read. -/
def Form.verdict (path hash : String) (method : HashMethod) :
    Except ArchiveError Bytes → Except CommandError (List ResultRecord)
  | .ok bytes =>
    if hash.toLower = (method.digest bytes).toLower then
      .ok [⟨path, some (.single method (method.digest bytes)), none⟩]
    else .error (.checksumMismatch path method.name hash (method.digest bytes))
  | .error e => .error (.storage (.archive e))

theorem Form.compareHash_apply (given : arguments.get? "is" = some hash)
    (measures : Measures arguments hash method) (archive : Archive) (path : String)
    (world : World) :
    Form.compareHash archive arguments path world =
      (verdict path hash method (archive.read path world.host.directory), world) := by
  have chosen : Form.hashMethod arguments hash world = (.ok method, world) := by
    have known := measures.method
    rw [Form.methodFor] at known
    rw [Form.hashMethod]
    split at known
    · next name named => rw [named]; simp only [known]; rfl
    · next unnamed => rw [unnamed]; simp only [known]; rfl
  have looked := RunM.onStorage_look (Storage.digest archive path method) world
  rw [Storage.digest] at looked
  rw [Form.compareHash, Effect.bind_of_ok (need_ok given), Effect.bind_of_ok chosen]
  cases read : archive.read path world.host.directory with
  | error e =>
    rw [read] at looked
    rw [Effect.bind_of_error looked]
    rfl
  | ok bytes =>
    rw [read] at looked
    rw [Effect.bind_of_ok looked, verdict]
    by_cases same : hash.toLower = (method.digest bytes).toLower
    · simp [same]
    · simp [same, Ne.symm same]

/-- The choice of the form of an assertion looks up what is to be checked. -/
theorem lookedUp_verify (context : Context) (arguments : Arguments) :
    Action.namesLookedUp context arguments Action.verify.forms =
      (arguments.get? "assert").toList := by
  have unnamed : ∀ (rule : Rule) (given : Option String),
      rule = .folder ∨ rule = .path ∨ rule = .hash →
      (given.map (rule.lookedUp context)).getD [] = [] := by
    rintro rule given (rfl | rfl | rfl) <;> cases given <;> rfl
  have optional : Signature.namesChecked context arguments [("with", .hashMethod)] = [] := by
    simp only [Signature.namesChecked]
    cases arguments.get? "with" with
    | none => rfl
    | some name =>
      simp only [Rule.lookedUp]
      split <;> rfl
  simp only [Action.forms, Action.namesLookedUp, Signature.namesProbed, Form.signature, optional,
    unnamed, List.flatMap_cons, List.flatMap_nil, ite_self, List.append_nil, true_or, or_true]
  cases arguments.get? "assert" <;> rfl

end Command

namespace Session
variable {session : Session} {log : Option String} {line path hash : String} {arguments : Arguments}
  {world after : World} {result : Except CommandError Metadata}

/-- A line of a session that asserts the hash of a member, where the vault can be read. -/
structure Assertion (session : Session) (line : String) (world : World) (arguments : Arguments)
    (path hash : String) : Prop where
  read : Arguments.ofLine line = .ok arguments
  acts : Action.ofArguments arguments = .ok .verify
  names : Asserts world.context arguments path
  given : arguments.get? "is" = some hash
  opens : session.archive.checkIntegrity world.host.directory = .ok ()

/-- The hash is the checksum of the member, in letters of any case. -/
structure Matches (archive : Archive) (d : Directory) (arguments : Arguments) (path hash : String) :
    Prop where
  member : archive.contains path d = .ok true
  same : ∃ method, Measures arguments hash method ∧ ∀ bytes, archive.read path d = .ok bytes →
    hash.toLower = (method.digest bytes).toLower

/-- A hash that is measured matches if it is the checksum of what is read. -/
theorem matches_iff {archive : Archive} {d : Directory} {method : HashMethod} {bytes : Bytes}
    (opens : archive.checkIntegrity d = .ok ()) (measures : Measures arguments hash method)
    (read : archive.read path d = .ok bytes) :
    Matches archive d arguments path hash ↔ hash.toLower = (method.digest bytes).toLower := by
  constructor
  · rintro ⟨-, method', measures', same⟩
    rw [← measures.unique measures']
    exact same bytes read
  · intro same
    refine ⟨(Archive.contains_iff_read opens).mpr ⟨bytes, read⟩, method, measures,
      fun bytes' read' => ?_⟩
    cases read.symm.trans read'
    exact same

/-- What an assertion comes to. It succeeds for the checksum of the member and for nothing else, if
its record can be logged; another hash is refused with the right one. The log apart, it changes no
file, and no name but a view that the variable is looked up through. -/
structure Judged (session : Session) (log : Option String) (world : World) (arguments : Arguments)
    (path hash : String) (result : Except CommandError Metadata) (after : World) : Prop where
  matched : result.isOk = true → Matches session.archive world.host.directory arguments path hash
  accepted : Matches session.archive world.host.directory arguments path hash →
    session.CanLog log world.host.directory → result.isOk = true
  recorded : ∀ record, result = .ok record → ∃ method bytes, Measures arguments hash method ∧
    session.archive.read path world.host.directory = .ok bytes ∧
      record.result = [⟨path, some (.single method (method.digest bytes)), none⟩]
  refused : ∀ method bytes, Measures arguments hash method →
    session.archive.read path world.host.directory = .ok bytes →
      hash.toLower ≠ (method.digest bytes).toLower →
        result = .error (.checksumMismatch path method.name hash (method.digest bytes))
  files : Logged (session.keptLog log) world.host.directory after.host.directory
  failed : result.isOk = false → after.host.directory = world.host.directory
  names : world.scope.Looked after.scope
  whole : (∀ name, arguments.get? "assert" = some name →
    world.scope.contains name = true ∨ isDottedIdentifier name = false) → after.scope = world.scope

/-- Looking for the form of an assertion changes nothing where nothing is read for it. -/
theorem Assertion.unstarted_scope (h : session.Assertion line world arguments path hash)
    (unstarted : Unstarted line world after)
    (whole : ∀ name, arguments.get? "assert" = some name →
      world.scope.contains name = true ∨ isDottedIdentifier name = false) :
    after.scope = world.scope := by
  cases unstarted with
  | unread => rfl
  | unplanned read acts =>
    cases h.read.symm.trans read
    cases h.acts.symm.trans acts
    rw [Action.noted_of_kept fun name mem => ?_]
    rw [lookedUp_verify, Option.mem_toList] at mem
    rcases whole name mem with bound | unnamed
    · exact Context.afterLookup_of_bound bound
    · exact Context.afterLookup_of_not_name unnamed

/-- An assertion that fails has changed nothing but by looking. -/
theorem Assertion.judged_of_error {e : CommandError} {done : World}
    (h : session.Assertion line world arguments path hash) (unstarted : Unstarted line world done)
    (scope : after.scope = done.scope) (files : after.host.directory = done.host.directory)
    (unmatched : Matches session.archive world.host.directory arguments path hash →
      ¬ session.CanLog log world.host.directory)
    (refused : ∀ method bytes, Measures arguments hash method →
      session.archive.read path world.host.directory = .ok bytes →
        hash.toLower ≠ (method.digest bytes).toLower →
          e = .checksumMismatch path method.name hash (method.digest bytes)) :
    session.Judged log world arguments path hash (.error e) after where
  matched := nofun
  accepted own can := absurd can (unmatched own)
  recorded := nofun
  refused method bytes measures read other := by rw [refused method bytes measures read other]
  files := by
    rw [files, unstarted.looked.host]
    exact .quiet
  failed _ := by rw [files, unstarted.looked.host]
  names := scope ▸ unstarted.looked.scope
  whole whole := scope.trans (h.unstarted_scope unstarted whole)

/-- An assertion that succeeds has changed nothing but by looking, and by its report. -/
theorem Assertion.judged_of_ok {method : HashMethod} {bytes : Bytes} {done : World}
    {record : Metadata} (h : session.Assertion line world arguments path hash)
    (unstarted : Unstarted line world done) (scope : after.scope = done.scope)
    (logged : Logged (session.keptLog log) done.host.directory after.host.directory)
    (measures : Measures arguments hash method)
    (read : session.archive.read path world.host.directory = .ok bytes)
    (own : Matches session.archive world.host.directory arguments path hash)
    (told : record.result = [⟨path, some (.single method (method.digest bytes)), none⟩]) :
    session.Judged log world arguments path hash (.ok record) after where
  matched _ := own
  accepted _ _ := rfl
  recorded := by
    rintro _ ⟨⟩
    exact ⟨method, bytes, measures, read, told⟩
  refused _ _ measures' read' other := absurd ((matches_iff h.opens measures' read').mp own) other
  files := by
    rw [← unstarted.looked.host]
    exact logged
  failed := nofun
  names := scope ▸ unstarted.looked.scope
  whole whole := scope.trans (h.unstarted_scope unstarted whole)

/-- The check of a member whose hash matches succeeds. -/
theorem Assertion.judged_of_same {method : HashMethod} {bytes : Bytes} {task : Task}
    (h : session.Assertion line world arguments path hash)
    (asked : Task.ofLine? world.context line = some task)
    (compared : task.run session.archive (task.noted world) =
      (.ok [⟨path, some (.single method (method.digest bytes)), none⟩], task.noted world))
    (noted : Unstarted line world (task.noted world)) (measures : Measures arguments hash method)
    (read : session.archive.read path world.host.directory = .ok bytes)
    (own : Matches session.archive world.host.directory arguments path hash)
    (ran : run (some session) log line world = (result, after)) :
    session.Judged log world arguments path hash result after := by
  cases result with
  | ok record =>
    obtain ⟨task', done, carried⟩ := ran_of_run ran
    cases asked.symm.trans carried.asked
    obtain ⟨told, rfl⟩ := Prod.mk.inj (compared.symm.trans carried.ran)
    exact h.judged_of_ok noted carried.scope carried.logged measures read own
      (Except.ok.inj told).symm
  | error e =>
    have unmatched : Matches session.archive world.host.directory arguments path hash →
        ¬ session.CanLog log world.host.directory := by
      intro _ can
      rw [← noted.looked.host] at can
      obtain ⟨record, last, ran', -⟩ := run_of_task asked compared can
      cases ran.symm.trans ran'
    have refused : ∀ method' bytes', Measures arguments hash method' →
        session.archive.read path world.host.directory = .ok bytes' →
          hash.toLower ≠ (method'.digest bytes').toLower →
            e = .checksumMismatch path method'.name hash (method'.digest bytes') := by
      intro method' bytes' measures' read' other
      exact absurd ((matches_iff h.opens measures' read').mp own) other
    rcases run_cases ran with
      ⟨_, -, unstarted⟩ | ⟨task', asked', ⟨_, -, failed⟩ | ⟨records, done, carried, -, quiet⟩⟩
    · exact h.judged_of_error unstarted rfl rfl unmatched refused
    · cases asked.symm.trans asked'
      cases compared.symm.trans failed
    · cases asked.symm.trans carried.asked
      obtain ⟨-, rfl⟩ := Prod.mk.inj (compared.symm.trans carried.ran)
      exact h.judged_of_error noted carried.scope (quiet rfl) unmatched refused

theorem Assertion.judged (h : session.Assertion line world arguments path hash)
    (ran : run (some session) log line world = (result, after)) :
    session.Judged log world arguments path hash result after := by
  by_cases measured : ∃ method, Measures arguments hash method
  · obtain ⟨method, measures⟩ := measured
    obtain ⟨form, asked⟩ := h.names.task h.read h.acts h.given measures
    have noted : Unstarted line world (Action.verify.noted arguments world) :=
      .unplanned h.read h.acts
    have compared : Form.compareHash session.archive arguments path
          (Action.verify.noted arguments world) =
        (Form.verdict path hash method (session.archive.read path world.host.directory),
          Action.verify.noted arguments world) :=
      Form.compareHash_apply h.given measures _ _ _
    cases read : session.archive.read path world.host.directory with
    | error e =>
      rw [read, Form.verdict] at compared
      cases ran.symm.trans (run_of_task_error asked compared)
      refine h.judged_of_error noted rfl rfl (fun own => ?_) fun _ _ _ read' => ?_
      · obtain ⟨bytes, read'⟩ := (Archive.contains_iff_read h.opens).mp own.member
        cases read.symm.trans read'
      · cases read.symm.trans read'
    | ok bytes =>
      rw [read, Form.verdict] at compared
      by_cases same : hash.toLower = (method.digest bytes).toLower
      · rw [if_pos same] at compared
        exact h.judged_of_same asked compared noted measures read
          ((matches_iff h.opens measures read).mpr same) ran
      · rw [if_neg same] at compared
        cases ran.symm.trans (run_of_task_error asked compared)
        refine h.judged_of_error noted rfl rfl
          (fun own => absurd ((matches_iff h.opens measures read).mp own) same)
          fun method' bytes' measures' read' _ => ?_
        cases read.symm.trans read'
        rw [measures.unique measures']
  · have unmeasured : ¬ Matches session.archive world.host.directory arguments path hash :=
      fun own => measured (own.same.imp fun _ => And.left)
    rcases run_cases ran with ⟨e, rfl, unstarted⟩ | ⟨task, asked, -⟩
    · exact h.judged_of_error unstarted rfl rfl (fun own => absurd own unmeasured)
        fun method bytes measures => absurd ⟨method, measures⟩ measured
    · exact absurd (h.names.measures h.read h.acts h.given asked) measured

theorem Assertion.accepted (h : session.Assertion line world arguments path hash)
    (own : Matches session.archive world.host.directory arguments path hash)
    (can : session.CanLog log world.host.directory) :
    (run (some session) log line world).1.isOk = true :=
  (h.judged rfl).accepted own can

theorem Assertion.refused_of_unread {e : ArchiveError}
    (h : session.Assertion line world arguments path hash)
    (unread : session.archive.read path world.host.directory = .error e) :
    (run (some session) log line world).1.isOk = false := by
  refine Bool.eq_false_iff.mpr fun accepted => ?_
  obtain ⟨bytes, read⟩ :=
    (Archive.contains_iff_read h.opens).mp ((h.judged rfl).matched accepted).member
  cases unread.symm.trans read

/-- The member was stored with these checksums, and has been spared since. -/
inductive LastStored (session : Session) (path : String) (sums : Checksums) : World → Prop
  | stored {issue : Issue} {world after : World} {metadata : Metadata} {record : ResultRecord}
    (short : issue.Short session world) (ran : issue.run session world = (.ok metadata, after))
    (told : (path, record) ∈ issue.entries session world) (new : record.new = some sums) :
    LastStored session path sums after
  | spared {issue : Issue} {world : World} (h : LastStored session path sums world)
    (short : issue.Short session world)
    (spares : ∀ task, issue.task? world = some task →
      task.plan.Spares session.archive task.arguments (task.noted (issue.start world)) path) :
    LastStored session path sums (issue.run session world).2

theorem LastStored.stands {sums : Checksums} (h : session.LastStored path sums world)
    (apart : ¬ Archive.OwnTemporary session.archive.path) :
    ∃ bytes, sums = .ofBytes bytes ∧ session.archive.Stands path bytes world.host.directory := by
  induction h with
  | @stored issue world after metadata record short ran told new =>
    obtain ⟨task, done, carried⟩ := ran_of_run ran
    have asked : issue.task? world = some task := carried.asked
    have short := short task asked
    have finished := carried.ran
    rw [Issue.entries_of_run asked ran] at told
    obtain ⟨arguments, action, form, plan⟩ := task
    cases plan with
    | load | view | verify => cases told
    | delete member =>
      obtain ⟨entry, host, -, same, -⟩ := Form.remove_eq_ok finished
      rw [same] at told
      cases List.mem_singleton.mp told
      cases new
    | store targets =>
      have nonempty : targets ≠ [] := by
        rintro rfl
        cases told
      obtain ⟨deposits, before, later, deposited⟩ := Form.deposited_of_run nonempty short finished
      simp only [deposited.records, deposited.zip_changed] at told
      obtain ⟨deposit, mem, same⟩ := List.mem_map.mp told
      cases same
      refine ⟨deposit.bytes, (Option.some.inj new).symm, later,
        (Archive.Owns.wrote deposited.wrote).logged carried.logged, ?_⟩
      exact (deposited.change.own deposited.distinct deposit mem).2
  | @spared issue world h short spares ih =>
    obtain ⟨bytes, rfl, stands⟩ := ih
    exact ⟨bytes, rfl, Issue.run_keeps
      (fun task asked => (spares task asked).stands apart (short task asked))
      (fun _ _ _ logged stands => stands.logged logged) stands⟩

/-- Both checksums that were recorded when a member was stored last are accepted, in letters of any
case, under the method they are of or under none. -/
theorem LastStored.accepted {sums : Checksums} {method : HashMethod} {digest : String}
    (h : session.LastStored path sums world) (apart : ¬ Archive.OwnTemporary session.archive.path)
    {last : Issue}
    (assertion : session.Assertion last.line (last.start world) arguments path hash)
    (logs : session.CanLog last.log world.host.directory)
    (recorded : sums.under method = some digest) (same : hash.toLower = digest.toLower)
    (named : ∀ name, arguments.get? "with" = some name → name = method.name) :
    (last.run session world).1.isOk = true := by
  obtain ⟨bytes, rfl, stands⟩ := h.stands apart
  obtain ⟨contents, found, -⟩ := checked_bind_eq_ok_iff.mp assertion.opens
  have read : session.archive.read path (last.start world).host.directory = .ok bytes :=
    stands.read found
  rw [Checksums.under_ofBytes, Option.some.injEq] at recorded
  subst recorded
  have digits : hash.utf8ByteSize = method.digits := by
    rw [← utf8ByteSize_toLower, same, utf8ByteSize_toLower, HashMethod.utf8ByteSize_digest]
  have measures : Measures arguments hash method := by
    refine ⟨by cases method <;> simp [digits, HashMethod.digits], ?_⟩
    rw [Form.methodFor]
    split
    · next name given =>
      rw [named name given]
      cases method <;> rfl
    · rw [digits, HashMethod.ofDigits?_digits]
  exact assertion.accepted ((matches_iff assertion.opens measures read).mpr same) logs

/-- An assertion accepts the checksums of the member, and nothing else; so it accepts those that
were recorded when the member was stored last, until that is stored or deleted again. -/
theorem checksums_are_accepted (session : Session) :
    (∀ {log : Option String} {line : String} {world : World} {arguments : Arguments}
      {path hash : String} {result : Except CommandError Metadata} {after : World},
      session.Assertion line world arguments path hash →
        run (some session) log line world = (result, after) →
          session.Judged log world arguments path hash result after) ∧
    (¬ Archive.OwnTemporary session.archive.path →
      ∀ {path : String} {sums : Checksums} {world : World} {last : Issue} {arguments : Arguments}
        {hash digest : String} {method : HashMethod},
        session.LastStored path sums world →
        session.Assertion last.line (last.start world) arguments path hash →
        session.CanLog last.log world.host.directory →
        sums.under method = some digest → hash.toLower = digest.toLower →
        (∀ name, arguments.get? "with" = some name → name = method.name) →
          (last.run session world).1.isOk = true) :=
  ⟨fun assertion ran => assertion.judged ran,
    fun apart _ _ _ _ _ _ _ _ stored assertion logs recorded same named =>
      stored.accepted apart assertion logs recorded same named⟩

/-- The number's hash is asserted under some name, in small letters. -/
def assertLine (name : String) : String :=
  "assert " ++ name ++ " in notes is 83dcefb7"

theorem read_assertLine {name : String} (known : name = "x" ∨ name = "m.x") :
    ∃ arguments, Arguments.ofLine (assertLine name) = .ok arguments ∧
      Action.ofArguments arguments = .ok .verify ∧ arguments.get? "assert" = some name ∧
      arguments.get? "in" = some "notes" ∧ arguments.get? "is" = some "83dcefb7" ∧
      arguments.get? "with" = none := by
  obtain ⟨arguments, read⟩ : ∃ arguments, (Arguments.ofLine (assertLine name)).toOption =
      some arguments := by
    rw [← Option.isSome_iff_exists]
    rcases known with rfl | rfl <;> decide +kernel
  have told : ∀ arguments, (Arguments.ofLine (assertLine name)).toOption = some arguments →
      (Action.ofArguments arguments).toOption = some .verify ∧
      arguments.get? "assert" = some name ∧ arguments.get? "in" = some "notes" ∧
      arguments.get? "is" = some "83dcefb7" ∧ arguments.get? "with" = none := by
    rcases known with rfl | rfl <;> decide +kernel
  obtain ⟨acts, rest⟩ := told arguments read
  exact ⟨arguments, toOption_eq_some_iff.mp read, toOption_eq_some_iff.mp acts, rest⟩

theorem measures_note {arguments : Arguments} (unnamed : arguments.get? "with" = none) :
    Measures arguments "83dcefb7" .crc32 :=
  ⟨.inl (by decide), by rw [Form.methodFor, unnamed]; decide⟩

/-- The hash is the checksum of the number, which is written in large letters. -/
theorem same_note : "83dcefb7".toLower = (HashMethod.crc32.digest note.bytes).toLower := by
  have digest : HashMethod.crc32.digest note.bytes = "83DCEFB7" := by cbv
  rw [digest, ← String.toList_inj, String.toLower, String.toLower, String.toList_map,
    String.toList_map]
  decide +kernel

theorem opens_hostWith_note :
    openSession.archive.checkIntegrity (Archive.hostWith "notes/x").directory = .ok () := by
  obtain ⟨contents, serves, -⟩ := serves_hostWith_note
  exact checked_bind_eq_ok_iff.mpr ⟨contents, serves.found, serves.verified⟩

/-- Where the number is bound, its hash can be asserted. -/
theorem assertion_note (world : World) (bound : world.scope = noteScope)
    (opens : openSession.archive.checkIntegrity world.host.directory = .ok ()) :
    ∃ arguments, openSession.Assertion (assertLine "x") world arguments "notes/x" "83dcefb7" ∧
      arguments.get? "with" = none ∧ arguments.get? "assert" = some "x" := by
  obtain ⟨arguments, read, acts, named, place, given, unnamed⟩ := read_assertLine (.inl rfl)
  refine ⟨arguments, ⟨read, acts, ?_, given, opens⟩, unnamed, named⟩
  refine .named named (lookup_of_bound (b := .value note.value) note_storable.identifier ?_) place
    (isLiteral_of_word (by decide))
  rw [World.context, bound]
  exact note_storable.bound

/-- The number is stored, and its hash asserted. -/
theorem checksums_are_accepted_note :
    ∃ record after, noteIssue.run openSession noteWorld = (.ok record, after) ∧
      ((Issue.plain (assertLine "x")).run openSession after).1.isOk = true ∧
      ((Issue.plain (assertLine "x")).run openSession after).2.scope = after.scope := by
  have accepted : ∀ {after : World}, openSession.LastStored "notes/x" (.ofBytes note.bytes) after →
      after.scope = noteScope →
      openSession.archive.checkIntegrity after.host.directory = .ok () →
        ((Issue.plain (assertLine "x")).run openSession after).1.isOk = true ∧
        ((Issue.plain (assertLine "x")).run openSession after).2.scope = after.scope := by
    intro after told scope opens
    generalize last_eq : Issue.plain (assertLine "x") = last
    have line : last.line = assertLine "x" := by rw [← last_eq]; rfl
    have start : (last.start after).scope = after.scope := by rw [← last_eq]; rfl
    obtain ⟨arguments, assertion, unnamed, named⟩ :=
      assertion_note (last.start after) (start.trans scope) opens
    rw [← line] at assertion
    obtain ⟨judged, accepted⟩ := checksums_are_accepted openSession
    have logs : openSession.CanLog last.log after.host.directory := by
      rw [← last_eq]
      nofun
    refine ⟨accepted (by decide) told assertion logs (Checksums.under_ofBytes _ .crc32) same_note
      (by rw [unnamed]; nofun), ?_⟩
    cases ran : last.run openSession after with
    | mk result later =>
      refine ((judged assertion ran).whole fun name given => .inl ?_).trans start
      rw [named] at given
      cases given
      rw [start, scope]
      rfl
  obtain ⟨old, after, went⟩ := went_noteIssue
  obtain ⟨record, ran⟩ := went.ran
  have serves := went.stocked.serves
  refine ⟨record, after, ran, accepted ?_ went.scope
    (checked_bind_eq_ok_iff.mpr ⟨_, serves.found, serves.verified⟩)⟩
  exact .stored went.fits.short ran (by rw [went.told]; exact List.mem_singleton_self _) rfl

/-- The file that holds the number, and a name for it. -/
def storedWorld : World :=
  ⟨Archive.hostWith "notes/x", noteScope, []⟩

/-- A name for the folder that the number is in. -/
def viewWorld (host : Host) : World :=
  ⟨host, .ofList [("m", .view (.ofFolder openSession.archive "notes"))], []⟩

theorem matches_note {arguments : Arguments} (unnamed : arguments.get? "with" = none) :
    Matches openSession.archive storedWorld.host.directory arguments "notes/x" "83dcefb7" :=
  (matches_iff opens_hostWith_note (measures_note unnamed) read_hostWith_note).mpr same_note

theorem append_unmade_folder (bytes : Bytes) (d : Directory) :
    (Archive.hostWith "notes/x").directory.append "logs/log" bytes ≠ .ok d := by
  have missing : (Archive.hostWith "notes/x").directory.locate "logs/log" = .error .missing := by
    decide +kernel
  rw [Directory.append, missing]
  rintro ⟨⟩

theorem unlogged_assertLine :
    (run (some openSession) (some "logs/log") (assertLine "x") storedWorld).1.isOk = false := by
  obtain ⟨arguments, assertion, unnamed, named⟩ :=
    assertion_note storedWorld rfl opens_hostWith_note
  have measures := measures_note unnamed
  obtain ⟨form, asked⟩ :=
    assertion.names.task assertion.read assertion.acts assertion.given measures
  have noted : Action.verify.noted arguments storedWorld = storedWorld := by
    refine Action.noted_of_kept fun name mem => ?_
    rw [lookedUp_verify, named, Option.toList_some, List.mem_singleton] at mem
    subst mem
    exact Context.afterLookup_of_bound (by decide +kernel)
  have compared : Form.compareHash openSession.archive arguments "notes/x" storedWorld =
      (.ok [⟨"notes/x", some (.single .crc32 (HashMethod.crc32.digest [49])), none⟩],
        storedWorld) := by
    have read : openSession.archive.read "notes/x" storedWorld.host.directory = .ok [49] :=
      read_hostWith_note
    rw [Form.compareHash_apply assertion.given measures, read, Form.verdict]
    have same : "83dcefb7".toLower = (HashMethod.crc32.digest [49]).toLower := same_note
    rw [if_pos same]
  rw [← noted] at compared
  refine run_of_unwritable asked compared rfl fun bytes d => ?_
  rw [noted]
  exact append_unmade_folder bytes d

/-- What is looked up in a folder is kept. -/
theorem looked_assertLine {world : World} {view : View}
    (bound : world.scope.get? "m" = some (.view view)) (free : world.scope.get? "m.x" = none)
    (unkept : view.kept.get? "x" = none)
    (child : view.child? "x" world.host.directory = .ok (some (.value (.int 1))))
    (opens : openSession.archive.checkIntegrity world.host.directory = .ok ()) :
    ∃ arguments, openSession.Assertion (assertLine "m.x") world arguments "notes/m.x" "83dcefb7" ∧
      arguments.get? "with" = none ∧
      (run (some openSession) none (assertLine "m.x") world).2.scope ≠ world.scope := by
  obtain ⟨arguments, read, acts, named, place, given, unnamed⟩ := read_assertLine (.inr rfl)
  have parts : dottedParts "m.x" = ["m", "x"] := by decide +kernel
  have dotted : isDottedIdentifier "m.x" = true := by decide +kernel
  have found : world.context.lookup "variable" "m.x" = .ok (.value (.int 1)) := by
    have resolved : world.scope.resolve world.host.directory "m.x" = .ok (.value (.int 1)) := by
      rw [Scope.resolve, free, parts]
      simp only [bound]
      rw [Scope.follow, Binding.attribute?, child]
      rfl
    simp only [Context.lookup, dotted, World.context, resolved]
    rfl
  have measures := measures_note unnamed
  have asserts : Asserts world.context arguments "notes/m.x" :=
    .named named found place (isLiteral_of_word (by decide))
  refine ⟨arguments, ⟨read, acts, asserts, given, opens⟩, unnamed, ?_⟩
  obtain ⟨form, asked⟩ := asserts.task read acts given measures
  have left : (run (some openSession) none (assertLine "m.x") world).2.scope =
      (Action.verify.noted arguments world).scope :=
    run_scope_of_task asked (Form.compareHash_apply given measures openSession.archive _ _)
      (by rintro _ ⟨⟩)
  rw [left, Action.noted, lookedUp_verify, named]
  exact Context.afterLookups_ne [] dotted free parts bound unkept child

/-- The number is found under the name of its folder. -/
theorem child?_view {host : Host}
    (opens : openSession.archive.checkIntegrity host.directory = .ok ())
    (read : openSession.archive.read "notes/x" host.directory = .ok [49]) :
    (View.ofFolder openSession.archive "notes").child? "x" host.directory =
      .ok (some (.value (.int 1))) :=
  View.child?_of_read (by simp [View.ofFolder]) (by simp [View.ofFolder]) opens read
    note_storable.imported

theorem get?_viewWorld (host : Host) (name : String) : (viewWorld host).scope.get? name =
    if name = "m" then some (.view (.ofFolder openSession.archive "notes")) else none := by
  rw [viewWorld, Table.get?_ofList]
  exact Table.lookup_cons _ _ _ _

theorem viewed_assertLine {host : Host}
    (opens : openSession.archive.checkIntegrity host.directory = .ok ())
    (read : openSession.archive.read "notes/x" host.directory = .ok [49]) :
    ∃ arguments,
      openSession.Assertion (assertLine "m.x") (viewWorld host) arguments "notes/m.x" "83dcefb7" ∧
      arguments.get? "with" = none ∧
      (run (some openSession) none (assertLine "m.x") (viewWorld host)).2.scope ≠
        (viewWorld host).scope := by
  exact looked_assertLine (by simp [get?_viewWorld]) (by simp [get?_viewWorld])
    (by simp [View.ofFolder]) (child?_view opens read) opens

/-- A hash that matches is refused where the log lies in a folder that is missing, and an assertion
that is refused can change what a name stands for: a view keeps the value that was looked up through
it. -/
theorem matching_hash_is_refused :
    (∃ arguments,
      openSession.Assertion (assertLine "x") storedWorld arguments "notes/x" "83dcefb7" ∧
      Matches openSession.archive storedWorld.host.directory arguments "notes/x" "83dcefb7" ∧
      (run (some openSession) (some "logs/log") (assertLine "x") storedWorld).1.isOk = false) ∧
    ∃ arguments, openSession.Assertion (assertLine "m.x") (viewWorld (Archive.hostWith "notes/x"))
        arguments "notes/m.x" "83dcefb7" ∧
      (run (some openSession) none (assertLine "m.x")
        (viewWorld (Archive.hostWith "notes/x"))).1.isOk = false ∧
      (run (some openSession) none (assertLine "m.x")
        (viewWorld (Archive.hostWith "notes/x"))).2.scope ≠
          (viewWorld (Archive.hostWith "notes/x")).scope := by
  obtain ⟨arguments, assertion, unnamed, -⟩ := assertion_note storedWorld rfl opens_hostWith_note
  refine ⟨⟨arguments, assertion, matches_note unnamed, unlogged_assertLine⟩, ?_⟩
  obtain ⟨arguments, assertion, -, changed⟩ :=
    viewed_assertLine opens_hostWith_note read_hostWith_note
  exact ⟨arguments, assertion,
    assertion.refused_of_unread (unread_hostWith_note (by decide)), changed⟩

end Session
end ObjectVault
