import ObjectVault.Proofs.BareOrQuoted
import ObjectVault.Settings.Basic

namespace ObjectVault

namespace Table
variable {α : Type}

/-- The entries under some names, these in order, are what the names look up. -/
theorem filter_entries {names : List String} (sorted : names.Pairwise (· < ·)) (t : Table α) :
    t.entries.filter (fun e => names.contains e.1) =
      names.filterMap fun name => (t.get? name).map (name, ·) := by
  have found : (names.filterMap fun name => (t.get? name).map (name, ·)).Pairwise
      fun a b => a.1 < b.1 := by
    refine List.pairwise_filterMap.mpr (sorted.imp fun {name other} lt a own b own' => ?_)
    obtain ⟨value, -, rfl⟩ := Option.map_eq_some_iff.mp own
    obtain ⟨value', -, rfl⟩ := Option.map_eq_some_iff.mp own'
    exact lt
  refine (List.Perm.eq_of_pairwise
    (fun a b _ _ lt gt => absurd (String.lt_trans lt gt) (String.lt_irrefl _))
    (t.sorted.filter _) found ?_)
  refine (List.perm_ext_iff_of_nodup ?_ ?_).mpr fun (name, value) => ?_
  · exact (t.distinct.imp fun ne eq => ne (congrArg Prod.fst eq)).filter _
  · refine found.imp fun {a b} lt eq => ?_
    rw [eq] at lt
    exact String.lt_irrefl _ lt
  · simp [← get?_eq_some_iff, and_comm]

/-- The order of entries with different names does not matter. -/
theorem ofList_congr {es es' : List (String × α)} (distinct : (es.map Prod.fst).Nodup)
    (perm : es'.Perm es) : ofList es' = ofList es := by
  have apart : es.Pairwise fun a b => a.1 ≠ b.1 := List.pairwise_map.mp distinct
  have apart' : es'.Pairwise fun a b => a.1 ≠ b.1 := (perm.pairwise_iff Ne.symm).mpr apart
  apply ext_get?
  intro name
  apply Option.ext
  intro value
  rw [get?_ofList, get?_ofList,
    lookup_eq_some_iff (List.pairwise_reverse.mpr (apart.imp Ne.symm)),
    lookup_eq_some_iff (List.pairwise_reverse.mpr (apart'.imp Ne.symm)), List.mem_reverse,
    List.mem_reverse, perm.mem_iff]

end Table

namespace Decimal

/-- A whole number as it is written: digits, behind a plus sign or alone. -/
def Writes (cs : List Char) (n : Nat) : Prop :=
  ∃ ds, (cs = ds ∨ cs = '+' :: ds) ∧ ds ≠ [] ∧ (∀ d ∈ ds, d.isDigit = true) ∧ ofDigits ds = n

theorem readNat_eq_some_iff {cs : List Char} {n : Nat} : readNat cs = some n ↔ Writes cs n := by
  by_cases plus : cs.head? = some '+'
  · obtain ⟨ds, rfl⟩ := List.head?_eq_some_iff.mp plus
    rw [readNat, readDigits_eq_some_iff, Writes]
    constructor
    · exact fun digits => ⟨ds, .inr rfl, digits⟩
    · rintro ⟨_, rfl | own, nonempty, digits, value⟩
      · exact absurd (digits '+' List.mem_cons_self) (by decide)
      · cases own
        exact ⟨nonempty, digits, value⟩
  · have unsigned : readNat cs = readDigits cs := by
      rw [readNat]
      rintro rest rfl
      exact plus rfl
    rw [unsigned, readDigits_eq_some_iff, Writes]
    constructor
    · exact fun digits => ⟨cs, .inl rfl, digits⟩
    · rintro ⟨ds, rfl | rfl, digits⟩
      · exact digits
      · exact absurd rfl plus

theorem readUInt64_eq_some_iff {cs : List Char} {n : UInt64} :
    readUInt64 cs = some n ↔ Writes cs n.toNat := by
  rw [readUInt64, Option.bind_eq_some_iff]
  simp only [readNat_eq_some_iff]
  constructor
  · rintro ⟨m, written, read⟩
    split at read
    · next fits =>
      cases read
      rwa [UInt64.toNat_ofNat_of_lt' fits]
    · cases read
  · intro written
    exact ⟨n.toNat, written, by rw [if_pos n.toNat_lt, UInt64.ofNat_toNat]⟩

end Decimal

theorem Command.ofLine_of_pairs {line : String} {ts : List String} {es : List (String × String)}
    (scanned : tokens line = .ok ts) (paired : pairs ts = .ok es) :
    Arguments.ofLine line = .ok (Table.ofList es) := by
  rw [Arguments.ofLine, scanned]
  exact congrArg (Except.map Table.ofList) paired

namespace Settings
open ObjectVault.Command ObjectVault.Decimal

namespace Key

/-- The letter that a setting may be given under. -/
def letter : Key → String
  | path => "p"
  | encryptionVariable => "e"
  | secure => "s"
  | timestamp => "t"
  | metadata => "m"
  | allowedDuration => "a"

/-- The keywords of a setting, in order. -/
def spellings (key : Key) : List String :=
  [key.letter, key.name]

/-- The settings in the order of their names. -/
def ordered : List Key :=
  [allowedDuration, encryptionVariable, metadata, path, secure, timestamp]

/-- The keywords of all settings. -/
def keywords : List String :=
  ordered.flatMap spellings

theorem mem_ordered (key : Key) : key ∈ ordered := by
  cases key <;> decide

theorem nodup_ordered : ordered.Nodup := by
  decide

/-- In the order of keywords, each letter comes right before its name. -/
theorem sorted_keywords : keywords.Pairwise (· < ·) := by
  decide

theorem ofKeyword?_eq_some_iff {keyword : String} {key : Key} :
    ofKeyword? keyword = some key ↔ keyword ∈ key.spellings := by
  have letters : ∀ key : Key, key.name.toList.take 1 = key.letter.toList := by
    intro key
    cases key <;> rfl
  constructor
  · intro found
    have named := List.find?_some found
    rw [Bool.or_eq_true, beq_iff_eq, beq_iff_eq, letters, String.toList_inj] at named
    rcases named with rfl | rfl
    · exact .tail _ (.head _)
    · exact .head _
  · intro mem
    rcases List.mem_pair.mp mem with rfl | rfl
    all_goals cases key <;> rfl

theorem isSome_ofKeyword? (keyword : String) :
    (ofKeyword? keyword).isSome = keywords.contains keyword := by
  rw [Bool.eq_iff_iff, Option.isSome_iff_exists, List.contains_iff_mem, keywords, List.mem_flatMap]
  simp only [ofKeyword?_eq_some_iff]
  exact ⟨fun ⟨key, own⟩ => ⟨key, key.mem_ordered, own⟩, fun ⟨key, _, own⟩ => ⟨key, own⟩⟩

/-- What the arguments say about a setting: a name counts before its letter. -/
def given (key : Key) (arguments : Arguments) : Option String :=
  (arguments.get? key.name).or (arguments.get? key.letter)

/-- A value that the setting can have. -/
def WellFormed (value : String) : Key → Prop
  | path | encryptionVariable => True
  | secure | timestamp | metadata => value = "True" ∨ value = "False"
  | allowedDuration => ∃ n : UInt64, Writes value.toList n.toNat

end Key

/-- The word for a switch. -/
def switchText (b : Bool) : String :=
  if b then "True" else "False"

/-- The setting is what a text says. -/
def Holds (settings : Settings) (value : String) : Key → Prop
  | .path => unquote value = .ok settings.path
  | .encryptionVariable => settings.encryptionVariable = some value
  | .secure => value = switchText settings.secure
  | .timestamp => value = switchText settings.timestamp
  | .metadata => value = switchText settings.metadata
  | .allowedDuration => Writes value.toList settings.allowedDuration.toNat

/-- The setting is the same in both. -/
def Agrees (settings base : Settings) : Key → Prop
  | .path => settings.path = base.path
  | .encryptionVariable => settings.encryptionVariable = base.encryptionVariable
  | .secure => settings.secure = base.secure
  | .timestamp => settings.timestamp = base.timestamp
  | .metadata => settings.metadata = base.metadata
  | .allowedDuration => settings.allowedDuration = base.allowedDuration

/-- The setting is what is given for it, and what it was if nothing is. -/
def Overlaid (base settings : Settings) (key : Key) : Option String → Prop
  | some value => settings.Holds value key
  | none => settings.Agrees base key

theorem Agrees.refl (settings : Settings) (key : Key) : settings.Agrees settings key := by
  cases key <;> rfl

theorem Agrees.trans {a b c : Settings} {key : Key} (h : a.Agrees b key) (h' : b.Agrees c key) :
    a.Agrees c key := by
  cases key <;> exact Eq.trans h h'

theorem Agrees.holds {settings base : Settings} {key : Key} {value : String}
    (h : settings.Agrees base key) (held : base.Holds value key) : settings.Holds value key := by
  cases key <;> simp only [Holds, Agrees] at h held ⊢ <;> rwa [h]

section Overlaid
variable {base between after : Settings} {key : Key} {given? later? : Option String}

theorem Overlaid.of_agrees (h : Overlaid base between key given?)
    (kept : after.Agrees between key) :
    Overlaid base after key given? := by
  cases given? with
  | some value => exact kept.holds h
  | none => exact kept.trans h

theorem Overlaid.over (h : Overlaid between after key given?) (kept : between.Agrees base key) :
    Overlaid base after key given? := by
  cases given? with
  | some value => exact h
  | none => exact h.trans kept

/-- What is given later counts. -/
theorem Overlaid.trans (h : Overlaid base between key given?)
    (h' : Overlaid between after key later?) :
    Overlaid base after key (later?.or given?) := by
  cases later? with
  | some value => exact h'
  | none => exact h.of_agrees h'

end Overlaid

theorem switch_eq_ok_iff {key : Key} {value : String} {b : Bool} :
    switch key value = .ok b ↔ value = switchText b := by
  rw [switch, flag, switchText]
  by_cases yes : value = "True"
  · cases b <;> simp [yes]
  · by_cases no : value = "False"
    · cases b <;> simp [no]
    · cases b <;> simp [yes, no]

theorem seconds_eq_ok_iff {value : String} {n : UInt64} :
    seconds value = .ok n ↔ Writes value.toList n.toNat := by
  rw [← readUInt64_eq_some_iff, seconds]
  cases readUInt64 value.toList <;> simp

section Steps
variable {settings base after : Settings} {key : Key} {value : String} {arguments : Arguments}

/-- Setting a value changes that setting alone. -/
theorem set_eq_ok (h : settings.set key value = .ok after) :
    after.Holds value key ∧ ∀ other ≠ key, after.Agrees settings other := by
  cases key with
  | path =>
    rw [set] at h
    split at h
    · next path read =>
      cases h
      refine ⟨read, fun other ne => ?_⟩
      cases other <;> first | rfl | exact absurd rfl ne
    · cases h
  | encryptionVariable =>
    cases h
    refine ⟨rfl, fun other ne => ?_⟩
    cases other <;> first | rfl | exact absurd rfl ne
  | secure | timestamp | metadata =>
    obtain ⟨b, read, rfl⟩ := checked_map_eq_ok_iff.mp h
    refine ⟨switch_eq_ok_iff.mp read, fun other ne => ?_⟩
    cases other <;> first | rfl | exact absurd rfl ne
  | allowedDuration =>
    obtain ⟨n, read, rfl⟩ := checked_map_eq_ok_iff.mp h
    refine ⟨seconds_eq_ok_iff.mp read, fun other ne => ?_⟩
    cases other <;> first | rfl | exact absurd rfl ne

/-- A token can be set if it is a value of the setting. Any token is a path. -/
theorem exists_set_iff (formed : Formed value.toList) :
    (∃ after, settings.set key value = .ok after) ↔ key.WellFormed value := by
  cases key with
  | path =>
    obtain ⟨⟨text, read, -⟩, -⟩ := formed.checks
    rw [set, read, Key.WellFormed]
    simp
  | encryptionVariable => simp [set, Key.WellFormed]
  | secure | timestamp | metadata =>
    simp only [set, Key.WellFormed, checked_map_eq_ok_iff, switch_eq_ok_iff]
    simp [switchText, or_comm]
  | allowedDuration =>
    simp only [set, Key.WellFormed, checked_map_eq_ok_iff, seconds_eq_ok_iff]
    simp

/-- Puts a value over a setting, if there is one. -/
def setGiven (settings : Settings) (key : Key) : Option String → Except CommandError Settings
  | none => .ok settings
  | some value => settings.set key value

/-- Puts what the arguments say about a setting over it: first what they say under its letter. -/
def overlay (arguments : Arguments) (settings : Settings) (key : Key) :
    Except CommandError Settings := do
  (← settings.setGiven key (arguments.get? key.letter)).setGiven key (arguments.get? key.name)

/-- The entry of one keyword goes over the settings. -/
def enter (settings : Settings) (entry : String × String) : Except CommandError Settings :=
  match Key.ofKeyword? entry.1 with
  | some key => settings.set key entry.2
  | none => .ok settings

theorem foldlM_enter_spellings (arguments : Arguments) (settings : Settings) (key : Key) :
    (key.spellings.filterMap fun keyword => (arguments.get? keyword).map (keyword, ·)).foldlM
      enter settings = settings.overlay arguments key := by
  have enters : ∀ (settings : Settings) (value : String), ∀ keyword ∈ key.spellings,
      settings.enter (keyword, value) = settings.set key value := by
    intro settings value keyword mem
    simp only [enter, Key.ofKeyword?_eq_some_iff.mpr mem]
  have first := fun settings value => enters settings value key.letter (.head _)
  have second := fun settings value => enters settings value key.name (.tail _ (.head _))
  rw [Key.spellings, overlay]
  cases letter : arguments.get? key.letter <;> cases name : arguments.get? key.name <;>
    simp only [List.filterMap_cons, List.filterMap_nil, letter, name, Option.map_none,
      Option.map_some, List.foldlM_cons, List.foldlM_nil, first, second, setGiven]
  case none.none => rfl
  case none.some => exact bind_pure _
  case some.none => rfl
  case some.some => simp only [bind_pure]

/-- Other keywords than those of the settings are passed over, so the settings are overlaid one
after the other. -/
theorem withArguments_eq_foldlM (base : Settings) (arguments : Arguments) :
    base.withArguments arguments = Key.ordered.foldlM (overlay arguments) base := by
  have entered : base.withArguments arguments = arguments.entries.foldlM enter base := rfl
  have known : arguments.entries.foldlM enter base =
      (arguments.entries.filter fun entry => Key.keywords.contains entry.1).foldlM enter base := by
    rw [List.foldlM_filter]
    congr 1
    funext settings entry
    rw [← Key.isSome_ofKeyword?, enter]
    cases Key.ofKeyword? entry.1 <;> rfl
  rw [entered, known, Table.filter_entries Key.sorted_keywords, Key.keywords]
  clear entered known
  generalize Key.ordered = keys
  induction keys generalizing base with
  | nil => rfl
  | cons key keys ih =>
    rw [List.flatMap_cons, List.filterMap_append, List.foldlM_append, foldlM_enter_spellings,
      List.foldlM_cons]
    exact congrArg _ (funext ih)

/-- Nothing that the arguments say about the setting is ill-formed. -/
def Key.Sound (key : Key) (arguments : Arguments) : Prop :=
  ∀ keyword ∈ key.spellings, ∀ value, arguments.get? keyword = some value → key.WellFormed value

theorem exists_overlay_iff
    (formed : ∀ keyword value, arguments.get? keyword = some value → Formed value.toList) :
    (∃ after, settings.overlay arguments key = .ok after) ↔ key.Sound arguments := by
  have steps : ∀ (settings : Settings) (keyword : String),
      (∃ after, settings.setGiven key (arguments.get? keyword) = .ok after) ↔
        ∀ value, arguments.get? keyword = some value → key.WellFormed value := by
    intro settings keyword
    cases given : arguments.get? keyword with
    | none => simp [setGiven]
    | some value => simp [setGiven, exists_set_iff (formed keyword value given)]
  rw [Key.Sound, Key.spellings, List.forall_mem_cons, List.forall_mem_singleton, ← steps settings]
  simp only [overlay, checked_bind_eq_ok_iff]
  constructor
  · rintro ⟨after, between, first, second⟩
    exact ⟨⟨between, first⟩, (steps between _).mp ⟨after, second⟩⟩
  · rintro ⟨⟨between, first⟩, sound⟩
    obtain ⟨after, second⟩ := (steps between _).mpr sound
    exact ⟨after, between, first, second⟩

theorem setGiven_eq_ok {given? : Option String} (h : settings.setGiven key given? = .ok after) :
    Overlaid settings after key given? ∧ ∀ other ≠ key, after.Agrees settings other := by
  cases given? with
  | none =>
    cases h
    exact ⟨.refl settings key, fun other _ => .refl settings other⟩
  | some value => exact set_eq_ok h

/-- One setting is overlaid, and the others stay. -/
theorem overlay_eq_ok (h : settings.overlay arguments key = .ok after) :
    Overlaid settings after key (key.given arguments) ∧
      ∀ other ≠ key, after.Agrees settings other := by
  obtain ⟨between, first, second⟩ := checked_bind_eq_ok_iff.mp h
  obtain ⟨letter, kept⟩ := setGiven_eq_ok first
  obtain ⟨name, kept'⟩ := setGiven_eq_ok second
  exact ⟨letter.trans name, fun other ne => (kept' other ne).trans (kept other ne)⟩

theorem exists_foldlM_overlay_iff
    (formed : ∀ keyword value, arguments.get? keyword = some value → Formed value.toList)
    (keys : List Key) :
    (∃ after, keys.foldlM (overlay arguments) base = .ok after) ↔
      ∀ key ∈ keys, key.Sound arguments := by
  induction keys generalizing base with
  | nil => simp [pure, Except.pure]
  | cons key keys ih =>
    have own : (∃ after, base.overlay arguments key = .ok after) ↔ key.Sound arguments :=
      exists_overlay_iff formed
    rw [List.forall_mem_cons, ← own]
    simp only [List.foldlM_cons, checked_bind_eq_ok_iff]
    constructor
    · rintro ⟨after, between, first, others⟩
      exact ⟨⟨between, first⟩, ih.mp ⟨after, others⟩⟩
    · rintro ⟨⟨between, first⟩, sound⟩
      obtain ⟨after, others⟩ := ih.mpr sound
      exact ⟨after, between, first, others⟩

/-- The settings of the list are overlaid, each once, and the others stay. -/
theorem foldlM_overlay_eq_ok {keys : List Key} (nodup : keys.Nodup)
    (h : keys.foldlM (overlay arguments) base = .ok after) :
    (∀ key ∈ keys, Overlaid base after key (key.given arguments)) ∧
      ∀ key ∉ keys, after.Agrees base key := by
  induction keys generalizing base with
  | nil =>
    cases h
    exact ⟨List.forall_mem_nil _, fun key _ => .refl after key⟩
  | cons key keys ih =>
    obtain ⟨apart, nodup⟩ := List.nodup_cons.mp nodup
    obtain ⟨between, first, others⟩ := checked_bind_eq_ok_iff.mp h
    obtain ⟨own, kept⟩ := overlay_eq_ok first
    obtain ⟨later, kept'⟩ := ih nodup others
    refine ⟨fun other mem => ?_, fun other absent => ?_⟩
    · by_cases same : other = key
      · subst same
        exact own.of_agrees (kept' other apart)
      · have mem := (List.mem_cons.mp mem).resolve_left same
        exact (later other mem).over (kept other same)
    · obtain ⟨ne, absent⟩ := List.ne_and_not_mem_of_not_mem_cons absent
      exact (kept' other absent).trans (kept other ne)

/-- Only the keywords of settings count. -/
theorem withArguments_congr {other : Arguments}
    (same : ∀ keyword ∈ Key.keywords, other.get? keyword = arguments.get? keyword) :
    base.withArguments other = base.withArguments arguments := by
  have overlays : ∀ key : Key, ∀ settings : Settings,
      settings.overlay other key = settings.overlay arguments key := by
    intro key settings
    have own : ∀ keyword ∈ key.spellings, other.get? keyword = arguments.get? keyword :=
      fun keyword mem => same keyword (List.mem_flatMap.mpr ⟨key, key.mem_ordered, mem⟩)
    rw [overlay, overlay, own key.letter (.head _), own key.name (.tail _ (.head _))]
  rw [withArguments_eq_foldlM, withArguments_eq_foldlM]
  congr 1
  funext settings key
  exact overlays key settings

theorem withLine_eq_ok_iff {line : String} : base.withLine line = .ok after ↔
    ∃ arguments, Arguments.ofLine line = .ok arguments ∧
      base.withArguments arguments = .ok after := by
  rw [withLine]
  cases Arguments.ofLine line <;> simp

theorem withLine_of_read {line : String} (read : Arguments.ofLine line = .ok arguments) :
    base.withLine line = base.withArguments arguments := by
  rw [withLine, read]

/-- Arguments that a line gives can be put over settings if they are sound for each setting. -/
theorem exists_withArguments_iff {line : String} (read : Arguments.ofLine line = .ok arguments) :
    (∃ after, base.withArguments arguments = .ok after) ↔ ∀ key : Key, key.Sound arguments := by
  rw [withArguments_eq_foldlM,
    exists_foldlM_overlay_iff (fun keyword value => formed_of_ofLine read)]
  exact ⟨fun sound key => sound key key.mem_ordered, fun sound key _ => sound key⟩

end Steps

/-- A line fails to set a vault up just if it is malformed or something it says about a setting is
ill-formed, even if it is overridden. Else each setting is what the line says under its name, or
else under its letter, or else what it was. Other keywords do not count, nor does the order of pairs
with different keywords. -/
theorem line_overlays_settings (base : Settings) (line : String) :
    ((∃ e, base.withLine line = .error e) ↔
      (∃ fault, Arguments.ofLine line = .error fault) ∨
        ∃ arguments, Arguments.ofLine line = .ok arguments ∧
          ∃ key : Key, ∃ keyword ∈ key.spellings, ∃ value,
            arguments.get? keyword = some value ∧ ¬ key.WellFormed value) ∧
    (∀ settings, base.withLine line = .ok settings →
      ∃ arguments, Arguments.ofLine line = .ok arguments ∧
        ∀ key : Key, Overlaid base settings key (key.given arguments)) ∧
    (∀ other arguments arguments',
      Arguments.ofLine line = .ok arguments → Arguments.ofLine other = .ok arguments' →
      (∀ keyword ∈ Key.keywords, arguments'.get? keyword = arguments.get? keyword) →
      base.withLine other = base.withLine line) ∧
    ∀ other ts ts' es es', tokens line = .ok ts → pairs ts = .ok es →
      tokens other = .ok ts' → pairs ts' = .ok es' →
      (es.map Prod.fst).Nodup → es'.Perm es → base.withLine other = base.withLine line := by
  refine ⟨?_, ?_, ?_, ?_⟩
  · cases read : Arguments.ofLine line with
    | error fault => simp [withLine, read]
    | ok arguments =>
      have fails : (∃ e, base.withArguments arguments = .error e) ↔
          ¬ ∃ after, base.withArguments arguments = .ok after := by
        cases base.withArguments arguments <;> simp
      rw [withLine_of_read read, fails, exists_withArguments_iff read]
      simp only [Key.Sound, not_forall, reduceCtorEq, exists_false, false_or, Except.ok.injEq,
        exists_eq_left', exists_prop]
  · intro settings overlays
    obtain ⟨arguments, read, given⟩ := withLine_eq_ok_iff.mp overlays
    rw [withArguments_eq_foldlM] at given
    have overlaid := (foldlM_overlay_eq_ok Key.nodup_ordered given).1
    exact ⟨arguments, read, fun key => overlaid key key.mem_ordered⟩
  · intro other arguments arguments' read read' same
    rw [withLine_of_read read, withLine_of_read read', withArguments_congr same]
  · intro other ts ts' es es' scanned paired scanned' paired' distinct perm
    rw [withLine_of_read (ofLine_of_pairs scanned paired),
      withLine_of_read (ofLine_of_pairs scanned' paired'), Table.ofList_congr distinct perm]

/-- A switch that is overridden still has to be one, a name counts before its letter wherever it
stands, and the variable keeps its quotes. -/
theorem line_overlays_settings_switches :
    (∃ e, default.withLine "-s yes --secure True" = .error e) ∧
    (∃ settings, default.withLine "--path 'a b' -e 'KEY' -p c -t False" = .ok settings ∧
      settings.path = "a b" ∧ settings.encryptionVariable = some "'KEY'" ∧
      settings.timestamp = false ∧ settings.secure = true) ∧
    default.withLine "-t False -p c -e 'KEY' -path 'a b'" =
      default.withLine "--path 'a b' -e 'KEY' -p c -t False" := by
  have scanned : tokens "-s yes --secure True" = .ok ["-s", "yes", "--secure", "True"] := by
    decide +kernel
  have paired : pairs ["-s", "yes", "--secure", "True"] =
      .ok [("s", "yes"), ("secure", "True")] := by decide +kernel
  have scanned₁ : tokens "--path 'a b' -e 'KEY' -p c -t False" =
      .ok ["--path", "'a b'", "-e", "'KEY'", "-p", "c", "-t", "False"] := by decide +kernel
  have paired₁ : pairs ["--path", "'a b'", "-e", "'KEY'", "-p", "c", "-t", "False"] =
      .ok [("path", "'a b'"), ("e", "'KEY'"), ("p", "c"), ("t", "False")] := by decide +kernel
  have scanned₂ : tokens "-t False -p c -e 'KEY' -path 'a b'" =
      .ok ["-t", "False", "-p", "c", "-e", "'KEY'", "-path", "'a b'"] := by decide +kernel
  have paired₂ : pairs ["-t", "False", "-p", "c", "-e", "'KEY'", "-path", "'a b'"] =
      .ok [("t", "False"), ("p", "c"), ("e", "'KEY'"), ("path", "'a b'")] := by decide +kernel
  refine ⟨?_, ?_, ?_⟩
  · refine (line_overlays_settings default _).1.mpr (.inr ⟨_, ofLine_of_pairs scanned paired,
      .secure, "s", .head _, "yes", by decide, by simp [Key.WellFormed]⟩)
  · have succeeds : (default.withLine "--path 'a b' -e 'KEY' -p c -t False").toBool = true := by
      decide +kernel
    cases overlays : default.withLine "--path 'a b' -e 'KEY' -p c -t False" with
    | error e =>
      rw [overlays] at succeeds
      cases succeeds
    | ok settings =>
      obtain ⟨arguments, read, overlaid⟩ := (line_overlays_settings default _).2.1 settings overlays
      cases read.symm.trans (ofLine_of_pairs scanned₁ paired₁)
      have path : unquote "'a b'" = .ok settings.path := overlaid .path
      have keyed : settings.encryptionVariable = some "'KEY'" := overlaid .encryptionVariable
      have stamp : "False" = switchText settings.timestamp := overlaid .timestamp
      have secure : settings.secure = true := overlaid .secure
      refine ⟨settings, rfl, ?_, keyed, ?_, secure⟩
      · have text : unquote "'a b'" = .ok "a b" := by decide +kernel
        exact Except.ok.inj (path.symm.trans text)
      · cases shown : settings.timestamp with
        | false => rfl
        | true =>
          rw [shown] at stamp
          exact absurd stamp (by decide)
  · exact (line_overlays_settings default _).2.2.2 _ _ _ _ _ scanned₁ paired₁ scanned₂ paired₂
      (by decide) (by decide)

end Settings
end ObjectVault
