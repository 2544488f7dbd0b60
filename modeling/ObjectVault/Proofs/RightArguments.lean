import ObjectVault.Proofs.Accepting

namespace ObjectVault

/-- The error blames the arguments: a keyword is missing, quotes are left open, a name is no
identifier, what is to convert is no converter, a list of names has a wildcard, or a hash or the
method of a hash is none. -/
def CommandError.BlamesArguments : CommandError → Prop
  | .malformed _ | .invalidIdentifier _ _ | .notCallable _ => True
  | .rejected .wildcardName | .rejected .hashLength | .rejected (.hashMethod _) => True
  | _ => False

/-- A value, or a view of what is stored. -/
def Binding.IsData : Binding → Prop
  | value _ | view _ => True
  | converter _ | module _ => False

section Names
variable {d : Directory} {c : Converter}

/-- Under data there is nothing but data. -/
theorem Binding.IsData.attribute {b next : Binding} {part : String} (h : b.IsData)
    (found : b.attribute? part d = .ok (some next)) : next.IsData := by
  cases b with
  | value v =>
    cases v with
    | object fields =>
      simp only [attribute?, Except.ok.injEq, Option.map_eq_some_iff] at found
      obtain ⟨v, -, rfl⟩ := found
      trivial
    | _ => cases found
  | view folder =>
    rw [attribute?] at found
    cases child : folder.child? part d with
    | error e => simp [child, Except.map] at found
    | ok under =>
      cases under with
      | none => simp [child, Except.map] at found
      | some under =>
        simp only [child, Except.map, Except.ok.injEq, Option.map_some, Option.some.injEq] at found
        subst found
        cases under <;> trivial
  | converter _ => exact h.elim
  | module _ => exact h.elim

theorem Binding.IsData.follow_ne_converter {b : Binding} (h : b.IsData) (walked : String)
    (parts : List String) : Scope.follow d walked b parts ≠ .ok (.converter c) := by
  induction parts generalizing b walked with
  | nil =>
    intro found
    cases found
    exact h
  | cons part parts ih =>
    intro found
    obtain ⟨next, under, found⟩ := checked_bind_eq_ok_iff.mp found
    cases next with
    | none => cases found
    | some next => exact ih (h.attribute under) _ found

/-- A name stands for the same converter when views have kept more. -/
theorem Scope.Looked.resolve_converter {scope later : Scope} {name : String}
    (h : scope.Looked later) (found : scope.resolve d name = .ok (.converter c)) :
    later.resolve d name = .ok (.converter c) := by
  unfold Scope.resolve at found ⊢
  have whole := h name
  generalize scope.get? name = own at found whole
  generalize later.get? name = own' at whole ⊢
  cases whole with
  | some keeps =>
    cases found
    cases keeps
    rfl
  | none =>
    cases parts : Command.dottedParts name with
    | nil => simp [parts] at found
    | cons head rest =>
      have first := h head
      simp only [parts] at found
      dsimp only
      generalize scope.get? head = own at found first
      generalize later.get? head = own' at first ⊢
      cases first with
      | none => cases found
      | some keeps =>
        cases keeps with
        | same => exact found
        | @view folder _ _ =>
          have data : (Binding.view folder).IsData := trivial
          exact absurd found (data.follow_ne_converter _ _)

end Names

namespace Command

/-- From this world on, the run does not fail by blaming the arguments. -/
def RunM.Blameless {α : Type} (run : RunM α) (world : World) : Prop :=
  ∀ e, (run world).1 = .error e → ¬ e.BlamesArguments

namespace RunM
variable {α β : Type} {world : World}

theorem Blameless.pure (a : α) : Blameless (pure a) world := by
  intro e failed
  cases failed

theorem Blameless.throw {e : CommandError} (other : ¬ e.BlamesArguments) :
    Blameless (throw e : RunM α) world := by
  intro fault failed
  cases failed
  exact other

theorem Blameless.bind {run : RunM α} {f : α → RunM β} (first : Blameless run world)
    (rest : ∀ a between, run world = (.ok a, between) → Blameless (f a) between) :
    Blameless (run >>= f) world := by
  intro e failed
  rw [Effect.bind_apply] at failed
  cases ran : run world with
  | mk result between =>
    rw [ran] at failed
    cases result with
    | ok a => exact rest a between ran e failed
    | error fault =>
      cases failed
      exact first _ (by rw [ran])

theorem Blameless.mapM {f : α → RunM β} (each : ∀ a world, Blameless (f a) world) (items : List α) :
    Blameless (items.mapM f) world := by
  induction items generalizing world with
  | nil => exact .pure []
  | cons a items ih =>
    rw [List.mapM_cons]
    exact .bind (each a world) fun _ _ _ => .bind ih fun _ _ _ => .pure _

theorem blameless_onStorage (run : HostM StorageError α) : Blameless (onStorage run) world := by
  intro e failed
  simp only [onStorage, onHost, HostM.mapError] at failed
  cases ran : run world.host with
  | mk result host =>
    cases result with
    | ok a =>
      rw [ran] at failed
      cases failed
    | error fault =>
      rw [ran] at failed
      cases failed
      exact id

theorem blameless_binding (name : String) (b : Binding) : Blameless (RunM.bind name b) world := by
  intro e failed
  cases failed

/-- A name that is made of identifiers may stand for nothing, but it is a name. -/
theorem blameless_lookup {kind name : String} (named : isDottedIdentifier name = true) :
    Blameless (lookup kind name) world := by
  intro e failed
  rw [lookup, Effect.bind_of_ok (Effect.get_apply world), noteLookups,
    Effect.bind_of_ok (Effect.modify_apply _ world), Context.lookup, named] at failed
  simp only [Bool.not_true, Bool.false_eq_true, if_false] at failed
  cases found : world.context.scope.resolve world.context.directory name with
  | ok b =>
    simp only [found] at failed
    cases failed
  | error fault =>
    cases fault <;> simp only [found] at failed <;> cases failed <;> exact id

theorem blameless_valueOf {name : String} (named : isDottedIdentifier name = true) :
    Blameless (valueOf name) world := by
  refine .bind (blameless_lookup named) fun b between _ => ?_
  cases b with
  | value v => exact .pure v
  | converter _ | module _ | view _ => exact .throw id

end RunM

namespace Form
variable {archive : Archive} {context : Context} {arguments : Arguments} {world : World}
  {keyword value : String}

theorem need_of_given (given : arguments.get? keyword = some value) :
    need arguments keyword = pure value := by
  rw [need, Arguments.need, given]
  rfl

theorem needMember_of_given {other : String} {p q : String → Prop}
    (place : Given arguments keyword p) (given : Given arguments other q) :
    ∃ path, needMember arguments keyword other = pure path := by
  obtain ⟨folder, place, -⟩ := place
  obtain ⟨name, given, -⟩ := given
  refine ⟨memberPath folder name, ?_⟩
  rw [needMember, need_of_given place, need_of_given given, pure_bind, pure_bind]

/-- A literal has a text. -/
theorem needPath_of_literal (given : Given arguments keyword (Rule.path.Met context)) :
    ∃ path, needPath arguments keyword = pure path := by
  obtain ⟨token, given, literal⟩ := given
  rw [Rule.Met, Rule.isLiteral] at literal
  cases text : unquote token with
  | error fault => simp [text] at literal
  | ok path =>
    refine ⟨path, ?_⟩
    rw [needPath, need_of_given given, pure_bind, text]
    rfl

theorem needNames_of_given {listed : List String} (given : arguments.get? keyword = some value)
    (several : names value = .ok listed) : needNames arguments keyword = pure listed := by
  rw [needNames, need_of_given given, pure_bind, several]

/-- The converter that was found when the arguments were checked is found again. -/
theorem blameless_converter {after : World} (looked : world.Looked after)
    (named : Allowed arguments "with" world.context.Converts) (toBytes : Bool) :
    RunM.Blameless (converter arguments toBytes) after := by
  rw [converter]
  cases given : arguments.get? "with" with
  | none => exact .pure none
  | some name =>
    obtain ⟨dotted, c, known⟩ := named name given
    refine .bind (RunM.blameless_lookup dotted) fun b between found => ?_
    have again : after.context.scope.resolve after.context.directory name =
        .ok (.converter c) := by
      have same : after.context.directory = world.context.directory :=
        congrArg Host.directory looked.host
      rw [same]
      exact looked.scope.resolve_converter known
    have same : b = .converter c := by
      rw [RunM.lookup, Effect.bind_of_ok (Effect.get_apply after), RunM.noteLookups,
        Effect.bind_of_ok (Effect.modify_apply _ after)] at found
      simp only [Context.lookup, dotted, again] at found
      cases found
      rfl
    subst same
    dsimp only
    split
    · exact .pure _
    · cases toBytes <;> exact .throw id

theorem blameless_storeEach {exporter : Option Converter} {targets : List (String × String)}
    (named : ∀ target ∈ targets, isDottedIdentifier target.2 = true) (done : List String)
    (world : World) : RunM.Blameless (storeEach archive exporter done targets) world := by
  induction targets generalizing done world with
  | nil => exact .pure []
  | cons target targets ih =>
    obtain ⟨path, name⟩ := target
    obtain ⟨own, others⟩ := List.forall_mem_cons.mp named
    rw [storeEach]
    split
    · exact ih others done world
    · refine .bind (RunM.blameless_valueOf own) fun v between _ => ?_
      refine .bind (RunM.blameless_onStorage _) fun record between _ => ?_
      exact .bind (ih others _ _) fun records between _ => .pure _

theorem blameless_storeAll {after : World} (looked : world.Looked after)
    (exporter : Allowed arguments "with" world.context.Converts) {targets : List (String × String)}
    (named : ∀ target ∈ targets, isDottedIdentifier target.2 = true) :
    RunM.Blameless (storeAll archive arguments targets) after :=
  .bind (blameless_converter looked exporter true) fun _ between _ =>
    blameless_storeEach named [] between

theorem blameless_loadAll {after : World} (looked : world.Looked after)
    (importer : Allowed arguments "with" world.context.Converts)
    (targets : List (String × String)) :
    RunM.Blameless (loadAll archive arguments targets) after := by
  refine .bind (blameless_converter looked importer false) fun c between _ => ?_
  refine .mapM (fun target world => ?_) targets
  refine .bind (RunM.blameless_onStorage _) fun loaded between _ => ?_
  exact .bind (RunM.blameless_binding _ _) fun _ _ _ => .pure _

theorem blameless_remove (path : String) : RunM.Blameless (remove archive path) world := by
  rw [remove]
  split
  · exact .throw id
  · exact .bind (RunM.blameless_onStorage _) fun record between _ => .pure _

/-- A hash of the right length has a method, and one that is named is known. -/
theorem blameless_compareHash (hash : Given arguments "is" (Rule.hash.Met context))
    (method : Allowed arguments "with" (Rule.hashMethod.Met context)) (path : String) :
    RunM.Blameless (compareHash archive arguments path) world := by
  obtain ⟨expected, given, own, digits⟩ := hash
  have known : ∃ m, hashMethod arguments expected = pure m := by
    rw [hashMethod]
    cases named : arguments.get? "with" with
    | none => exact ⟨own, by simp only [digits]⟩
    | some name =>
      obtain ⟨m, known⟩ := method name named
      exact ⟨m, by simp only [known]⟩
  obtain ⟨m, known⟩ := known
  rw [compareHash, need_of_given given, pure_bind, known, pure_bind]
  refine .bind (RunM.blameless_onStorage _) fun calculated between _ => ?_
  split
  · exact .throw id
  · exact .pure _

/-- A list of variables lists names. -/
theorem needNames_of_variables
    (given : Given arguments keyword (Rule.someVariables.Met context)) :
    ∃ listed, needNames arguments keyword = pure listed ∧
      ∀ name ∈ listed, isDottedIdentifier name = true := by
  obtain ⟨list, given, listed, several, found⟩ := given
  refine ⟨listed, needNames_of_given given several, fun name mem => ?_⟩
  obtain ⟨b, found⟩ := found name mem
  exact Context.isDottedIdentifier_of_lookup found

theorem importTargets_snd (folder : String) (listed : List String) (rename : Option String)
    (world : World) : (importTargets folder listed rename world).2 = world := by
  unfold importTargets
  split <;> rfl

theorem blameless_importTargets (folder : String) (listed : List String) (rename : Option String) :
    RunM.Blameless (importTargets folder listed rename) world := by
  unfold importTargets
  split
  · exact .pure _
  · exact .throw id
  · exact .pure _

/-- Each form finds what it needs in arguments that its signature passes: it has the keywords that
it takes values of, literals have texts, lists are lists of names, and so on. -/
theorem blameless_run {form : Form} {after : World} (looked : world.Looked after)
    (complete : form.signature.Complete world.context arguments)
    (passes : Signature.Passes form.signature.optional world.context arguments) :
    RunM.Blameless (form.run archive arguments) after := by
  have given : ∀ rule ∈ form.signature.required,
      Given arguments rule.1 (rule.2.Met world.context) := complete
  have optional : ∀ rule ∈ form.signature.optional,
      Allowed arguments rule.1 (rule.2.Met world.context) := passes
  -- What a form takes is there by its rules; what can fail is a lookup, the storage or the form's
  -- own demands on lists and converters.
  cases form with
  | storeAs =>
    obtain ⟨listed, several, named⟩ :=
      needNames_of_variables (given ("store", .someVariables) (.head _))
    obtain ⟨path, member⟩ := needMember_of_given (given ("in", .folder) (.tail _ (.head _)))
      (given ("as", .oneIdentifier) (.tail _ (.tail _ (.head _))))
    have exporter := allowed_converter_iff.mp (optional ("with", .function) (.head _))
    rw [run, several, pure_bind]
    cases listed with
    | nil => exact .throw id
    | cons name others =>
      cases others with
      | nil =>
        dsimp only
        rw [member, pure_bind]
        exact blameless_storeAll looked exporter
          (List.forall_mem_singleton.mpr (named name (.head _)))
      | cons other others => exact .throw id
  | storeNames =>
    obtain ⟨listed, several, named⟩ :=
      needNames_of_variables (given ("store", .someVariables) (.head _))
    obtain ⟨folder, place, -⟩ := given ("in", .folder) (.tail _ (.head _))
    have exporter := allowed_converter_iff.mp (optional ("with", .function) (.head _))
    rw [run, need_of_given place, pure_bind, several, pure_bind]
    exact blameless_storeAll looked exporter (List.forall_mem_map.mpr named)
  | storeAt =>
    obtain ⟨name, store, b, known⟩ := given ("store", .oneVariable) (.head _)
    obtain ⟨path, literal⟩ := needPath_of_literal (given ("in", .path) (.tail _ (.head _)))
    have exporter := allowed_converter_iff.mp (optional ("with", .function) (.head _))
    have named := Context.isDottedIdentifier_of_lookup known
    rw [run, literal, pure_bind, need_of_given store, pure_bind]
    exact blameless_storeAll looked exporter (List.forall_mem_singleton.mpr named)
  | importAs =>
    obtain ⟨path, member⟩ := needMember_of_given (given ("from", .folder) (.tail _ (.head _)))
      (given ("import", .oneIdentifier) (.head _))
    obtain ⟨other, renamed, -⟩ := given ("as", .oneIdentifier) (.tail _ (.tail _ (.head _)))
    have importer := allowed_converter_iff.mp (optional ("with", .function) (.head _))
    rw [run, member, pure_bind, need_of_given renamed, pure_bind]
    exact blameless_loadAll looked importer _
  | importNames =>
    obtain ⟨list, members, listed, several, -⟩ := given ("import", .someIdentifiers) (.head _)
    obtain ⟨folder, place, -⟩ := given ("from", .folder) (.tail _ (.head _))
    have importer := allowed_converter_iff.mp (optional ("with", .function) (.head _))
    rw [run, need_of_given place, pure_bind, needNames_of_given members several, pure_bind]
    refine .bind (blameless_importTargets _ _ _) fun targets between ran => ?_
    have unchanged : between = after := by
      rw [← importTargets_snd folder listed (arguments.get? "as") after, ran]
    subst unchanged
    exact blameless_loadAll looked importer targets
  | importAt =>
    obtain ⟨path, literal⟩ := needPath_of_literal (given ("import", .path) (.head _))
    obtain ⟨other, renamed, -⟩ := given ("as", .oneIdentifier) (.tail _ (.head _))
    have importer := allowed_converter_iff.mp (optional ("with", .function) (.head _))
    rw [run, literal, pure_bind, need_of_given renamed, pure_bind]
    exact blameless_loadAll looked importer _
  | importFolder =>
    obtain ⟨folder, place, -⟩ := given ("import", .folder) (.head _)
    rw [run, need_of_given place, pure_bind]
    exact .bind (RunM.blameless_binding _ _) fun _ _ _ => .pure _
  | deleteName =>
    obtain ⟨path, member⟩ := needMember_of_given (given ("from", .folder) (.tail _ (.head _)))
      (given ("del", .oneIdentifier) (.head _))
    rw [run, member, pure_bind]
    exact blameless_remove _
  | deleteAt =>
    obtain ⟨path, literal⟩ := needPath_of_literal (given ("del", .path) (.head _))
    rw [run, literal, pure_bind]
    exact blameless_remove path
  | verifyName =>
    obtain ⟨path, member⟩ := needMember_of_given (given ("in", .folder) (.tail _ (.head _)))
      (given ("assert", .oneVariable) (.head _))
    have hash := given ("is", .hash) (.tail _ (.tail _ (.head _)))
    rw [run, member, pure_bind]
    exact blameless_compareHash hash (optional ("with", .hashMethod) (.head _)) _
  | verifyAt =>
    obtain ⟨path, literal⟩ := needPath_of_literal (given ("assert", .path) (.head _))
    have hash := given ("is", .hash) (.tail _ (.head _))
    rw [run, literal, pure_bind]
    exact blameless_compareHash hash (optional ("with", .hashMethod) (.head _)) _

end Form

namespace Action
variable {action : Action} {form : Form} {arguments : Arguments} {world : World}

/-- Arguments that a form takes are right for it. Whatever views have kept since they were checked,
the form does not fail because of them, so a command only blames arguments that no form takes. -/
theorem blameless_of_accepts (archive : Archive)
    (accepted : action.Accepts world.context arguments form) :
    (∀ after, world.Looked after →
      ∀ e, (form.run archive arguments after).1 = .error e → ¬ e.BlamesArguments) ∧
    action.perform archive arguments world =
      form.run archive arguments (action.noted arguments world) ∧
    ∀ e, (action.perform archive arguments world).1 = .error e → ¬ e.BlamesArguments := by
  obtain ⟨-, complete, passes, -⟩ := accepted.parts
  have blameless : ∀ after, world.Looked after →
      RunM.Blameless (form.run archive arguments) after := by
    intro after looked
    exact Form.blameless_run looked complete passes
  have runs : action.perform archive arguments world =
      form.run archive arguments (action.noted arguments world) :=
    perform_of_accepts accepted
  refine ⟨blameless, runs, ?_⟩
  rw [runs]
  exact blameless _ (action.looked_noted arguments world)

/-- The arguments of `store x, x in notes as z`. -/
def twoNames : Arguments :=
  .ofList [("store", "x, x"), ("in", "notes"), ("as", "z")]

/-- Two names with one alias pass all checks, and are refused for what they are. -/
theorem blameless_twoNames :
    store.Accepts Session.noteWorld.context twoNames .storeAs ∧
      (store.perform openSession.archive twoNames Session.noteWorld).1 =
        .error (.rejected (.storeAlias ["x", "x"])) ∧
      ¬ (CommandError.rejected (.storeAlias ["x", "x"])).BlamesArguments := by
  have accepted : store.Accepts Session.noteWorld.context twoNames .storeAs :=
    ⟨by decide +kernel, rfl⟩
  have failed : (store.perform openSession.archive twoNames Session.noteWorld).1 =
      .error (.rejected (.storeAlias ["x", "x"])) := rfl
  exact ⟨accepted, failed, (blameless_of_accepts openSession.archive accepted).2.2 _ failed⟩

end Action
end Command
end ObjectVault
