import ObjectVault.Command.Run
import ObjectVault.Proofs.Effects

namespace ObjectVault

namespace View

/-- The view keeps what it kept, and perhaps more. -/
structure Keeps (view later : View) : Prop where
  archive : later.archive = view.archive
  folder : later.folder = view.folder
  importers : later.importers = view.importers
  kept : ∀ name v, view.kept.get? name = some v → later.kept.get? name = some v

theorem Keeps.refl (view : View) : view.Keeps view :=
  ⟨rfl, rfl, rfl, fun _ _ h => h⟩

theorem Keeps.trans {first second third : View} (h : first.Keeps second)
    (h' : second.Keeps third) : first.Keeps third :=
  ⟨h'.archive.trans h.archive, h'.folder.trans h.folder, h'.importers.trans h.importers,
    fun name v own => h'.kept name v (h.kept name v own)⟩

theorem keeps_afterLook (view : View) (name : String) (d : Directory) :
    view.Keeps (view.afterLook name d) := by
  rw [afterLook]
  split
  · next v found =>
    refine ⟨rfl, rfl, rfl, fun other w own => ?_⟩
    rw [Table.get?_insert]
    split
    · next same =>
      -- A value that was kept is the one that is found.
      subst same
      rw [child?, own] at found
      cases found
      rfl
    · exact own
  · exact .refl view

/-- What lies under a name is the same after a look. -/
theorem child?_afterLook (view : View) (name other : String) (d : Directory) :
    (view.afterLook name d).child? other d = view.child? other d := by
  rw [afterLook]
  split
  · next v found =>
    by_cases same : other = name
    · subst same
      rw [found, child?, Table.get?_insert, if_pos rfl]
    · rw [child?, child?, Table.get?_insert, if_neg same]
      rfl
  · rfl

end View

/-- The binding is the same, save for what a view keeps. -/
inductive Binding.Keeps : Binding → Binding → Prop
  | same (b : Binding) : Keeps b b
  | view {first later : View} (h : first.Keeps later) : Keeps (.view first) (.view later)

theorem Binding.Keeps.trans {a b c : Binding} (first : a.Keeps b) (second : b.Keeps c) :
    a.Keeps c := by
  cases first with
  | same => exact second
  | view h =>
    cases second with
    | same => exact .view h
    | view h' => exact .view (h.trans h')

theorem Binding.Keeps.of_view {first later : View} (h : Keeps (.view first) (.view later)) :
    first.Keeps later := by
  cases h with
  | same => exact .refl _
  | view h => exact h

/-- The same names are bound to the same things, save for what views keep. -/
def Scope.Looked (scope later : Scope) : Prop :=
  ∀ name, Option.Rel Binding.Keeps (scope.get? name) (later.get? name)

namespace Scope

theorem rel_keeps_refl (b : Option Binding) : Option.Rel Binding.Keeps b b := by
  cases b with
  | none => exact .none
  | some b => exact .some (.same b)

theorem Looked.refl (scope : Scope) : scope.Looked scope :=
  fun _ => rel_keeps_refl _

theorem rel_keeps_trans {a b c : Option Binding} (first : Option.Rel Binding.Keeps a b)
    (second : Option.Rel Binding.Keeps b c) : Option.Rel Binding.Keeps a c := by
  cases first with
  | none => exact second
  | some one =>
    cases second with
    | some two => exact .some (one.trans two)

theorem Looked.trans {first second third : Scope} (h : first.Looked second)
    (h' : second.Looked third) : first.Looked third :=
  fun name => rel_keeps_trans (h name) (h' name)

theorem looked_afterResolve (scope : Scope) (d : Directory) (name : String) :
    scope.Looked (scope.afterResolve d name) := by
  rw [afterResolve]
  split
  · exact .refl scope
  · split
    · next head part _ _ =>
      split
      · next folder found =>
        intro other
        rw [Table.get?_insert]
        split
        · next same =>
          rw [same, found]
          exact .some (.view (folder.keeps_afterLook part d))
        · exact rel_keeps_refl _
      · exact .refl scope
    · exact .refl scope

theorem follow_afterLook (view : View) (d : Directory) (name walked part : String)
    (rest : List String) :
    follow d walked (.view (view.afterLook name d)) (part :: rest) =
      follow d walked (.view view) (part :: rest) := by
  rw [follow, follow, Binding.attribute?, Binding.attribute?, View.child?_afterLook]

/-- After a name was resolved, each name stands for the value that it stood for. -/
theorem resolve_afterResolve {scope : Scope} {d : Directory} {name other : String} {v : Value} :
    (scope.afterResolve d name).resolve d other = .ok (.value v) ↔
      scope.resolve d other = .ok (.value v) := by
  rw [afterResolve]
  split
  · rfl
  · split
    · next head part _ _ =>
      split
      · next folder found =>
        by_cases whole : other = head
        · -- The view itself is no value, whatever it keeps.
          subst whole
          rw [resolve, resolve, Table.get?_insert, if_pos rfl, found]
          simp
        · rw [resolve, resolve, Table.get?_insert, if_neg whole]
          cases scope.get? other with
          | some b => rfl
          | none =>
            cases Command.dottedParts other with
            | nil => rfl
            | cons first rest =>
              simp only [Table.get?_insert]
              by_cases same : first = head
              · subst same
                rw [if_pos rfl, found]
                cases rest with
                | nil => simp [follow]
                | cons next rest =>
                  simp only
                  rw [follow_afterLook]
              · rw [if_neg same]
      · rfl
    · rfl

end Scope

namespace Command

theorem Context.looked_afterLookups (names : List String) (context : Context) :
    context.scope.Looked (names.foldl Context.afterLookup context).scope := by
  induction names generalizing context with
  | nil => exact .refl _
  | cons name names ih =>
    refine Scope.Looked.trans ?_ (ih _)
    rw [Context.afterLookup]
    split
    · exact Scope.looked_afterResolve _ _ _
    · exact .refl _

theorem Context.resolve_afterLookups {v : Value} {other : String} (names : List String)
    (context : Context) :
    (names.foldl Context.afterLookup context).scope.resolve context.directory other =
        .ok (.value v) ↔
      context.scope.resolve context.directory other = .ok (.value v) := by
  induction names generalizing context with
  | nil => rfl
  | cons name names ih =>
    have first := ih (context.afterLookup name)
    rw [afterLookup] at first
    rw [List.foldl_cons, afterLookup]
    split at first
    · next dotted =>
      rw [if_pos dotted]
      exact first.trans Scope.resolve_afterResolve
    · next plain =>
      rw [if_neg plain]
      exact first

/-- Nothing is changed, save for what views keep. -/
structure World.Looked (world after : World) : Prop where
  host : after.host = world.host
  scope : world.scope.Looked after.scope
  reports : after.reports = world.reports

theorem World.Looked.refl (world : World) : world.Looked world :=
  ⟨rfl, .refl _, rfl⟩

theorem World.Looked.trans {first second third : World} (h : first.Looked second)
    (h' : second.Looked third) : first.Looked third :=
  ⟨h'.host.trans h.host, h.scope.trans h'.scope, h'.reports.trans h.reports⟩

namespace RunM
variable {α β : Type}

/-- The run changes nothing, save for what views keep. -/
def Looks (run : RunM α) : Prop :=
  ∀ world : World, world.Looked (run world).2

theorem Looks.pure (a : α) : Looks (pure a) :=
  fun world => .refl world

theorem Looks.throw (e : CommandError) : Looks (throw e : RunM α) :=
  fun world => .refl world

theorem Looks.bind {run : RunM α} {f : α → RunM β} (first : Looks run)
    (rest : ∀ a, Looks (f a)) : Looks (run >>= f) := by
  intro world
  have looked := first world
  rw [Effect.bind_apply]
  split
  · next a between ran =>
    rw [ran] at looked
    exact looked.trans (rest a between)
  · next e between ran =>
    rw [ran] at looked
    exact looked

/-- What fails behind a look fails in it, or after it. -/
theorem Looks.bind_eq_error {run : RunM α} {f : α → RunM β} (first : Looks run) {e : CommandError}
    {world after : World} (failed : (run >>= f) world = (.error e, after)) :
    world.Looked after ∨
      ∃ a between, run world = (.ok a, between) ∧ world.Looked between ∧
        f a between = (.error e, after) := by
  have looked := first world
  rcases Effect.bind_eq_error failed with ran | ⟨a, between, ran, rest⟩
  · rw [ran] at looked
    exact .inl looked
  · rw [ran] at looked
    exact .inr ⟨a, between, ran, looked, rest⟩

theorem looks_wellFormed (given : Except Malformed α) : Looks (wellFormed given) := by
  cases given with
  | ok a => exact .pure a
  | error fault => exact .throw _

theorem looks_noteLookups (names : List String) : Looks (noteLookups names) :=
  fun world => ⟨rfl, Context.looked_afterLookups names world.context, rfl⟩

theorem looks_lookup (kind name : String) : Looks (lookup kind name) := by
  refine .bind (fun world => .refl world) fun world => ?_
  refine .bind (looks_noteLookups _) fun _ => ?_
  split
  · exact .pure _
  · exact .throw _

theorem looks_valueOf (name : String) : Looks (valueOf name) := by
  refine .bind (looks_lookup _ _) fun b => ?_
  split
  · exact .pure _
  · exact .throw _

theorem wellFormed_eq_ok {given : Except Malformed α} {a : α} {world after : World}
    (h : wellFormed given world = (.ok a, after)) : given = .ok a ∧ after = world := by
  cases given with
  | ok b =>
    cases h
    exact ⟨rfl, rfl⟩
  | error fault => cases h

theorem wellFormed_eq_error {given : Except Malformed α} {e : CommandError} {world after : World}
    (h : wellFormed given world = (.error e, after)) : after = world := by
  cases given with
  | ok b => cases h
  | error fault =>
    cases h
    rfl

theorem onHost_eq {run : HostM CommandError α} {result : Except CommandError α}
    {world after : World} (h : onHost run world = (result, after)) :
    ∃ host, run world.host = (result, host) ∧ after = { world with host } := by
  cases h
  exact ⟨_, rfl, rfl⟩

theorem onStorage_eq_ok {run : HostM StorageError α} {a : α} {world after : World}
    (h : onStorage run world = (.ok a, after)) :
    ∃ host, run world.host = (.ok a, host) ∧ after = { world with host } := by
  obtain ⟨host, ran, rfl⟩ := onHost_eq h
  exact ⟨host, HostM.mapError_eq_ok ran, rfl⟩

theorem onStorage_eq_error {run : HostM StorageError α} {e : CommandError} {world after : World}
    (h : onStorage run world = (.error e, after)) :
    ∃ e' host, run world.host = (.error e', host) ∧ after = { world with host } := by
  obtain ⟨host, ran, rfl⟩ := onHost_eq h
  obtain ⟨e', failed⟩ := HostM.mapError_eq_error ran
  exact ⟨e', host, failed, rfl⟩

theorem onStorage_look (f : Directory → Except StorageError α) (world : World) :
    onStorage (HostM.look f) world = ((f world.host.directory).mapError .storage, world) := by
  simp only [onStorage, onHost, HostM.mapError, HostM.look_apply]
  cases f world.host.directory <;> rfl

theorem looks_onStorage (f : Directory → Except StorageError α) :
    Looks (onStorage (HostM.look f)) := by
  intro world
  rw [onStorage_look]
  exact .refl world

end RunM

namespace Form

theorem looks_need (arguments : Arguments) (keyword : String) :
    RunM.Looks (need arguments keyword) :=
  RunM.looks_wellFormed _

theorem looks_needMember (arguments : Arguments) (folder name : String) :
    RunM.Looks (needMember arguments folder name) :=
  .bind (looks_need _ _) fun _ => .bind (looks_need _ _) fun _ => .pure _

theorem looks_needPath (arguments : Arguments) (keyword : String) :
    RunM.Looks (needPath arguments keyword) :=
  .bind (looks_need _ _) fun _ => RunM.looks_wellFormed _

theorem looks_needNames (arguments : Arguments) (keyword : String) :
    RunM.Looks (needNames arguments keyword) := by
  refine .bind (looks_need _ _) fun list => ?_
  split
  · exact .pure _
  · exact .throw _

theorem looks_converter (arguments : Arguments) (toBytes : Bool) :
    RunM.Looks (converter arguments toBytes) := by
  rw [converter]
  split
  · exact .pure _
  · refine .bind (RunM.looks_lookup _ _) fun b => ?_
    split
    · split
      · exact .pure _
      · exact .throw _
    · exact .throw _

theorem looks_importTargets (folder : String) (listed : List String) (rename : Option String) :
    RunM.Looks (importTargets folder listed rename) := by
  unfold importTargets
  split
  · exact .pure _
  · exact .throw _
  · exact .pure _

theorem looks_hashMethod (arguments : Arguments) (expected : String) :
    RunM.Looks (hashMethod arguments expected) := by
  rw [hashMethod]
  split
  · split
    · exact .pure _
    · exact .throw _
  · split
    · exact .pure _
    · exact .throw _

theorem looks_compareHash (archive : Archive) (arguments : Arguments) (path : String) :
    RunM.Looks (compareHash archive arguments path) := by
  refine .bind (looks_need _ _) fun expected => .bind (looks_hashMethod _ _) fun method =>
    .bind (RunM.looks_onStorage _) fun calculated => ?_
  split
  · exact .throw _
  · exact .pure _

end Form
end Command
end ObjectVault
