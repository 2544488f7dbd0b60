import ObjectVault.Proofs.Looking
import ObjectVault.Proofs.Validating

namespace ObjectVault

/-- What can lie in a folder of the vault: a value, or another folder. -/
def Binding.Shelved : Binding → Prop
  | .value _ | .view _ => True
  | .converter _ | .module _ => False

theorem Binding.Shelved.attribute {b next : Binding} {name : String} {d : Directory}
    (h : b.Shelved) (found : b.attribute? name d = .ok (some next)) : next.Shelved := by
  cases b with
  | converter | module => exact h.elim
  | view folder =>
    rw [attribute?] at found
    cases child : folder.child? name d with
    | error e =>
      rw [child] at found
      cases found
    | ok inner =>
      rw [child] at found
      cases inner with
      | none => cases found
      | some inner =>
        cases found
        cases inner <;> trivial
  | value v =>
    cases v with
    | object fields =>
      rw [attribute?] at found
      cases field : fields.lookup name with
      | none =>
        rw [field] at found
        cases found
      | some v =>
        rw [field] at found
        cases found
        trivial
    | _ => cases found

namespace Scope
variable {scope : Scope} {d : Directory} {name : String} {c : Converter}

/-- Nothing but what can lie in the vault is found behind what lies there. -/
theorem follow_shelved {parts : List String} {walked : String} {b last : Binding} (h : b.Shelved)
    (found : follow d walked b parts = .ok last) : last.Shelved := by
  induction parts generalizing walked b with
  | nil =>
    cases found
    exact h
  | cons part parts ih =>
    obtain ⟨next, inner, rest⟩ := checked_bind_eq_ok_iff.mp found
    cases next with
    | none => cases rest
    | some next => exact ih (h.attribute inner) rest

/-- Where a converter is found: bound as a whole, or behind something that does not lie in the
vault. -/
theorem resolve_converter (found : scope.resolve d name = .ok (.converter c)) :
    scope.get? name = some (.converter c) ∨
      scope.get? name = none ∧ ∃ head rest b, Command.dottedParts name = head :: rest ∧
        scope.get? head = some b ∧ ¬ b.Shelved ∧ follow d head b rest = .ok (.converter c) := by
  rw [resolve] at found
  split at found
  · next whole =>
    cases found
    exact .inl whole
  · cases found
  · next head rest free parts =>
    right
    refine ⟨free, head, rest, ?_⟩
    cases bound : scope.get? head with
    | none =>
      rw [bound] at found
      cases found
    | some b =>
      rw [bound] at found
      exact ⟨b, parts, rfl, fun shelved => follow_shelved shelved found, found⟩

/-- No view keeps anything when a converter is found. -/
theorem afterResolve_of_converter (found : scope.resolve d name = .ok (.converter c)) :
    scope.afterResolve d name = scope := by
  rw [afterResolve]
  rcases resolve_converter found with whole | ⟨free, head, rest, b, parts, bound, other, -⟩
  · rw [if_pos (by simp [Table.contains, whole])]
  · rw [if_neg (by simp [Table.contains, free]), parts]
    cases rest with
    | nil => rfl
    | cons part rest =>
      simp only [bound]
      cases b with
      | view folder => exact absurd trivial other
      | _ => rfl

end Scope

namespace Command
variable {context : Context} {kind name : String} {b : Binding}

theorem Context.lookup_eq_ok_iff : context.lookup kind name = .ok b ↔
    isDottedIdentifier name = true ∧ context.scope.resolve context.directory name = .ok b := by
  rw [lookup]
  cases isDottedIdentifier name with
  | false => simp
  | true =>
    cases context.scope.resolve context.directory name with
    | ok found => simp
    | error e => cases e <;> simp

theorem Context.afterLookup_of_converter {c : Converter}
    (found : context.lookup kind name = .ok (.converter c)) :
    context.afterLookup name = context := by
  obtain ⟨dotted, resolved⟩ := lookup_eq_ok_iff.mp found
  rw [afterLookup, if_pos dotted, Scope.afterResolve_of_converter resolved]

/-- What a name stands for that was looked up with success, and what views have kept then. -/
theorem RunM.lookup_eq_ok {world after : World} (h : lookup kind name world = (.ok b, after)) :
    world.context.lookup kind name = .ok b ∧
      after = { world with scope := (world.context.afterLookup name).scope } := by
  rw [lookup, Effect.bind_of_ok (Effect.get_apply world), noteLookups,
    Effect.bind_of_ok (Effect.modify_apply _ world)] at h
  cases found : world.context.lookup kind name with
  | error e =>
    rw [found] at h
    cases h
  | ok other =>
    rw [found] at h
    cases h
    exact ⟨rfl, rfl⟩

end Command
end ObjectVault
