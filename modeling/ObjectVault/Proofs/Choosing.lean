import ObjectVault.Command.Run
import ObjectVault.Proofs.Effects
import ObjectVault.Proofs.WordLines
import Mathlib

namespace ObjectVault.Command
open ObjectVault.Text

theorem Finding.eq_right_iff {f : Finding} : f = .right ↔ f.halfPoints = 2 := by
  cases f <;> simp [halfPoints]

theorem Finding.ofRule_right {context : Context} {arguments : Arguments} {keyword value : String}
    {rule : Rule} (there : arguments.get? keyword = some value)
    (right : rule.check context value = .ok true) :
    ofRule context arguments (keyword, rule) = .right := by
  rw [ofRule, there]
  simp only [right]

theorem Finding.ofRule_missing {context : Context} {arguments : Arguments} {keyword : String}
    {rule : Rule} (absent : arguments.get? keyword = none) :
    ofRule context arguments (keyword, rule) = .missing := by
  rw [ofRule, absent]

/-- All points are earned exactly if every finding earns both of its half points. -/
theorem sum_halfPoints_eq_iff (findings : List Finding) :
    (findings.map Finding.halfPoints).sum = 2 * findings.length ↔ ∀ f ∈ findings, f = .right := by
  induction findings with
  | nil => simp
  | cons f fs ih =>
    have own := f.halfPoints_le
    have rest := Finding.foldl_halfPoints_le fs 0
    rw [← List.sum_eq_foldl, Nat.zero_add] at rest
    rw [List.forall_mem_cons, and_congr Finding.eq_right_iff ih.symm]
    simp only [List.map_cons, List.sum_cons, List.length_cons]
    omega

/-- A form is chosen exactly if each of its required keywords has a right value. -/
theorem Signature.probe_isComplete_iff {signature : Signature} {context : Context}
    {arguments : Arguments} :
    (signature.probe context arguments).isComplete = true ↔
      signature.required ≠ [] ∧
        ∀ rule ∈ signature.required, Finding.ofRule context arguments rule = .right := by
  have points := sum_halfPoints_eq_iff (signature.required.map (Finding.ofRule context arguments))
  rw [List.length_map, List.forall_mem_map] at points
  rw [probe, Concordance.ofRules, Concordance.isComplete, ← points]
  simp [List.sum_eq_foldl, List.length_pos_iff]

/-- Rules of which each keyword is missing or has a right value are met. -/
theorem Signature.checkRules_ok {context : Context} {arguments : Arguments}
    {rules : List (String × Rule)}
    (h : ∀ rule ∈ rules, arguments.get? rule.1 = none ∨
      Finding.ofRule context arguments rule = .right) :
    checkRules context arguments rules = .ok () := by
  rw [checkRules]
  induction rules with
  | nil => rfl
  | cons rule rules ih =>
    have others := ih fun r mem => h r (List.mem_cons_of_mem _ mem)
    rw [List.forM]
    rcases h rule List.mem_cons_self with absent | right
    · rw [absent]
      exact others
    · cases there : arguments.get? rule.1 with
      | none => exact others
      | some value =>
        simp only [Finding.ofRule, there] at right
        split at right
        · next checked =>
          simp only [checked, bind, Except.bind]
          exact others
        · cases right
        · cases right

theorem Signature.validate_ok {signature : Signature} {context : Context} {arguments : Arguments}
    (complete : (signature.probe context arguments).isComplete = true)
    (optional : ∀ rule ∈ signature.optional, arguments.get? rule.1 = none)
    (disallowed : signature.disallowed = []) : signature.validate context arguments = .ok () := by
  obtain ⟨nonempty, right⟩ := probe_isComplete_iff.mp complete
  have required := checkRules_ok fun rule mem => .inr (right rule mem)
  have others : checkRules context arguments signature.optional = .ok () :=
    checkRules_ok fun rule mem => .inl (optional rule mem)
  have absent : signature.absent arguments = [] := by
    refine List.filter_eq_nil_iff.mpr fun rule mem => ?_
    have found := right rule mem
    rw [Finding.ofRule] at found
    cases there : arguments.get? rule.1 with
    | none => simp [there] at found
    | some value => simp [Table.contains, there]
  rw [validate, required]
  simp [absent, nonempty, others, disallowed, bind, Except.bind, pure, Except.pure]

theorem Rule.triedNames_subset (context : Context) (listed : List String) :
    ∀ name ∈ triedNames context listed, name ∈ listed := by
  induction listed with
  | nil => simp [triedNames]
  | cons first rest ih =>
    intro name mem
    rw [triedNames] at mem
    split at mem
    · rcases List.mem_cons.mp mem with rfl | mem
      · exact List.mem_cons_self
      · exact List.mem_cons_of_mem _ (ih name mem)
    · rw [List.mem_singleton.mp mem]
      exact List.mem_cons_self

/-- Looking up a name that is bound as a whole changes nothing. -/
theorem Context.afterLookup_of_bound {context : Context} {name : String}
    (bound : context.scope.contains name = true) : context.afterLookup name = context := by
  rw [afterLookup]
  split
  · rw [Scope.afterResolve, if_pos bound]
  · rfl

theorem RunM.noteLookups_of_bound {names : List String} {world : World}
    (bound : ∀ name ∈ names, world.scope.contains name = true) :
    RunM.noteLookups names world = (.ok (), world) := by
  have same : names.foldl Context.afterLookup world.context = world.context := by
    induction names with
    | nil => rfl
    | cons name names ih =>
      have own : world.context.scope.contains name = true := bound name List.mem_cons_self
      rw [List.foldl_cons, Context.afterLookup_of_bound own]
      exact ih fun n mem => bound n (List.mem_cons_of_mem _ mem)
  rw [RunM.noteLookups, Effect.modify_apply, same]
  rfl

end ObjectVault.Command
