import ObjectVault.Proofs.Ranking

namespace ObjectVault.Command

/-- Each keyword is among the others, with the same value. -/
def Arguments.Within (arguments more : Arguments) : Prop :=
  ∀ keyword value, arguments.get? keyword = some value → more.get? keyword = some value

variable {context : Context} {arguments more : Arguments}

/-- What has its keyword and value keeps them when more is said, and earns at least as much. -/
theorem Finding.halfPoints_mono (within : arguments.Within more) (rule : String × Rule) :
    (ofRule context arguments rule).halfPoints ≤ (ofRule context more rule).halfPoints := by
  cases given : arguments.get? rule.1 with
  | none =>
    rw [ofRule_missing given]
    exact Nat.zero_le _
  | some value => rw [ofRule, ofRule, given, within _ _ given]

theorem Meets.mono (within : arguments.Within more) {rule : String × Rule}
    (met : Meets context arguments rule) : Meets context more rule := by
  obtain ⟨value, given, passed⟩ := met
  exact ⟨value, within _ _ given, passed⟩

theorem Concordance.halfPoints_mono (within : arguments.Within more)
    (rules : List (String × Rule)) :
    (ofRules context arguments rules).halfPoints ≤ (ofRules context more rules).halfPoints := by
  rw [ofRules_halfPoints, ofRules_halfPoints]
  exact List.sum_le_sum fun rule _ => Finding.halfPoints_mono within rule

theorem Signature.isComplete_mono (within : arguments.Within more) {signature : Signature}
    (complete : (signature.probe context arguments).isComplete = true) :
    (signature.probe context more).isComplete = true := by
  obtain ⟨nonempty, met⟩ := isComplete_iff_meets.mp complete
  exact isComplete_iff_meets.mpr ⟨nonempty, fun rule own => (met rule own).mono within⟩

namespace Action

/-- The form that is chosen when more is said comes no later than the one that was chosen. -/
theorem choose_mono (within : arguments.Within more) {action : Action} {form : Form}
    (chosen : action.choose context arguments = some form) :
    ∃ other, action.choose context more = some other ∧
      action.forms.idxOf other ≤ action.forms.idxOf form := by
  obtain ⟨own, complete, -⟩ := choose_eq_some_iff.mp chosen
  have still := Signature.isComplete_mono within complete
  cases chosen' : action.choose context more with
  | none => exact absurd still (List.find?_eq_none.mp chosen' form own)
  | some other =>
    obtain ⟨-, -, first⟩ := choose_eq_some_iff.mp chosen'
    exact ⟨other, rfl, first form own still⟩

/-- Further keywords lower no score, and the form that is chosen with them stands no later among the
forms of the action. -/
theorem more_keywords_never_demote (action : Action) (context : Context)
    (arguments more : Arguments) (within : arguments.Within more) :
    (∀ signature : Signature, (signature.probe context arguments).halfPoints ≤
      (signature.probe context more).halfPoints) ∧
    ∀ i form, action.forms[i]? = some form → action.choose context arguments = some form →
      ∃ (j : ℕ) (other : Form), j ≤ i ∧ action.forms[j]? = some other ∧
        action.choose context more = some other := by
  refine ⟨fun signature => Concordance.halfPoints_mono within signature.required,
    fun i form there chosen => ?_⟩
  obtain ⟨short, rfl⟩ := List.getElem?_eq_some_iff.mp there
  obtain ⟨other, chosen', before⟩ := choose_mono within chosen
  rw [action.nodup_forms.idxOf_getElem i short] at before
  have own := (choose_eq_some_iff.mp chosen').1
  exact ⟨_, other, before, List.getElem?_idxOf own, chosen'⟩

/-- With another name for the number, the form by which it is stored stands no later. -/
theorem more_keywords_never_demote_note :
    (twoArguments "store" "x" "in" "notes").Within
      ((twoArguments "store" "x" "in" "notes").insert "as" "y") ∧
    store.forms[1]? = some .storeNames ∧
    store.choose Session.noteWorld.context (twoArguments "store" "x" "in" "notes") =
      some .storeNames ∧
    ∃ (j : ℕ) (other : Form), j ≤ 1 ∧ store.forms[j]? = some other ∧
      store.choose Session.noteWorld.context
        ((twoArguments "store" "x" "in" "notes").insert "as" "y") = some other := by
  have within : (twoArguments "store" "x" "in" "notes").Within
      ((twoArguments "store" "x" "in" "notes").insert "as" "y") := by
    intro keyword value given
    rw [Table.get?_insert, if_neg, given]
    rintro rfl
    simp [get?_twoArguments] at given
  obtain ⟨-, chosen⟩ := more_keywords_never_demote store Session.noteWorld.context _ _ within
  exact ⟨within, rfl, choose_note, chosen 1 .storeNames rfl choose_note⟩

end Action
end ObjectVault.Command
