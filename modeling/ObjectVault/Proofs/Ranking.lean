import ObjectVault.Proofs.Scoring
import Mathlib

namespace ObjectVault

/-- Where a sort meets equals, the one that stood first stays first. -/
theorem pairwise_mergeSort_places {α : Type} (le : α → α → Bool)
    (trans : ∀ a b c, le a b = true → le b c = true → le a c = true)
    (total : ∀ a b, (le a b || le b a) = true) (items : List α) :
    (items.mergeSort le).Pairwise fun a b => ∃ i j : ℕ, items[i]? = some a ∧ items[j]? = some b ∧
      le a b = true ∧ (le b a = true → i ≤ j) := by
  rw [← List.mergeSort_zipIdx, List.pairwise_map]
  have sorted := List.pairwise_mergeSort (List.zipIdxLE_trans trans) (List.zipIdxLE_total total)
    items.zipIdx
  refine sorted.imp_of_mem fun {a b} first second before => ?_
  have place : ∀ {c : α × ℕ}, c ∈ items.zipIdx.mergeSort (List.zipIdxLE le) →
      items[c.2]? = some c.1 :=
    fun mem => List.mem_zipIdx_iff_getElem?.mp ((List.mergeSort_perm _ _).mem_iff.mp mem)
  refine ⟨a.2, b.2, place first, place second, ?_⟩
  rw [List.zipIdxLE] at before
  by_cases below : le a.1 b.1 = true
  · refine ⟨below, fun above => ?_⟩
    simpa [below, above] using before
  · simp [below] at before

namespace Command

namespace Concordance

variable {a b : Concordance}

/-- The share of the points that was earned, as the exact number: 0 without rules. -/
def exactRatio (c : Concordance) : ℚ :=
  if c.size = 0 then 0 else c.halfPoints / (2 * c.size)

/-- What is compared: without rules, the points count as those of one rule. -/
def share (c : Concordance) : ℚ :=
  c.halfPoints / (2 * max c.size 1)

theorem compareRatio_eq_compare_share (a b : Concordance) :
    a.compareRatio b = compare a.share b.share := by
  have pos : ∀ c : Concordance, (0 : ℚ) < max c.size 1 := fun c =>
    Nat.cast_pos.mpr (lt_max_of_lt_right one_pos)
  have crossed : ∀ c d : Concordance, ((c.halfPoints * max d.size 1 : ℕ) : ℚ) =
      c.share * (2 * max c.size 1 * max d.size 1) := by
    intro c d
    have own := (pos c).ne'
    rw [share]
    push_cast
    field_simp
  have factor : (0 : ℚ) < 2 * max a.size 1 * max b.size 1 :=
    mul_pos (mul_pos two_pos (pos a)) (pos b)
  calc
    a.compareRatio b
      = cmp (a.halfPoints * max b.size 1) (b.halfPoints * max a.size 1) :=
        (cmp_eq_compare _ _).symm
    _ = cmp (a.share * (2 * max a.size 1 * max b.size 1))
          (b.share * (2 * max b.size 1 * max a.size 1)) := by
        rw [← crossed, ← crossed]
        exact (Nat.strictMono_cast.cmp_map_eq _ _).symm
    _ = cmp (a.share * (2 * max a.size 1 * max b.size 1))
          (b.share * (2 * max a.size 1 * max b.size 1)) := by
        rw [mul_right_comm (2 : ℚ) (max b.size 1 : ℕ)]
    _ = compare a.share b.share := by
        rw [cmp_mul_pos_right factor, cmp_eq_compare]

/-- Comparing the shares is a total preorder. -/
instance : Std.TransCmp compareRatio := by
  have same : compareRatio = compareOn share :=
    funext fun a => funext fun b => compareRatio_eq_compare_share a b
  rw [same]
  infer_instance

/-- Nothing is earned where there are no rules. -/
theorem halfPoints_eq_zero (empty : a.size = 0) : a.halfPoints = 0 := by
  have most := a.halfPoints_le
  omega

/-- To count the points of no rules as those of one does not change their ratio, since there are
none. -/
theorem exactRatio_eq_share (c : Concordance) : c.exactRatio = c.share := by
  rw [exactRatio, share]
  split
  · next empty => simp [halfPoints_eq_zero empty]
  · next ruled =>
    have one : max c.size 1 = c.size := max_eq_left (by omega)
    rw [one]

theorem compareRatio_eq_compare_exactRatio (a b : Concordance) :
    a.compareRatio b = compare a.exactRatio b.exactRatio := by
  rw [compareRatio_eq_compare_share, exactRatio_eq_share, exactRatio_eq_share]

end Concordance

namespace Action
variable {action : Action} {context : Context} {arguments : Arguments} {form : Form}

/-- The forms of the action with their concordances, in the order of the forms. -/
def candidates (action : Action) (context : Context) (arguments : Arguments) :
    List (Form × Concordance) :=
  action.forms.map fun form => (form, form.signature.probe context arguments)

/-- The better of two candidates, and the one whose form comes first if both are as good. -/
def Precedes (action : Action) (a b : Form × Concordance) : Prop :=
  b.2.exactRatio < a.2.exactRatio ∨
    a.2.exactRatio = b.2.exactRatio ∧ action.forms.idxOf a.1 ≤ action.forms.idxOf b.1

theorem nodup_forms (action : Action) : action.forms.Nodup := by
  cases action <;> decide

theorem mem_candidates {candidate : Form × Concordance} :
    candidate ∈ action.candidates context arguments ↔
      candidate.1 ∈ action.forms ∧
        candidate.2 = candidate.1.signature.probe context arguments := by
  rw [candidates, List.mem_map]
  constructor
  · rintro ⟨form, own, rfl⟩
    exact ⟨own, rfl⟩
  · rintro ⟨own, probed⟩
    exact ⟨candidate.1, own, Prod.ext rfl probed.symm⟩

theorem idxOf_of_candidate {candidate : Form × Concordance} {i : ℕ}
    (place : (action.candidates context arguments)[i]? = some candidate) :
    action.forms.idxOf candidate.1 = i := by
  rw [candidates, List.getElem?_map, Option.map_eq_some_iff] at place
  obtain ⟨form, there, rfl⟩ := place
  obtain ⟨short, rfl⟩ := List.getElem?_eq_some_iff.mp there
  exact action.nodup_forms.idxOf_getElem i short

theorem ranked_perm (action : Action) (context : Context) (arguments : Arguments) :
    (action.ranked context arguments).Perm (action.candidates context arguments) :=
  List.mergeSort_perm _ _

/-- The ranking is by the exact ratios, and equal ones are in the order of the forms. -/
theorem ranked_pairwise (action : Action) (context : Context) (arguments : Arguments) :
    (action.ranked context arguments).Pairwise action.Precedes := by
  have sorted := pairwise_mergeSort_places
    (fun a b : Form × Concordance => b.2.compareRatio a.2 != .gt) ?_ ?_
    (action.candidates context arguments)
  · refine sorted.imp ?_
    rintro a b ⟨i, j, first, second, before, stable⟩
    rw [Concordance.compareRatio_eq_compare_exactRatio, bne_iff_ne, compare_le_iff_le]
      at before stable
    rcases before.lt_or_eq with better | same
    · exact .inl better
    · refine .inr ⟨same.symm, ?_⟩
      rw [idxOf_of_candidate first, idxOf_of_candidate second]
      exact stable same.ge
  · intro a b c first second
    simp only [bne_iff_ne, Concordance.compareRatio_eq_compare_share, compare_le_iff_le] at *
    exact second.trans first
  · intro a b
    simp only [Bool.or_eq_true, bne_iff_ne, Concordance.compareRatio_eq_compare_share,
      compare_le_iff_le]
    exact le_total _ _

/-- No two candidates precede each other. -/
theorem Precedes.antisymm {a b : Form × Concordance}
    (first : a ∈ action.candidates context arguments)
    (second : b ∈ action.candidates context arguments)
    (before : action.Precedes a b) (behind : action.Precedes b a) : a = b := by
  obtain ⟨own, probed⟩ := mem_candidates.mp first
  obtain ⟨-, probed'⟩ := mem_candidates.mp second
  have same : a.1 = b.1 := by
    rcases before with better | ⟨equal, le⟩
    · rcases behind with worse | ⟨equal, -⟩
      · exact absurd worse better.not_gt
      · exact absurd equal better.ne
    · rcases behind with worse | ⟨-, ge⟩
      · exact absurd equal worse.ne
      · exact (List.idxOf_inj own).mp (le.antisymm ge)
  exact Prod.ext same (by rw [probed, probed', same])

/-- The ranking is the one way to put the candidates in their order. -/
theorem eq_ranked_iff {ranking : List (Form × Concordance)} :
    ranking.Perm (action.candidates context arguments) ∧ ranking.Pairwise action.Precedes ↔
      ranking = action.ranked context arguments := by
  constructor
  · rintro ⟨perm, sorted⟩
    refine List.Perm.eq_of_pairwise ?_ sorted (action.ranked_pairwise context arguments)
      (perm.trans (action.ranked_perm context arguments).symm)
    exact fun a b first second =>
      Precedes.antisymm (perm.mem_iff.mp first)
        ((action.ranked_perm context arguments).mem_iff.mp second)
  · rintro rfl
    exact ⟨action.ranked_perm context arguments, action.ranked_pairwise context arguments⟩

/-- The form that is chosen is complete, and no form before it is. -/
theorem choose_eq_some_iff :
    action.choose context arguments = some form ↔
      form ∈ action.forms ∧ (form.signature.probe context arguments).isComplete = true ∧
      ∀ other ∈ action.forms, (other.signature.probe context arguments).isComplete = true →
        action.forms.idxOf form ≤ action.forms.idxOf other := by
  rw [choose, List.find?_eq_some_iff_getElem]
  constructor
  · rintro ⟨complete, i, short, rfl, incomplete⟩
    refine ⟨List.getElem_mem short, complete, fun other own also => ?_⟩
    rw [action.nodup_forms.idxOf_getElem i short]
    by_contra before
    have place := incomplete _ (not_le.mp before)
    rw [List.getElem_idxOf, also] at place
    cases place
  · rintro ⟨own, complete, first⟩
    refine ⟨complete, _, List.idxOf_lt_length_of_mem own, List.getElem_idxOf _, ?_⟩
    intro j before
    have short := before.trans (List.idxOf_lt_length_of_mem own)
    rw [Bool.not_eq_true', Bool.eq_false_iff]
    intro also
    have behind := first _ (List.getElem_mem short) also
    rw [action.nodup_forms.idxOf_getElem j short] at behind
    omega

/-- A number is stored in a folder by the form for names. -/
theorem choose_note :
    store.choose Session.noteWorld.context (twoArguments "store" "x" "in" "notes") =
      some .storeNames := by
  have bound : ∀ name ∈ ["x"], Session.noteWorld.context.scope.contains name = true :=
    List.forall_mem_singleton.mpr (Option.isSome_of_eq_some note_storable.bound)
  obtain ⟨-, -, chosen, -⟩ := Task.ofLine?_eq_some_iff.mp (task_storeLine listing_note bound)
  exact chosen

end Action
end Command
end ObjectVault
