import ObjectVault.Directory.Basic
import ObjectVault.Proofs.Splitting

namespace ObjectVault.Directory
open ObjectVault.Text

/-- A name between two slashes. -/
def Segment (name : String) : Prop :=
  name ≠ "" ∧ '/' ∉ name.toList

/-- A place that a path can lead to: segments from the working folder, or from the root. -/
def Reached (place : Location) : Prop :=
  (∀ name ∈ place, Segment name) ∨
    ∃ names, place = "/" :: names ∧ ∀ name ∈ names, Segment name

/-- The parts between the slashes of a key. The root stands as a slash of its own. -/
def spelled : Location → List (List Char)
  | [] => [[]]
  | "/" :: names => [] :: (if names = [] then [[]] else [] :: names.map String.toList)
  | names => names.map String.toList

theorem spelled_segments {place : Location} (nonempty : place ≠ [])
    (segments : ∀ name ∈ place, Segment name) : spelled place = place.map String.toList := by
  cases place with
  | nil => exact absurd rfl nonempty
  | cons first names =>
    have slashless := (segments first List.mem_cons_self).2
    rw [spelled]
    · simp
    · intro names eq
      rw [(List.cons.inj eq).1] at slashless
      exact slashless (by decide)

theorem key_spelled {place : Location} (reached : Reached place) :
    (key place).toList = ['/'].intercalate (spelled place) := by
  have slash : "/".toList = ['/'] := rfl
  rw [key, String.toList_intercalate, slash]
  rcases reached with segments | ⟨names, rfl, segments⟩
  · by_cases empty : place = []
    · rw [empty]
      rfl
    · rw [spelled_segments empty segments]
  · cases names with
    | nil => rfl
    | cons name names => simp [spelled, List.intercalate_cons_cons]

theorem spelled_slashless {place : Location} (reached : Reached place) :
    ∀ part ∈ spelled place, '/' ∉ part := by
  have own : ∀ {names : Location}, (∀ name ∈ names, Segment name) →
      ∀ part ∈ names.map String.toList, '/' ∉ part := by
    intro names segments part mem
    obtain ⟨name, inner, rfl⟩ := List.mem_map.mp mem
    exact (segments name inner).2
  rcases reached with segments | ⟨names, rfl, segments⟩
  · by_cases empty : place = []
    · rw [empty]
      decide
    · rw [spelled_segments empty segments]
      exact own segments
  · intro part mem
    simp only [spelled] at mem
    split at mem
    · simp at mem
      simp [mem]
    · rcases List.mem_cons.mp mem with rfl | mem
      · simp
      · rcases List.mem_cons.mp mem with rfl | mem
        · simp
        · exact own segments part mem

theorem spelled_ne_nil (place : Location) : spelled place ≠ [] := by
  unfold spelled
  split
  · simp
  · simp
  · next empty _ => simpa using empty

theorem map_toList_inj {names others : Location}
    (h : names.map String.toList = others.map String.toList) : names = others :=
  (List.map_inj_right fun _ _ => String.toList_inj.mp).mp h

theorem spelled_inj {place other : Location} (reached : Reached place) (reached' : Reached other)
    (h : spelled place = spelled other) : place = other := by
  -- Only a place that is no file of the working folder is spelled with an empty part in front.
  have front : ∀ {names : Location}, names ≠ [] → (∀ name ∈ names, Segment name) →
      (spelled names).head? ≠ some [] := by
    intro names nonempty segments
    obtain ⟨first, rest, rfl⟩ := List.exists_cons_of_ne_nil nonempty
    rw [spelled_segments nonempty segments, List.map_cons, List.head?_cons]
    intro empty
    exact (segments first List.mem_cons_self).1 (String.toList_inj.mp (Option.some.inj empty))
  have root : ∀ names : Location, (spelled ("/" :: names)).head? = some [] := fun _ => rfl
  have long : ∀ names : Location, 1 < (spelled ("/" :: names)).length := by
    intro names
    simp only [spelled]
    split <;> simp
  rcases reached with segments | ⟨names, rfl, segments⟩ <;>
    rcases reached' with segments' | ⟨names', rfl, segments'⟩
  · by_cases empty : place = [] <;> by_cases empty' : other = []
    · rw [empty, empty']
    · exact absurd (by rw [← h, empty]; rfl) (front empty' segments')
    · exact absurd (by rw [h, empty']; rfl) (front empty segments)
    · rw [spelled_segments empty segments, spelled_segments empty' segments'] at h
      exact map_toList_inj h
  · by_cases empty : place = []
    · have short := long names'
      rw [← h, empty] at short
      exact absurd short (by decide)
    · exact absurd (by rw [h]; exact root names') (front empty segments)
  · by_cases empty' : other = []
    · have short := long names
      rw [h, empty'] at short
      exact absurd short (by decide)
    · exact absurd (by rw [← h]; exact root names) (front empty' segments')
  · simp only [spelled] at h
    by_cases empty : names = [] <;> by_cases empty' : names' = [] <;>
      simp only [empty, empty', if_true, if_false] at h ⊢
    · have lengths := congrArg List.length h
      simp [empty'] at lengths
    · have lengths := congrArg List.length h
      simp [empty] at lengths
    · simp only [List.cons.injEq, true_and] at h
      rw [map_toList_inj h]

/-- Different places are kept under different keys. -/
theorem key_inj {place other : Location} (reached : Reached place) (reached' : Reached other)
    (h : key place = key other) : place = other := by
  apply spelled_inj reached reached'
  apply intercalate_inj (spelled_slashless reached) (spelled_slashless reached')
    (spelled_ne_nil place) (spelled_ne_nil other)
  rw [← key_spelled reached, ← key_spelled reached', h]

end ObjectVault.Directory
