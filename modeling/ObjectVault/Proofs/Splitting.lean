namespace ObjectVault.Text
variable {α : Type} [BEq α] [LawfulBEq α]

/-- The parts between separators hold none. -/
theorem separator_not_mem {a : α} {xs part : List α} (h : part ∈ xs.splitOn a) : a ∉ part := by
  induction xs generalizing part with
  | nil =>
    rw [List.splitOn_nil, List.mem_singleton] at h
    simp [h]
  | cons x xs ih =>
    rw [List.splitOn_cons_eq_if_modifyHead] at h
    split at h
    · rcases List.mem_cons.mp h with rfl | h
      · simp
      · exact ih h
    · next ne =>
      obtain ⟨first, rest, eq⟩ := List.exists_cons_of_ne_nil (List.splitOn_ne_nil a xs)
      rw [eq, List.modifyHead_cons] at h
      rcases List.mem_cons.mp h with rfl | h
      · have own : a ∉ first := ih (by rw [eq]; exact List.mem_cons_self)
        simp [own, Ne.symm (by simpa using ne : x ≠ a)]
      · exact ih (by rw [eq]; exact List.mem_cons_of_mem _ h)

/-- Parts that end in separators are split off one by one. -/
theorem splitOn_flatMap_append {a : α} {parts : List (List α)} (whole : ∀ part ∈ parts, a ∉ part)
    (rest : List α) :
    (parts.flatMap (· ++ [a]) ++ rest).splitOn a = parts ++ rest.splitOn a := by
  induction parts with
  | nil => rfl
  | cons part parts ih =>
    obtain ⟨own, others⟩ := List.forall_mem_cons.mp whole
    rw [List.flatMap_cons, List.append_assoc, List.append_assoc, List.singleton_append,
      List.splitOn_append_cons_self_of_not_mem own, ih others, List.cons_append]

/-- Parts that hold no separator are found again behind separators. -/
theorem intercalate_inj {a : α} {xs ys : List (List α)} (hx : ∀ part ∈ xs, a ∉ part)
    (hy : ∀ part ∈ ys, a ∉ part) (nx : xs ≠ []) (ny : ys ≠ [])
    (h : [a].intercalate xs = [a].intercalate ys) : xs = ys := by
  rw [← List.splitOn_intercalate a hx nx, h, List.splitOn_intercalate a hy ny]

omit [BEq α] [LawfulBEq α] in
theorem intercalate_concat {xs : List (List α)} (nx : xs ≠ []) (a : α) (part : List α) :
    [a].intercalate (xs ++ [part]) = [a].intercalate xs ++ a :: part := by
  induction xs with
  | nil => exact absurd rfl nx
  | cons x xs ih =>
    cases xs with
    | nil => simp [List.intercalate_cons_cons]
    | cons y ys =>
      have step := ih (by simp)
      simp only [List.cons_append] at step ⊢
      rw [List.intercalate_cons_cons, step, List.intercalate_cons_cons]
      simp

end ObjectVault.Text
