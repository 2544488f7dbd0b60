import ObjectVault.Proofs.PrettyText

namespace ObjectVault.Json
open ObjectVault.Decimal

theorem written_compactItems {j : Json} {js : List Json}
    (items : ∀ i ∈ j :: js, Written i (compactChars i)) :
    WrittenItems (j :: js) (compactChars j ++ compactItems js) := by
  induction js generalizing j with
  | nil =>
    rw [compactItems]
    exact .last (items j (by simp)) gap_nil gap_nil
  | cons next rest ih =>
    rw [compactItems]
    exact .next (items j (by simp)) gap_nil (ih fun i mem => items i (List.mem_cons_of_mem _ mem))

theorem written_compactFields {key : String} {j : Json} {fs : List (String × Json)}
    (values : ∀ f ∈ (key, j) :: fs, Written f.2 (compactChars f.2)) :
    WrittenFields ((key, j) :: fs)
      (stringChars key ++ ':' :: (compactChars j ++ compactFields fs)) := by
  induction fs generalizing key j with
  | nil =>
    rw [compactFields]
    exact .last (values (key, j) (by simp)) gap_nil gap_nil gap_nil
  | cons next rest ih =>
    obtain ⟨name, value⟩ := next
    rw [compactFields]
    exact .next (values (key, j) (by simp)) gap_nil gap_nil
      (ih fun f mem => values f (List.mem_cons_of_mem _ mem))

theorem Plain.written_compact {j : Json} (h : Plain j) : Written j (compactChars j) := by
  induction h with
  | null => exact .null
  | bool b =>
    cases b
    · exact .no
    · exact .yes
  | number fits => exact .number (literal_intChars fits)
  | string s => exact .string s
  | @array js items ih =>
    cases js with
    | nil => exact .noItems
    | cons j js => exact .items (written_compactItems ih)
  | @object fs values ih =>
    cases fs with
    | nil => exact .noFields
    | cons f fs => exact .fields (written_compactFields ih)

/-- A document on one line is read as well. -/
theorem ofText_compact {j : Json} (h : Plain j) : ofText j.compact = some j := by
  have read := ofChars_of_written h.written_compact gap_nil gap_nil
  rw [List.nil_append, List.append_nil] at read
  rw [ofText, compact, String.toList_ofList, read]

/-- Characters that are no controls. -/
def Printable (cs : List Char) : Prop :=
  ∀ c ∈ cs, 32 ≤ c.toNat

instance (cs : List Char) : Decidable (Printable cs) :=
  decidable_of_iff (cs.all (32 ≤ ·.toNat) = true) (by simp [Printable])

theorem Printable.append {cs ds : List Char} (first : Printable cs) (second : Printable ds) :
    Printable (cs ++ ds) := by
  intro c mem
  exact (List.mem_append.mp mem).elim (first c) (second c)

theorem Printable.cons {c : Char} {cs : List Char} (first : 32 ≤ c.toNat) (others : Printable cs) :
    Printable (c :: cs) :=
  List.forall_mem_cons.mpr ⟨first, others⟩

theorem printable_escapeChar (c : Char) : Printable (escapeChar c) := by
  have hex : ∀ n < 16, 32 ≤ (hexChar n).toNat := by decide
  have letter : ∀ d : Char, 32 ≤ d.toNat → Printable ['\\', d] := fun d printed =>
    .cons (by decide) (.cons printed fun _ => nofun)
  unfold escapeChar
  split
  · exact letter _ (by decide)
  split
  · exact letter _ (by decide)
  split
  · exact letter _ (by decide)
  split
  · exact letter _ (by decide)
  split
  · exact letter _ (by decide)
  split
  · exact letter _ (by decide)
  split
  · exact letter _ (by decide)
  split
  · next control =>
    have code : Printable [hexChar (c.toNat / 16), hexChar (c.toNat % 16)] :=
      .cons (hex _ (by omega)) (.cons (hex _ (by omega)) fun _ => nofun)
    have lead : Printable ['\\', 'u', '0', '0'] := by decide
    exact lead.append code
  · next plain => exact .cons (by omega) fun _ => nofun

theorem printable_stringChars (s : String) : Printable (stringChars s) := by
  refine .append (.cons (by decide) fun c mem => ?_) (.cons (by decide) fun _ => nofun)
  obtain ⟨d, -, own⟩ := List.mem_flatMap.mp mem
  exact printable_escapeChar d c own

theorem printable_digits (n : Nat) : Printable (natDigits n) := by
  intro c mem
  have digit := isDigit_natDigits mem
  simp only [Char.isDigit, Bool.and_eq_true, decide_eq_true_eq] at digit
  have low : 48 ≤ c.toNat := digit.1
  omega

theorem printable_intChars (n : Int) : Printable (intChars n) := by
  cases n with
  | ofNat n => exact printable_digits n
  | negSucc n => exact .cons (by decide) (printable_digits (n + 1))

theorem printable_compactItems {js : List Json} (items : ∀ j ∈ js, Printable (compactChars j)) :
    Printable (compactItems js) := by
  induction js with
  | nil => exact .cons (by decide) fun _ => nofun
  | cons j js ih =>
    obtain ⟨first, others⟩ := List.forall_mem_cons.mp items
    exact .cons (by decide) (first.append (ih others))

theorem printable_compactFields {fs : List (String × Json)}
    (values : ∀ f ∈ fs, Printable (compactChars f.2)) : Printable (compactFields fs) := by
  induction fs with
  | nil => exact .cons (by decide) fun _ => nofun
  | cons f fs ih =>
    obtain ⟨first, others⟩ := List.forall_mem_cons.mp values
    exact .cons (by decide)
      ((printable_stringChars f.1).append (.cons (by decide) (first.append (ih others))))

/-- Whatever texts a document holds, no control character is written. -/
theorem Plain.printable {j : Json} (h : Plain j) : Printable (compactChars j) := by
  induction h with
  | null => decide
  | bool b => cases b <;> decide
  | @number n fits => exact printable_intChars n
  | string s => exact printable_stringChars s
  | @array js items ih =>
    cases js with
    | nil => decide
    | cons j js =>
      obtain ⟨first, others⟩ := List.forall_mem_cons.mp ih
      exact .cons (by decide) (first.append (printable_compactItems others))
  | @object fs values ih =>
    cases fs with
    | nil => decide
    | cons f fs =>
      obtain ⟨first, others⟩ := List.forall_mem_cons.mp ih
      exact .cons (by decide) ((printable_stringChars f.1).append
        (.cons (by decide) (first.append (printable_compactFields others))))

end ObjectVault.Json
