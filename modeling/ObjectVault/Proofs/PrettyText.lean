import ObjectVault.Proofs.Grammar

namespace ObjectVault.Json

/-- A document whose parts are written as they are: it has no floats, and its whole numbers are such
that a document can hold them. -/
inductive Plain : Json → Prop
  | null : Plain .null
  | bool (b : Bool) : Plain (.bool b)
  | number {n : Int} (fits : Number.Fits n) : Plain (.number (.whole n))
  | string (s : String) : Plain (.string s)
  | array {js : List Json} (items : ∀ j ∈ js, Plain j) : Plain (.array js)
  | object {fs : List (String × Json)} (values : ∀ f ∈ fs, Plain f.2) : Plain (.object fs)

theorem plain_nat {n : Nat} (h : n < 2 ^ 64) : Plain (.nat n) :=
  .number ⟨by omega, by omega⟩

theorem gap_nil : Gap [] := by
  intro c mem
  cases mem

theorem gap_newline (level : Nat) : Gap (newline level) := by
  intro c mem
  rcases List.mem_cons.mp mem with rfl | mem
  · rfl
  · rw [List.eq_of_mem_replicate mem]
    rfl

theorem written_prettyItems {f : Json → Json} {level : Nat} {j : Json} {js : List Json}
    (items : ∀ i ∈ j :: js, Written (f i) (prettyChars (level + 1) i)) :
    WrittenItems ((j :: js).map f)
      (newline (level + 1) ++ (prettyChars (level + 1) j ++ prettyItems level js)) := by
  induction js generalizing j with
  | nil =>
    rw [prettyItems]
    exact .last (items j (by simp)) (gap_newline _) (gap_newline _)
  | cons next rest ih =>
    rw [prettyItems]
    exact .next (items j (by simp)) (gap_newline _)
      (ih fun i mem => items i (List.mem_cons_of_mem _ mem))

theorem written_prettyFields {f : Json → Json} {level : Nat} {key : String} {j : Json}
    {fs : List (String × Json)}
    (values : ∀ e ∈ (key, j) :: fs, Written (f e.2) (prettyChars (level + 1) e.2)) :
    WrittenFields (((key, j) :: fs).map fun e => (e.1, f e.2)) (newline (level + 1) ++
      (stringChars key ++ ':' :: ' ' :: (prettyChars (level + 1) j ++ prettyFields level fs))) := by
  have space : Gap [' '] := by
    intro c mem
    rw [List.mem_singleton.mp mem]
    rfl
  induction fs generalizing key j with
  | nil =>
    rw [prettyFields]
    exact .last (values (key, j) (by simp)) (gap_newline _) space (gap_newline _)
  | cons next rest ih =>
    obtain ⟨name, value⟩ := next
    rw [prettyFields]
    exact .next (values (key, j) (by simp)) (gap_newline _) space
      (ih fun e mem => values e (List.mem_cons_of_mem _ mem))

mutual

/-- The document that the text of a document holds. A float may be read as another one. -/
def reread : Json → Json
  | .number n => ((readNumber n.chars).map Prod.fst).getD .null
  | .array items => .array (rereadItems items)
  | .object fields => .object (rereadFields fields)
  | j => j

def rereadItems : List Json → List Json
  | [] => []
  | j :: js => reread j :: rereadItems js

def rereadFields : List (String × Json) → List (String × Json)
  | [] => []
  | (key, j) :: fs => (key, reread j) :: rereadFields fs

end

theorem rereadItems_eq_map (js : List Json) : rereadItems js = js.map reread := by
  induction js with
  | nil => rfl
  | cons j js ih => rw [rereadItems, ih, List.map_cons]

theorem rereadFields_eq_map (fs : List (String × Json)) :
    rereadFields fs = fs.map fun f => (f.1, reread f.2) := by
  induction fs with
  | nil => rfl
  | cons f fs ih => rw [rereadFields, ih, List.map_cons]

theorem reread_number {n m : Number} (literal : Literal m n.chars) :
    reread (.number n) = .number m := by
  have read := literal.read ends_nil
  rw [List.append_nil] at read
  simp [reread, read]

/-- A document whose numbers can be read from their texts. -/
inductive Legible : Json → Prop
  | null : Legible .null
  | bool (b : Bool) : Legible (.bool b)
  | number {n m : Number} (literal : Literal m n.chars) : Legible (.number n)
  | string (s : String) : Legible (.string s)
  | array {js : List Json} (items : ∀ j ∈ js, Legible j) : Legible (.array js)
  | object {fs : List (String × Json)} (values : ∀ f ∈ fs, Legible f.2) : Legible (.object fs)

theorem Plain.legible {j : Json} (h : Plain j) : Legible j := by
  induction h with
  | null => exact .null
  | bool b => exact .bool b
  | number fits => exact .number (literal_intChars fits)
  | string s => exact .string s
  | array _ ih => exact .array ih
  | object _ ih => exact .object ih

theorem Plain.reread_eq {j : Json} (h : Plain j) : reread j = j := by
  induction h with
  | null | bool | string => rfl
  | number fits => exact reread_number (literal_intChars fits)
  | @array js _ ih =>
    have same : js.map reread = js.map id := List.map_congr_left ih
    rw [reread, rereadItems_eq_map, same, List.map_id]
  | @object fs _ ih =>
    have same : (fs.map fun f => (f.1, reread f.2)) = fs.map id :=
      List.map_congr_left fun f mem => Prod.ext rfl (ih f mem)
    rw [reread, rereadFields_eq_map, same, List.map_id]

theorem Legible.written_pretty {j : Json} (h : Legible j) :
    ∀ level, Written (reread j) (prettyChars level j) := by
  induction h with
  | null => exact fun _ => .null
  | bool b =>
    cases b
    · exact fun _ => .no
    · exact fun _ => .yes
  | number literal =>
    intro level
    rw [reread_number literal]
    exact .number literal
  | string s => exact fun _ => .string s
  | @array js items ih =>
    intro level
    rw [reread, rereadItems_eq_map]
    cases js with
    | nil => exact .noItems
    | cons j js => exact .items (written_prettyItems fun i mem => ih i mem _)
  | @object fs values ih =>
    intro level
    rw [reread, rereadFields_eq_map]
    cases fs with
    | nil => exact .noFields
    | cons f fs =>
      obtain ⟨key, value⟩ := f
      exact .fields (written_prettyFields fun f mem => ih f mem _)

/-- A document whose numbers can be read is read from its text. -/
theorem ofText_pretty_of_legible {j : Json} (h : Legible j) :
    ofText j.pretty = some (reread j) := by
  have read := ofChars_of_written (h.written_pretty 0) gap_nil gap_nil
  rw [List.nil_append, List.append_nil] at read
  rw [ofText, pretty, String.toList_ofList, read]

/-- Reading a document undoes writing it. -/
theorem ofText_pretty {j : Json} (h : Plain j) : ofText j.pretty = some j := by
  rw [ofText_pretty_of_legible h.legible, h.reread_eq]

end ObjectVault.Json
