import ObjectVault.Codec.Tsv
import Mathlib

namespace ObjectVault

namespace Decimal

/-- A whole number is read back from its digits. -/
theorem readInt_intChars (n : Int) : readInt (intChars n) = some n := by
  cases n with
  | ofNat n =>
    obtain ⟨d, ds, eq, digit⟩ := natDigits_eq_cons n
    have minus : d ≠ '-' := by
      rintro rfl
      exact absurd digit (by decide)
    have plus : d ≠ '+' := by
      rintro rfl
      exact absurd digit (by decide)
    have read : readNat (natDigits n) = some n := by
      rw [eq, readNat, ← eq, readDigits_natDigits]
      exact fun _ h => plus (List.cons.inj h).1
    rw [intChars, eq, readInt, ← eq, read, Option.map_some]
    exact fun _ h => minus (List.cons.inj h).1
  | negSucc n =>
    rw [intChars, readInt, readDigits_natDigits]
    rfl

theorem readInt64_intChars (n : Int64) : readInt64 (intChars n.toInt) = some n := by
  have fits : fitsInt64 n.toInt = true := by
    rw [fitsInt64, Bool.and_eq_true, decide_eq_true_eq, decide_eq_true_eq]
    exact ⟨Int64.minValue_le_toInt n, Int64.toInt_le n⟩
  simp [readInt64, readInt_intChars, fits]

theorem readMagnitude_of_readDigits {cs : List Char} {n : Nat} (h : readDigits cs = some n) :
    (readMagnitude cs).isSome = true := by
  obtain ⟨nonempty, digits, -⟩ := readDigits_eq_some_iff.mp h
  have taken : cs.takeWhile Char.isDigit = cs := List.takeWhile_eq_self_iff.mpr digits
  have left : cs.dropWhile Char.isDigit = [] := List.dropWhile_eq_nil_iff.mpr digits
  simp [readMagnitude, taken, left, nonempty, readExponent]

theorem readDigits_of_readInt {cs : List Char} {n : Int} (h : readInt cs = some n) :
    ∃ m, readDigits (match cs with | '-' :: rest | '+' :: rest => rest | _ => cs) = some m := by
  unfold readInt readNat at h
  split at h
  · next rest =>
    cases read : readDigits rest with
    | none => simp [read] at h
    | some m => exact ⟨m, read⟩
  · next other =>
    split at h
    · next rest =>
      cases read : readDigits rest with
      | none => simp [read] at h
      | some m => exact ⟨m, read⟩
    · next plain =>
      cases read : readDigits cs with
      | none => simp [read] at h
      | some m =>
        refine ⟨m, ?_⟩
        split
        · exact absurd rfl (other _)
        · exact absurd rfl (plain _)
        · exact read

theorem readFloat_of_unsigned {cs : List Char} (minus : ∀ rest, cs ≠ '-' :: rest)
    (plus : ∀ rest, cs ≠ '+' :: rest) : readFloat cs = (readMagnitude cs).or (specialFloat cs) := by
  unfold readFloat
  split
  · exact absurd rfl (minus _)
  · exact absurd rfl (plus _)
  · rfl

/-- Whatever reads as a whole number reads as a float. -/
theorem readFloat_of_readInt64 {cs : List Char} {n : Int64} (h : readInt64 cs = some n) :
    (readFloat cs).isSome = true := by
  obtain ⟨i, read, -⟩ := Option.bind_eq_some_iff.mp h
  obtain ⟨m, digits⟩ := readDigits_of_readInt read
  split at digits
  · simp [readFloat, readMagnitude_of_readDigits digits]
  · simp [readFloat, readMagnitude_of_readDigits digits]
  · next minus plus =>
    rw [readFloat_of_unsigned (fun rest eq => minus rest eq) fun rest eq => plus rest eq]
    simp [readMagnitude_of_readDigits digits]

end Decimal

namespace Tsv
open Decimal

/-- What a cell becomes in a column whose cells are read in one way. -/
def cellValue? (read : List Char → Option Value) (cell : List Char) : Option Value :=
  if cell.isEmpty then some .null else read cell

section Column
variable {read : List Char → Option Value} {cell : List Char} {cells : List (List Char)}
  {vs : List Value}

theorem cellValue?_eq_none_iff : cellValue? read cell = none ↔ cell ≠ [] ∧ read cell = none := by
  cases cell <;> simp [cellValue?]

theorem column?_eq_mapM : column? read cells = cells.mapM (cellValue? read) := rfl

theorem column?_cons : column? read (cell :: cells) =
    (cellValue? read cell).bind fun v => (column? read cells).map (v :: ·) := by
  rw [column?_eq_mapM, List.mapM_cons, ← column?_eq_mapM]
  cases cellValue? read cell <;> cases column? read cells <;> rfl

theorem column?_eq_some_iff :
    column? read cells = some vs ↔ cells.map (cellValue? read) = vs.map some := by
  induction cells generalizing vs with
  | nil =>
    rw [List.map_nil, eq_comm (a := []), List.map_eq_nil_iff]
    exact ⟨fun h => (Option.some.inj h).symm, fun h => h ▸ rfl⟩
  | cons cell cells ih =>
    rw [column?_cons, List.map_cons]
    simp only [Option.bind_eq_some_iff, Option.map_eq_some_iff, ih]
    constructor
    · rintro ⟨v, first, others, rest, rfl⟩
      rw [first, rest, List.map_cons]
    · intro eq
      cases vs with
      | nil => simp at eq
      | cons v vs =>
        obtain ⟨first, rest⟩ := List.cons.inj eq
        exact ⟨v, first, vs, rest, rfl⟩

theorem column?_eq_none_iff :
    column? read cells = none ↔ ∃ cell ∈ cells, cell ≠ [] ∧ read cell = none := by
  induction cells with
  | nil => simp [column?]
  | cons cell cells ih =>
    rw [column?_cons, List.exists_mem_cons_iff, ← cellValue?_eq_none_iff, ← ih]
    cases cellValue? read cell <;> simp

theorem exists_cell_of_mem {v : Value} (h : column? read cells = some vs) (mem : v ∈ vs) :
    ∃ cell ∈ cells, cellValue? read cell = some v := by
  have listed : some v ∈ cells.map (cellValue? read) := by
    rw [column?_eq_some_iff.mp h]
    exact List.mem_map_of_mem mem
  exact List.mem_map.mp listed

theorem exists_value_of_cell (h : column? read cells = some vs) (mem : cell ∈ cells) :
    ∃ v ∈ vs, cellValue? read cell = some v := by
  have listed : cellValue? read cell ∈ vs.map some := by
    rw [← column?_eq_some_iff.mp h]
    exact List.mem_map_of_mem mem
  obtain ⟨v, own, eq⟩ := List.mem_map.mp listed
  exact ⟨v, own, eq.symm⟩

/-- Cells that are read as the values they were written for are read as the column of these. -/
theorem column?_cellTexts (each : ∀ v ∈ vs, cellValue? read (cellText v) = some v) :
    column? read (vs.map cellText) = some vs := by
  rw [column?_eq_some_iff, List.map_map]
  exact List.map_congr_left each

/-- One cell that cannot be read so is enough for the column. -/
theorem column?_of_unread {v : Value} (mem : v ∈ vs) (nonempty : cellText v ≠ [])
    (unread : read (cellText v) = none) : column? read (vs.map cellText) = none :=
  column?_eq_none_iff.mpr ⟨cellText v, List.mem_map_of_mem mem, nonempty, unread⟩

end Column

def asInt (cs : List Char) : Option Value :=
  (readInt64 cs).map .int

def asFloat (cs : List Char) : Option Value :=
  (readFloat cs).map .float

def asBool (cs : List Char) : Option Value :=
  (readBool cs).map .bool

def asText (cs : List Char) : Value :=
  if cs.isEmpty then .null else .string (.ofList cs)

theorem inferColumn_eq (cells : List (List Char)) :
    inferColumn cells =
      ((column? asInt cells).or ((column? asFloat cells).or (column? asBool cells))).getD
        (cells.map asText) :=
  rfl

theorem length_inferColumn (cells : List (List Char)) :
    (inferColumn cells).length = cells.length := by
  have typed : ∀ {read vs}, column? read cells = some vs → vs.length = cells.length :=
    fun h => by simpa using (congrArg List.length (column?_eq_some_iff.mp h)).symm
  rw [inferColumn_eq]
  cases ints : column? asInt cells with
  | some vs => exact typed ints
  | none =>
    cases floats : column? asFloat cells with
    | some vs => exact typed floats
    | none =>
      cases bools : column? asBool cells with
      | some vs => exact typed bools
      | none => simp

/-- A column whose type is found again in its cells: apart from nulls it has integers only, or truth
values only, or texts that are not empty, some of them neither a number nor a truth value. -/
inductive Steady (vs : List Value) : Prop
  | ints (each : ∀ v ∈ vs, v = .null ∨ ∃ n, v = .int n)
  | bools (each : ∀ v ∈ vs, v = .null ∨ ∃ b, v = .bool b)
  | texts {s t : String} (each : ∀ v ∈ vs, v = .null ∨ ∃ u, u ≠ "" ∧ v = .string u)
    (listed : .string s ∈ vs) (noInt : readInt64 s.toList = none)
    (noFloat : readFloat s.toList = none) (listed' : .string t ∈ vs)
    (noBool : t ≠ "True" ∧ t ≠ "False")

theorem intChars_ne_nil (n : Int) : intChars n ≠ [] := by
  cases n with
  | ofNat n => exact natDigits_ne_nil n
  | negSucc n => simp [intChars]

theorem cellValue?_int (n : Int64) : cellValue? asInt (cellText (.int n)) = some (.int n) := by
  have nonempty : (intChars n.toInt).isEmpty = false := by simpa using intChars_ne_nil n.toInt
  rw [cellValue?, cellText, nonempty, if_neg (by decide), asInt, readInt64_intChars,
    Option.map_some]

theorem inferColumn_ints {vs : List Value} (each : ∀ v ∈ vs, v = .null ∨ ∃ n, v = .int n) :
    inferColumn (vs.map cellText) = vs := by
  have read : column? asInt (vs.map cellText) = some vs := by
    refine column?_cellTexts fun v mem => ?_
    rcases each v mem with rfl | ⟨n, rfl⟩
    · rfl
    · exact cellValue?_int n
  rw [inferColumn_eq, read]
  rfl

theorem inferColumn_bools {vs : List Value} (each : ∀ v ∈ vs, v = .null ∨ ∃ b, v = .bool b) :
    inferColumn (vs.map cellText) = vs := by
  by_cases truth : ∃ b, .bool b ∈ vs
  · obtain ⟨b, mem⟩ := truth
    have noInt : column? asInt (vs.map cellText) = none :=
      column?_of_unread mem (by cases b <;> decide) (by cases b <;> decide)
    have noFloat : column? asFloat (vs.map cellText) = none :=
      column?_of_unread mem (by cases b <;> decide) (by cases b <;> rfl)
    have read : column? asBool (vs.map cellText) = some vs := by
      refine column?_cellTexts fun v mem => ?_
      rcases each v mem with rfl | ⟨b, rfl⟩
      · rfl
      · cases b <;> rfl
    rw [inferColumn_eq, noInt, noFloat, read]
    rfl
  · refine inferColumn_ints fun v mem => .inl ?_
    rcases each v mem with null | ⟨b, rfl⟩
    · exact null
    · exact absurd ⟨b, mem⟩ truth

theorem readBool_eq_none {cs : List Char} (noTrue : cs ≠ "True".toList)
    (noFalse : cs ≠ "False".toList) : readBool cs = none := by
  rw [readBool, if_neg noTrue, if_neg noFalse]

theorem Steady.inferColumn_eq_self {vs : List Value} (h : Steady vs) :
    inferColumn (vs.map cellText) = vs := by
  cases h with
  | ints each => exact inferColumn_ints each
  | bools each => exact inferColumn_bools each
  | @texts s t each listed noInt noFloat listed' noBool =>
    have filled : ∀ u : String, .string u ∈ vs → cellText (.string u) ≠ [] := by
      intro u mem
      rcases each _ mem with null | ⟨u', nonempty, eq⟩
      · cases null
      · cases eq
        exact fun empty => nonempty (String.toList_eq_nil_iff.mp empty)
    have ints : column? asInt (vs.map cellText) = none :=
      column?_of_unread listed (filled s listed) (by simp [asInt, cellText, noInt])
    have floats : column? asFloat (vs.map cellText) = none :=
      column?_of_unread listed (filled s listed) (by simp [asFloat, cellText, noFloat])
    have bools : column? asBool (vs.map cellText) = none := by
      have unread : readBool t.toList = none :=
        readBool_eq_none (fun eq => noBool.1 (String.toList_inj.mp eq))
          fun eq => noBool.2 (String.toList_inj.mp eq)
      exact column?_of_unread listed' (filled t listed') (by simp [asBool, cellText, unread])
    rw [inferColumn_eq, ints, floats, bools, Option.or_none, Option.or_none, Option.getD_none,
      List.map_map]
    refine (List.map_congr_left fun v mem => ?_).trans (List.map_id vs)
    rcases each v mem with rfl | ⟨u, nonempty, rfl⟩
    · rfl
    · have filled := filled u mem
      simp only [cellText] at filled
      simp [cellText, asText, filled]

theorem cellValue?_map_cases {α : Type} {make : α → Value} {parse : List Char → Option α}
    {cell : List Char} {v : Value} (h : cellValue? (fun cs => (parse cs).map make) cell = some v) :
    v = .null ∨ ∃ a, v = make a := by
  rw [cellValue?] at h
  split at h
  · exact .inl (Option.some.inj h).symm
  · obtain ⟨a, -, rfl⟩ := Option.map_eq_some_iff.mp h
    exact .inr ⟨a, rfl⟩

/-- Where some cell is no integer and no float, some cell no float, and some cell no truth value,
the column has texts. -/
theorem steady_texts {cells : List (List Char)} (floats : column? asFloat cells = none)
    (bools : column? asBool cells = none) : Steady (cells.map asText) := by
  obtain ⟨s, own, nonempty, noFloat⟩ := column?_eq_none_iff.mp floats
  obtain ⟨t, own', some', noBool⟩ := column?_eq_none_iff.mp bools
  have listed : ∀ {cell : List Char}, cell ∈ cells → cell ≠ [] →
      .string (.ofList cell) ∈ cells.map asText := by
    intro cell mem filled
    exact List.mem_map.mpr ⟨cell, mem, by simp [asText, filled]⟩
  rw [asFloat, Option.map_eq_none_iff] at noFloat
  rw [asBool, Option.map_eq_none_iff] at noBool
  have noInt : readInt64 s = none := by
    by_contra read
    obtain ⟨n, read⟩ := Option.ne_none_iff_exists'.mp read
    have float := readFloat_of_readInt64 read
    rw [noFloat] at float
    exact absurd float (by decide)
  refine .texts (fun v mem => ?_) (listed own nonempty) (by rwa [String.toList_ofList])
    (by rwa [String.toList_ofList]) (listed own' some') ?_
  · obtain ⟨cell, -, rfl⟩ := List.mem_map.mp mem
    cases cell with
    | nil => exact .inl rfl
    | cons c cs => exact .inr ⟨.ofList (c :: cs), by simp [← String.toList_inj], rfl⟩
  · constructor
    · intro eq
      have cell : t = "True".toList := by rw [← eq, String.toList_ofList]
      rw [cell] at noBool
      exact absurd noBool (by decide)
    · intro eq
      have cell : t = "False".toList := by rw [← eq, String.toList_ofList]
      rw [cell] at noBool
      exact absurd noBool (by decide)

/-- A column that was read and holds no float is one whose type is found again. -/
theorem steady_inferColumn {cells : List (List Char)}
    (noFloat : ∀ x, .float x ∉ inferColumn cells) : Steady (inferColumn cells) := by
  rw [inferColumn_eq] at noFloat ⊢
  cases ints : column? asInt cells with
  | some vs =>
    refine .ints fun v mem => ?_
    obtain ⟨cell, -, value⟩ := exists_cell_of_mem ints mem
    exact cellValue?_map_cases value
  | none =>
    cases floats : column? asFloat cells with
    | some vs =>
      obtain ⟨cell, own, nonempty, -⟩ := column?_eq_none_iff.mp ints
      obtain ⟨v, mem, value⟩ := exists_value_of_cell floats own
      rw [cellValue?, if_neg (by simpa using nonempty)] at value
      obtain ⟨x, -, rfl⟩ := Option.map_eq_some_iff.mp value
      rw [ints, floats] at noFloat
      exact absurd mem (noFloat x)
    | none =>
      cases bools : column? asBool cells with
      | some vs =>
        refine .bools fun v mem => ?_
        obtain ⟨cell, -, value⟩ := exists_cell_of_mem bools mem
        exact cellValue?_map_cases value
      | none => exact steady_texts floats bools

end Tsv
end ObjectVault
