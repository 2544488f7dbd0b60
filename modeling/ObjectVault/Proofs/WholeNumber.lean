import ObjectVault.Json.Reader
import ObjectVault.Json.Writer
import Mathlib

namespace ObjectVault.Json
open ObjectVault.Decimal

/-- What may follow a number: nothing that could belong to it. -/
def Ends (rest : List Char) : Prop :=
  ∀ c ∈ rest.head?, c.isDigit = false ∧ c ≠ '.' ∧ c ≠ 'e' ∧ c ≠ 'E'

theorem ends_nil : Ends [] := by
  intro c mem
  cases mem

theorem takeWhile_digits {ds rest : List Char} (digits : ∀ c ∈ ds, c.isDigit = true)
    (stop : ∀ c ∈ rest.head?, c.isDigit = false) :
    (ds ++ rest).takeWhile Char.isDigit = ds ∧ (ds ++ rest).dropWhile Char.isDigit = rest := by
  rw [List.takeWhile_append_of_pos digits, List.dropWhile_append_of_pos digits]
  cases rest with
  | nil => simp
  | cons c rest =>
    have other := stop c rfl
    simp [other]

/-- A number is read part by part: its digits, the fraction behind them and the exponent behind
that. -/
theorem readUnsigned_parts (negative : Bool) {ds behind after rest : List Char}
    (digits : ∀ c ∈ ds, c.isDigit = true) (nonempty : ds ≠ [])
    (lead : ds.head? = some '0' → ds.length ≤ 1) (stop : ∀ c ∈ behind.head?, c.isDigit = false)
    {fraction : Option (List Char)} (point : fractionPart behind = some (fraction, after))
    {exponent : Option Int} (mark : markedPart after = some (exponent, rest)) {n : Number}
    (value : Number.ofLiteral negative ds fraction exponent = some n) :
    readUnsigned negative (ds ++ behind) = some (.number n, rest) := by
  obtain ⟨taken, left⟩ := takeWhile_digits digits stop
  have sound : ¬ (ds.isEmpty || (ds.head? == some '0' && ds.length > 1)) = true := by
    simp [nonempty]
    exact lead
  rw [readUnsigned]
  simp only [taken, left, if_neg sound, point, mark, value, bind, Option.bind_some]

theorem fractionPart_of_ends {rest : List Char} (ends : Ends rest) :
    fractionPart rest = some (none, rest) := by
  cases rest with
  | nil => rfl
  | cons c rest =>
    obtain ⟨-, point, -⟩ := ends c rfl
    rw [fractionPart]
    exact fun _ h => point (List.cons.inj h).1

theorem markedPart_of_ends {rest : List Char} (ends : Ends rest) :
    markedPart rest = some (none, rest) := by
  cases rest with
  | nil => rfl
  | cons c rest =>
    obtain ⟨-, -, e, E⟩ := ends c rfl
    simp [markedPart, e, E]

theorem readUnsigned_digits (negative : Bool) {ds rest : List Char}
    (digits : ∀ c ∈ ds, c.isDigit = true) (nonempty : ds ≠ [])
    (lead : ds.head? = some '0' → ds.length ≤ 1) (ends : Ends rest) {n : Number}
    (value : Number.ofLiteral negative ds none none = some n) :
    readUnsigned negative (ds ++ rest) = some (.number n, rest) :=
  readUnsigned_parts negative digits nonempty lead (fun c mem => (ends c mem).1)
    (fractionPart_of_ends ends) (markedPart_of_ends ends) value

theorem readNumber_digit {c : Char} (digit : c.isDigit = true) (cs : List Char) :
    readNumber (c :: cs) = readUnsigned false (c :: cs) := by
  rw [readNumber]
  rintro _ ⟨⟩
  exact absurd digit (by decide)

theorem length_natDigits_of_zero {n : Nat} (h : (natDigits n).head? = some '0') :
    (natDigits n).length ≤ 1 := by
  rw [head?_natDigits h]
  simp [natDigits]

/-- Whether a document can hold the whole number. -/
def Number.Fits (n : Int) : Prop :=
  -2 ^ 63 ≤ n ∧ n < 2 ^ 64

theorem readNumber_intChars {n : Int} (fits : Number.Fits n) {rest : List Char} (ends : Ends rest) :
    readNumber (intChars n ++ rest) = some (.number (.whole n), rest) := by
  obtain ⟨low, high⟩ := fits
  have max : UInt64.size = 2 ^ 64 := rfl
  cases n with
  | ofNat n =>
    have value : Number.ofLiteral false (natDigits n) none none = some (.whole n) := by
      have small : n < UInt64.size := by
        simp only [Int.ofNat_eq_natCast] at high
        omega
      simp [Number.ofLiteral, ofDigits_natDigits, small]
    have read := readUnsigned_digits false (fun c => isDigit_natDigits) (natDigits_ne_nil n)
      length_natDigits_of_zero ends value
    obtain ⟨d, ds, eq, digit⟩ := natDigits_eq_cons n
    rw [intChars, eq, List.cons_append, readNumber_digit digit, ← List.cons_append, ← eq, read]
    rfl
  | negSucc n =>
    have value : Number.ofLiteral true (natDigits (n + 1)) none none =
        some (.whole (Int.negSucc n)) := by
      have small : fitsInt64 (Int.negSucc n) = true := by
        have least : Int64.minValue.toInt = -2 ^ 63 := rfl
        have greatest : Int64.maxValue.toInt = 2 ^ 63 - 1 := rfl
        simp only [fitsInt64, least, greatest, Bool.and_eq_true, decide_eq_true_eq]
        omega
      have least : -((n + 1 : Nat) : Int) = Int.negSucc n := rfl
      rw [Number.ofLiteral, ofDigits_natDigits, least]
      simp [small]
    rw [intChars, List.cons_append, readNumber]
    exact readUnsigned_digits true (fun c => isDigit_natDigits) (natDigits_ne_nil _)
      length_natDigits_of_zero ends value

/-- The text of a number: it begins with a sign or a digit, and it reads as the number wherever it
ends. -/
structure Literal (n : Number) (cs : List Char) : Prop where
  first : ∃ c rest, cs = c :: rest ∧ (c = '-' ∨ c.isDigit = true)
  read : ∀ {rest : List Char}, Ends rest → readNumber (cs ++ rest) = some (.number n, rest)

/-- The first character of a whole number. -/
theorem intChars_eq_cons (n : Int) :
    ∃ c cs, intChars n = c :: cs ∧ (c = '-' ∨ c.isDigit = true) := by
  cases n with
  | ofNat n =>
    obtain ⟨d, ds, eq, digit⟩ := natDigits_eq_cons n
    exact ⟨d, ds, eq, .inr digit⟩
  | negSucc n => exact ⟨'-', natDigits (n + 1), rfl, .inl rfl⟩

theorem literal_intChars {n : Int} (fits : Number.Fits n) : Literal (.whole n) (intChars n) :=
  ⟨intChars_eq_cons n, readNumber_intChars fits⟩

end ObjectVault.Json
