import ObjectVault.Json.Reader
import ObjectVault.Json.Writer
import Mathlib.Data.List.Forall2

namespace ObjectVault.Json

/-- A piece that stands for one character: the character, or its number if it is a control. -/
inductive Stands : Piece → Char → Prop
  | char (c : Char) : Stands (.char c) c
  | unit (c : Char) (control : c.toNat < 32) : Stands (.unit c.toNat) c

theorem hexValue_hexChar {n : Nat} (h : n < 16) : hexValue (hexChar n) = some n := by
  have all : ∀ n, n < 16 → hexValue (hexChar n) = some n := by decide
  exact all n h

theorem hexFour_control {n : Nat} (h : n < 32) :
    hexFour '0' '0' (hexChar (n / 16)) (hexChar (n % 16)) = some n := by
  have zero : hexValue '0' = some 0 := by decide
  simp only [hexFour, zero, hexValue_hexChar (n := n / 16) (by omega),
    hexValue_hexChar (n := n % 16) (by omega), bind, pure, Option.bind_some]
  congr 1
  omega

/-- The escapes by a letter. -/
theorem readString_escaped {letter c : Char} (h : escaped letter = some c) (ne : letter ≠ 'u')
    (rest : List Char) :
    readString ('\\' :: letter :: rest) =
      (readString rest).map fun (ps, rest) => (.char c :: ps, rest) := by
  rw [readString.eq_def]
  split
  · simp_all
  · simp_all
  · simp_all
  · next letter' rest' _ eq =>
    simp only [List.cons.injEq, true_and] at eq
    obtain ⟨rfl, rfl⟩ := eq
    rw [h]
  · next c' rest' _ other eq =>
    obtain ⟨rfl, rfl⟩ := List.cons.inj eq
    exact absurd rfl (other letter rest rfl)

theorem readString_plain {c : Char} (quote : c ≠ '"') (slash : c ≠ '\\') (shown : ¬ c.toNat < 32)
    (rest : List Char) :
    readString (c :: rest) = (readString rest).map fun (ps, rest) => (.char c :: ps, rest) := by
  rw [readString.eq_def]
  split
  · simp_all
  · simp_all
  · simp_all
  · simp_all
  · next c' rest' _ _ _ eq =>
    obtain ⟨rfl, rfl⟩ := List.cons.inj eq
    rw [if_neg]
    simp [shown, slash]

/-- What is written for a character reads as one piece. -/
theorem readString_escapeChar (c : Char) :
    ∃ piece, Stands piece c ∧ ∀ rest, readString (escapeChar c ++ rest) =
      (readString rest).map fun (ps, rest) => (piece :: ps, rest) := by
  have byLetter : ∀ letter, escaped letter = some c → letter ≠ 'u' →
      escapeChar c = ['\\', letter] → ∃ piece, Stands piece c ∧ ∀ rest,
        readString (escapeChar c ++ rest) =
          (readString rest).map fun (ps, rest) => (piece :: ps, rest) := by
    intro letter read ne written
    exact ⟨.char c, .char c, fun rest => by rw [written]; exact readString_escaped read ne rest⟩
  have numbered : ∀ n, c.toNat = n → Char.ofNat n = c := by
    intro n eq
    rw [← eq, Char.ofNat_toNat]
  by_cases quote : c = '"'
  · exact byLetter '"' (by rw [quote]; rfl) (by decide) (by rw [quote]; rfl)
  by_cases slash : c = '\\'
  · exact byLetter '\\' (by rw [slash]; rfl) (by decide) (by rw [slash]; rfl)
  by_cases line : c = '\n'
  · exact byLetter 'n' (by rw [line]; rfl) (by decide) (by rw [line]; rfl)
  by_cases home : c = '\r'
  · exact byLetter 'r' (by rw [home]; rfl) (by decide) (by rw [home]; rfl)
  by_cases tab : c = '\t'
  · exact byLetter 't' (by rw [tab]; rfl) (by decide) (by rw [tab]; rfl)
  by_cases back : c.toNat = 8
  · have eq := numbered 8 back
    exact byLetter 'b' (by rw [← eq]; rfl) (by decide) (by rw [← eq]; rfl)
  by_cases page : c.toNat = 12
  · have eq := numbered 12 page
    exact byLetter 'f' (by rw [← eq]; rfl) (by decide) (by rw [← eq]; rfl)
  by_cases control : c.toNat < 32
  · refine ⟨.unit c.toNat, .unit c control, fun rest => ?_⟩
    simp only [escapeChar, quote, slash, line, home, tab, back, page, control, ↓reduceIte,
      List.cons_append, List.nil_append]
    rw [readString, hexFour_control control]
  · refine ⟨.char c, .char c, fun rest => ?_⟩
    simp only [escapeChar, quote, slash, line, home, tab, back, page, control, ↓reduceIte,
      List.cons_append, List.nil_append]
    exact readString_plain quote slash control rest

/-- What is written for a text reads as pieces that stand for its characters. -/
theorem readString_flatMap (cs rest : List Char) :
    ∃ pieces, List.Forall₂ Stands pieces cs ∧
      readString (cs.flatMap escapeChar ++ '"' :: rest) = some (pieces, rest) := by
  induction cs with
  | nil => exact ⟨[], .nil, by simp [readString]⟩
  | cons c cs ih =>
    obtain ⟨pieces, stand, read⟩ := ih
    obtain ⟨piece, own, step⟩ := readString_escapeChar c
    refine ⟨piece :: pieces, .cons own stand, ?_⟩
    rw [List.flatMap_cons, List.append_assoc, step, read]
    rfl

/-- A number below the surrogates needs no other one next to it. -/
theorem join_unit {n : Nat} (h : n < 0xD800) (ps : List Piece) :
    join (.unit n :: ps) = (join ps).map (Char.ofNat n :: ·) := by
  have low : ¬ 0xD800 ≤ n := Nat.not_le.mpr h
  cases ps with
  | nil => simp [join, low]
  | cons p ps => cases p <;> simp [join, low]

theorem join_of_stands {pieces : List Piece} {cs : List Char}
    (h : List.Forall₂ Stands pieces cs) : join pieces = some cs := by
  induction h with
  | nil => rfl
  | cons own _ ih =>
    cases own with
    | char c => rw [join, ih, Option.map_some]
    | unit c control =>
      rw [join_unit (Nat.lt_trans control (by decide)), ih, Option.map_some, Char.ofNat_toNat]

end ObjectVault.Json
