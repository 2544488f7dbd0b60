import ObjectVault.Proofs.Digits
import ObjectVault.Proofs.Rounding
import ObjectVault.Proofs.ShortestDigits
import ObjectVault.Proofs.WholeNumber
import Mathlib

namespace ObjectVault

namespace Number
open Decimal

/-- All digits are taken where a word holds the number. -/
theorem absorb_of_lt {n : Nat} {cs : List Char}
    (h : n * 10 ^ cs.length + ofDigits cs < UInt64.size) :
    absorb n cs = (n * 10 ^ cs.length + ofDigits cs, []) := by
  rw [← foldl_digits] at h ⊢
  induction cs generalizing n with
  | nil => rfl
  | cons c cs ih =>
    rw [List.foldl_cons] at h ⊢
    have reached : 10 * n + digitValue c < UInt64.size := by
      refine Nat.lt_of_le_of_lt ?_ h
      rw [foldl_digits]
      exact Nat.le_add_right_of_le (Nat.le_mul_of_pos_right _ (by positivity))
    rw [absorb]
    simp only [if_pos reached, ih h]

/-- Dividing by a power of ten always gives a float. -/
theorem isSome_scale_of_neg {fuel : Nat} {x : Float} {order : Int} (h : order < 0) :
    (scale fuel x order).isSome = true := by
  induction fuel generalizing x order with
  | zero => rfl
  | succ fuel ih =>
    rw [scale, if_neg (by omega)]
    split
    · rfl
    · split
      · rfl
      · exact ih (by omega)

/-- A number that can be scaled by a power of ten without an overflow. -/
def Scalable (n : Nat) (order : Int) : Prop :=
  0 ≤ order → order ≤ 308 ∧ ((UInt64.ofNat n).toFloat * power order.toNat).isInf = false

theorem isSome_scale {n : Nat} {order : Int} (h : Scalable n order) :
    (scale 4 (UInt64.ofNat n).toFloat order).isSome = true := by
  by_cases multiplied : 0 ≤ order
  · obtain ⟨small, finite⟩ := h multiplied
    rw [scale, if_pos multiplied, if_pos small]
    simp [finite]
  · exact isSome_scale_of_neg (by omega)

/-- A literal with a fraction or an exponent is a float if a word holds its digits and they can be
scaled. -/
theorem exists_ofLiteral (negative : Bool) {integer : List Char} {fraction : Option (List Char)}
    {exponent : Option Int} (float : fraction.isSome = true ∨ exponent.isSome = true)
    (small : ofDigits (integer ++ fraction.getD []) < UInt64.size)
    (reached : exponent.getD 0 ≤ Int32.maxValue.toInt)
    (scalable : Scalable (ofDigits (integer ++ fraction.getD []))
      (exponent.getD 0 - (fraction.getD []).length)) :
    ∃ x, ofLiteral negative integer fraction exponent = some (.real x) := by
  have plain : (fraction.isNone && exponent.isNone) = false := by
    rcases float with given | given
    · simp [Option.isNone_eq_false_iff.mpr given]
    · simp [Option.isNone_eq_false_iff.mpr given]
  have magnitude : (approximate negative integer (fraction.getD []) (exponent.getD 0)).isSome =
      true := by
    generalize fraction.getD [] = places at small scalable
    rw [ofDigits_append] at small scalable
    have front : absorb 0 integer = (ofDigits integer, []) := by
      have less : ofDigits integer ≤ ofDigits integer * 10 ^ places.length :=
        Nat.le_mul_of_pos_right _ (by positivity)
      rw [absorb_of_lt (by omega), Nat.zero_mul, Nat.zero_add]
    have order : exponent.getD 0 + ([] : List Char).length -
        (places.length - ([] : List Char).length : Nat) = exponent.getD 0 - places.length := by
      simp
    rw [approximate, front]
    simp only [absorb_of_lt small, order, if_neg (Int.not_lt.mpr reached), Option.isSome_map]
    split
    · rfl
    · exact isSome_scale scalable
  obtain ⟨x, eq⟩ := Option.isSome_iff_exists.mp magnitude
  exact ⟨x, by simp [ofLiteral, plain, eq]⟩

end Number

namespace Decimal.Binary
open Number (largest lastMiddle)

/-- The largest float. -/
def greatest : Binary :=
  ⟨2 ^ 53 - 1, 971⟩

theorem order_greatest : greatest.order = 308 := by
  obtain ⟨lower, upper⟩ := order_spec (x := greatest) (by decide)
  have value : greatest.toRat = largest := by
    rw [toRat, largest, Nat.cast_mul, Nat.cast_pow]
    rfl
  have digits : 10 ^ 308 ≤ largest ∧ largest < 10 ^ 309 := by decide +kernel
  obtain ⟨least, most⟩ := digits
  rw [value] at lower upper
  have low : (10 : ℚ) ^ (308 : Int) < 10 ^ (greatest.order + 1) :=
    lt_of_le_of_lt (by exact_mod_cast least) upper
  have high : (10 : ℚ) ^ greatest.order < 10 ^ (309 : Int) :=
    lt_of_le_of_lt lower (by exact_mod_cast most)
  have ten : (1 : ℚ) < 10 := by norm_num
  have below := (zpow_lt_zpow_iff_right₀ ten).mp low
  have above := (zpow_lt_zpow_iff_right₀ ten).mp high
  omega

theorem shortest_greatest : greatest.shortest .even = ⟨17976931348623157, 292⟩ := by
  have found : greatest.firstGrid .even 17 308 = some ⟨17976931348623157, 292⟩ := by decide +kernel
  rw [shortest_eq, order_greatest, found]
  rfl

/-- Below the largest float, the shortest decimal is not above the middle of the two largest ones.
-/
theorem shortest_le_lastMiddle {x : Binary} (tie : Tie) (h : x.Bounded) (other : x ≠ greatest) :
    ((x.shortest tie).digits : ℚ) * 10 ^ (x.shortest tie).exponent ≤ lastMiddle := by
  refine (shortest_le tie h).trans ?_
  have unit : (0 : ℚ) < 2 ^ (968 : Int) := by positivity
  have middle : (lastMiddle : ℚ) = ((2 ^ 54 - 3) * 4 : Nat) * 2 ^ (968 : Int) := by
    have split : lastMiddle = (2 ^ 54 - 3) * 4 * 2 ^ 968 := by decide +kernel
    rw [split, Nat.cast_mul, Nat.cast_pow]
    rfl
  rw [middle]
  obtain ⟨-, lt, -, high⟩ := h
  rcases Int.lt_or_eq_of_le high with low | top
  · have order : (2 : ℚ) ^ (x.exponent - 2) ≤ 2 ^ (968 : Int) :=
      zpow_le_zpow_right₀ one_le_two (by omega)
    have mantissa : (4 * x.mantissa + 2 : ℚ) ≤ ((2 ^ 54 - 3) * 4 : Nat) := by
      have bound : 4 * x.mantissa + 2 ≤ (2 ^ 54 - 3) * 4 := by omega
      exact_mod_cast bound
    exact mul_le_mul mantissa order (by positivity) (Nat.cast_nonneg _)
  · have mantissa : (4 * x.mantissa + 2 : ℚ) * 2 ≤ ((2 ^ 54 - 3) * 4 : Nat) := by
      have below : x.mantissa ≠ 2 ^ 53 - 1 := by
        intro eq
        obtain ⟨m, e⟩ := x
        exact other (by rw [greatest, ← eq, ← top])
      have bound : (4 * x.mantissa + 2) * 2 ≤ (2 ^ 54 - 3) * 4 := by omega
      exact_mod_cast bound
    have order : (2 : ℚ) ^ (x.exponent - 2) = 2 * 2 ^ (968 : Int) := by
      rw [top, ← zpow_one_add₀ two_ne_zero]
      rfl
    rw [order, ← mul_assoc]
    exact mul_le_mul_of_nonneg_right mantissa unit.le

/-- The shortest decimal of a float can be scaled back, without the zeros at its end. -/
theorem scalable_shortest {x : Binary} (h : x.Bounded) {n k : Nat}
    (value : (x.shortest .even).digits = n * 10 ^ k) :
    Number.Scalable n (k + (x.shortest .even).exponent) := by
  intro multiplied
  -- The shortest decimal of the largest float lies above it, so that no bound tells it is finite.
  by_cases top : x = greatest
  · rw [top, shortest_greatest] at value ⊢
    cases k with
    | zero =>
      have digits : n = 17976931348623157 := by simpa using value.symm
      rw [digits]
      exact ⟨by decide, Number.isInf_scaled_largest⟩
    | succ k =>
      rw [Nat.pow_succ, ← Nat.mul_assoc] at value
      dsimp only at value
      omega
  · obtain ⟨pos, few⟩ := digits_le .even h
    have reach := shortest_le_lastMiddle .even h top
    rw [value] at pos few reach
    obtain ⟨order, eq⟩ := Int.eq_ofNat_of_zero_le multiplied
    have scaled : n * 10 ^ order ≤ lastMiddle := by
      have ten : (10 : ℚ) ≠ 0 := by norm_num
      rw [Nat.cast_mul, Nat.cast_pow, Nat.cast_ofNat, mul_assoc, ← zpow_natCast,
        ← zpow_add₀ ten, eq, zpow_natCast] at reach
      exact_mod_cast reach
    have positive : 0 < n := Nat.pos_of_mul_pos_right pos
    have small : order ≤ 308 := by
      have most : lastMiddle < 10 ^ 309 := by decide +kernel
      have less : 10 ^ order < 10 ^ 309 :=
        Nat.lt_of_le_of_lt ((Nat.le_mul_of_pos_left _ positive).trans scaled) most
      have below := (Nat.pow_lt_pow_iff_right (by decide)).mp less
      omega
    rw [eq]
    refine ⟨by omega, Number.isInf_scaled positive ?_ small scaled⟩
    exact (Nat.le_mul_of_pos_right _ (by positivity)).trans few

end Decimal.Binary

namespace Json
open Decimal ObjectVault.Number

/-- The text of a float without a sign. -/
structure Magnitude (cs : List Char) : Prop where
  first : ∃ c rest, cs = c :: rest ∧ c.isDigit = true
  read (negative : Bool) : ∃ x, ∀ {rest : List Char}, Ends rest →
    readUnsigned negative (cs ++ rest) = some (.number (.real x), rest)

theorem Magnitude.literal {cs : List Char} (h : Magnitude cs) : ∃ x, Literal (.real x) cs := by
  obtain ⟨c, others, rfl, digit⟩ := h.first
  obtain ⟨x, read⟩ := h.read false
  refine ⟨x, ⟨c, others, rfl, .inr digit⟩, fun {rest} ends => ?_⟩
  rw [List.cons_append, readNumber_digit digit, ← List.cons_append, read ends]

theorem Magnitude.literal_minus {cs : List Char} (h : Magnitude cs) :
    ∃ x, Literal (.real x) ('-' :: cs) := by
  obtain ⟨x, read⟩ := h.read true
  exact ⟨x, ⟨'-', cs, rfl, .inl rfl⟩, read⟩

/-- The text of a float is read part by part, whatever stands behind it. -/
theorem magnitude_of_parts (behind after : List Char) {integer : List Char}
    {fraction : Option (List Char)} {exponent : Option Int}
    (whole : ∀ c ∈ integer, c.isDigit = true) (nonempty : integer ≠ [])
    (lead : integer.head? = some '0' → integer.length ≤ 1)
    (stop : ∀ rest, ∀ c ∈ (behind ++ rest).head?, c.isDigit = false)
    (point : ∀ {rest}, Ends rest → fractionPart (behind ++ rest) = some (fraction, after ++ rest))
    (mark : ∀ {rest}, Ends rest → markedPart (after ++ rest) = some (exponent, rest))
    (value : ∀ negative,
      ∃ x, Number.ofLiteral negative integer fraction exponent = some (.real x)) :
    Magnitude (integer ++ behind) := by
  refine ⟨?_, fun negative => ?_⟩
  · obtain ⟨c, rest, rfl⟩ := List.exists_cons_of_ne_nil nonempty
    exact ⟨c, _, rfl, whole c List.mem_cons_self⟩
  · obtain ⟨x, value⟩ := value negative
    refine ⟨x, fun {rest} ends => ?_⟩
    rw [List.append_assoc]
    exact readUnsigned_parts negative whole nonempty lead (stop rest) (point ends) (mark ends) value

/-- The fraction reaches up to a character that is no digit. -/
theorem fractionPart_point {places rest : List Char} (digits : ∀ c ∈ places, c.isDigit = true)
    (nonempty : places ≠ []) (stop : ∀ c ∈ rest.head?, c.isDigit = false) :
    fractionPart ('.' :: (places ++ rest)) = some (some places, rest) := by
  obtain ⟨taken, left⟩ := takeWhile_digits digits stop
  simp [fractionPart, taken, left, nonempty]

theorem not_digit_of_head {c : Char} {cs : List Char} (h : c.isDigit = false) :
    ∀ d ∈ (c :: cs).head?, d.isDigit = false := by
  intro d mem
  cases Option.mem_some.mp mem
  exact h

/-- Digits on both sides of a point. -/
theorem magnitude_point (integer places : List Char) (whole : ∀ c ∈ integer, c.isDigit = true)
    (nonempty : integer ≠ []) (lead : integer.head? = some '0' → integer.length ≤ 1)
    (digits : ∀ c ∈ places, c.isDigit = true) (behind : places ≠ [])
    (small : ofDigits (integer ++ places) < UInt64.size) :
    Magnitude (integer ++ '.' :: places) := by
  have length := List.length_pos_of_ne_nil behind
  have scalable : Scalable (ofDigits (integer ++ places)) (0 - places.length) :=
    fun multiplied => absurd multiplied (by omega)
  exact magnitude_of_parts ('.' :: places) [] whole nonempty lead
    (fun rest => not_digit_of_head (by decide))
    (fun ends => fractionPart_point digits behind fun c mem => (ends c mem).1) markedPart_of_ends
    fun negative =>
      exists_ofLiteral negative (.inl rfl) small (show (0 : Int) ≤ _ by decide) scalable

theorem exponentPart_of_sign {cs rest : List Char} {negative : Bool} {n : Nat}
    (sign : signPart cs = (negative, natDigits n ++ rest)) (ends : Ends rest) :
    exponentPart cs = some (if negative then -(n : Int) else n, rest) := by
  obtain ⟨taken, left⟩ := takeWhile_digits (fun c (mem : c ∈ natDigits n) => isDigit_natDigits mem)
    fun c mem => (ends c mem).1
  simp [exponentPart, sign, taken, left, natDigits_ne_nil, ofDigits_natDigits]

/-- The power of ten behind the digits, with a sign in any case. -/
def powerChars (order : Int) : List Char :=
  'e' :: ((if 0 ≤ order then ['+'] else []) ++ intChars order)

theorem markedPart_powerChars (order : Int) {rest : List Char} (ends : Ends rest) :
    markedPart (powerChars order ++ rest) = some (some order, rest) := by
  cases order with
  | ofNat n =>
    have sign : signPart ('+' :: (natDigits n ++ rest)) = (false, natDigits n ++ rest) := rfl
    simp [markedPart, powerChars, intChars, exponentPart_of_sign sign ends]
  | negSucc n =>
    have sign : signPart ('-' :: (natDigits (n + 1) ++ rest)) = (true, natDigits (n + 1) ++ rest) :=
      rfl
    simp [markedPart, powerChars, intChars, exponentPart_of_sign sign ends]
    omega

/-- One digit before the point, and a power of ten. -/
theorem magnitude_exponent {d : Char} {places : List Char} {order : Int} (digit : d.isDigit = true)
    (digits : ∀ c ∈ places, c.isDigit = true) (small : ofDigits (d :: places) < UInt64.size)
    (reached : order ≤ Int32.maxValue.toInt)
    (scalable : Scalable (ofDigits (d :: places)) (order - places.length)) :
    Magnitude (scientificChars true (d :: places) order) := by
  have single : ∀ c ∈ [d], c.isDigit = true := by simpa using digit
  have mark : ∀ {rest}, Ends rest →
      markedPart (powerChars order ++ rest) = some (some order, rest) :=
    markedPart_powerChars order
  have value (fraction : Option (List Char)) (eq : fraction.getD [] = places) (negative : Bool) :
      ∃ x, Number.ofLiteral negative [d] fraction (some order) = some (.real x) := by
    subst eq
    exact exists_ofLiteral negative (.inr rfl) small reached scalable
  cases places with
  | nil =>
    have text : scientificChars true [d] order = [d] ++ powerChars order := by
      simp [scientificChars, powerChars]
    rw [text]
    exact magnitude_of_parts _ _ single (by simp) (by simp)
      (fun rest => not_digit_of_head (by decide)) (fun _ => rfl) mark (value none rfl)
  | cons c others =>
    have text : scientificChars true (d :: c :: others) order =
        [d] ++ '.' :: (c :: others ++ powerChars order) := by
      simp [scientificChars, powerChars]
    rw [text]
    refine magnitude_of_parts _ _ single (by simp) (by simp)
      (fun rest => not_digit_of_head (by decide)) (fun _ => ?_) mark
      (value (some (c :: others)) rfl)
    rw [List.cons_append, List.append_assoc]
    exact fractionPart_point digits (by simp) (not_digit_of_head (by decide))

/-- Digits with the point before, behind or among them. -/
theorem magnitude_positional {d : Char} {places : List Char} {point : Int}
    (digits : ∀ c ∈ d :: places, c.isDigit = true) (lead : d ≠ '0')
    (small : ofDigits (d :: places) ≤ 10 ^ 17) (few : point ≤ 16) :
    Magnitude (positionalChars (d :: places) point) := by
  have zeros (k : Nat) : ∀ c ∈ List.replicate k '0', c.isDigit = true := by
    intro c mem
    rw [List.eq_of_mem_replicate mem]
    rfl
  have zero : ∀ c ∈ ['0'], c.isDigit = true := zeros 1
  have word : 10 ^ 17 < UInt64.size := by decide
  rw [positionalChars]
  split
  · next before =>
    have value : ofDigits (['0'] ++ (List.replicate (-point).toNat '0' ++ d :: places)) =
        ofDigits (d :: places) := by
      rw [ofDigits_append, ofDigits_append, ofDigits_zeros]
      simp [ofDigits, digitValue]
    exact magnitude_point ['0'] _ zero (by simp) (by simp)
      (List.forall_mem_append.mpr ⟨zeros _, digits⟩) (by simp) (by omega)
  · next behind =>
    obtain ⟨whole, eq⟩ : ∃ whole, point.toNat = whole + 1 := ⟨point.toNat - 1, by omega⟩
    simp only [eq]
    by_cases short : (d :: places).length ≤ whole + 1
    · rw [List.take_of_length_le short, List.drop_eq_nil_of_le short, List.isEmpty_nil, if_pos rfl]
      have integer : ∀ c ∈ d :: places ++ List.replicate (whole + 1 - (d :: places).length) '0',
          c.isDigit = true := List.forall_mem_append.mpr ⟨digits, zeros _⟩
      refine magnitude_point _ _ integer (by simp) (fun head => ?_) zero (by simp) ?_
      · exact absurd (by simpa using head) lead
      · have below := ofDigits_lt (List.forall_mem_append.mpr ⟨integer, zero⟩)
        have length : (d :: places ++ List.replicate (whole + 1 - (d :: places).length) '0' ++
            ['0']).length ≤ 17 := by
          simp only [List.length_append, List.length_replicate, List.length_singleton]
          omega
        have most := Nat.pow_le_pow_right (n := 10) (by decide) length
        omega
    · have nonempty : (d :: places).drop (whole + 1) ≠ [] := by
        rw [Ne, List.drop_eq_nil_iff]
        exact short
      have unpadded : whole + 1 - (d :: places).length = 0 := by omega
      have others := List.isEmpty_eq_false_iff.mpr nonempty
      rw [unpadded, List.replicate_zero, List.append_nil, others, if_neg (by decide)]
      refine magnitude_point _ _ (fun c mem => digits c (List.mem_of_mem_take mem)) (by simp)
        (fun head => ?_) (fun c mem => digits c (List.mem_of_mem_drop mem)) nonempty ?_
      · exact absurd (by simpa using head) lead
      · rw [List.take_append_drop]
        omega

/-- The shortest digits of a float are written such that they can be read. -/
theorem magnitude_shortest {x : Binary} (h : x.Bounded) {digits : List Char} {point : Int}
    (written : (x.shortest .even).significand = (digits, point)) :
    Magnitude (if Number.style.positional (point - 1) then positionalChars digits point
      else scientificChars Number.style.plusSign digits (point - 1)) := by
  obtain ⟨pos, few⟩ := Binary.digits_le .even h
  obtain ⟨d, places, k, own, all, lead, value⟩ := significand_spec pos
  rw [own] at written
  obtain ⟨rfl, rfl⟩ := Prod.mk.inj written
  obtain ⟨first, others⟩ := List.forall_mem_cons.mp all
  have small : ofDigits (d :: places) ≤ 10 ^ 17 := by
    rw [value] at few
    exact (Nat.le_mul_of_pos_right _ (by positivity)).trans few
  split
  · next positional =>
    simp only [Number.style, Bool.and_eq_true, decide_eq_true_eq] at positional
    exact magnitude_positional all lead small (by omega)
  · have scalable := Binary.scalable_shortest h value
    have length : places.length ≤ 17 := by
      have lower : 10 ^ places.length ≤ 10 ^ 17 := by
        rw [ofDigits_cons] at small
        have leading := (digitValue_of_digit first).2 lead
        exact (Nat.le_mul_of_pos_left _ leading).trans (Nat.le_of_add_right_le small)
      exact (Nat.pow_le_pow_iff_right (by decide)).mp lower
    have word : 10 ^ 17 < UInt64.size := by decide
    have max : Int32.maxValue.toInt = 2147483647 := rfl
    refine magnitude_exponent first others (by omega) ?_ ?_
    · rw [max]
      by_contra larger
      obtain ⟨low, -⟩ := scalable (by omega)
      omega
    · have order : places.length + 1 + k + (x.shortest .even).exponent - 1 - places.length =
          k + (x.shortest .even).exponent := by omega
      rw [order]
      exact scalable

/-- The text of a float that is a number is read as a float. -/
theorem literal_real {x : Float} (number : x.isNaN = false) (finite : x.isInf = false) :
    ∃ y, Literal (.real y) (Number.chars (.real x)) := by
  have zero : Magnitude ['0', '.', '0'] :=
    magnitude_point ['0'] ['0'] (by simp) (by simp) (by simp) (by simp) (by simp) (by decide)
  rw [Number.chars, FloatStyle.chars]
  simp only [number, finite, Bool.false_eq_true, if_false]
  generalize magnitude : (if (x == 0) = true then _ else _ : List Char) = cs
  have read : Magnitude cs := by
    subst magnitude
    cases nonzero : x == 0 with
    | true => exact zero
    | false => exact magnitude_shortest (Binary.bounded_ofFloat number finite nonzero) rfl
  split
  · exact read.literal
  · exact read.literal_minus

end Json
end ObjectVault
