import ObjectVault.Proofs.Digits
import Mathlib

namespace ObjectVault.Decimal

/-- The order of a positive quotient gives the powers of ten that it lies between. -/
theorem decimalOrder_spec {num den : Nat} (hn : 0 < num) (hd : 0 < den) :
    (10 : ℚ) ^ decimalOrder num den ≤ (num : ℚ) / den ∧
      (num : ℚ) / den < 10 ^ (decimalOrder num den + 1) := by
  have positive : (0 : ℚ) < den := by exact_mod_cast hd
  rw [decimalOrder, le_div_iff₀ positive, div_lt_iff₀ positive]
  split
  · next whole =>
    obtain ⟨k, length, lower, upper⟩ := length_natDigits (Nat.div_pos whole hd)
    have order : ((natDigits (num / den)).length : Int) - 1 = k := by omega
    rw [Nat.le_div_iff_mul_le hd] at lower
    rw [Nat.div_lt_iff_lt_mul hd] at upper
    rw [order, zpow_natCast, ← Nat.cast_succ, zpow_natCast]
    exact ⟨by exact_mod_cast lower, by exact_mod_cast upper⟩
  · next fraction =>
    have up := Nat.div_mul_le_self (den + num - 1) num
    have down := Nat.lt_div_mul_add (a := den + num - 1) hn
    have twice : 2 ≤ (den + num - 1) / num := by
      rw [Nat.le_div_iff_mul_le hn]
      omega
    obtain ⟨r, eq⟩ := Nat.exists_eq_add_of_le' (Nat.le_of_succ_le twice)
    rw [eq, Nat.add_sub_cancel]
    rw [eq, Nat.add_mul, Nat.one_mul] at up down
    obtain ⟨k, length, lower, upper⟩ := length_natDigits (n := r) (by omega)
    rw [length]
    have least := Nat.mul_le_mul_right num lower
    have most := Nat.mul_le_mul_right num (Nat.succ_le_of_lt upper)
    rw [Nat.succ_mul] at most
    have tens : (0 : ℚ) < 10 ^ k := by positivity
    have next : -((k + 1 : Nat) : Int) + 1 = -k := by omega
    rw [next, zpow_neg, zpow_neg, zpow_natCast, zpow_natCast]
    refine ⟨?_, ?_⟩
    · rw [inv_mul_le_iff₀ (by positivity)]
      have bound : den ≤ 10 ^ (k + 1) * num := by omega
      exact_mod_cast bound
    · rw [lt_inv_mul_iff₀ tens]
      have bound : 10 ^ k * num < den := by omega
      exact_mod_cast bound

namespace Binary

variable {x : Binary} {step : Int}

theorem cell_pos (x : Binary) (step : Int) : 0 < x.cell step := by
  rw [cell, Nat.shiftLeft_eq]
  exact Nat.mul_pos (Nat.pow_pos (by decide)) (Nat.two_pow_pos _)

/-- The place that is found on a grid is the one below the float or the next one, and reads back as
the float. -/
theorem onGrid_spec {tie : Tie} {d : Nat} (h : x.onGrid tie step = some d) :
    0 < d ∧ x.inside step d = true ∧ d ≤ x.value step / x.cell step + 1 := by
  unfold onGrid at h
  dsimp only at h
  generalize x.value step / x.cell step = first at h ⊢
  have lower : (x.inside step first && first != 0) = true →
      0 < first ∧ x.inside step first = true ∧ first ≤ first + 1 := by
    intro own
    simp only [Bool.and_eq_true, bne_iff_ne] at own
    exact ⟨Nat.pos_of_ne_zero own.2, own.1, Nat.le_succ _⟩
  have upper : x.inside step (first + 1) = true →
      0 < first + 1 ∧ x.inside step (first + 1) = true ∧ first + 1 ≤ first + 1 :=
    fun own => ⟨Nat.succ_pos _, own, Nat.le_refl _⟩
  split at h
  · cases h
  · next own _ =>
    cases h
    exact lower own
  · next _ own =>
    cases h
    exact upper own
  · next own other =>
    split_ifs at h with down up even
    · cases h
      exact lower own
    · cases h
      exact upper other
    · cases tie <;> cases h
      · exact upper other
      · exact lower own
    · cases tie <;> cases h
      · exact upper other
      · exact upper other

/-- A grid that is fine enough has a place that reads back as the float. -/
theorem isSome_onGrid (tie : Tie) (fine : x.cell step < x.below step + 2 * x.quarter step)
    (reached : x.cell step ≤ x.value step) : (x.onGrid tie step).isSome = true := by
  have bits : 0 < x.quarter step := by
    rw [quarter, Nat.shiftLeft_eq]
    exact Nat.mul_pos (Nat.pow_pos (by decide)) (Nat.two_pow_pos _)
  have positive := x.cell_pos step
  have floor := Nat.div_mul_le_self (x.value step) (x.cell step)
  have next := Nat.lt_div_mul_add (a := x.value step) positive
  have first := Nat.div_pos reached positive
  have either : x.inside step (x.value step / x.cell step) = true ∨
      x.inside step (x.value step / x.cell step + 1) = true := by
    simp only [inside, Bool.or_eq_true, Bool.and_eq_true, decide_eq_true_eq, Nat.add_mul,
      Nat.one_mul]
    by_cases near : x.value step < x.value step / x.cell step * x.cell step + x.below step
    · exact .inl (.inl ⟨by omega, by omega⟩)
    · exact .inr (.inl ⟨by omega, by omega⟩)
  unfold onGrid
  dsimp only
  generalize x.value step / x.cell step = d at either first
  split
  · next low high =>
    rw [high] at either
    simp only [Bool.false_eq_true, or_false] at either
    simp [either] at low
    omega
  · rfl
  · rfl
  · split_ifs
    · rfl
    · rfl
    · cases tie <;> rfl
    · cases tie <;> rfl

theorem firstGrid_spec {tie : Tie} {fuel : Nat} {s : Scaled}
    (h : x.firstGrid tie fuel step = some s) :
    ∃ k : Nat, k < fuel ∧ s.exponent = step - k ∧
      x.onGrid tie s.exponent = some s.digits := by
  induction fuel generalizing step with
  | zero => cases h
  | succ fuel ih =>
    rw [firstGrid] at h
    split at h
    · next d own =>
      cases h
      exact ⟨0, Nat.succ_pos _, (Int.sub_zero _).symm, own⟩
    · obtain ⟨k, within, exponent, own⟩ := ih h
      exact ⟨k + 1, Nat.succ_lt_succ within, by omega, own⟩

theorem isSome_firstGrid {tie : Tie} {fuel k : Nat} (within : k < fuel)
    (h : (x.onGrid tie (step - k)).isSome = true) : (x.firstGrid tie fuel step).isSome = true := by
  induction fuel generalizing step k with
  | zero => exact absurd within (Nat.not_lt_zero k)
  | succ fuel ih =>
    rw [firstGrid]
    split
    · rfl
    · next missing =>
      cases k with
      | zero => simp [missing] at h
      | succ k =>
        refine ih (Nat.lt_of_succ_lt_succ within) ?_
        have same : step - 1 - k = step - (k + 1 : Nat) := by omega
        rwa [same]

/-- The steps of a grid and the quarters of a bit in a common unit. -/
theorem exists_unit (x : Binary) (step : Int) :
    ∃ u : ℚ, 0 < u ∧ (x.cell step : ℚ) = u * 10 ^ step ∧
      (x.quarter step : ℚ) = u * 2 ^ (x.exponent - 2) := by
  have tens := pow_toNat_mul_zpow (b := 10) (by norm_num) step
  have bits := pow_toNat_mul_zpow (b := 2) two_ne_zero (x.exponent - 2)
  rw [neg_sub] at bits
  refine ⟨10 ^ (-step).toNat * 2 ^ (2 - x.exponent).toNat, by positivity, ?_, ?_⟩
  · rw [cell, Nat.shiftLeft_eq, Nat.pow_eq]
    push_cast
    rw [mul_right_comm, tens]
  · rw [quarter, Nat.shiftLeft_eq, Nat.pow_eq]
    push_cast
    rw [mul_assoc, bits]

/-- What makes a pair of a mantissa and an exponent a positive finite float. -/
structure Bounded (x : Binary) : Prop where
  pos : 0 < x.mantissa
  lt : x.mantissa < 2 ^ 53
  low : -1074 ≤ x.exponent
  high : x.exponent ≤ 971

/-- The number that a float stands for. -/
def toRat (x : Binary) : ℚ :=
  x.mantissa * 2 ^ x.exponent

theorem toRat_eq (x : Binary) : x.toRat = 4 * x.mantissa * 2 ^ (x.exponent - 2) := by
  rw [toRat, zpow_sub₀ two_ne_zero]
  norm_num
  ring

/-- A decimal that reads back is at most half a bit above the float. -/
theorem le_of_inside {d : Nat} (h : x.inside step d = true) :
    (d : ℚ) * 10 ^ step ≤ (4 * x.mantissa + 2) * 2 ^ (x.exponent - 2) := by
  obtain ⟨u, pos, cell_eq, quarter_eq⟩ := x.exists_unit step
  have upper : d * x.cell step ≤ (4 * x.mantissa + 2) * x.quarter step := by
    rw [Nat.add_mul, ← value]
    simp only [inside, Bool.or_eq_true, Bool.and_eq_true, decide_eq_true_eq, beq_iff_eq] at h
    omega
  have cast : (d : ℚ) * x.cell step ≤ (4 * x.mantissa + 2) * x.quarter step := by
    exact_mod_cast upper
  rw [cell_eq, quarter_eq, mul_left_comm, mul_left_comm _ u] at cast
  exact le_of_mul_le_mul_left cast pos

/-- The order of a float. -/
def order (x : Binary) : Int :=
  decimalOrder (x.mantissa <<< x.exponent.toNat) (1 <<< (-x.exponent).toNat)

theorem order_spec (pos : 0 < x.mantissa) :
    (10 : ℚ) ^ x.order ≤ x.toRat ∧ x.toRat < 10 ^ (x.order + 1) := by
  have quotient : ((x.mantissa <<< x.exponent.toNat : Nat) : ℚ) /
      (1 <<< (-x.exponent).toNat : Nat) = x.toRat := by
    rw [toRat, Nat.shiftLeft_eq, Nat.shiftLeft_eq, div_eq_iff (by positivity)]
    push_cast
    rw [one_mul, mul_assoc, mul_comm (2 ^ x.exponent), pow_toNat_mul_zpow two_ne_zero]
  rw [order, ← quotient]
  refine decimalOrder_spec ?_ ?_
  · rw [Nat.shiftLeft_eq]
    positivity
  · rw [Nat.shiftLeft_eq]
    positivity

/-- The numbers that read back as a float reach over more than the last of seventeen digits. -/
theorem exists_width (h : x.mantissa < 2 ^ 53) (step : Int) :
    ∃ c, x.below step + 2 * x.quarter step = c * x.quarter step ∧ 4 * x.mantissa < c * 10 ^ 16 := by
  rw [below]
  split
  · next least =>
    have mantissa : x.mantissa = 2 ^ 52 := by
      simp only [Bool.and_eq_true, decide_eq_true_eq] at least
      exact least.1
    exact ⟨3, by omega, by omega⟩
  · exact ⟨4, by omega, by omega⟩

/-- The grid of seventeen digits has a place that reads back as the float. -/
theorem isSome_onGrid_order (tie : Tie) (h : x.Bounded) (eq : step = x.order - 16) :
    (x.onGrid tie step).isSome = true := by
  obtain ⟨u, pos, cell_eq, quarter_eq⟩ := x.exists_unit step
  obtain ⟨c, width, wide⟩ := exists_width h.lt step
  obtain ⟨lower, -⟩ := order_spec h.pos
  have tens : (10 : ℚ) ^ x.order = 10 ^ 16 * 10 ^ step := by
    rw [eq, zpow_sub₀ (by norm_num)]
    norm_num
    ring
  have bits : (0 : ℚ) < 2 ^ (x.exponent - 2) := by positivity
  have place : (0 : ℚ) < 10 ^ step := by positivity
  rw [toRat_eq, tens] at lower
  apply isSome_onGrid
  · have less : (10 : ℚ) ^ step < c * 2 ^ (x.exponent - 2) := by
      have cast : (4 * x.mantissa : ℚ) < c * 10 ^ 16 := by exact_mod_cast wide
      have scaled := mul_lt_mul_of_pos_right cast bits
      linarith
    have cast : (x.cell step : ℚ) < c * x.quarter step := by
      rw [cell_eq, quarter_eq, mul_left_comm]
      exact mul_lt_mul_of_pos_left less pos
    rw [width]
    exact_mod_cast cast
  · have cast : (x.cell step : ℚ) ≤ 4 * x.mantissa * x.quarter step := by
      rw [cell_eq, quarter_eq, mul_left_comm]
      exact mul_le_mul_of_nonneg_left (by linarith) pos.le
    rw [value]
    exact_mod_cast cast

/-- The search for the shortest decimal begins at the order of the float. -/
theorem shortest_eq (x : Binary) (tie : Tie) :
    x.shortest tie = (x.firstGrid tie 17 x.order).getD ⟨x.mantissa, x.exponent⟩ :=
  rfl

/-- The shortest decimal has at most seventeen digits. -/
theorem shortest_spec (tie : Tie) (h : x.Bounded) :
    ∃ k : Nat, k < 17 ∧ (x.shortest tie).exponent = x.order - k ∧
      x.onGrid tie (x.shortest tie).exponent = some (x.shortest tie).digits := by
  have found : (x.firstGrid tie 17 x.order).isSome = true :=
    isSome_firstGrid (show 16 < 17 by decide) (isSome_onGrid_order tie h rfl)
  obtain ⟨s, own⟩ := Option.isSome_iff_exists.mp found
  rw [shortest_eq, own, Option.getD_some]
  exact firstGrid_spec own

theorem digits_le (tie : Tie) (h : x.Bounded) :
    0 < (x.shortest tie).digits ∧ (x.shortest tie).digits ≤ 10 ^ 17 := by
  obtain ⟨k, few, exponent, own⟩ := shortest_spec tie h
  obtain ⟨positive, -, near⟩ := onGrid_spec own
  refine ⟨positive, near.trans ?_⟩
  generalize (x.shortest tie).exponent = step at exponent
  obtain ⟨u, pos, cell_eq, quarter_eq⟩ := x.exists_unit step
  obtain ⟨-, upper⟩ := order_spec h.pos
  have tens : (10 : ℚ) ^ (x.order + 1) ≤ 10 ^ 17 * 10 ^ step := by
    rw [← zpow_natCast, ← zpow_add₀ (by norm_num)]
    exact zpow_le_zpow_right₀ (by norm_num) (by omega)
  have cast : (4 * x.mantissa * x.quarter step : ℚ) < 10 ^ 17 * x.cell step := by
    rw [cell_eq, quarter_eq, mul_left_comm, mul_left_comm _ u]
    rw [toRat_eq] at upper
    exact mul_lt_mul_of_pos_left (by linarith) pos
  have less : x.value step / x.cell step < 10 ^ 17 := by
    rw [Nat.div_lt_iff_lt_mul (x.cell_pos step), value]
    exact_mod_cast cast
  exact less

/-- The shortest decimal is at most half a bit above the float. -/
theorem shortest_le (tie : Tie) (h : x.Bounded) :
    ((x.shortest tie).digits : ℚ) * 10 ^ (x.shortest tie).exponent ≤
      (4 * x.mantissa + 2) * 2 ^ (x.exponent - 2) := by
  obtain ⟨k, -, -, own⟩ := shortest_spec tie h
  exact le_of_inside (onGrid_spec own).2.1

section Bits
open Float.Model.UnpackedFloat

/-- The bits of a float as a word that is unpacked. -/
def word (x : Float) : BitVec Float.Model.Format.binary64.numBits :=
  x.toBits.toBitVec

theorem exponent_word (x : Float) :
    (unpackExponent (word x)).toNat = x.toBits.toNat % signBit / leadingBit := by
  have bits : (unpackExponent (word x)).toNat = (x.toBits.toBitVec.extractLsb' 52 11).toNat := rfl
  have leading : leadingBit = 2 ^ 52 := rfl
  have sign : signBit = 2 ^ 63 := rfl
  rw [bits, BitVec.extractLsb'_toNat, UInt64.toNat_toBitVec, Nat.shiftRight_eq_div_pow, leading,
    sign]
  omega

theorem mantissa_word (x : Float) :
    (unpackMantissa (word x)).toNat = x.toBits.toNat % signBit % leadingBit := by
  have bits : (unpackMantissa (word x)).toNat = (x.toBits.toBitVec.extractLsb' 0 52).toNat := rfl
  have leading : leadingBit = 2 ^ 52 := rfl
  have sign : signBit = 2 ^ 63 := rfl
  rw [bits, BitVec.extractLsb'_toNat, UInt64.toNat_toBitVec, Nat.shiftRight_zero, leading, sign]
  omega

/-- A float that is a number other than zero. -/
theorem bounded_ofFloat {x : Float} (number : x.isNaN = false) (finite : x.isInf = false)
    (nonzero : (x == 0) = false) : (ofFloat x).Bounded := by
  have exponent := exponent_word x
  have mantissa := mantissa_word x
  have isNaN : x.isNaN = (unpack .binary64 (word x)).isNaN := rfl
  have isInf : x.isInf = (unpack .binary64 (word x)).isInf := rfl
  have isZero : (x == 0) = (unpack .binary64 (word x)).beq (.zero .positive) := rfl
  rw [isNaN, unpack] at number
  rw [isInf, unpack] at finite
  rw [isZero, unpack] at nonzero
  rw [ofFloat]
  generalize x.toBits.toNat % signBit = bits at exponent mantissa ⊢
  have leading : leadingBit = 2 ^ 52 := rfl
  have special : bits / leadingBit ≠ 2047 := by
    intro eq
    rw [← exponent] at eq
    have ones : unpackExponent (word x) = -1#11 := BitVec.eq_of_toNat_eq eq
    simp only [if_pos ones] at number finite
    split at number
    · next whole =>
      rw [if_pos whole] at finite
      cases finite
    · cases number
  have fractional : bits / leadingBit = 0 → bits % leadingBit ≠ 0 := by
    intro least eq
    rw [← exponent] at least
    rw [← mantissa] at eq
    have whole : unpackMantissa (word x) = 0#52 := BitVec.eq_of_toNat_eq eq
    have zero : unpackExponent (word x) = 0#11 := BitVec.eq_of_toNat_eq least
    simp only [zero, whole] at nonzero
    cases nonzero
  have few : bits / leadingBit < 2 ^ 11 := by
    rw [← exponent]
    exact BitVec.isLt _
  rw [leading] at special fractional few ⊢
  split
  · next least =>
    have fraction := fractional least
    constructor <;> dsimp only <;> omega
  · constructor <;> dsimp only <;> omega

end Bits

end Binary

end ObjectVault.Decimal
