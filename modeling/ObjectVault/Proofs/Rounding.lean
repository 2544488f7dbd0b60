import ObjectVault.Json.Number
import ObjectVault.Proofs.Digits
import Mathlib

namespace ObjectVault.Number
open Float.Model Float.Model.UnpackedFloat

/-- A mantissa from which `shift` bits were dropped. If the last of them was one, at least half a
unit was dropped. -/
structure Dropped (n shift : Nat) (em : ExtendedMantissa) : Prop where
  mantissa : em.mantissa = n / 2 ^ shift
  half : em.roundBit = true → (2 * em.mantissa + 1) * 2 ^ shift ≤ 2 * n

theorem dropped_repeat (n shift : Nat) :
    Dropped n shift (shift.repeat ExtendedMantissa.shiftRightOne
      (ExtendedMantissa.ofMantissaAndAccuracy n .exact)) := by
  induction shift with
  | zero => exact ⟨(Nat.div_one n).symm, nofun⟩
  | succ shift ih =>
    rw [Nat.repeat]
    generalize shift.repeat ExtendedMantissa.shiftRightOne
      (ExtendedMantissa.ofMantissaAndAccuracy n .exact) = em at ih
    refine ⟨?_, fun odd => ?_⟩
    · rw [ExtendedMantissa.shiftRightOne, ih.mantissa, Nat.div_div_eq_div_mul, Nat.pow_succ]
    · have whole : em.mantissa * 2 ^ shift ≤ n := by
        rw [ih.mantissa]
        exact Nat.div_mul_le_self n _
      have twice : 2 * (em.mantissa / 2) + 1 = em.mantissa := by
        simp only [ExtendedMantissa.shiftRightOne, bne_iff_ne] at odd
        omega
      simp only [ExtendedMantissa.shiftRightOne, twice, Nat.pow_succ]
      linarith

/-- Rounding adds at most half a unit. -/
theorem Dropped.rounded {n shift : Nat} {em : ExtendedMantissa} (h : Dropped n shift em) :
    n / 2 ^ shift ≤ em.roundedMantissa ∧
      2 * (em.roundedMantissa * 2 ^ shift) ≤ 2 * n + 2 ^ shift := by
  have step : em.roundedMantissa = em.mantissa ∨
      em.roundedMantissa = em.mantissa + 1 ∧ em.roundBit = true := by
    obtain ⟨m, round, sticky⟩ := em
    cases round <;> cases sticky <;>
      simp [ExtendedMantissa.roundedMantissa, ExtendedMantissa.accuracy,
        Accuracy.roundToNearestEven]
    omega
  rw [← h.mantissa]
  rcases step with eq | ⟨eq, round⟩
  · have whole : em.mantissa * 2 ^ shift ≤ n := by
      rw [h.mantissa]
      exact Nat.div_mul_le_self n _
    rw [eq]
    exact ⟨Nat.le_refl _, Nat.le_add_right_of_le (Nat.mul_le_mul_left 2 whole)⟩
  · have half := h.half round
    rw [eq]
    exact ⟨Nat.le_succ _, by linarith⟩

theorem targetExponent_eq (n : Nat) (k : Int) :
    Format.binary64.targetExponent (totalExponent n k) = max (n.log2 + k - 52) (-1074) := by
  have bits : Format.binary64.mantissaBits = 53 := rfl
  have least : Format.binary64.minExponent = -1074 := rfl
  rw [Format.targetExponent, totalExponent, bits, least]
  omega

theorem shiftToTargetExponent_wide {n : Nat} {k : Int} (wide : 52 ≤ n.log2) (low : -1074 ≤ k) :
    shiftToTargetExponent .binary64 n k .exact =
      ((n.log2 - 52).repeat ExtendedMantissa.shiftRightOne
        (ExtendedMantissa.ofMantissaAndAccuracy n .exact), k + (n.log2 - 52 : Nat)) := by
  have target : Format.binary64.targetExponent (totalExponent n k) = k + (n.log2 - 52 : Nat) := by
    rw [targetExponent_eq]
    omega
  have shift : (k + (n.log2 - 52 : Nat) - k).toNat = n.log2 - 52 := by omega
  rw [shiftToTargetExponent, target, shiftToExponent, shift]
  rfl

/-- Rounding to the bits of a mantissa can give the next power of two, but no more. -/
theorem Dropped.rounded_wide {n : Nat} {em : ExtendedMantissa} (h : Dropped n (n.log2 - 52) em)
    (wide : 52 ≤ n.log2) : 2 ^ 52 ≤ em.roundedMantissa ∧ em.roundedMantissa ≤ 2 ^ 53 := by
  obtain ⟨lower, upper⟩ := h.rounded
  have split : 2 ^ n.log2 = 2 ^ 52 * 2 ^ (n.log2 - 52) := by
    rw [← Nat.pow_add, Nat.add_sub_cancel' wide]
  constructor
  · have pos : n ≠ 0 := by
      rintro rfl
      simp at wide
    refine Nat.le_trans ?_ lower
    rw [Nat.le_div_iff_mul_le (Nat.two_pow_pos _), ← split]
    exact Nat.log2_self_le pos
  · have below : n < 2 ^ n.log2 * 2 := Nat.lt_log2_self
    have unit := Nat.two_pow_pos (n.log2 - 52)
    rw [split] at below
    by_contra larger
    have more := Nat.mul_le_mul_right (2 ^ (n.log2 - 52)) (Nat.lt_of_not_le larger)
    omega

/-- A mantissa that was rounded up to the next power of two loses one more bit, which is zero. -/
theorem Dropped.whole {n : Nat} {em : ExtendedMantissa} (h : Dropped n (n.log2 - 52) em)
    (least : 2 ^ 52 ≤ n) (most : n ≤ 2 ^ 53) :
    em.mantissa * 2 ^ (n.log2 - 52) = n ∧ 2 ^ 52 ≤ em.mantissa ∧ em.mantissa < 2 ^ 53 := by
  rw [h.mantissa]
  rcases Nat.lt_or_eq_of_le most with below | rfl
  · have order : n.log2 < 53 := (Nat.log2_lt (by omega)).mpr below
    have unshifted : n.log2 - 52 = 0 := by omega
    rw [unshifted, Nat.pow_zero, Nat.div_one, Nat.mul_one]
    exact ⟨rfl, least, below⟩
  · rw [Nat.log2_two_pow]
    decide

/-- A number with all the bits of a mantissa is rounded to a normal float, by at most half a unit
too large. -/
theorem roundWithAccuracy_wide (s : Sign) {n : Nat} {k : Int} (wide : 52 ≤ n.log2)
    (low : -1074 ≤ k) :
    ∃ m d h, roundWithAccuracy .binary64 s n k .exact = .finite s m (k + (d : Nat)) h ∧
      2 ^ 52 ≤ m ∧ m < 2 ^ 53 ∧ n.log2 - 52 ≤ d ∧
      2 * (m * 2 ^ d) ≤ 2 * n + 2 ^ (n.log2 - 52) := by
  have first := shiftToTargetExponent_wide wide low
  have dropped := dropped_repeat n (n.log2 - 52)
  generalize (n.log2 - 52).repeat ExtendedMantissa.shiftRightOne
    (ExtendedMantissa.ofMantissaAndAccuracy n .exact) = em at first dropped
  obtain ⟨least, most⟩ := dropped.rounded_wide wide
  obtain ⟨-, near⟩ := dropped.rounded
  generalize rounded : em.roundedMantissa = r at near least most
  have wide' : 52 ≤ r.log2 := (Nat.le_log2 (by omega)).mpr least
  have second := shiftToTargetExponent_wide (k := k + (n.log2 - 52 : Nat)) wide' (by omega)
  have dropped' := dropped_repeat r (r.log2 - 52)
  generalize (r.log2 - 52).repeat ExtendedMantissa.shiftRightOne
    (ExtendedMantissa.ofMantissaAndAccuracy r .exact) = em' at second dropped'
  obtain ⟨value, lower, upper⟩ := dropped'.whole least most
  have pos : 0 < em'.mantissa := by omega
  refine ⟨em'.mantissa, n.log2 - 52 + (r.log2 - 52), pos, ?_, lower, upper,
    Nat.le_add_right _ _, ?_⟩
  · rw [roundWithAccuracy, first]
    dsimp only
    rw [rounded, second]
    dsimp only
    rw [dif_neg (Nat.ne_of_gt pos)]
    congr 1
    omega
  · have same : em'.mantissa * 2 ^ (n.log2 - 52 + (r.log2 - 52)) = r * 2 ^ (n.log2 - 52) := by
      rw [Nat.add_comm, Nat.pow_add, ← Nat.mul_assoc, value]
    rw [same]
    exact near

/-- A normal float is unpacked as it was packed; the sign does not matter here. -/
theorem unpack_pack_normal {s : Sign} {m : Nat} {e : Int} (h : 0 < m) (lower : 2 ^ 52 ≤ m)
    (upper : m < 2 ^ 53) (low : -1074 ≤ e) (high : e ≤ 971) :
    ∃ t, (Float.Model.pack (.finite s m e h)).unpack = .finite t m e h := by
  have order : m.log2 = 52 := by
    have least : 52 ≤ m.log2 := (Nat.le_log2 (by omega)).mpr lower
    have most : m.log2 < 53 := (Nat.log2_lt (by omega)).mpr upper
    omega
  have bias : (Format.binary64.exponentBias : Int) = 1023 := rfl
  have width : (Format.binary64.mantissaBitsWithoutImplicit : Int) = 52 := rfl
  have packed : UnpackedFloat.pack .binary64 (.finite s m e h) =
      packComponents .binary64 s (BitVec.ofNat _ (e + 1075).toNat) (BitVec.ofNat _ m) := by
    have biased : e + 1023 + 52 = e + 1075 := by omega
    rw [UnpackedFloat.pack]
    simp only [order, bias, width, biased]
    rw [if_neg (by omega), if_pos (by rfl)]
  have exponent : (BitVec.ofNat 11 (e + 1075).toNat).toNat = (e + 1075).toNat := by
    rw [BitVec.toNat_ofNat, Nat.mod_eq_of_lt (by omega)]
  have special : BitVec.ofNat 11 (e + 1075).toNat ≠ -1#11 := by
    intro eq
    have number := congrArg BitVec.toNat eq
    rw [exponent] at number
    have ones : (-1#11).toNat = 2047 := rfl
    omega
  have subnormal : BitVec.ofNat 11 (e + 1075).toNat ≠ 0#11 := by
    intro eq
    have number := congrArg BitVec.toNat eq
    rw [exponent] at number
    have zero : (0#11).toNat = 0 := rfl
    omega
  have mantissa : (1#1 ++ BitVec.ofNat 52 m).toNat = m := by
    have fraction : (BitVec.ofNat 52 m).toNat = m - 2 ^ 52 := by
      rw [BitVec.toNat_ofNat]
      omega
    have one : (1#1).toNat <<< 52 = 2 ^ 52 := rfl
    rw [BitVec.toNat_append, ← Nat.shiftLeft_add_eq_or_of_lt (BitVec.isLt _), fraction, one]
    omega
  have unfolded : (Float.Model.pack (.finite s m e h)).unpack =
      UnpackedFloat.unpack .binary64 (UnpackedFloat.pack .binary64 (.finite s m e h)) := rfl
  rw [unfolded, packed, UnpackedFloat.unpack]
  simp only [unpackMantissa_packComponents, unpackExponent_packComponents]
  rw [if_neg special, if_neg subnormal]
  have value : ((e + 1075).toNat : Int) - (1023 + (52 : Nat)) = e := by omega
  simp only [exponent, mantissa, bias, value]
  exact ⟨_, rfl⟩

/-- The largest finite float. -/
def largest : Nat :=
  (2 ^ 53 - 1) * 2 ^ 971

/-- Rounding by half a unit does not lead from the order of the largest float to the next one: half
a unit is at most one part in `2^53` of a number. -/
theorem exponent_le {n m d : Nat} {k : Int} (wide : 52 ≤ n.log2) (lower : 2 ^ 52 ≤ m)
    (near : 2 * (m * 2 ^ d) ≤ 2 * n + 2 ^ (n.log2 - 52)) (small : (n : ℚ) * 2 ^ k ≤ largest) :
    k + d ≤ 971 := by
  have pos : n ≠ 0 := by
    rintro rfl
    simp at wide
  have unit : 2 ^ 52 * 2 ^ (n.log2 - 52) ≤ n := by
    rw [← Nat.pow_add, Nat.add_sub_cancel' wide]
    exact Nat.log2_self_le pos
  have relative : 2 ^ 105 * 2 ^ d ≤ (2 ^ 53 + 1) * n := by
    have lead := Nat.mul_le_mul_right (2 ^ d) lower
    omega
  by_contra higher
  have order : (2 : ℚ) ^ 971 * 2 ≤ 2 ^ (k + d) := by
    rw [← zpow_natCast, ← zpow_add_one₀ two_ne_zero]
    exact zpow_le_zpow_right₀ one_le_two (by omega)
  have scaled : (2 : ℚ) ^ 105 * 2 ^ (k + d) ≤ (2 ^ 53 + 1) * largest := calc
    (2 : ℚ) ^ 105 * 2 ^ (k + d) = ((2 ^ 105 * 2 ^ d : Nat) : ℚ) * 2 ^ k := by
      rw [zpow_add₀ two_ne_zero, zpow_natCast]
      push_cast
      ring
    _ ≤ (((2 ^ 53 + 1) * n : Nat) : ℚ) * 2 ^ k :=
      mul_le_mul_of_nonneg_right (by exact_mod_cast relative) (by positivity)
    _ = (2 ^ 53 + 1) * ((n : ℚ) * 2 ^ k) := by
      push_cast
      ring
    _ ≤ (2 ^ 53 + 1) * largest := mul_le_mul_of_nonneg_left small (by positivity)
  have top : (2 : ℚ) ^ 105 * (2 ^ 971 * 2) ≤ (2 ^ 53 + 1) * largest :=
    (mul_le_mul_of_nonneg_left order (by positivity)).trans scaled
  have below : (2 ^ 53 + 1) * largest < 2 ^ 105 * (2 ^ 971 * 2) := by
    have unit := Nat.two_pow_pos 971
    rw [largest]
    omega
  exact absurd (by exact_mod_cast top) (Nat.not_le.mpr below)

/-- What a number that is not above the largest float is rounded to is a normal float. -/
theorem unpack_rounded (s : Sign) {n : Nat} {k : Int} (wide : 52 ≤ n.log2) (low : -1074 ≤ k)
    (small : (n : ℚ) * 2 ^ k ≤ largest) :
    ∃ t m d h, (Float.Model.pack (roundWithAccuracy .binary64 s n k .exact)).unpack =
        .finite t m (k + (d : Nat)) h ∧
      2 ^ 52 ≤ m ∧ m < 2 ^ 53 ∧ n.log2 - 52 ≤ d ∧
      2 * (m * 2 ^ d) ≤ 2 * n + 2 ^ (n.log2 - 52) := by
  obtain ⟨m, d, h, rounded, lower, upper, shift, near⟩ := roundWithAccuracy_wide s wide low
  obtain ⟨t, unpacked⟩ := unpack_pack_normal (s := s) h lower upper (by omega)
    (exponent_le wide lower near small)
  rw [← rounded] at unpacked
  exact ⟨t, m, d, h, unpacked, lower, upper, shift, near⟩

/-- No float that is made of a whole number below `2^57` is larger. -/
def ceiling (n : Nat) : Nat :=
  if n < 2 ^ 53 then n else if n < 2 ^ 54 then 2 * ((n + 1) / 2) else n + 8

theorem round_nat (s : Sign) (n : Nat) :
    UnpackedFloat.round .binary64 s n 0 =
      roundWithAccuracy .binary64 s (n * 2 ^ (52 - n.log2)) (-(52 - n.log2 : Nat)) .exact := by
  have target : Format.binary64.targetExponent (totalExponent n 0) = (n.log2 : Int) - 52 := by
    rw [targetExponent_eq]
    omega
  have shift : (0 - ((n.log2 : Int) - 52)).toNat = 52 - n.log2 := by omega
  rw [UnpackedFloat.round, target, decreaseExponent, shift, Nat.shiftLeft_eq, Int.zero_sub]

theorem log2_mul_two_pow {n : Nat} (pos : 0 < n) :
    (n * 2 ^ (52 - n.log2)).log2 = max n.log2 52 := by
  rcases Nat.le_total n.log2 52 with small | large
  · have lower : 2 ^ n.log2 * 2 ^ (52 - n.log2) = 2 ^ 52 := by
      rw [← Nat.pow_add, Nat.add_sub_cancel' small]
    have upper : 2 ^ (n.log2 + 1) * 2 ^ (52 - n.log2) = 2 ^ (52 + 1) := by
      rw [← Nat.pow_add]
      congr 1
      omega
    rw [Nat.max_eq_right small, Nat.log2_eq_iff (by positivity), ← lower, ← upper]
    exact ⟨Nat.mul_le_mul_right _ (Nat.log2_self_le (Nat.ne_of_gt pos)),
      Nat.mul_lt_mul_of_pos_right Nat.lt_log2_self (Nat.two_pow_pos _)⟩
  · have unshifted : 52 - n.log2 = 0 := by omega
    rw [unshifted, Nat.pow_zero, Nat.mul_one, Nat.max_eq_left large]

/-- What a whole number is rounded to is not above its ceiling. -/
theorem le_ceiling {n m d : Nat} (pos : 0 < n) (small : n < 2 ^ 57)
    (shift : max n.log2 52 - 52 ≤ d)
    (bound : 2 * (m * 2 ^ d) ≤ 2 * (n * 2 ^ (52 - n.log2)) + 2 ^ (max n.log2 52 - 52)) :
    m * 2 ^ d ≤ ceiling n * 2 ^ (52 - n.log2) := by
  rw [ceiling]
  split
  · next below =>
    have order : n.log2 < 53 := (Nat.log2_lt (Nat.ne_of_gt pos)).mpr below
    have unshifted : max n.log2 52 - 52 = 0 := by omega
    rw [unshifted, Nat.pow_zero] at bound
    omega
  next above =>
  have least : 53 ≤ n.log2 := (Nat.le_log2 (Nat.ne_of_gt pos)).mpr (Nat.not_lt.mp above)
  have unshifted : 52 - n.log2 = 0 := by omega
  rw [Nat.max_eq_left (by omega)] at shift bound
  rw [unshifted, Nat.pow_zero, Nat.mul_one] at bound ⊢
  split
  · next below =>
    have order : n.log2 < 54 := (Nat.log2_lt (Nat.ne_of_gt pos)).mpr below
    have one : n.log2 - 52 = 1 := by omega
    obtain ⟨d, rfl⟩ := Nat.exists_eq_add_of_le' (show 1 ≤ d by omega)
    have even : m * 2 ^ (d + 1) = 2 * (m * 2 ^ d) := by rw [Nat.pow_succ]; ring
    rw [one, even] at bound
    rw [even]
    omega
  · have order : n.log2 < 57 := (Nat.log2_lt (Nat.ne_of_gt pos)).mpr small
    have unit : 2 ^ (n.log2 - 52) ≤ 2 ^ 4 := Nat.pow_le_pow_right (by decide) (by omega)
    omega

/-- A normal float whose last bit counts at least `2^-52`, and which is not above the bound. -/
def AtMost (x : Float) (bound : ℚ) : Prop :=
  ∃ s m e h, x.toModel.unpack = .finite s m e h ∧ 2 ^ 52 ≤ m ∧ m < 2 ^ 53 ∧ -52 ≤ e ∧
    (m : ℚ) * 2 ^ e ≤ bound

/-- A whole number becomes a normal float that is not above its ceiling. -/
theorem atMost_toFloat {n : Nat} (pos : 0 < n) (small : n < 2 ^ 57) :
    AtMost (UInt64.ofNat n).toFloat (ceiling n) := by
  have word : (UInt64.ofNat n).toNat = n := by
    rw [UInt64.toNat_ofNat']
    omega
  have model : (UInt64.ofNat n).toFloat.toModel =
      .pack (UnpackedFloat.round .binary64 .positive n 0) := by
    have unfolded : (UInt64.ofNat n).toFloat.toModel =
      .pack (UnpackedFloat.normalize .binary64 ((UInt64.ofNat n).toNat : Int) 0 .positive) := rfl
    have sign : compare (n : Int) 0 = .gt := compare_gt_iff_gt.mpr (by omega)
    rw [unfolded, word, UnpackedFloat.normalize, sign]
    rfl
  have order := log2_mul_two_pow pos
  have reach : ((n * 2 ^ (52 - n.log2) : Nat) : ℚ) * 2 ^ (-((52 - n.log2 : Nat) : Int)) ≤
      largest := by
    have below : n ≤ largest := Nat.le_of_lt (Nat.lt_trans small (by decide +kernel))
    rw [zpow_neg, zpow_natCast, Nat.cast_mul, Nat.cast_pow, Nat.cast_ofNat,
      mul_inv_cancel_right₀ (by positivity)]
    exact_mod_cast below
  obtain ⟨t, m, d, h, unpacked, lower, upper, shift, near⟩ :=
    unpack_rounded .positive (by omega) (by omega) reach
  rw [order] at shift near
  have value := le_ceiling pos small shift near
  rw [← round_nat .positive, ← model] at unpacked
  refine ⟨t, m, _, h, unpacked, lower, upper, by omega, ?_⟩
  have cast : (m : ℚ) * 2 ^ d ≤ ceiling n * 2 ^ (52 - n.log2) := by exact_mod_cast value
  rw [zpow_add₀ two_ne_zero, zpow_neg, zpow_natCast, zpow_natCast, mul_left_comm, mul_comm,
    ← div_eq_mul_inv, div_le_iff₀ (by positivity)]
  exact cast

/-- A product that is not above the largest float is finite. -/
theorem AtMost.isInf_mul {x y : Float} {a b : ℚ} (hx : AtMost x a) (hy : AtMost y b)
    (small : a * b ≤ largest) : (x * y).isInf = false := by
  obtain ⟨s, m, e, h, unpacked, lower, upper, low, bound⟩ := hx
  obtain ⟨s', m', e', h', unpacked', lower', upper', low', bound'⟩ := hy
  have pos : 0 < m * m' := Nat.mul_pos h h'
  have wide : 52 ≤ (m * m').log2 := by
    refine (Nat.le_log2 (Nat.ne_of_gt pos)).mpr (Nat.le_trans lower ?_)
    exact Nat.le_mul_of_pos_right m h'
  have reach : ((m * m' : Nat) : ℚ) * 2 ^ (e + e') ≤ largest := by
    refine le_trans (le_of_eq ?_) ((mul_le_mul bound bound' (by positivity) ?_).trans small)
    · rw [Nat.cast_mul, zpow_add₀ two_ne_zero]
      ring
    · exact le_trans (by positivity) bound
  obtain ⟨t, r, d, hr, unpacked'', -⟩ := unpack_rounded (s * s') wide (by omega) reach
  have product : (x * y).toModel =
      .pack (roundWithAccuracy .binary64 (s * s') (m * m') (e + e') .exact) := by
    have model : (x * y).toModel =
        .pack (UnpackedFloat.mul .binary64 x.toModel.unpack y.toModel.unpack) := rfl
    rw [model, unpacked, unpacked', UnpackedFloat.mul]
  have finite : (x * y).isInf = (x * y).toModel.unpack.isInf := rfl
  rw [finite, product, unpacked'']
  rfl

/-- Computes whether a float is at most a whole number. -/
def atMost (x : Float) (bound : Nat) : Bool :=
  match x.toModel.unpack with
  | .finite _ m e _ =>
    2 ^ 52 ≤ m && m < 2 ^ 53 && -52 ≤ e && m * 2 ^ e.toNat ≤ bound * 2 ^ (-e).toNat
  | _ => false

theorem atMost_of_computed {x : Float} {bound : Nat} (h : atMost x bound = true) :
    AtMost x bound := by
  rw [atMost] at h
  split at h
  · next s m e hm unpacked =>
    simp only [Bool.and_eq_true, decide_eq_true_eq, and_assoc] at h
    obtain ⟨lower, upper, low, le⟩ := h
    refine ⟨s, m, e, hm, unpacked, lower, upper, low, ?_⟩
    have cast : (m : ℚ) * 2 ^ e.toNat ≤ bound * 2 ^ (-e).toNat := by exact_mod_cast le
    rw [← Decimal.pow_toNat_mul_zpow two_ne_zero, mul_comm (2 ^ (-e).toNat), ← mul_assoc] at cast
    exact le_of_mul_le_mul_right cast (by positivity)
  · cases h

theorem power_le_largest {order : Nat} (small : order ≤ 308) :
    ((2 ^ 53 * 10 ^ order : Nat) : ℚ) * 2 ^ (-53 : Int) ≤ largest := by
  have value : ((2 ^ 53 * 10 ^ order : Nat) : ℚ) * 2 ^ (-53 : Int) = (10 ^ order : Nat) := by
    rw [Nat.cast_mul, mul_comm, ← mul_assoc]
    norm_num
  have below : 10 ^ order ≤ largest :=
    Nat.le_trans (Nat.pow_le_pow_right (by decide) small) (by decide +kernel)
  rw [value]
  exact_mod_cast below

/-- A power of ten is at most doubled by rounding. -/
theorem atMost_power {order : Nat} (small : order ≤ 308) :
    AtMost (power order) (2 * 10 ^ order) := by
  by_cases low : order < 23
  · have computed : ∀ order < 23, atMost (power order) (2 * 10 ^ order) = true := by
      decide +kernel
    exact_mod_cast atMost_of_computed (computed order low)
  have model : (power order).toModel =
      .pack (roundWithAccuracy .binary64 .positive (2 ^ 53 * 10 ^ order) (-53) .exact) := by
    have unfolded : power order = Float.ofScientific 1 false order := rfl
    have scientific : UnpackedFloat.ofScientific .binary64 1 (Int.ofNat order) =
        roundWithAccuracy .binary64 .positive (2 ^ 53 * 10 ^ order) (-53) .exact := by
      have bits : Format.binary64.exponentBits = 11 := rfl
      have nonneg : (0 : Int) ≤ Int.ofNat order := Int.natCast_nonneg order
      have few : Int.ofNat order ≤ 308 := Int.ofNat_le.mpr small
      rw [UnpackedFloat.ofScientific, dif_neg (by decide), bits, if_neg (by omega),
        if_neg (by omega), if_pos nonneg]
      rfl
    rw [unfolded, Float.ofScientific, dif_neg (by omega), ← scientific]
    rfl
  have wide : 53 ≤ (2 ^ 53 * 10 ^ order).log2 := by
    have pos := Nat.pow_pos (n := order) (show 0 < 10 by decide)
    exact (Nat.le_log2 (by omega)).mpr (by omega)
  obtain ⟨t, m, d, h, unpacked, lower, upper, shift, near⟩ :=
    unpack_rounded .positive (Nat.le_of_succ_le wide) (by omega) (power_le_largest small)
  have unit : 2 ^ ((2 ^ 53 * 10 ^ order).log2 - 52) ≤ 2 ^ 53 * 10 ^ order := by
    refine Nat.le_trans (Nat.pow_le_pow_right (by decide) (Nat.sub_le _ _)) (Nat.log2_self_le ?_)
    positivity
  have bound : 2 * (m * 2 ^ d) ≤ 3 * (2 ^ 53 * 10 ^ order) := by omega
  rw [← model] at unpacked
  refine ⟨t, m, _, h, unpacked, lower, upper, by omega, ?_⟩
  have cast : 2 * ((m : ℚ) * 2 ^ d) ≤ 3 * (2 ^ 53 * 10 ^ order) := by exact_mod_cast bound
  have tens : (0 : ℚ) < 10 ^ order := by positivity
  rw [zpow_add₀ two_ne_zero, zpow_natCast, zpow_neg, mul_left_comm, ← div_eq_inv_mul,
    div_le_iff₀ (by positivity)]
  norm_cast at cast ⊢
  omega

/-- The middle between the two largest floats. -/
def lastMiddle : Nat :=
  (2 ^ 54 - 3) * 2 ^ 970

theorem ceiling_le (n : Nat) : ceiling n ≤ n + 8 := by
  rw [ceiling]
  split
  · omega
  split <;> omega

theorem ceiling_mono {n m : Nat} (h : n ≤ m) : ceiling n ≤ ceiling m := by
  rw [ceiling, ceiling]
  split_ifs <;> omega

/-- Up to the middle between the two largest floats, a number of at most 17 digits can be scaled by
a power of ten. In the last orders of magnitude it takes the powers themselves to tell. -/
theorem isInf_scaled {n order : Nat} (pos : 0 < n) (few : n ≤ 10 ^ 17) (small : order ≤ 308)
    (reach : n * 10 ^ order ≤ lastMiddle) :
    ((UInt64.ofNat n).toFloat * power order).isInf = false := by
  have whole := atMost_toFloat pos (Nat.lt_of_le_of_lt few (by decide))
  rcases Nat.lt_or_ge order 291 with low | high
  · refine whole.isInf_mul (atMost_power small) ?_
    have tens : ∀ k < 291, (10 ^ 17 + 8) * (2 * 10 ^ k) ≤ largest := by decide +kernel
    have bound : ceiling n * (2 * 10 ^ order) ≤ largest := calc
      ceiling n * (2 * 10 ^ order) ≤ (10 ^ 17 + 8) * (2 * 10 ^ order) :=
        Nat.mul_le_mul_right _ ((ceiling_le n).trans (by omega))
      _ ≤ largest := tens order low
    exact_mod_cast bound
  · let most := ceiling (min (10 ^ 17) (lastMiddle / 10 ^ order))
    have computed : ∀ k < 18, atMost (power (291 + k))
        (largest / ceiling (min (10 ^ 17) (lastMiddle / 10 ^ (291 + k)))) = true := by
      decide +kernel
    have scaled := computed (order - 291) (by omega)
    rw [Nat.add_sub_cancel' high] at scaled
    refine whole.isInf_mul (atMost_of_computed scaled) ?_
    have within : n ≤ min (10 ^ 17) (lastMiddle / 10 ^ order) :=
      le_min few ((Nat.le_div_iff_mul_le (by positivity)).mpr reach)
    have bound : ceiling n * (largest / most) ≤ largest := calc
      ceiling n * (largest / most) ≤ most * (largest / most) :=
        Nat.mul_le_mul_right _ (ceiling_mono within)
      _ ≤ largest := Nat.mul_div_le _ _
    exact_mod_cast bound

/-- The digits of the largest float can be scaled as well. -/
theorem isInf_scaled_largest :
    ((UInt64.ofNat 17976931348623157).toFloat * power 292).isInf = false := by
  decide +kernel

end ObjectVault.Number
