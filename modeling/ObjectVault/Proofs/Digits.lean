import ObjectVault.Bytes
import ObjectVault.Decimal.Shortest
import Mathlib

namespace ObjectVault.Decimal

/-- Of a power and its inverse, the one that is whole. -/
theorem pow_toNat_mul_zpow {b : ℚ} (nonzero : b ≠ 0) (k : Int) :
    b ^ (-k).toNat * b ^ k = b ^ k.toNat := by
  rw [← zpow_natCast, ← zpow_natCast, ← zpow_add₀ nonzero]
  congr 1
  omega

/-- A positive number lies between the powers of ten that its number of digits tells. -/
theorem length_natDigits {n : Nat} (pos : 0 < n) :
    ∃ k, (natDigits n).length = k + 1 ∧ 10 ^ k ≤ n ∧ n < 10 ^ (k + 1) := by
  rw [natDigits]
  split
  · next small => exact ⟨0, rfl, pos, small⟩
  · next large =>
    obtain ⟨k, length, lower, upper⟩ := length_natDigits (n := n / 10) (by omega)
    refine ⟨k + 1, by rw [List.length_append, length, List.length_singleton], ?_, ?_⟩
    · rw [Nat.pow_succ]
      omega
    · rw [Nat.pow_succ]
      omega
termination_by n
decreasing_by omega

/-- A row of digits continues the number that stands in front of it. -/
theorem foldl_digits (n : Nat) (cs : List Char) :
    cs.foldl (fun n c => 10 * n + digitValue c) n = n * 10 ^ cs.length + ofDigits cs := by
  induction cs generalizing n with
  | nil => simp [ofDigits]
  | cons c cs ih =>
    have first := ih (10 * 0 + digitValue c)
    rw [ofDigits, List.foldl_cons, ih, List.foldl_cons, first, List.length_cons, Nat.pow_succ]
    ring

theorem ofDigits_append (cs ds : List Char) :
    ofDigits (cs ++ ds) = ofDigits cs * 10 ^ ds.length + ofDigits ds := by
  have continued := foldl_digits (ofDigits cs) ds
  rwa [ofDigits, ← List.foldl_append] at continued

theorem ofDigits_zeros (k : Nat) : ofDigits (List.replicate k '0') = 0 := by
  induction k with
  | zero => rfl
  | succ k ih =>
    have zero : ofDigits ['0'] = 0 := rfl
    rw [List.replicate_succ', ofDigits_append, ih, zero, Nat.zero_mul]

theorem digitValue_of_digit {c : Char} (digit : c.isDigit = true) :
    digitValue c ≤ 9 ∧ (c ≠ '0' → 0 < digitValue c) := by
  have range : 48 ≤ c.toNat ∧ c.toNat ≤ 57 := by
    simpa [Char.isDigit, UInt32.le_iff_toNat_le] using digit
  rw [digitValue]
  refine ⟨by omega, fun other => ?_⟩
  have value : c.toNat ≠ 48 := fun eq => other (Char.toNat_inj.mp eq)
  omega

theorem ofDigits_cons (c : Char) (cs : List Char) :
    ofDigits (c :: cs) = digitValue c * 10 ^ cs.length + ofDigits cs := by
  rw [← List.singleton_append, ofDigits_append]
  simp [ofDigits]

theorem ofDigits_lt {cs : List Char} (digits : ∀ c ∈ cs, c.isDigit = true) :
    ofDigits cs < 10 ^ cs.length := by
  induction cs with
  | nil => decide
  | cons c cs ih =>
    obtain ⟨first, others⟩ := List.forall_mem_cons.mp digits
    have below := ih others
    have most := Nat.mul_le_mul_right (10 ^ cs.length) (digitValue_of_digit first).1
    rw [ofDigits_cons, List.length_cons, Nat.pow_succ]
    omega

/-- The digits of a number without the zeros at the end, and how many zeros there are. -/
theorem significand_spec {x : Scaled} (pos : 0 < x.digits) :
    ∃ d places, ∃ k : Nat, x.significand = (d :: places, places.length + 1 + k + x.exponent) ∧
      (∀ c ∈ d :: places, c.isDigit = true) ∧ d ≠ '0' ∧
      x.digits = ofDigits (d :: places) * 10 ^ k := by
  let zero (c : Char) := c == '0'
  obtain ⟨all, own⟩ : ∃ all, all = natDigits x.digits := ⟨_, rfl⟩
  obtain ⟨k, zeros⟩ : ∃ k, all.reverse.takeWhile zero = List.replicate k '0' :=
    ⟨_, List.eq_replicate_of_mem fun c mem => by simpa [zero] using List.mem_takeWhile_imp mem⟩
  have split : all = (all.reverse.dropWhile zero).reverse ++ List.replicate k '0' := by
    have parts := congrArg List.reverse
      (List.takeWhile_append_dropWhile (p := zero) (l := all.reverse))
    rw [List.reverse_append, List.reverse_reverse, zeros, List.reverse_replicate] at parts
    exact parts.symm
  have value : x.digits = ofDigits (all.reverse.dropWhile zero).reverse * 10 ^ k := by
    have read := ofDigits_natDigits x.digits
    rw [← own, split, ofDigits_append, ofDigits_zeros,
      List.length_replicate, Nat.add_zero] at read
    exact read.symm
  have nonempty : (all.reverse.dropWhile zero).reverse ≠ [] := by
    intro empty
    rw [empty] at value
    simp [ofDigits] at value
    omega
  have stripped : x.significand =
      ((all.reverse.dropWhile zero).reverse, all.length + x.exponent) := by
    rw [own]
    rfl
  have length := congrArg List.length split
  rw [List.length_append, List.length_replicate] at length
  generalize (all.reverse.dropWhile zero).reverse = digits at split value nonempty stripped length
  obtain ⟨d, places, rfl⟩ := List.exists_cons_of_ne_nil nonempty
  refine ⟨d, places, k, ?_, ?_, ?_, value⟩
  · rw [stripped, length, List.length_cons]
    push_cast
    rfl
  · intro c mem
    refine isDigit_natDigits (n := x.digits) ?_
    rw [← own, split]
    exact List.mem_append_left _ mem
  · rintro rfl
    have leading := head?_natDigits (n := x.digits)
      (by rw [← own, split]; rfl)
    omega

end ObjectVault.Decimal

namespace ObjectVault.Bytes

/-- A number is read back from its bytes as far as so many bytes can hold it. -/
theorem ofLittleEndian_littleEndian (count n : Nat) :
    ofLittleEndian (littleEndian count n) = n % 256 ^ count := by
  induction count generalizing n with
  | zero => simp [littleEndian, ofLittleEndian, Nat.mod_one]
  | succ count ih =>
    have low : (UInt8.ofNat (n % 256)).toNat = n % 256 := by simp
    rw [littleEndian, ofLittleEndian, ih, low, Nat.pow_succ', Nat.mod_mul]

/-- The same with the most significant byte first. -/
theorem ofBigEndian_bigEndian (count n : Nat) :
    ofBigEndian (bigEndian count n) = n % 256 ^ count := by
  rw [ofBigEndian, bigEndian, List.reverse_reverse, ofLittleEndian_littleEndian]

end ObjectVault.Bytes
