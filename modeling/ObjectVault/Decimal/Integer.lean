namespace ObjectVault.Decimal

def digitChar (n : Nat) : Char :=
  Char.ofNat (48 + n)

def digitValue (c : Char) : Nat :=
  c.toNat - 48

/-- The digits of a number, with no zero in front. -/
def natDigits (n : Nat) : List Char :=
  if n < 10 then [digitChar n] else natDigits (n / 10) ++ [digitChar (n % 10)]

/-- The number that a row of digits stands for. -/
def ofDigits (cs : List Char) : Nat :=
  cs.foldl (fun n c => 10 * n + digitValue c) 0

def intChars : Int → List Char
  | .ofNat n => natDigits n
  | .negSucc n => '-' :: natDigits (n + 1)

def readDigits (cs : List Char) : Option Nat :=
  if cs.isEmpty || !cs.all Char.isDigit then none else some (ofDigits cs)

def readNat : List Char → Option Nat
  | '+' :: rest => readDigits rest
  | cs => readDigits cs

def readInt : List Char → Option Int
  | '-' :: rest => (readDigits rest).map fun n => -(n : Int)
  | cs => (readNat cs).map Int.ofNat

/-- Whether a signed 64-bit word holds the number. -/
def fitsInt64 (n : Int) : Bool :=
  Int64.minValue.toInt ≤ n && n ≤ Int64.maxValue.toInt

/-- A number that a signed 64-bit word holds. -/
def readInt64 (cs : List Char) : Option Int64 :=
  (readInt cs).bind fun n =>
    if fitsInt64 n then some (.ofInt n) else none

/-- A number that an unsigned 64-bit word holds. -/
def readUInt64 (cs : List Char) : Option UInt64 :=
  (readNat cs).bind fun n => if n < UInt64.size then some (.ofNat n) else none

theorem digitValue_digitChar {n : Nat} (h : n < 10) : digitValue (digitChar n) = n := by
  have all : ∀ d, d < 10 → digitValue (digitChar d) = d := by decide
  exact all n h

theorem isDigit_digitChar {n : Nat} (h : n < 10) : (digitChar n).isDigit = true := by
  have all : ∀ d, d < 10 → (digitChar d).isDigit = true := by decide
  exact all n h

theorem ofDigits_natDigits (n : Nat) : ofDigits (natDigits n) = n := by
  rw [natDigits]
  split
  · next h => simp [ofDigits, digitValue_digitChar h]
  · have ih := ofDigits_natDigits (n / 10)
    simp only [ofDigits, List.foldl_append, List.foldl_cons, List.foldl_nil] at ih ⊢
    rw [ih, digitValue_digitChar (by omega)]
    omega
termination_by n
decreasing_by omega

theorem isDigit_natDigits {n : Nat} {c : Char} (h : c ∈ natDigits n) : c.isDigit = true := by
  rw [natDigits] at h
  split at h
  · next small => rw [List.mem_singleton.mp h, isDigit_digitChar small]
  · rcases List.mem_append.mp h with h | h
    · exact isDigit_natDigits h
    · rw [List.mem_singleton.mp h, isDigit_digitChar (by omega)]
termination_by n
decreasing_by omega

theorem natDigits_ne_nil (n : Nat) : natDigits n ≠ [] := by
  rw [natDigits]
  split <;> simp

theorem natDigits_eq_cons (n : Nat) : ∃ d ds, natDigits n = d :: ds ∧ d.isDigit = true := by
  obtain ⟨d, ds, eq⟩ := List.exists_cons_of_ne_nil (natDigits_ne_nil n)
  exact ⟨d, ds, eq, isDigit_natDigits (n := n) (by rw [eq]; exact List.mem_cons_self)⟩

/-- Only the number zero begins with that digit. -/
theorem head?_natDigits {n : Nat} (h : (natDigits n).head? = some '0') : n = 0 := by
  rw [natDigits] at h
  split at h
  · next small =>
    have all : ∀ d, d < 10 → digitChar d = '0' → d = 0 := by decide
    exact all n small (by simpa using h)
  · obtain ⟨first, rest, eq⟩ := List.exists_cons_of_ne_nil (natDigits_ne_nil (n / 10))
    have zero := head?_natDigits (n := n / 10) (by rw [eq] at h ⊢; exact h)
    omega
termination_by n
decreasing_by omega

theorem readDigits_eq_some_iff {cs : List Char} {n : Nat} :
    readDigits cs = some n ↔ cs ≠ [] ∧ (∀ c ∈ cs, c.isDigit = true) ∧ ofDigits cs = n := by
  rw [readDigits]
  split
  · next refused =>
    simp only [Bool.or_eq_true, List.isEmpty_iff, Bool.not_eq_true'] at refused
    rcases refused with rfl | other
    · simp
    · have other : ¬ ∀ c ∈ cs, c.isDigit = true := by
        rw [← List.all_eq_true, other]
        exact Bool.false_ne_true
      simp [other]
  · next taken =>
    simp only [Bool.or_eq_true, List.isEmpty_iff, Bool.not_eq_true', not_or, Bool.not_eq_false,
      List.all_eq_true] at taken
    rw [Option.some.injEq, and_iff_right taken.1, and_iff_right taken.2]

theorem readDigits_natDigits (n : Nat) : readDigits (natDigits n) = some n :=
  readDigits_eq_some_iff.mpr
    ⟨natDigits_ne_nil n, fun _ => isDigit_natDigits, ofDigits_natDigits n⟩

end ObjectVault.Decimal
