import ObjectVault.Container.Header
import ObjectVault.Proofs.Digits

namespace ObjectVault.Container
open ObjectVault.Text

namespace Header

theorem length_octal (digits n : Nat) : (octal digits n).length = digits := by
  induction digits generalizing n with
  | zero => rfl
  | succ digits ih => simp [octal, ih]

theorem octal_digit {digits n : Nat} {b : UInt8} (h : b ∈ octal digits n) :
    48 ≤ b.toNat ∧ b.toNat < 56 := by
  induction digits generalizing n with
  | zero => cases h
  | succ digits ih =>
    rcases List.mem_append.mp h with h | h
    · exact ih h
    · have eq := List.mem_singleton.mp h
      have small : n % 8 < 8 := Nat.mod_lt n (by decide)
      have value : b.toNat = 48 + n % 8 := by
        rw [eq, UInt8.toNat_ofNat']
        exact Nat.mod_eq_of_lt (by omega)
      omega

/-- The characters of a row of octal digits. -/
def octalChars (digits n : Nat) : List Char :=
  (octal digits n).map fun b => Char.ofNat b.toNat

theorem octalChars_toNat {digits n : Nat} {c : Char} (h : c ∈ octalChars digits n) :
    48 ≤ c.toNat ∧ c.toNat < 56 := by
  obtain ⟨b, mem, rfl⟩ := List.mem_map.mp h
  obtain ⟨low, high⟩ := octal_digit mem
  have all : ∀ n, n < 56 → (Char.ofNat n).toNat = n := by decide
  rw [all _ high]
  exact ⟨low, high⟩

theorem ofOctalDigits_octalChars {digits : Nat} (positive : 0 < digits) (n : Nat) :
    ofOctalDigits (octalChars digits n) = some (n % 8 ^ digits) := by
  have shown : ∀ c ∈ octalChars digits n, isOctalDigit c = true := by
    intro c mem
    obtain ⟨low, high⟩ := octalChars_toNat mem
    have seven : '7'.toNat = 55 := rfl
    have zero : '0'.toNat = 48 := rfl
    simp only [isOctalDigit, Char.le_def, UInt32.le_iff_toNat_le, Bool.and_eq_true,
      decide_eq_true_eq]
    simp only [Char.toNat] at low high seven zero
    omega
  have nonempty : octalChars digits n ≠ [] := by
    intro empty
    have := congrArg List.length empty
    simp [octalChars, length_octal] at this
    omega
  have value : ∀ digits n, (octalChars digits n).foldl (fun n c => 8 * n + (c.toNat - 48)) 0 =
      n % 8 ^ digits := by
    intro digits
    induction digits with
    | zero => intro n; simp [octalChars, octal, Nat.mod_one]
    | succ digits ih =>
      intro n
      have all : ∀ d, d < 8 → (Char.ofNat (UInt8.ofNat (48 + d)).toNat).toNat - 48 = d := by decide
      have last : octalChars (digits + 1) n =
          octalChars digits (n / 8) ++ [Char.ofNat (UInt8.ofNat (48 + n % 8)).toNat] := by
        simp [octalChars, octal]
      rw [last, List.foldl_append, ih, List.foldl_cons, List.foldl_nil,
        all _ (Nat.mod_lt n (by decide)), Nat.pow_succ', Nat.mod_mul]
      omega
  rw [ofOctalDigits, if_neg, value]
  simpa [nonempty] using shown

/-- A row of octal digits that a zero ends is the number again, as far as its digits go. -/
theorem readOctal_octal {digits : Nat} (positive : 0 < digits) (n : Nat) :
    readOctal (octal digits n ++ [0]) = some (n % 8 ^ digits) := by
  have ended : upToZero (octal digits n ++ [0]) = octal digits n := by
    have nonzero : ∀ b ∈ octal digits n, (b != 0) = true := by
      intro b mem
      have low := (octal_digit mem).1
      have ne : b ≠ 0 := by
        intro eq
        rw [eq] at low
        exact absurd low (by decide)
      simpa using ne
    rw [upToZero, List.takeWhile_append_of_pos nonzero]
    simp
  have ascii : ∀ b ∈ octal digits n, b < 128 := by
    intro b mem
    have high := (octal_digit mem).2
    rw [UInt8.lt_iff_toNat_lt]
    exact Nat.lt_trans high (by decide)
  have trimmed : trim ((octal digits n).map fun b => Char.ofNat b.toNat) =
      octalChars digits n := by
    apply trim_of_no_blank
    intro c mem
    obtain ⟨low, high⟩ := octalChars_toNat mem
    simp [isBlank]
    omega
  rw [readOctal, ended, decodeUtf8_ascii ascii]
  simp only [String.toList_ofList, trimmed]
  rw [← ofOctalDigits_octalChars positive]
  split
  · next rest eq =>
    -- a plus sign is no octal digit
    have mem : '+' ∈ octalChars digits n := by rw [eq]; exact List.mem_cons_self
    exact absurd (octalChars_toNat mem).1 (by decide)
  · rfl

theorem readSize_sizeBytes {size : Nat} (fits : size < 2 ^ 64) :
    readSize (sizeBytes size) = some size := by
  by_cases small : size < 1 <<< 33
  · have shown : ∃ b rest, octal 11 size = b :: rest := List.exists_cons_of_length_pos (by
      rw [length_octal]; decide)
    obtain ⟨b, rest, eq⟩ := shown
    have high : b.toNat < 56 := (octal_digit (by rw [eq]; exact List.mem_cons_self)).2
    have plain : ¬ (octal 11 size ++ [0]).headD 0 ≥ 128 := by
      rw [eq, List.cons_append, List.headD_cons, ge_iff_le, UInt8.le_iff_toNat_le]
      exact Nat.not_le.mpr (Nat.lt_trans high (by decide))
    rw [sizeBytes, if_pos small, readSize, if_neg plain, readOctal_octal (by decide)]
    exact congrArg some (Nat.mod_eq_of_lt small)
  · have marked : ([128, 0, 0, 0] ++ Bytes.bigEndian 8 size : Bytes).headD 0 ≥ 128 := by
      simp
    rw [sizeBytes, if_neg small, readSize, if_pos marked]
    have behind : ([128, 0, 0, 0] ++ Bytes.bigEndian 8 size).drop 4 = Bytes.bigEndian 8 size :=
      List.drop_left' rfl
    rw [behind, Bytes.ofBigEndian_bigEndian]
    exact congrArg some (Nat.mod_eq_of_lt fits)

theorem length_sizeBytes (size : Nat) : (sizeBytes size).length = 12 := by
  rw [sizeBytes]
  split
  · simp [length_octal]
  · simp [Bytes.length_bigEndian]

theorem length_padded {width : Nat} {bytes : Bytes} (h : bytes.length ≤ width) :
    (padded width bytes).length = width := by
  simp [padded]
  omega

theorem length_front {name : Bytes} (fits : name.length ≤ Field.name.width) (size : Nat) :
    (front name size).length = Field.checksum.start := by
  have name : (padded Field.name.width name).length = 100 := length_padded fits
  simp [front, name, length_octal, length_sizeBytes, Field.checksum]

theorem byteSum_le (bytes : Bytes) : byteSum bytes ≤ 255 * bytes.length := by
  have general : ∀ n, bytes.foldl (fun sum b => sum + b.toNat) n ≤ n + 255 * bytes.length := by
    induction bytes with
    | nil => intro n; simp
    | cons b bytes ih =>
      intro n
      have := ih (n + b.toNat)
      have := b.toNat_lt
      simp only [List.foldl_cons, List.length_cons]
      omega
  simpa [byteSum] using general 0

theorem length_back : back.length = 356 := by
  apply length_padded
  rw [List.length_append, List.length_replicate]
  decide

theorem length_block {name : Bytes} (fits : name.length ≤ Field.name.width) (size : Nat) :
    (block name size).length = blockSize := by
  simp [block, length_front fits, length_octal, length_back, Field.checksum, blockSize]

end Header

/-- A field reads what stands at its place. -/
theorem Field.read_append {field : Field} {before within behind : Bytes}
    (start : before.length = field.start) (width : within.length = field.width) :
    field.read (before ++ (within ++ behind)) = within := by
  rw [Field.read, List.drop_left' start, List.take_left' width]

namespace Header
variable {name : Bytes} {size : Nat}

theorem read_checksum (fits : name.length ≤ Field.name.width) :
    Field.checksum.read (block name size) = octal 7 (headerSum (front name size) back) ++ [0] := by
  have parts : block name size =
      front name size ++ ((octal 7 (headerSum (front name size) back) ++ [0]) ++ back) := by
    simp [block]
  rw [parts]
  exact Field.read_append (length_front fits size) (by simp [length_octal, Field.checksum])

theorem read_size (fits : name.length ≤ Field.name.width) :
    Field.size.read (block name size) = sizeBytes size := by
  have parts : block name size =
      (padded Field.name.width name ++ octal 7 0o644 ++ List.replicate 17 0) ++
        (sizeBytes size ++ (octal 11 0 ++ [0] ++
          octal 7 (headerSum (front name size) back) ++ [0] ++ back)) := by
    simp [block, front]
  rw [parts]
  refine Field.read_append ?_ (length_sizeBytes size)
  simp only [List.length_append, length_padded fits, length_octal, List.length_replicate]
  rfl

theorem read_name (fits : name.length ≤ Field.name.width) :
    Field.name.read (block name size) = padded Field.name.width name := by
  have parts : block name size =
      [] ++ (padded Field.name.width name ++ (octal 7 0o644 ++ List.replicate 17 0 ++
        sizeBytes size ++ octal 11 0 ++ [0] ++
          octal 7 (headerSum (front name size) back) ++ [0] ++ back)) := by
    simp [block, front]
  rw [parts]
  exact Field.read_append rfl (length_padded fits)

/-- The fields behind the sum are the same in all headers. -/
theorem read_back (fits : name.length ≤ Field.name.width) {field : Field}
    (start : 156 ≤ field.start) :
    field.read (block name size) = (back.drop (field.start - 156)).take field.width := by
  have width : (front name size ++ octal 7 (headerSum (front name size) back) ++ [0]).length
      = 156 := by
    simp [length_front fits, length_octal, Field.checksum]
  rw [Field.read, block, List.drop_append, List.drop_of_length_le (by omega), List.nil_append,
    width]

theorem upToZero_padded (nonzero : 0 ∉ name) (width : Nat) :
    upToZero (padded width name) = name := by
  have kept : ∀ b ∈ name, (b != 0) = true := by
    intro b mem
    have ne : b ≠ 0 := fun eq => nonzero (eq ▸ mem)
    simpa using ne
  rw [upToZero, padded, List.takeWhile_append_of_pos kept]
  cases width - name.length with
  | zero => simp
  | succ n => simp [List.replicate_succ]

/-- A written header reads as an ordinary file of its name and size. -/
theorem ofBlock_block (fits : name.length ≤ Field.name.width) (nonzero : 0 ∉ name)
    (bounded : size < 2 ^ 64) :
    Header.ofBlock (block name size) = .ok ⟨name, size, 0, .extended⟩ := by
  let sum := headerSum (front name size) back
  have sumBound : sum < 8 ^ 7 := by
    have first := byteSum_le (front name size)
    have last := byteSum_le back
    rw [length_front fits] at first
    rw [length_back] at last
    have eq : sum = byteSum (front name size) + 8 * 32 + byteSum back := rfl
    have start : Field.checksum.start = 148 := rfl
    omega
  have sumRead : number "cksum" (Field.checksum.read (block name size)) readOctal = .ok sum := by
    rw [read_checksum fits, number, readOctal_octal (by decide), Nat.mod_eq_of_lt sumBound]
  have sizeRead : number "size" (Field.size.read (block name size)) readSize = .ok size := by
    rw [read_size fits, number, readSize_sizeBytes bounded]
  have before : (block name size).take Field.checksum.start = front name size := by
    rw [block, List.append_assoc, List.append_assoc, List.take_left' (length_front fits size)]
  have behind : (block name size).drop (Field.checksum.start + Field.checksum.width) = back := by
    rw [block]
    exact List.drop_left' (by simp [length_front fits, length_octal, Field.checksum])
  have format : Format.ofBlock (block name size) = .extended := by
    rw [Format.ofBlock, read_back fits (by decide)]
    decide
  have kind : (Field.kind.read (block name size)).headD 0 = 0 := by
    rw [read_back fits (by decide)]
    decide
  have named : nameOf .extended (block name size) = name := by
    rw [nameOf, read_name fits, upToZero_padded nonzero]
    rfl
  rw [Header.ofBlock, sumRead]
  simp only [bind, Except.bind, pure, Except.pure, before, behind, sizeRead, format, kind, named]
  rw [if_neg (not_not_intro rfl)]

end Header
end ObjectVault.Container
