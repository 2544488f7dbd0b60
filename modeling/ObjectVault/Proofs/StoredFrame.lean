import ObjectVault.Proofs.Digits
import ObjectVault.Zstd.Frame

namespace ObjectVault.Zstd

/-- The three bytes in front of a stored block: its size, and whether it is the last one. -/
theorem ofLittleEndian_blockHead {size last : Nat} (hs : size ≤ maxBlock) (hl : last ≤ 1)
    (rest : Bytes) :
    Bytes.ofLittleEndian ((Bytes.littleEndian 3 (8 * size + last) ++ rest).take 3) =
      8 * size + last := by
  have limit : maxBlock = 131072 := rfl
  rw [List.take_left' (Bytes.length_littleEndian ..), Bytes.ofLittleEndian_littleEndian]
  exact Nat.mod_eq_of_lt (by omega)

theorem length_le_storedBlocks (fuel : Nat) (bytes : Bytes) (hf : bytes.length < fuel) :
    bytes.length ≤ (storedBlocks fuel bytes).length := by
  induction fuel generalizing bytes with
  | zero => omega
  | succ fuel ih =>
    by_cases h : bytes.length ≤ maxBlock
    · simp only [storedBlocks, h, ↓reduceIte, Nat.min_eq_left, List.take_length]
      simp
    · have limit : maxBlock = 131072 := rfl
      have rest := ih (bytes.drop maxBlock) (by rw [List.length_drop]; omega)
      rw [List.length_drop] at rest
      simp only [storedBlocks, h, ↓reduceIte, Nat.min_eq_right (Nat.le_of_not_le h),
        List.length_append, List.length_take]
      simp only [Nat.zero_ne_one, ↓reduceIte]
      omega

theorem length_le_deflate (bytes : Bytes) : bytes.length ≤ (deflate bytes).length := by
  have blocks := length_le_storedBlocks (bytes.length + 1) bytes (Nat.lt_succ_self _)
  simp only [deflate, List.length_append]
  omega

theorem length_storedBlocks_le (fuel : Nat) (bytes : Bytes) :
    (storedBlocks fuel bytes).length ≤ 4 * bytes.length + 3 := by
  induction fuel generalizing bytes with
  | zero => exact Nat.zero_le _
  | succ fuel ih =>
    by_cases h : bytes.length ≤ maxBlock
    · simp only [storedBlocks, h, ↓reduceIte, List.length_append, Bytes.length_littleEndian,
        List.length_take, List.length_nil]
      omega
    · have limit : maxBlock = 131072 := rfl
      have rest := ih (bytes.drop maxBlock)
      rw [List.length_drop] at rest
      simp only [storedBlocks, h, ↓reduceIte, Nat.zero_ne_one, List.length_append,
        Bytes.length_littleEndian, List.length_take, Nat.min_eq_right (Nat.le_of_not_le h)]
      omega

/-- Storing bytes as they are takes no more than three further bytes for each. -/
theorem length_deflate_le (bytes : Bytes) : (deflate bytes).length ≤ 4 * bytes.length + 9 := by
  have blocks := length_storedBlocks_le (bytes.length + 1) bytes
  simp only [deflate, List.length_append]
  have front : magic.length = 4 := rfl
  simp only [front, List.length_cons, List.length_nil]
  omega

/-- One stored block adds its content to the output. -/
theorem decodeBlocks_block (header : FrameHeader) (limit : header.blockLimit = maxBlock)
    (unsized : header.contentSize = none) (fuel : Nat) (ctx : Context) {content : Bytes}
    (rest : Bytes) {last : Nat} (hs : content.length ≤ maxBlock) (hl : last ≤ 1) :
    decodeBlocks header (fuel + 1) ctx
        (Bytes.littleEndian 3 (8 * content.length + last) ++ content ++ rest) =
      if last = 1 then ({ ctx with output := ctx.output ++ content.toArray }, .ok rest)
      else decodeBlocks header fuel { ctx with output := ctx.output ++ content.toArray } rest := by
  have head := ofLittleEndian_blockHead hs hl (content ++ rest)
  have width : (Bytes.littleEndian 3 (8 * content.length + last)).length = 3 :=
    Bytes.length_littleEndian ..
  have behind : (Bytes.littleEndian 3 (8 * content.length + last) ++ (content ++ rest)).drop 3 =
      content ++ rest := List.drop_left' width
  have enough :
      ¬ (Bytes.littleEndian 3 (8 * content.length + last) ++ (content ++ rest)).length < 3 := by
    rw [List.length_append, width]; omega
  have kind : (8 * content.length + last) / 2 % 4 = 0 := by omega
  have size : (8 * content.length + last) / 8 = content.length := by omega
  have flag : (8 * content.length + last) % 2 = last := by omega
  rw [List.append_assoc, decodeBlocks, if_neg enough]
  simp only [head, behind, kind, size, flag, decodeBlock, limit, unsized]
  have fits : ¬ content.length + rest.length < content.length := by omega
  rcases Nat.le_one_iff_eq_zero_or_eq_one.mp hl with rfl | rfl
  · simp [fits, Nat.not_lt.mpr hs]
  · simp [fits, Nat.not_lt.mpr hs]

/-- Stored blocks give back their content, behind what was decoded before. -/
theorem decodeBlocks_storedBlocks (header : FrameHeader) (limit : header.blockLimit = maxBlock)
    (unsized : header.contentSize = none) (fuel more : Nat) (ctx : Context) (bytes rest : Bytes)
    (hf : bytes.length < fuel) (hm : fuel ≤ more) :
    ∃ ctx', decodeBlocks header more ctx (storedBlocks fuel bytes ++ rest) = (ctx', .ok rest) ∧
      ctx'.output.toList = ctx.output.toList ++ bytes := by
  induction fuel generalizing more ctx bytes with
  | zero => omega
  | succ fuel ih =>
    obtain ⟨more, rfl⟩ : ∃ m, more = m + 1 := ⟨more - 1, by omega⟩
    by_cases h : bytes.length ≤ maxBlock
    · have last := decodeBlocks_block header limit unsized more ctx rest h (Nat.le_refl 1)
      simp only [storedBlocks, h, ↓reduceIte, Nat.min_eq_left, List.take_length, List.append_nil]
      rw [last, if_pos rfl]
      exact ⟨_, rfl, by simp⟩
    · have positive : 0 < maxBlock := by decide
      have full : (bytes.take maxBlock).length = maxBlock := by rw [List.length_take]; omega
      have next := decodeBlocks_block header limit unsized more ctx
        (storedBlocks fuel (bytes.drop maxBlock) ++ rest) (Nat.le_of_eq full) (Nat.zero_le 1)
      rw [full] at next
      simp only [storedBlocks, h, ↓reduceIte, Nat.min_eq_right (Nat.le_of_not_le h),
        Nat.zero_ne_one]
      rw [List.append_assoc _ _ rest, next, if_neg Nat.zero_ne_one]
      obtain ⟨ctx', decoded, output⟩ := ih more
        { ctx with output := ctx.output ++ (bytes.take maxBlock).toArray } (bytes.drop maxBlock)
        (by rw [List.length_drop]; omega) (by omega)
      refine ⟨ctx', decoded, ?_⟩
      rw [output, Array.toList_append, List.append_assoc, List.take_append_drop]

/-- The header that stored contents have: a window of one block, no size and no hash. -/
theorem read_frameHeader (rest : Bytes) :
    FrameHeader.read ([0x00, 0x38] ++ rest) = .ok (⟨maxBlock, none, false⟩, rest) := by
  simp [FrameHeader.read, contentSizeWidth, windowSize, maxBlock, Bytes.ofLittleEndian]

/-- Compressed data gives back the content that it was made of, in front of what is behind it. -/
theorem inflate_deflate_append (bytes extra : Bytes) :
    ∃ fuel, inflate (deflate bytes ++ extra) =
      ⟨bytes ++ (inflateFrames fuel extra).bytes, (inflateFrames fuel extra).fault⟩ := by
  let blocks := storedBlocks (bytes.length + 1) bytes
  have enough : bytes.length ≤ blocks.length := length_le_storedBlocks _ _ (Nat.lt_succ_self _)
  obtain ⟨ctx, decoded, output⟩ := decodeBlocks_storedBlocks ⟨maxBlock, none, false⟩ rfl rfl
    (bytes.length + 1) ((blocks ++ extra).length + 1) .initial bytes extra (Nat.lt_succ_self _)
    (by rw [List.length_append]; omega)
  have frame : decodeFrame ([0x00, 0x38] ++ (blocks ++ extra)) = (bytes, .ok extra) := by
    simp only [decodeFrame, read_frameHeader]
    rw [show decodeBlocks _ _ _ (blocks ++ extra) = _ from decoded]
    simp [output, Context.initial, checkHash]
  have written : deflate bytes ++ extra = magic ++ ([0x00, 0x38] ++ (blocks ++ extra)) := by
    simp only [deflate, List.append_assoc]
    rfl
  have front : (magic ++ ([0x00, 0x38] ++ (blocks ++ extra))).take 4 = magic := List.take_left' rfl
  have behind : (magic ++ ([0x00, 0x38] ++ (blocks ++ extra))).drop 4 =
      [0x00, 0x38] ++ (blocks ++ extra) := List.drop_left' rfl
  rw [inflate, written, if_neg (by simp [magic]), inflateFrames, if_neg (by simp [magic])]
  simp only [front, behind, frame, ↓reduceIte]
  exact ⟨_, rfl⟩

end ObjectVault.Zstd
