import ObjectVault.Archive.Access

namespace ObjectVault

namespace Aes

theorem length_fours (key : Bytes) : (fours key).length = key.length / 4 := by
  fun_induction fours key with
  | case1 a b c d rest ih =>
    simp only [List.length_cons, ih]
    omega
  | case2 short other =>
    match short with
    | [] | [_] | [_, _] | [_, _, _] => simp
    | a :: b :: c :: d :: rest => exact absurd rfl (other a b c d rest)

theorem length_of_mem_fours {key word : Bytes} (h : word ∈ fours key) : word.length = 4 := by
  fun_induction fours key with
  | case1 a b c d rest ih =>
    rcases List.mem_cons.mp h with rfl | h
    · rfl
    · exact ih h
  | case2 => cases h

theorem length_nextWord {last back : Bytes} (h : last.length = 4) (h' : back.length = 4) (i : Nat)
    (constant : UInt8) : (nextWord last back i constant).length = 4 := by
  unfold nextWord
  rw [List.length_zipWith, h']
  split
  · split
    · rfl
    · simp [h]
  · split
    · simp [h]
    · simp [h]

/-- The first words of a key schedule, all of them of four bytes. -/
structure Schedule (ws : Array Bytes) (count : Nat) : Prop where
  size : ws.size = count
  words : ∀ word ∈ ws, word.length = 4

variable {ws : Array Bytes} {count : Nat}

theorem Schedule.length_getD (h : Schedule ws count) {i : Nat} (inside : i < count) :
    (ws.getD i []).length = 4 := by
  have inside' : i < ws.size := h.size.symm ▸ inside
  rw [Array.getD_eq_getD_getElem?, Array.getElem?_eq_getElem inside', Option.getD_some]
  exact h.words _ (Array.getElem_mem inside')

theorem Schedule.push (h : Schedule ws count) {word : Bytes} (size : word.length = 4) :
    Schedule (ws.push word) (count + 1) := by
  constructor
  · simp [h.size]
  · intro other mem
    rcases Array.mem_push.mp mem with mem | rfl
    · exact h.words other mem
    · exact size

/-- From eight words on a schedule is extended by whole words, as no word that is looked for is
missing. -/
theorem Schedule.extend (h : Schedule ws count) (enough : 8 ≤ count) (more : Nat)
    (constant : UInt8) : Schedule (extend more count constant ws) (count + more) := by
  induction more generalizing ws count constant with
  | zero => exact h
  | succ more ih =>
    have last := h.length_getD (i := count - 1) (by omega)
    have back := h.length_getD (i := count - 8) (by omega)
    have longer := h.push (length_nextWord last back count constant)
    unfold Aes.extend
    rw [Nat.add_comm more, ← Nat.add_assoc]
    apply ih longer
    omega

theorem schedule_fours {key : Bytes} (size : key.length = 32) :
    Schedule (fours key).toArray 8 := by
  constructor
  · simp [length_fours, size]
  · intro word mem
    exact length_of_mem_fours (List.mem_toArray.mp mem)

theorem size_of_mem_roundKeys {key : Bytes} (size : key.length = 32) {round : Array UInt8}
    (h : round ∈ roundKeys key) : round.size = 16 := by
  have all := (schedule_fours size).extend (Nat.le_refl 8) 52 1
  obtain ⟨r, mem, rfl⟩ := List.mem_map.mp h
  have inside : r < 15 := List.mem_range.mp mem
  have word (i : Nat) (small : i < 4) := all.length_getD (i := 4 * r + i) (by omega)
  have four : List.range 4 = [0, 1, 2, 3] := rfl
  simp only [four, List.flatMap_cons, List.flatMap_nil, List.size_toArray, List.length_append,
    List.length_nil, word 0 (by omega), word 1 (by omega), word 2 (by omega), word 3 (by omega)]

end Aes

namespace SealKey

/-- A key that was made of thirty-two bytes and has a whole block for each of its rounds. -/
structure Whole (key : SealKey) : Prop where
  origin : ∃ bytes : Bytes, bytes.length = 32 ∧ key = .ofBytes bytes
  rounds : key.rounds.length = 15
  blocks : ∀ round ∈ key.rounds, round.size = 16

theorem whole_ofBytes {bytes : Bytes} (size : bytes.length = 32) : (ofBytes bytes).Whole where
  origin := ⟨bytes, size, rfl⟩
  rounds := by simp [ofBytes, Aes.roundKeys]
  blocks _ mem := Aes.size_of_mem_roundKeys size mem

end SealKey

/-- A password gives a whole key under each header of at least one iteration. -/
theorem Access.exists_ofHeader (password : String) {header : KeyHeader}
    (counts : header.iterations ≠ 0) :
    ∃ key, Access.ofHeader password header = .unlocked key ∧ key.Whole := by
  refine ⟨_, if_neg counts, ?_⟩
  apply SealKey.whole_ofBytes
  apply length_deriveKey

end ObjectVault
