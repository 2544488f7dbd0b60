import ObjectVault.Proofs.Grammar

namespace ObjectVault.Json

/-- What a value can be read from when its first character is no space: how it begins, what is read
of it by the parts of the reader, and what is left. -/
inductive ValueRead (fuel : Nat) : List Char → Json → List Char → Prop
  | string {inner rest : List Char} {ps : List Piece} {j : Json}
    (read : readString inner = some (ps, rest)) : ValueRead fuel ('"' :: inner) j rest
  | noItems {inner rest : List Char} (close : skipSpace inner = ']' :: rest) :
    ValueRead fuel ('[' :: inner) (.array []) rest
  | items {inner rest : List Char} {js : List Json} (unclosed : (skipSpace inner).head? ≠ some ']')
    (read : readItems fuel inner = some (js, rest)) : ValueRead fuel ('[' :: inner) (.array js) rest
  | noFields {inner rest : List Char} (close : skipSpace inner = '\x7d' :: rest) :
    ValueRead fuel ('\x7b' :: inner) (.object []) rest
  | fields {inner rest : List Char} {fs : Option (List (String × Json))} {j : Json}
    (read : readFields fuel inner = some (fs, rest)) : ValueRead fuel ('\x7b' :: inner) j rest
  | null (rest : List Char) : ValueRead fuel ('n' :: 'u' :: 'l' :: 'l' :: rest) .null rest
  | yes (rest : List Char) : ValueRead fuel ('t' :: 'r' :: 'u' :: 'e' :: rest) (.bool true) rest
  | no (rest : List Char) :
    ValueRead fuel ('f' :: 'a' :: 'l' :: 's' :: 'e' :: rest) (.bool false) rest
  | number {cs rest : List Char} {j : Json} (read : readNumber cs = some (j, rest)) :
    ValueRead fuel cs j rest

theorem readValue_cases {fuel : Nat} {cs rest : List Char} {j : Json}
    (h : readValue (fuel + 1) cs = some (j, rest)) : ValueRead fuel (skipSpace cs) j rest := by
  rw [readValue] at h
  generalize skipSpace cs = ts at h ⊢
  split at h
  · next inner _ =>
    obtain ⟨⟨ps, left⟩, read, made⟩ := Option.map_eq_some_iff.mp h
    dsimp only at made
    split at made <;> cases made <;> exact .string read
  · next inner _ =>
    split at h
    · next close =>
      cases h
      exact .noItems close
    · next other =>
      obtain ⟨⟨js, left⟩, read, made⟩ := Option.map_eq_some_iff.mp h
      cases made
      refine .items (fun head => ?_) read
      obtain ⟨rest', eq⟩ := List.head?_eq_some_iff.mp head
      exact other _ eq
  · next inner _ =>
    split at h
    · next close =>
      cases h
      exact .noFields close
    · obtain ⟨⟨fs, left⟩, read, made⟩ := Option.map_eq_some_iff.mp h
      dsimp only at made
      split at made <;> cases made <;> exact .fields read
  · cases h
    exact .null _
  · cases h
    exact .yes _
  · cases h
    exact .no _
  · exact .number h

/-- Items are read one by one, up to a comma or the bracket. -/
theorem readItems_cases {fuel : Nat} {cs rest : List Char} {js : List Json}
    (h : readItems (fuel + 1) cs = some (js, rest)) :
    ∃ j left, readValue fuel cs = some (j, left) ∧
      ((∃ next js', skipSpace left = ',' :: next ∧ readItems fuel next = some (js', rest) ∧
        js = j :: js') ∨ (skipSpace left = ']' :: rest ∧ js = [j])) := by
  rw [readItems] at h
  split at h
  · cases h
  · next j left read =>
    refine ⟨j, left, read, ?_⟩
    split at h
    · next next comma =>
      obtain ⟨⟨js', left'⟩, others, made⟩ := Option.map_eq_some_iff.mp h
      cases made
      exact .inl ⟨next, js', comma, others, rfl⟩
    · next close =>
      cases h
      exact .inr ⟨close, rfl⟩
    · cases h

/-- Fields are read one by one, each with a string, a colon and a value, up to a comma or the
brace. -/
theorem readFields_cases {fuel : Nat} {cs rest : List Char} {fs : Option (List (String × Json))}
    (h : readFields (fuel + 1) cs = some (fs, rest)) :
    ∃ inner ps named value j left, skipSpace cs = '"' :: inner ∧
      readString inner = some (ps, named) ∧ skipSpace named = ':' :: value ∧
      readValue fuel value = some (j, left) ∧
      ((∃ next fs', skipSpace left = ',' :: next ∧ readFields fuel next = some (fs', rest)) ∨
        skipSpace left = '\x7d' :: rest) := by
  rw [readFields] at h
  split at h
  · next inner quote =>
    split at h
    · cases h
    · next ps named key =>
      split at h
      · next value colon =>
        split at h
        · cases h
        · next j left read =>
          refine ⟨inner, ps, named, value, j, left, quote, key, colon, read, ?_⟩
          dsimp only at h
          split at h
          · next next comma =>
            obtain ⟨⟨fs', left'⟩, others, made⟩ := Option.map_eq_some_iff.mp h
            cases made
            exact .inl ⟨next, fs', comma, others⟩
          · next close =>
            cases h
            exact .inr close
          · cases h
      · cases h
  · cases h

/-- Without quotes there are no fields. -/
theorem readFields_eq_none {cs : List Char} (plain : '"' ∉ cs) (fuel : Nat) :
    readFields fuel cs = none := by
  cases fuel with
  | zero => rfl
  | succ fuel =>
    refine Option.eq_none_iff_forall_ne_some.mpr fun ⟨fs, rest⟩ read => ?_
    obtain ⟨inner, ps, named, value, j, left, quote, -⟩ := readFields_cases read
    refine plain ((List.dropWhile_sublist isSpace).mem ?_)
    rw [← skipSpace, quote]
    exact List.mem_cons_self

theorem readNumber_eq_cons {cs rest : List Char} {j : Json}
    (h : readNumber cs = some (j, rest)) :
    ∃ c behind, cs = c :: behind ∧ (c = '-' ∨ c.isDigit = true) := by
  cases cs with
  | nil => cases h
  | cons c behind =>
    refine ⟨c, behind, rfl, ?_⟩
    by_contra other
    rw [not_or, Bool.not_eq_true] at other
    rw [readNumber, readUnsigned] at h
    · simp [other.2] at h
    · exact fun _ eq => other.1 (List.cons.inj eq).1

theorem readValue_skipSpace (fuel : Nat) (cs : List Char) :
    readValue fuel (skipSpace cs) = readValue fuel cs := by
  conv_rhs => rw [← List.takeWhile_append_dropWhile (p := isSpace) (l := cs)]
  exact (readValue_gap (fun c mem => List.mem_takeWhile_imp mem) fuel _).symm

/-- What is left of a text behind characters that are no quotes. -/
def Skips (cs rest : List Char) : Prop :=
  ∃ text, cs = text ++ rest ∧ '"' ∉ text

theorem Skips.refl (cs : List Char) : Skips cs cs :=
  ⟨[], rfl, List.not_mem_nil⟩

theorem Skips.trans {as bs cs : List Char} (first : Skips as bs) (second : Skips bs cs) :
    Skips as cs := by
  obtain ⟨text, rfl, plain⟩ := first
  obtain ⟨text', rfl, plain'⟩ := second
  exact ⟨text ++ text', (List.append_assoc ..).symm, by simp [plain, plain']⟩

theorem Skips.not_mem {cs rest : List Char} (h : Skips cs rest) (plain : '"' ∉ cs) :
    '"' ∉ rest := by
  obtain ⟨text, rfl, -⟩ := h
  exact fun mem => plain (List.mem_append_right _ mem)

theorem skips_cons {c : Char} (plain : c ≠ '"') (cs : List Char) : Skips (c :: cs) cs :=
  ⟨[c], rfl, by simpa using Ne.symm plain⟩

theorem skips_dropWhile {p : Char → Bool} (plain : p '"' = false) (cs : List Char) :
    Skips cs (cs.dropWhile p) := by
  refine ⟨cs.takeWhile p, List.takeWhile_append_dropWhile.symm, fun mem => ?_⟩
  rw [List.mem_takeWhile_imp mem] at plain
  cases plain

theorem skips_skipSpace (cs : List Char) : Skips cs (skipSpace cs) :=
  skips_dropWhile (by decide) cs

theorem Skips.token {cs left rest : List Char} (h : Skips cs left) {c : Char} (plain : c ≠ '"')
    (next : skipSpace left = c :: rest) : Skips cs rest := by
  have start := h.trans (skips_skipSpace left)
  rw [next] at start
  exact start.trans (skips_cons plain rest)

theorem skips_fractionPart {cs rest : List Char} {fraction : Option (List Char)}
    (h : fractionPart cs = some (fraction, rest)) : Skips cs rest := by
  unfold fractionPart at h
  split at h
  · dsimp only at h
    split at h
    · cases h
    · cases h
      exact (skips_cons (by decide) _).trans (skips_dropWhile (by decide) _)
  · cases h
    exact .refl cs

theorem skips_signPart (cs : List Char) : Skips cs (signPart cs).2 := by
  unfold signPart
  split
  · exact skips_cons (by decide) _
  · exact skips_cons (by decide) _
  · exact .refl cs

theorem skips_exponentPart {cs rest : List Char} {n : Int}
    (h : exponentPart cs = some (n, rest)) : Skips cs rest := by
  unfold exponentPart at h
  dsimp only at h
  split at h
  · cases h
  · cases h
    exact (skips_signPart cs).trans (skips_dropWhile (by decide) _)

theorem skips_markedPart {cs rest : List Char} {exponent : Option Int}
    (h : markedPart cs = some (exponent, rest)) : Skips cs rest := by
  unfold markedPart at h
  split at h
  · next c digits =>
    split at h
    · next mark =>
      obtain ⟨⟨n, left⟩, own, made⟩ := Option.map_eq_some_iff.mp h
      cases made
      refine (skips_cons ?_ digits).trans (skips_exponentPart own)
      rintro rfl
      exact absurd mark (by decide)
    · cases h
      exact .refl _
  · cases h
    exact .refl []

theorem skips_readUnsigned {cs rest : List Char} {negative : Bool} {j : Json}
    (h : readUnsigned negative cs = some (j, rest)) : Skips cs rest := by
  unfold readUnsigned at h
  dsimp only at h
  split at h
  · cases h
  · obtain ⟨⟨fraction, behind⟩, point, others⟩ := Option.bind_eq_some_iff.mp h
    obtain ⟨⟨exponent, left⟩, mark, made⟩ := Option.bind_eq_some_iff.mp others
    cases made
    exact ((skips_dropWhile (by decide) cs).trans (skips_fractionPart point)).trans
      (skips_markedPart mark)

/-- A number has no quotes. -/
theorem skips_readNumber {cs rest : List Char} {j : Json}
    (h : readNumber cs = some (j, rest)) : Skips cs rest := by
  unfold readNumber at h
  split at h
  · exact (skips_cons (by decide) _).trans (skips_readUnsigned h)
  · exact skips_readUnsigned h

end ObjectVault.Json
