import ObjectVault.Proofs.ReaderSteps

namespace ObjectVault.Json

/-- The character, or a blank for any kind of space. -/
def evened (c : Char) : Char :=
  if isSpace c then ' ' else c

/-- Texts that differ in the kinds of their spaces at most. -/
def Alike (cs ds : List Char) : Prop :=
  cs.map evened = ds.map evened

theorem evened_token {c : Char} (token : isSpace c = false) : evened c = c := by
  simp [evened, token]

theorem isSpace_evened (c : Char) : isSpace (evened c) = isSpace c := by
  rw [evened]
  split
  · next space => rw [space]; decide
  · rfl

theorem eq_of_evened {c d : Char} (token : isSpace c = false) (h : evened d = c) : d = c := by
  rw [← h, isSpace_evened] at token
  rw [← h, evened_token token]

theorem Alike.symm {cs ds : List Char} (h : Alike cs ds) : Alike ds cs :=
  Eq.symm h

theorem Alike.cons {c : Char} (token : isSpace c = false) {cs ts : List Char}
    (h : Alike (c :: cs) ts) : ∃ ds, ts = c :: ds ∧ Alike cs ds := by
  cases ts with
  | nil => cases h
  | cons d ds =>
    obtain ⟨first, others⟩ := List.cons.inj h
    rw [evened_token token] at first
    exact ⟨ds, by rw [eq_of_evened token first.symm], others⟩

theorem isDigit_evened (c : Char) : (evened c).isDigit = c.isDigit := by
  rw [evened]
  split
  · next space =>
    simp only [isSpace, Bool.or_eq_true, beq_iff_eq, or_assoc] at space
    rcases space with rfl | rfl | rfl | rfl <;> decide
  · rfl

theorem dropWhile_evened {p : Char → Bool} (even : ∀ c, p (evened c) = p c) (cs : List Char) :
    (cs.map evened).dropWhile p = (cs.dropWhile p).map evened := by
  have same : p ∘ evened = p := funext even
  rw [List.dropWhile_map, same]

theorem digits_evened (cs : List Char) :
    (cs.map evened).takeWhile Char.isDigit = cs.takeWhile Char.isDigit := by
  have same : Char.isDigit ∘ evened = Char.isDigit := funext isDigit_evened
  rw [List.takeWhile_map, same]
  conv_rhs => rw [← List.map_id (cs.takeWhile Char.isDigit)]
  refine List.map_congr_left fun c mem => evened_token ?_
  exact (isSpace_of_digit (.inr (List.mem_takeWhile_imp mem))).1

theorem head?_evened {c : Char} (token : isSpace c = false) (cs : List Char) :
    (cs.map evened).head? = some c ↔ cs.head? = some c := by
  rw [List.head?_map, Option.map_eq_some_iff]
  constructor
  · rintro ⟨d, head, own⟩
    rw [head, eq_of_evened token own]
  · intro head
    exact ⟨c, head, evened_token token⟩

theorem fractionPart_evened (cs : List Char) :
    fractionPart (cs.map evened) =
      (fractionPart cs).map fun (digits, rest) => (digits, rest.map evened) := by
  have other : ∀ cs : List Char, cs.head? ≠ some '.' → fractionPart cs = some (none, cs) := by
    intro cs head
    rw [fractionPart]
    rintro rest rfl
    exact head rfl
  by_cases point : cs.head? = some '.'
  · obtain ⟨rest, rfl⟩ := List.head?_eq_some_iff.mp point
    rw [List.map_cons, evened_token (by decide), fractionPart, fractionPart, digits_evened,
      dropWhile_evened isDigit_evened]
    dsimp only
    split <;> rfl
  · rw [other cs point, other _ (mt (head?_evened (by decide) cs).mp point)]
    rfl

theorem signPart_evened (cs : List Char) :
    signPart (cs.map evened) = ((signPart cs).1, (signPart cs).2.map evened) := by
  have other : ∀ cs : List Char, cs.head? ≠ some '-' → cs.head? ≠ some '+' →
      signPart cs = (false, cs) := by
    intro cs minus plus
    rw [signPart]
    · rintro rest rfl
      exact minus rfl
    · rintro rest rfl
      exact plus rfl
  by_cases minus : cs.head? = some '-'
  · obtain ⟨rest, rfl⟩ := List.head?_eq_some_iff.mp minus
    rfl
  by_cases plus : cs.head? = some '+'
  · obtain ⟨rest, rfl⟩ := List.head?_eq_some_iff.mp plus
    rfl
  rw [other cs minus plus, other _ (mt (head?_evened (by decide) cs).mp minus)
    (mt (head?_evened (by decide) cs).mp plus)]

theorem exponentPart_evened (cs : List Char) :
    exponentPart (cs.map evened) =
      (exponentPart cs).map fun (n, rest) => (n, rest.map evened) := by
  rw [exponentPart, exponentPart, signPart_evened]
  dsimp only
  rw [digits_evened, dropWhile_evened isDigit_evened]
  split <;> rfl

theorem markedPart_evened (cs : List Char) :
    markedPart (cs.map evened) =
      (markedPart cs).map fun (exponent, rest) => (exponent, rest.map evened) := by
  cases cs with
  | nil => rfl
  | cons c cs =>
    have mark : ∀ d : Char, isSpace d = false → ((evened c == d) = (c == d)) := by
      intro d token
      rw [Bool.eq_iff_iff, beq_iff_eq, beq_iff_eq]
      constructor
      · exact eq_of_evened token
      · rintro rfl
        exact evened_token token
    rw [List.map_cons, markedPart, markedPart, mark 'e' (by decide), mark 'E' (by decide),
      exponentPart_evened]
    split
    · cases exponentPart cs <;> rfl
    · rfl

theorem readUnsigned_evened (negative : Bool) (cs : List Char) :
    readUnsigned negative (cs.map evened) =
      (readUnsigned negative cs).map fun (j, rest) => (j, rest.map evened) := by
  rw [readUnsigned, readUnsigned, digits_evened, dropWhile_evened isDigit_evened,
    fractionPart_evened]
  dsimp only
  split
  · rfl
  · cases fractionPart (cs.dropWhile Char.isDigit) with
    | none => rfl
    | some part =>
      obtain ⟨fraction, behind⟩ := part
      simp only [Option.map_some, bind, Option.bind_some, markedPart_evened]
      cases markedPart behind <;> rfl

theorem readNumber_evened (cs : List Char) :
    readNumber (cs.map evened) =
      (readNumber cs).map fun (j, rest) => (j, rest.map evened) := by
  have other : ∀ cs : List Char, cs.head? ≠ some '-' → readNumber cs = readUnsigned false cs := by
    intro cs head
    rw [readNumber]
    rintro rest rfl
    exact head rfl
  by_cases minus : cs.head? = some '-'
  · obtain ⟨rest, rfl⟩ := List.head?_eq_some_iff.mp minus
    exact readUnsigned_evened true rest
  · rw [other cs minus, other _ (mt (head?_evened (by decide) cs).mp minus), readUnsigned_evened]

theorem Alike.skipSpace {cs ds : List Char} (h : Alike cs ds) :
    Alike (skipSpace cs) (skipSpace ds) := by
  rw [Alike, Json.skipSpace, Json.skipSpace, ← dropWhile_evened isSpace_evened,
    ← dropWhile_evened isSpace_evened, h]

theorem Alike.token {c : Char} (token : isSpace c = false) {cs ds rest : List Char}
    (h : Alike cs ds) (next : Json.skipSpace cs = c :: rest) :
    ∃ rest', Json.skipSpace ds = c :: rest' ∧ Alike rest rest' := by
  have behind := h.skipSpace
  rw [next] at behind
  exact behind.cons token

theorem Alike.word {word : List Char} (token : ∀ c ∈ word, isSpace c = false)
    {rest ts : List Char} (h : Alike (word ++ rest) ts) :
    ∃ rest', ts = word ++ rest' ∧ Alike rest rest' := by
  induction word generalizing ts with
  | nil => exact ⟨ts, rfl, h⟩
  | cons c word ih =>
    obtain ⟨first, others⟩ := List.forall_mem_cons.mp token
    obtain ⟨ds, rfl, behind⟩ := h.cons first
    obtain ⟨rest', rfl, alike⟩ := ih others behind
    exact ⟨rest', rfl, alike⟩

theorem Alike.readNumber {cs ds rest : List Char} {j : Json} (h : Alike cs ds)
    (read : readNumber cs = some (j, rest)) :
    ∃ rest', readNumber ds = some (j, rest') ∧ Alike rest rest' := by
  have same := readNumber_evened ds
  rw [← h, readNumber_evened, read] at same
  obtain ⟨⟨j', rest'⟩, own, eq⟩ := Option.map_eq_some_iff.mp same.symm
  obtain ⟨rfl, alike⟩ := Prod.mk.inj eq
  exact ⟨rest', own, alike.symm⟩

/-- From texts without quotes that are alike, the reader reads the same, and leaves rests that are
alike. -/
def Evenly {α : Type} (read : List Char → Option (α × List Char)) : Prop :=
  ∀ {cs ds rest : List Char} {a : α}, Alike cs ds → '"' ∉ cs → read cs = some (a, rest) →
    ∃ rest', read ds = some (a, rest') ∧ Alike rest rest' ∧ Skips cs rest

theorem readItems_evenly {fuel : Nat} (value : Evenly (readValue fuel))
    (items : Evenly (readItems fuel)) : Evenly (readItems (fuel + 1)) := by
  intro cs ds rest js h plain read
  obtain ⟨j, left, item, last⟩ := readItems_cases read
  obtain ⟨left', item', alike, past⟩ := value h plain item
  rcases last with ⟨next, js', comma, others, rfl⟩ | ⟨close, rfl⟩
  · obtain ⟨next', comma', behind⟩ := alike.token (by decide) comma
    have on := past.token (by decide) comma
    obtain ⟨rest', others', ends, past'⟩ := items behind (on.not_mem plain) others
    refine ⟨rest', ?_, ends, on.trans past'⟩
    rw [readItems_succ item', comma']
    simp [others']
  · obtain ⟨rest', close', behind⟩ := alike.token (by decide) close
    refine ⟨rest', ?_, behind, past.token (by decide) close⟩
    rw [readItems_succ item', close']
    rfl

/-- Fields do not matter, for they begin with a quote. -/
theorem readValue_evenly {fuel : Nat} (items : Evenly (readItems fuel)) :
    Evenly (readValue (fuel + 1)) := by
  intro cs ds rest j h plain read
  have step := readValue_cases read
  have start := skips_skipSpace cs
  have plain := start.not_mem plain
  have alike := h.skipSpace
  rw [← readValue_skipSpace _ ds]
  generalize Json.skipSpace cs = ts at step start plain alike
  generalize Json.skipSpace ds = us at alike
  cases step with
  | string => exact absurd List.mem_cons_self plain
  | @noItems inner rest close =>
    obtain ⟨inner', rfl, behind⟩ := alike.cons (by decide)
    obtain ⟨rest', close', left⟩ := behind.token (by decide) close
    refine ⟨rest', ?_, left, (start.trans (skips_cons (by decide) inner)).token (by decide) close⟩
    rw [readValue, skipSpace_token (by decide)]
    simp only [close']
  | @items inner rest js unclosed own =>
    obtain ⟨inner', rfl, behind⟩ := alike.cons (by decide)
    have plain := (skips_cons (c := '[') (by decide) inner).not_mem plain
    obtain ⟨rest', own', left, past⟩ := items behind plain own
    refine ⟨rest', readValue_items (fun head => ?_) own', left,
      start.trans ((skips_cons (by decide) _).trans past)⟩
    obtain ⟨others, close⟩ := List.head?_eq_some_iff.mp head
    obtain ⟨others', close', -⟩ := behind.symm.token (by decide) close
    exact unclosed (by rw [close']; rfl)
  | @noFields inner rest close =>
    obtain ⟨inner', rfl, behind⟩ := alike.cons (by decide)
    obtain ⟨rest', close', left⟩ := behind.token (by decide) close
    refine ⟨rest', ?_, left, (start.trans (skips_cons (by decide) inner)).token (by decide) close⟩
    rw [readValue, skipSpace_token (by decide)]
    simp only [close']
  | @fields inner _ _ _ own =>
    rw [readFields_eq_none ((skips_cons (by decide) inner).not_mem plain)] at own
    cases own
  | null rest =>
    obtain ⟨rest', rfl, left⟩ := @Alike.word ['n', 'u', 'l', 'l'] (by simp [isSpace]) _ _ alike
    exact ⟨rest', rfl, left, start.trans ⟨['n', 'u', 'l', 'l'], rfl, by decide⟩⟩
  | yes rest =>
    obtain ⟨rest', rfl, left⟩ := @Alike.word ['t', 'r', 'u', 'e'] (by simp [isSpace]) _ _ alike
    exact ⟨rest', rfl, left, start.trans ⟨['t', 'r', 'u', 'e'], rfl, by decide⟩⟩
  | no rest =>
    obtain ⟨rest', rfl, left⟩ :=
      @Alike.word ['f', 'a', 'l', 's', 'e'] (by simp [isSpace]) _ _ alike
    exact ⟨rest', rfl, left, start.trans ⟨['f', 'a', 'l', 's', 'e'], rfl, by decide⟩⟩
  | number own =>
    obtain ⟨rest', own', left⟩ := alike.readNumber own
    obtain ⟨c, others, rfl, first⟩ := readNumber_eq_cons own'
    exact ⟨rest', by rw [readValue_number first, own'], left, start.trans (skips_readNumber own)⟩

/-- Where there are no quotes, a text reads as any text like it. -/
theorem read_evenly (fuel : Nat) : Evenly (readValue fuel) ∧ Evenly (readItems fuel) := by
  induction fuel with
  | zero => exact ⟨fun _ _ read => (nomatch read), fun _ _ read => (nomatch read)⟩
  | succ fuel ih =>
    obtain ⟨value, items⟩ := ih
    exact ⟨readValue_evenly items, readItems_evenly value items⟩

theorem Alike.not_mem {c : Char} (token : isSpace c = false) {cs ds : List Char} (h : Alike cs ds)
    (absent : c ∉ cs) : c ∉ ds := by
  intro mem
  have image : evened c ∈ cs.map evened := by
    rw [h]
    exact List.mem_map_of_mem mem
  obtain ⟨d, own, eq⟩ := List.mem_map.mp image
  rw [evened_token token] at eq
  exact absent (eq_of_evened token eq ▸ own)

theorem Alike.ofChars {cs ds : List Char} (h : Alike cs ds) (plain : '"' ∉ cs) {j : Json}
    (read : ofChars cs = some j) : ofChars ds = some j := by
  have length : cs.length = ds.length := by
    rw [← List.length_map evened, h, List.length_map]
  rw [Json.ofChars] at read
  split at read
  · next j' rest own =>
    split at read
    · next empty =>
      cases read
      obtain ⟨rest', own', left, -⟩ := (read_evenly _).1 h plain own
      have empty' : (Json.skipSpace rest').isEmpty = true := by
        rw [List.isEmpty_iff] at empty ⊢
        have spaces := left.skipSpace
        rw [empty] at spaces
        exact List.map_eq_nil_iff.mp spaces.symm
      rw [Json.ofChars, ← length, own']
      exact if_pos empty'
    · cases read
  · cases read

/-- Where there are no quotes, it does not matter which kinds of space stand in a document. -/
theorem ofChars_congr {cs ds : List Char} (h : Alike cs ds) (plain : '"' ∉ cs) :
    ofChars cs = ofChars ds :=
  Option.ext fun _ => ⟨h.ofChars plain, h.symm.ofChars (h.not_mem (by decide) plain)⟩

end ObjectVault.Json
