import ObjectVault.Proofs.Plans

namespace ObjectVault
open ObjectVault.Text ObjectVault.Directory

/-- Bytes that are no archive, whatever is added to them. -/
def Spoiled (bytes : Bytes) : Prop :=
  ∀ extra contents, Contents.ofBytes (bytes ++ extra) ≠ .ok contents

theorem Spoiled.append {bytes : Bytes} (h : Spoiled bytes) (more : Bytes) :
    Spoiled (bytes ++ more) := by
  intro extra contents
  rw [List.append_assoc]
  exact h (more ++ extra) contents

theorem Spoiled.unread {bytes : Bytes} (h : Spoiled bytes) (contents : Contents) :
    Contents.ofBytes bytes ≠ .ok contents := by
  have := h [] contents
  rwa [List.append_nil] at this

namespace Zstd

/-- The first byte of a record. -/
def brace : UInt8 := 0x7B

/-- What begins with a brace begins with no frame. -/
theorem inflate_brace (rest : Bytes) : inflate (brace :: rest) = ⟨[], some .noFrame⟩ := by
  have head : (brace :: rest).take 4 = brace :: rest.take 3 := rfl
  have plain : ¬ (brace :: rest.take 3) = magic := by
    intro same
    exact absurd (List.cons.inj same).1 (by decide)
  have skip : ¬ Bytes.ofLittleEndian (brace :: rest.take 3) / 16 = 0x184D2A5 := by
    have first : brace.toNat = 123 := by decide
    rw [Bytes.ofLittleEndian, first]
    omega
  rw [inflate, if_neg (by simp), inflateFrames, if_neg (by simp)]
  simp only [head, if_neg plain]
  simp [skip]

end Zstd

theorem spoiled_brace (rest : Bytes) : Spoiled (Zstd.brace :: rest) := by
  intro extra contents read
  have cut : ([] : Bytes).length < Container.blockSize := by decide
  rw [Contents.ofBytes, Container.ofBytes, List.cons_append, Zstd.inflate_brace,
    Container.readEntries, dif_pos cut] at read
  cases read

theorem encodeUtf8_brace (cs : List Char) :
    encodeUtf8 (.ofList ('\x7b' :: cs)) = Zstd.brace :: encodeUtf8 (.ofList cs) := by
  have brace : String.utf8EncodeChar '\x7b' = [Zstd.brace] := by decide
  rw [encodeUtf8_ofList, encodeUtf8_ofList, List.flatMap_cons, brace]
  rfl

/-- A record begins with a brace. -/
theorem logLine_eq_brace (m : Metadata) :
    ∃ rest, encodeUtf8 (Report.logLine m) = Zstd.brace :: rest := by
  obtain ⟨cs, eq⟩ : ∃ cs, Json.compactChars m.toJson = '\x7b' :: cs := ⟨_, rfl⟩
  refine ⟨encodeUtf8 (.ofList cs) ++ encodeUtf8 "\n", ?_⟩
  rw [Report.logLine, Json.compact, eq, encodeUtf8_append, encodeUtf8_brace]
  rfl

theorem spoiled_logLine (m : Metadata) : Spoiled (encodeUtf8 (Report.logLine m)) := by
  obtain ⟨rest, eq⟩ := logLine_eq_brace m
  rw [eq]
  exact spoiled_brace rest

namespace Directory
variable {d d' : Directory} {path other : String} {place : Location} {bytes : Bytes}

theorem append_eq_ok (h : d.append path bytes = .ok d') :
    ∃ place, d.locate path = .ok place ∧ d.isFolder place = false ∧
      d' = { d with files :=
        d.files.insert (key place) ((d.files.get? (key place)).getD [] ++ bytes) } := by
  rw [append] at h
  cases located : d.locate path with
  | error fault => simp [located, bind, Except.bind] at h
  | ok place =>
    simp only [located, bind, Except.bind] at h
    split at h
    · cases h
    · next free =>
      cases h
      exact ⟨place, rfl, by simpa using free, rfl⟩

theorem refiled_append (h : d.append path bytes = .ok d') : Refiled d d' := by
  obtain ⟨place, located, free, rfl⟩ := append_eq_ok h
  exact ⟨rfl, grows_insert (locate_reached located) free⟩

/-- What is appended stands behind what was there, if there was anything. -/
theorem read_append (h : d.append path bytes = .ok d') :
    ∃ old, (d.read path = .ok old ∨ old = [] ∧ ∀ found, d.read path ≠ .ok found) ∧
      d'.read path = .ok (old ++ bytes) := by
  have changed := refiled_append h
  obtain ⟨place, located, free, rfl⟩ := append_eq_ok h
  refine ⟨(d.files.get? (key place)).getD [], ?_, read_eq_ok_iff.mpr
    ⟨place, changed.grows.locate located, free, by simp [Table.get?_insert]⟩⟩
  cases found : d.files.get? (key place) with
  | some old => exact .inl (read_eq_ok_iff.mpr ⟨place, located, free, found⟩)
  | none =>
    refine .inr ⟨rfl, fun other read => ?_⟩
    obtain ⟨again, located', -, there⟩ := read_eq_ok_iff.mp read
    rw [located] at located'
    cases located'
    rw [found] at there
    cases there

/-- What is there stays there when a file is written in the place of no folder. -/
theorem has_insert (reached : Reached place) (free : d.isFolder place = false)
    (there : d.has path = true) :
    ({ d with files := d.files.insert (key place) bytes } : Directory).has path = true := by
  rw [has] at there ⊢
  cases located : d.locate path with
  | error fault => simp [located] at there
  | ok other =>
    rw [located] at there
    rw [(grows_insert reached free).locate located]
    simp only [isFile_insert (locate_reached located) reached]
    rw [Bool.or_eq_true_iff] at there ⊢
    rcases there with folder | file
    · exact .inl folder
    · exact .inr (by simp [file])

/-- A file that is changed leads to no other places. -/
theorem locate_of_insert (reached : Reached place) (free : d.isFolder place = false)
    {target : Location}
    (located : ({ d with files := d.files.insert (key place) bytes } : Directory).locate path =
      .ok target) : d.locate path = .ok target := by
  have back : Grows { d with files := d.files.insert (key place) bytes } d :=
    grows_of_others reached free rfl fun name apart => by simp [Table.get?_insert, apart]
  exact back.locate located

end Directory

/-- A report leaves every file with more at its end at most. -/
theorem Logged.extends {log : Option String} {d d' : Directory} (h : Logged log d d') :
    d.Extends d' := by
  cases h with
  | quiet => exact .refl d
  | noted kept appended =>
    obtain ⟨place, located, free, -⟩ := append_eq_ok appended
    obtain ⟨again, appended', more⟩ := Writable.append ⟨place, located, free⟩ _
    rw [appended] at appended'
    cases appended'
    exact more

end ObjectVault
