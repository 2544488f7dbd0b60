import ObjectVault.Proofs.Rereading
import ObjectVault.Proofs.Saving

namespace ObjectVault
open ObjectVault.Text ObjectVault.Container

namespace Contents

/-- What is read is consistent. -/
theorem consistent_of_ofBytes {bytes : Bytes} {contents : Contents}
    (h : ofBytes bytes = .ok contents) : contents.Consistent := by
  rw [ofBytes] at h
  split at h
  · cases h
  · next entries _ =>
    rw [ofEntries] at h
    split at h
    · cases h
    · split at h
      · cases h
      · next manifest _ =>
        cases checked : check ⟨manifest, payloadsOf entries⟩ with
        | error e =>
          simp only [checked] at h
          cases h
        | ok _ =>
          simp only [checked] at h
          cases h
          exact check_eq_ok_iff.mp checked

/-- Verified contents are those that every member can be read of. -/
theorem verify_eq_ok_iff {contents : Contents} {access : Access} :
    contents.verify access = .ok () ↔
      ∀ member ∈ contents.manifest.members.keys,
        ∃ plaintext, contents.plaintext access member = .ok plaintext := by
  rw [verify]
  induction contents.manifest.members.keys with
  | nil => simp [pure, Except.pure]
  | cons member members ih =>
    rw [List.forM, List.forall_mem_cons, ← ih]
    cases contents.plaintext access member with
    | error e => simp [bind, Except.bind]
    | ok plaintext => simp [bind, Except.bind, pure, Except.pure]

/-- A member is read as before when another one was removed. -/
theorem plaintext_erase {contents : Contents} {access : Access} {member other : String}
    (apart : other ≠ member) :
    (contents.erase member).plaintext access other = contents.plaintext access other := by
  rw [Contents.plaintext, Contents.plaintext]
  simp only [Contents.erase, Table.get?_erase, if_neg apart]

/-- Removing a member does not keep the others from being read. -/
theorem verify_erase {contents : Contents} {access : Access} (h : contents.verify access = .ok ())
    (member : String) : (contents.erase member).verify access = .ok () := by
  rw [verify_eq_ok_iff] at h ⊢
  intro other mem
  obtain ⟨apart, old⟩ := Table.mem_keys_erase.mp mem
  obtain ⟨plaintext, read⟩ := h other old
  exact ⟨plaintext, (plaintext_erase apart).trans read⟩

theorem consistent_empty : Consistent .empty :=
  ⟨rfl, fun _ => rfl⟩

theorem Consistent.erase {contents : Contents} (h : contents.Consistent) (member : String) :
    (contents.erase member).Consistent := by
  refine ⟨h.current, fun other => ?_⟩
  have old := h.listed other
  simp only [Table.contains] at old
  simp only [Contents.erase, Table.contains, Table.get?_erase]
  split
  · rfl
  · exact old

theorem Consistent.put {contents : Contents} (h : contents.Consistent) (member : String)
    (entry : MemberEntry) (payload : Bytes) : (contents.put member entry payload).Consistent := by
  refine ⟨h.current, fun other => ?_⟩
  have old := h.listed other
  simp only [Table.contains] at old
  simp only [Contents.put, Table.contains, Table.get?_insert]
  split
  · rfl
  · exact old

theorem forall_keys_put {p : String → Prop} {contents : Contents} {member : String} (own : p member)
    (h : ∀ other ∈ contents.payloads.keys, p other) (entry : MemberEntry) (payload : Bytes) :
    ∀ other ∈ (contents.put member entry payload).payloads.keys, p other := by
  intro other mem
  rw [← Table.contains_iff, Table.contains, Contents.put, Table.get?_insert] at mem
  split at mem
  · next same => exact same ▸ own
  · exact h other (Table.contains_iff.mp mem)

end Contents

theorem Stored.consistent {password : Option String} {member : String} {plaintext : Bytes}
    {before after : Contents} (h : Stored password member plaintext before after)
    (consistent : before.Consistent) : after.Consistent := by
  obtain ⟨payload, payloads⟩ := h.payloads
  refine ⟨h.version.trans consistent.current, fun other => ?_⟩
  have old := consistent.listed other
  simp only [Table.contains] at old
  rw [h.members, payloads, Table.contains, Table.contains, Table.get?_insert, Table.get?_insert]
  split
  · rfl
  · exact old

/-- The names of the payloads are the old ones and the new one. -/
theorem Stored.forall_keys {password : Option String} {member : String} {plaintext : Bytes}
    {before after : Contents} (h : Stored password member plaintext before after)
    (p : String → Prop) :
    (∀ other ∈ after.payloads.keys, p other) ↔
      p member ∧ ∀ other ∈ before.payloads.keys, p other := by
  obtain ⟨payload, payloads⟩ := h.payloads
  have keys : ∀ other, other ∈ after.payloads.keys ↔
      other = member ∨ other ∈ before.payloads.keys := by
    intro other
    rw [payloads, ← Table.contains_iff, ← Table.contains_iff, Table.contains, Table.get?_insert]
    by_cases same : other = member <;> simp [same, Table.contains]
  constructor
  · intro all
    exact ⟨all member ((keys member).mpr (.inl rfl)), fun other mem =>
      all other ((keys other).mpr (.inr mem))⟩
  · rintro ⟨own, all⟩ other mem
    rcases (keys other).mp mem with rfl | mem
    · exact own
    · exact all other mem

theorem Archive.consistent_of_contents {archive : Archive} {d : Directory} {contents : Contents}
    (h : archive.contents d = .ok contents) : contents.Consistent := by
  rw [Archive.contents] at h
  split at h
  · cases h
    exact Contents.consistent_empty
  · split at h
    · exact Contents.consistent_of_ofBytes h
    · cases h

namespace Archive

/-- A store that succeeded leaves an archive that can be read exactly if all its names are settled.
If it can be read, the member reads as what was stored and the other payloads are the old ones. -/
theorem readable_after_write {archive : Archive} {member : String} {plaintext : Bytes}
    {entry : MemberEntry} {before : Contents} {host host' : Host}
    (readable : archive.contents host.directory = .ok before)
    (stored : archive.write member plaintext host = (.ok entry, host'))
    (sized : ∀ written, host'.directory.read archive.path = .ok written →
      written.length < maxContent) :
    ((∃ after, archive.contents host'.directory = .ok after) ↔
      Settled member ∧ ∀ other ∈ before.payloads.keys, Settled other) ∧
    ∀ after, archive.contents host'.directory = .ok after →
      archive.read member host'.directory = .ok plaintext ∧
        ∀ other, other ≠ member → after.payloads.get? other = before.payloads.get? other := by
  obtain ⟨old, new, written, found, change, -, bytes, read, -⟩ := write_ok stored
  obtain rfl : old = before := Except.ok.inj (found.symm.trans readable)
  have measured := Contents.measured_of_bytes bytes (sized written read)
  have consistent := change.consistent (consistent_of_contents found)
  have back : ∀ after, Contents.ofBytes written = .ok after ↔
      after = new ∧ ∀ other ∈ new.payloads.keys, Settled other :=
    fun _ => Contents.ofBytes_bytes_eq_ok_iff bytes measured consistent
  have contents := contents_of_read read
  refine ⟨?_, fun after reread => ?_⟩
  · rw [contents, ← change.forall_keys]
    constructor
    · rintro ⟨after, reread⟩
      exact ((back after).mp reread).2
    · intro settled
      exact ⟨new, (back new).mpr ⟨rfl, settled⟩⟩
  · have same : after = new := ((back after).mp (contents ▸ reread)).1
    subst same
    refine ⟨?_, fun other apart => ?_⟩
    · rw [Archive.read, reread]
      exact change.opens
    · obtain ⟨payload, payloads⟩ := change.payloads
      rw [payloads, Table.get?_insert, if_neg apart]

/-- Without a password, a member is stored as it is. -/
theorem contents_of_write {archive : Archive} {before : Contents} {member : String}
    {plaintext : Bytes} {entry : MemberEntry} {host host' : Host}
    (unlocked : archive.password = none) (found : archive.contents host.directory = .ok before)
    (stored : archive.write member plaintext host = (.ok entry, host')) :
    ∃ written, (before.put member (.describe plaintext false) plaintext).bytes = .ok written ∧
      host'.directory.read archive.path = .ok written := by
  rw [write_eq] at stored
  obtain ⟨_, start, looked, rest⟩ := Effect.bind_eq_ok stored
  obtain ⟨found', rfl⟩ := HostM.look_eq looked
  cases found.symm.trans found'
  obtain ⟨after, between, putting, rest⟩ := Effect.bind_eq_ok rest
  obtain ⟨_, verified, -, rest⟩ := Effect.bind_eq_ok rest
  obtain ⟨_, saved, done, rest⟩ := Effect.bind_eq_ok rest
  cases rest
  simp only [revised, revisedBy, unlocked] at putting
  cases putting
  exact save_ok done

/-- With a password, a member is stored sealed, under the key header that is there or a new one. -/
theorem contents_of_sealed_write {archive : Archive} {before : Contents} {member : String}
    {plaintext : Bytes} {entry : MemberEntry} {host host' : Host}
    (locked : archive.password.isSome = true)
    (found : archive.contents host.directory = .ok before)
    (stored : archive.write member plaintext host = (.ok entry, host')) :
    ∃ payload written, payload.length = 12 + plaintext.length + 16 ∧
      ((before.withKeyHeader (archive.newHeader host)).put member (.describe plaintext true)
        payload).bytes = .ok written ∧
      host'.directory.read archive.path = .ok written := by
  rw [write_eq] at stored
  obtain ⟨_, start, looked, rest⟩ := Effect.bind_eq_ok stored
  obtain ⟨found', rfl⟩ := HostM.look_eq looked
  cases found.symm.trans found'
  obtain ⟨after, between, putting, rest⟩ := Effect.bind_eq_ok rest
  obtain ⟨_, verified, -, rest⟩ := Effect.bind_eq_ok rest
  obtain ⟨_, saved, done, rest⟩ := Effect.bind_eq_ok rest
  cases rest
  obtain ⟨key, nonce, size, -, rfl⟩ := revised_sealed locked putting
  obtain ⟨written, bytes, read⟩ := save_ok done
  exact ⟨_, written, key.length_sealPayload size plaintext, bytes, read⟩

/-- A host without files. -/
def bareHost : Host :=
  ⟨.empty, ∅, fun _ => 0, 0, 0⟩

/-- A host with one file. -/
def hostHolding (path : String) (bytes : Bytes) : Host :=
  { bareHost with directory := ⟨.ofList [(path, bytes)], []⟩ }

/-- An archive without a password. -/
def openArchive : Archive :=
  ⟨"storage.vault", none, 10⟩

/-- The host after a byte was stored in a new archive. -/
def hostWith (member : String) : Host :=
  (openArchive.write member [49] bareHost).2

/-- Whether the byte was stored, in a file that is not too long. -/
def storedShortly (member : String) : Bool :=
  (openArchive.write member [49] bareHost).1.isOk &&
    match (hostWith member).directory.read openArchive.path with
    | .ok written => written.length < maxContent
    | .error _ => true

theorem sized_of_storedShortly {member : String} (h : storedShortly member = true)
    {written : Bytes} (read : (hostWith member).directory.read openArchive.path = .ok written) :
    written.length < maxContent := by
  have short := (Bool.and_eq_true_iff.mp h).2
  simpa [read] using short

theorem write_of_storedShortly {member : String} (h : storedShortly member = true) :
    ∃ entry, openArchive.write member [49] bareHost = (.ok entry, hostWith member) := by
  have done := (Bool.and_eq_true_iff.mp h).1
  cases eq : openArchive.write member [49] bareHost with
  | mk result host =>
    cases result with
    | error e => simp [eq, Except.isOk, Except.toBool] at done
    | ok entry => exact ⟨entry, by rw [hostWith, eq]⟩

/-- What the manifest says of the byte that is stored. -/
def storedByte : MemberEntry :=
  ⟨1, "83DCEFB7", "6B86B273FF34FCE19D6B804EFF5A3F5747ADA4EAA22F1D49C01E52DDB7875B4B", false⟩

theorem describe_byte : MemberEntry.describe [49] false = storedByte := by
  decide +kernel

/-- Whether the byte was stored in a short file need not be told from all that was written. -/
theorem storedShortly_of_manifest {member : String}
    (stored : (openArchive.write member [49] bareHost).1.isOk = true)
    (manifest : (Json.prettyChars 0
      (Contents.empty.put member storedByte [49]).manifest.toJson).length < 2 ^ 32) :
    storedShortly member = true := by
  cases eq : openArchive.write member [49] bareHost with
  | mk result host =>
    cases result with
    | error e => simp [eq, Except.isOk, Except.toBool] at stored
    | ok entry =>
      obtain ⟨written, bytes, read⟩ := contents_of_write rfl rfl eq
      rw [describe_byte] at bytes
      have payloads : (Contents.empty.put member storedByte [49]).payloads.entries =
        [(member, [49])] := rfl
      have brief : (Contents.empty.put member storedByte [49]).Brief :=
        ⟨manifest, by simp [payloads, blockSize]⟩
      have short := brief.length_lt bytes
      have left : hostWith member = host := by rw [hostWith, eq]
      simpa [storedShortly, stored, left, read] using short

theorem storedShortly_note : storedShortly "notes/x" = true :=
  storedShortly_of_manifest (by decide +kernel) (by decide +kernel)

theorem readable_after_write_settled_only :
    (∃ after, openArchive.contents (hostWith "notes/x").directory = .ok after) ∧
      ¬ ∃ after, openArchive.contents (hostWith "/x").directory = .ok after := by
  have known : ∀ member, storedShortly member = true →
      ((∃ after, openArchive.contents (hostWith member).directory = .ok after) ↔
        Settled member ∧ ∀ other ∈ Contents.empty.payloads.keys, Settled other) := by
    intro member h
    obtain ⟨entry, done⟩ := write_of_storedShortly h
    exact (readable_after_write rfl done fun written => sized_of_storedShortly h).1
  have rooted : storedShortly "/x" = true :=
    storedShortly_of_manifest (by decide +kernel) (by decide +kernel)
  constructor
  · exact (known "notes/x" storedShortly_note).mpr (by decide)
  · intro readable
    exact absurd ((known "/x" rooted).mp readable).1 (by decide)

end Archive
end ObjectVault
