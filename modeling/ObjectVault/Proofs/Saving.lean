import ObjectVault.Archive.Basic
import ObjectVault.Proofs.Files
import ObjectVault.Proofs.Effects
import ObjectVault.Proofs.Sealing

namespace ObjectVault

/-- What storing a member makes of the contents. -/
structure Stored (password : Option String) (member : String) (plaintext : Bytes)
    (before after : Contents) : Prop where
  version : after.manifest.version = before.manifest.version
  members : after.manifest.members =
    before.manifest.members.insert member (.describe plaintext password.isSome)
  payloads : ∃ payload, after.payloads = before.payloads.insert member payload
  key : ∀ header, before.manifest.key = some header → after.manifest.key = some header
  opens : after.plaintext (after.access password) member = .ok plaintext

/-- What a payload holds, opened if it is sealed. -/
def Access.unsealed (access : Access) (member : String) (entry : MemberEntry) (payload : Bytes) :
    Except ArchiveError Bytes :=
  if entry.encrypted then access.openMember member payload else .ok payload

/-- A plaintext, if it has the checksum that the manifest records. -/
def MemberEntry.checked (entry : MemberEntry) (member : String) (plaintext : Bytes) :
    Except ArchiveError Bytes :=
  if HashMethod.crc32.digest plaintext = entry.crc32 then .ok plaintext
  else .error (.checksumMismatch member entry.crc32 (HashMethod.crc32.digest plaintext))

namespace Contents

/-- A member is read by opening its payload and comparing the checksum. -/
theorem plaintext_eq {contents : Contents} {access : Access} {member : String} {entry : MemberEntry}
    {payload : Bytes} (listed : contents.manifest.members.get? member = some entry)
    (found : contents.payloads.get? member = some payload) :
    contents.plaintext access member =
      (access.unsealed member entry payload).bind (entry.checked member) := by
  rw [Contents.plaintext, listed, found, Access.unsealed]
  have checked : ∀ plaintext : Bytes, (do
      let actual := HashMethod.crc32.digest plaintext
      if actual ≠ entry.crc32 then
        throw (ArchiveError.checksumMismatch member entry.crc32 actual)
      return plaintext : Except ArchiveError Bytes) = entry.checked member plaintext := by
    intro plaintext
    by_cases same : HashMethod.crc32.digest plaintext = entry.crc32 <;>
      simp [MemberEntry.checked, same, pure, Except.pure, throw, throwThe, MonadExceptOf.throw,
        bind, Except.bind]
  by_cases locked : entry.encrypted = true
  · simp only [if_pos locked]
    cases access.openMember member payload with
    | error e => rfl
    | ok plaintext => exact checked plaintext
  · simp only [if_neg locked]
    exact checked payload

/-- A member is read as it was stored, if what is under its name opens to that. -/
theorem plaintext_put {contents : Contents} {access : Access} {member : String}
    {plaintext payload : Bytes} {encrypted : Bool}
    (opens : encrypted = true → access.openMember member payload = .ok plaintext)
    (plain : encrypted = false → payload = plaintext) :
    (contents.put member (.describe plaintext encrypted) payload).plaintext access member =
      .ok plaintext := by
  have entry : (contents.put member (.describe plaintext encrypted) payload).manifest.members.get?
      member = some (.describe plaintext encrypted) := by
    simp [put, Table.get?_insert]
  have own : (contents.put member (.describe plaintext encrypted) payload).payloads.get? member =
      some payload := by
    simp [put, Table.get?_insert]
  rw [Contents.plaintext, entry, own]
  cases encrypted with
  | true => simp [MemberEntry.describe, opens rfl, bind, Except.bind, pure, Except.pure]
  | false => simp [MemberEntry.describe, plain rfl, bind, Except.bind, pure, Except.pure]

end Contents

namespace Archive

theorem contents_of_read {archive : Archive} {d : Directory} {bytes : Bytes}
    (h : d.read archive.path = .ok bytes) : archive.contents d = Contents.ofBytes bytes := by
  rw [contents, Directory.has_of_read h, h]
  rfl

theorem contents_of_missing {archive : Archive} {d : Directory}
    (h : d.has archive.path = false) : archive.contents d = .ok .empty := by
  rw [contents, h]
  rfl

theorem read_eq {archive : Archive} {d : Directory} {contents : Contents}
    (found : archive.contents d = .ok contents) (member : String) :
    archive.read member d = contents.plaintext (contents.access archive.password) member := by
  rw [Archive.read, found]
  rfl

/-- The key header that is made for an archive that has none. -/
def newHeader (archive : Archive) (host : Host) : KeyHeader :=
  ⟨(List.range saltLength).map fun i => host.random (host.drawn + i), archive.iterations⟩

theorem keyed_ok {archive : Archive} {contents keyed : Contents} {host host' : Host}
    (h : archive.keyed contents host = (.ok keyed, host')) :
    keyed = contents.withKeyHeader (archive.newHeader host) := by
  rw [Archive.keyed] at h
  cases found : contents.manifest.key with
  | some header =>
    rw [found] at h
    cases h
    rw [Contents.withKeyHeader, found, Option.getD_some, ← found]
  | none =>
    rw [found] at h
    cases h
    rfl

theorem keyed_directory (archive : Archive) (contents : Contents) (host : Host) :
    (archive.keyed contents host).2.directory = host.directory := by
  rw [Archive.keyed]
  cases contents.manifest.key <;> rfl

/-- The contents with a member put in, under a key that is derived from the password. -/
def revised (archive : Archive) (member : String) (plaintext : Bytes) (contents : Contents) :
    HostM ArchiveError Contents :=
  archive.revisedBy (·.access archive.password) member plaintext contents

theorem write_eq (archive : Archive) (member : String) (plaintext : Bytes) :
    archive.write member plaintext = (do
      let contents ← archive.revised member plaintext (← HostM.look archive.contents)
      contents.verify (contents.access archive.password)
      archive.save contents
      return MemberEntry.describe plaintext archive.password.isSome) := rfl

/-- Nothing but random bytes is used up before the file is written. -/
theorem revised_directory (archive : Archive) (member : String) (plaintext : Bytes)
    (contents : Contents) (host : Host) :
    (archive.revised member plaintext contents host).2.directory = host.directory := by
  have same := archive.keyed_directory contents host
  simp only [revised, revisedBy]
  split
  · rw [Effect.bind_apply]
    split
    · next keyed between eq =>
      rw [eq] at same
      rw [Effect.bind_apply]
      cases (keyed.access archive.password).key member <;> exact same
    · next error between eq =>
      rw [eq] at same
      exact same
  · rfl

theorem directory_of_revised {archive : Archive} {member : String} {plaintext : Bytes}
    {contents : Contents} {host host' : Host} {r : Except ArchiveError Contents}
    (h : archive.revised member plaintext contents host = (r, host')) :
    host'.directory = host.directory := by
  have same := archive.revised_directory member plaintext contents host
  rw [h] at same
  exact same

/-- With a password, a member is put in sealed, under the key header that is there or a new one. -/
theorem revised_sealed {archive : Archive} {member : String} {plaintext : Bytes}
    {contents after : Contents} {host host' : Host} (locked : archive.password.isSome = true)
    (h : archive.revised member plaintext contents host = (.ok after, host')) :
    ∃ key nonce, nonce.length = SealKey.nonceLength ∧
      ((contents.withKeyHeader (archive.newHeader host)).access archive.password).key member =
        .ok key ∧
      after = (contents.withKeyHeader (archive.newHeader host)).put member
        (.describe plaintext true) (key.sealPayload nonce plaintext) := by
  simp only [revised, revisedBy, locked, ↓reduceIte] at h
  obtain ⟨keyed, between, first, rest⟩ := Effect.bind_eq_ok h
  obtain rfl := keyed_ok first
  obtain ⟨key, between', derived, rest⟩ := Effect.bind_eq_ok rest
  obtain ⟨nonce, between'', drawn, rest⟩ := Effect.bind_eq_ok rest
  rw [HostM.draw_apply] at drawn
  cases drawn
  cases rest
  exact ⟨key, _, by simp, (Effect.lift_eq derived).1, rfl⟩

theorem revised_ok {archive : Archive} {member : String} {plaintext : Bytes}
    {contents after : Contents} {host host' : Host}
    (h : archive.revised member plaintext contents host = (.ok after, host')) :
    Stored archive.password member plaintext contents after := by
  cases locked : archive.password.isSome with
  | true =>
    obtain ⟨key, nonce, size, derived, rfl⟩ := revised_sealed locked h
    have opened := Access.openMember_sealPayload derived size plaintext member
    have kept : ∀ old, contents.manifest.key = some old →
        (contents.withKeyHeader (archive.newHeader host)).manifest.key = some old := by
      intro old found
      rw [Contents.withKeyHeader, found, Option.getD_some]
    exact ⟨rfl, by rw [locked]; rfl, ⟨_, rfl⟩, kept, Contents.plaintext_put (fun _ => opened) nofun⟩
  | false =>
    simp only [revised, revisedBy, locked] at h
    cases h
    exact ⟨rfl, by rw [locked]; rfl, ⟨_, rfl⟩, fun _ found => found,
      Contents.plaintext_put nofun fun _ => rfl⟩

theorem save_ok {archive : Archive} {contents : Contents} {host host' : Host}
    (h : archive.save contents host = (.ok (), host')) :
    ∃ written, contents.bytes = .ok written ∧
      host'.directory.read archive.path = .ok written := by
  obtain ⟨_, between, -, rest⟩ := Effect.bind_eq_ok h
  obtain ⟨_, cleared, -, rest⟩ := Effect.bind_eq_ok rest
  cases eq : contents.bytes with
  | error error =>
    rw [eq] at rest
    obtain ⟨_, removed, -, thrown⟩ := Effect.bind_eq_ok rest
    cases thrown
  | ok written =>
    rw [eq] at rest
    obtain ⟨_, filled, put, moved⟩ := Effect.bind_eq_ok rest
    have own := Directory.read_write (HostM.change_eq_ok put).1
    exact ⟨written, rfl, Directory.read_rename (HostM.change_eq_ok moved).1 own⟩

/-- What is known when a member was stored. -/
theorem write_ok {archive : Archive} {member : String} {plaintext : Bytes} {entry : MemberEntry}
    {host host' : Host} (h : archive.write member plaintext host = (.ok entry, host')) :
    ∃ before after written, archive.contents host.directory = .ok before ∧
      Stored archive.password member plaintext before after ∧
      after.verify (after.access archive.password) = .ok () ∧ after.bytes = .ok written ∧
      host'.directory.read archive.path = .ok written ∧
      entry = .describe plaintext archive.password.isSome := by
  obtain ⟨before, start, looked, rest⟩ := Effect.bind_eq_ok h
  obtain ⟨after, revised, stored, rest⟩ := Effect.bind_eq_ok rest
  obtain ⟨_, verified, checked, rest⟩ := Effect.bind_eq_ok rest
  obtain ⟨_, saved, done, rest⟩ := Effect.bind_eq_ok rest
  obtain ⟨written, eq, read⟩ := save_ok done
  cases rest
  exact ⟨before, after, written, (HostM.look_eq looked).1, revised_ok stored,
    (Effect.lift_eq checked).1, eq, read, rfl⟩

/-- Where storing a member fails: while the file is read, while the member is put in, while the new
contents are verified, or while they are saved. No file is touched before that. -/
theorem write_error_cases {archive : Archive} {member : String} {plaintext : Bytes}
    {e : ArchiveError} {host host' : Host}
    (h : archive.write member plaintext host = (.error e, host')) :
    archive.contents host.directory = .error e ∧ host' = host ∨
      ∃ before, archive.contents host.directory = .ok before ∧
        (archive.revised member plaintext before host = (.error e, host') ∧
            host'.directory = host.directory ∨
          ∃ after between, archive.revised member plaintext before host = (.ok after, between) ∧
            between.directory = host.directory ∧
            (after.verify (after.access archive.password) = .error e ∧ host' = between ∨
              after.verify (after.access archive.password) = .ok () ∧
                archive.save after between = (.error e, host'))) := by
  rw [write_eq] at h
  rcases Effect.bind_eq_error h with looked | ⟨before, start, looked, revising⟩
  · exact .inl (HostM.look_eq looked)
  · obtain ⟨found, rfl⟩ := HostM.look_eq looked
    refine .inr ⟨before, found, ?_⟩
    rcases Effect.bind_eq_error revising with failed | ⟨after, between, revised, checking⟩
    · exact .inl ⟨failed, directory_of_revised failed⟩
    · refine .inr ⟨after, between, revised, directory_of_revised revised, ?_⟩
      rcases Effect.bind_eq_error checking with failed | ⟨_, verified, checked, saving⟩
      · exact .inl (Effect.lift_eq failed)
      · obtain ⟨passed, rfl⟩ := Effect.lift_eq checked
        rcases Effect.bind_eq_error saving with failed | ⟨_, saved, done, returned⟩
        · exact .inr ⟨passed, failed⟩
        · cases returned

/-- A member that could not be stored has failed before or while the file was written. -/
theorem write_error {archive : Archive} {member : String} {plaintext : Bytes} {e : ArchiveError}
    {host host' : Host} (h : archive.write member plaintext host = (.error e, host')) :
    host'.directory = host.directory ∨
      ∃ contents between, between.directory = host.directory ∧
        archive.save contents between = (.error e, host') := by
  rcases write_error_cases h with ⟨-, rfl⟩ | ⟨before, -, ⟨-, untouched⟩ |
    ⟨after, between, -, untouched, ⟨-, rfl⟩ | ⟨-, saving⟩⟩⟩
  · exact .inl rfl
  · exact .inl untouched
  · exact .inl untouched
  · exact .inr ⟨after, between, untouched, saving⟩

theorem delete_ok {archive : Archive} {member : String} {entry : MemberEntry} {host host' : Host}
    (h : archive.delete member host = (.ok entry, host')) :
    ∃ before written, archive.contents host.directory = .ok before ∧
      before.manifest.members.get? member = some entry ∧
      (before.erase member).bytes = .ok written ∧
      host'.directory.read archive.path = .ok written := by
  obtain ⟨before, start, looked, rest⟩ := Effect.bind_eq_ok h
  cases found : before.manifest.members.get? member with
  | none =>
    rw [found] at rest
    cases rest
  | some listed =>
    rw [found] at rest
    obtain ⟨_, saved, done, rest⟩ := Effect.bind_eq_ok rest
    obtain ⟨written, bytes, read⟩ := save_ok done
    cases rest
    exact ⟨before, written, (HostM.look_eq looked).1, found, bytes, read⟩

theorem delete_error {archive : Archive} {member : String} {e : ArchiveError} {host host' : Host}
    (h : archive.delete member host = (.error e, host')) :
    host'.directory = host.directory ∨
      ∃ contents, archive.save contents host = (.error e, host') := by
  rcases Effect.bind_eq_error h with looked | ⟨before, start, looked, rest⟩
  · obtain ⟨-, rfl⟩ := HostM.look_eq looked
    exact .inl rfl
  · obtain ⟨-, rfl⟩ := HostM.look_eq looked
    cases found : before.manifest.members.get? member with
    | none =>
      rw [found] at rest
      cases rest
      exact .inl rfl
    | some listed =>
      rw [found] at rest
      rcases Effect.bind_eq_error rest with failed | ⟨_, saved, done, rest⟩
      · exact .inr ⟨_, failed⟩
      · cases rest

end Archive
end ObjectVault
