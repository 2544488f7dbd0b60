import ObjectVault.Proofs.KeptKeys
import ObjectVault.Proofs.Serving

namespace ObjectVault

/-- The member is there but cannot be read: it is sealed and there is no password, it is sealed
under another key, or it does not have the checksum that the manifest records. -/
def ArchiveError.isLock : ArchiveError → Bool
  | .passwordRequired _ => true
  | .decryption _ => true
  | .checksumMismatch _ _ _ => true
  | _ => false

namespace Contents

/-- Contents with a member that cannot be read do not pass. -/
theorem verify_isError {contents : Contents} {access : Access} {member : String} {e : ArchiveError}
    (listed : contents.manifest.members.contains member = true)
    (unread : contents.plaintext access member = .error e) :
    ∃ e', contents.verify access = .error e' := by
  cases verified : contents.verify access with
  | error e' => exact ⟨e', rfl⟩
  | ok _ =>
    obtain ⟨plaintext, read⟩ := verify_eq_ok_iff.mp verified member (Table.contains_iff.mp listed)
    rw [unread] at read
    cases read

/-- A locked member is listed. -/
theorem listed_of_isLock {contents : Contents} {access : Access} {member : String}
    {e : ArchiveError} (unread : contents.plaintext access member = .error e)
    (lock : e.isLock = true) : contents.manifest.members.contains member = true := by
  cases listed : contents.manifest.members.get? member with
  | some entry => rw [Table.contains, listed, Option.isSome_some]
  | none =>
    rw [plaintext, listed] at unread
    cases unread
    cases lock

theorem check_error {contents : Contents} {e : ArchiveError} (h : contents.check = .error e) :
    e.isLock = false := by
  simp only [check] at h
  split at h
  · cases h
    rfl
  · split at h
    · cases h
      rfl
    · split at h
      · cases h
        rfl
      · cases h

/-- What cannot be read at all has no locked members. -/
theorem ofBytes_error {bytes : Bytes} {e : ArchiveError} (h : ofBytes bytes = .error e) :
    e.isLock = false := by
  rw [ofBytes] at h
  split at h
  · cases h
    rfl
  · next entries _ =>
    rw [ofEntries] at h
    split at h
    · cases h
      rfl
    · split at h
      · cases h
        rfl
      · next manifest _ =>
        cases checked : check ⟨manifest, payloadsOf entries⟩ with
        | ok _ =>
          simp only [checked] at h
          cases h
        | error e' =>
          simp only [checked] at h
          cases h
          exact check_error checked

end Contents

namespace Archive

theorem contents_error {archive : Archive} {d : Directory} {e : ArchiveError}
    (h : archive.contents d = .error e) : e.isLock = false := by
  rw [Archive.contents] at h
  split at h
  · cases h
  · split at h
    · exact Contents.ofBytes_error h
    · cases h
      rfl

/-- An archive with a locked member can be read. -/
theorem contents_of_isLock {archive : Archive} {member : String} {d : Directory}
    {e : ArchiveError} (unread : archive.read member d = .error e) (lock : e.isLock = true) :
    ∃ contents, archive.contents d = .ok contents := by
  cases found : archive.contents d with
  | ok contents => exact ⟨contents, rfl⟩
  | error e' =>
    rw [Archive.read, found] at unread
    cases unread
    rw [contents_error found] at lock
    cases lock

/-- Another member that is locked stays locked when a member is put in, so the new contents do not
pass and nothing is written. -/
theorem write_of_locked {archive : Archive} {member other : String} {host : Host}
    {e : ArchiveError} (apart : other ≠ member)
    (unread : archive.read other host.directory = .error e) (lock : e.isLock = true)
    (plaintext : Bytes) :
    ∃ e' host', archive.write member plaintext host = (.error e', host') ∧
      host'.directory = host.directory := by
  obtain ⟨before, found⟩ := contents_of_isLock unread lock
  rw [read_eq found] at unread
  have refused : ∀ after, Stored archive.password member plaintext before after →
      after.verify (after.access archive.password) ≠ .ok () := by
    intro after change verified
    have still := change.plaintext_other apart (by rw [unread]; rintro ⟨⟩; cases lock)
    obtain ⟨e', failed⟩ := Contents.verify_isError
      (Contents.listed_of_isLock (still.trans unread) lock) (still.trans unread)
    rw [failed] at verified
    cases verified
  cases ran : archive.write member plaintext host with
  | mk result host' =>
    cases result with
    | ok entry =>
      obtain ⟨old, after, _, same, change, verified, -⟩ := write_ok ran
      rw [found] at same
      cases same
      exact absurd verified (refused after change)
    | error e' =>
      refine ⟨e', host', rfl, ?_⟩
      rcases write_error_cases ran with ⟨-, rfl⟩ | ⟨old, same, failed⟩
      · rfl
      rw [found] at same
      cases same
      rcases failed with ⟨-, untouched⟩ |
        ⟨after, between, revised, untouched, ⟨-, rfl⟩ | ⟨verified, -⟩⟩
      · exact untouched
      · exact untouched
      · exact absurd verified (refused after (revised_ok revised))

end Archive

/-- A store is refused when another member is locked for the handle, and the files stay as they
were. Nothing is asked of the member that is stored: when the handle can read all others, the store
goes through and replaces it, though it may be locked too. -/
theorem locked_unless_overwritten {handle : Handle} (sound : handle.Sound) (host : Host)
    (member : String) (plaintext : Bytes) :
    (∀ other e, other ≠ member → handle.read other host.directory = .error e → e.isLock = true →
      ∃ e' host', handle.write member plaintext host = (.error e', host') ∧
        host'.directory = host.directory) ∧
    ∀ before made, handle.archive.contents host.directory = .ok before →
      handle.archive.CanSeal before → handle.archive.CanSave host.directory made →
      FittingPath member → (∀ other ∈ before.payloads.keys, FittingPath other) →
      (∀ other ∈ before.manifest.members.keys, other ≠ member →
        ∃ old, handle.read other host.directory = .ok old) →
      ∃ after written host', handle.write member plaintext host =
          (.ok (.describe plaintext handle.archive.password.isSome), host') ∧
        Stored handle.archive.password member plaintext before after ∧
        after.bytes = .ok written ∧ host'.directory.read handle.archive.path = .ok written := by
  simp only [sound.write_eq, sound.read_eq]
  refine ⟨fun other e apart unread lock => Archive.write_of_locked apart unread lock plaintext, ?_⟩
  intro before made found seals can fits fitting others
  simp only [Archive.read_eq found] at others
  obtain ⟨after, written, host', stored, change, -, bytes, read, -⟩ :=
    Archive.write_of_verified plaintext found seals can fits fitting fun _ change =>
      change.verify_of_others others
  exact ⟨after, written, host', stored, change, bytes, read⟩

theorem locked_unless_overwritten_sample :
    ∃ old, Contents.sample.bytes = .ok old ∧ Contents.ofBytes old = .ok Contents.sample ∧
      (Handle.opened Archive.openArchive).read "b"
        (Archive.hostHolding "storage.vault" old).directory = .error (.passwordRequired "b") ∧
      (∃ e host', (Handle.opened Archive.openArchive).write "frames/c" [1]
          (Archive.hostHolding "storage.vault" old) = (.error e, host') ∧
        host'.directory = (Archive.hostHolding "storage.vault" old).directory) ∧
      ∃ host', (Handle.opened Archive.openArchive).write "b" [1]
        (Archive.hostHolding "storage.vault" old) = (.ok (.describe [1] false), host') := by
  obtain ⟨old, bytes, readable⟩ := Contents.reread_of_fitting
    (Contents.check_eq_ok_iff.mp (by decide +kernel)) Contents.fitting_sample
    Contents.measured_sample
  have sound : (Handle.opened Archive.openArchive).Sound := Handle.sound_opened _
  let host := Archive.hostHolding "storage.vault" old
  have found : Archive.openArchive.contents host.directory = .ok Contents.sample :=
    (Archive.contents_of_read rfl).trans readable
  have reads : ∀ member, (Handle.opened Archive.openArchive).read member host.directory =
      Contents.sample.plaintext .noPassword member := by
    intro member
    rw [sound.read_eq]
    exact Archive.read_eq found member
  have locked : (Handle.opened Archive.openArchive).read "b" host.directory =
      .error (.passwordRequired "b") := by
    rw [reads]
    decide +kernel
  have others : ∀ other ∈ Contents.sample.manifest.members.keys, other ≠ "b" →
      ∃ plaintext, (Handle.opened Archive.openArchive).read other host.directory =
        .ok plaintext := by
    have names : Contents.sample.manifest.members.keys = ["b", "frames/\"a\""] := by
      decide +kernel
    intro other mem apart
    rw [names, List.mem_cons, List.mem_singleton, or_iff_right apart] at mem
    refine ⟨[], ?_⟩
    rw [reads, mem]
    decide +kernel
  have ready : Archive.openArchive.Ready host.directory :=
    ⟨.inl (by decide), ⟨["storage.vault"], rfl, rfl⟩, ⟨["storage.tmp"], rfl, rfl⟩⟩
  have refused := (locked_unless_overwritten sound host "frames/c" [1]).1 "b" _ (by decide) locked
    rfl
  obtain ⟨-, -, host', replaced, -⟩ := (locked_unless_overwritten sound host "b" [1]).2 _ _ found
    nofun ready.canSave (by decide +kernel) Contents.fitting_sample others
  exact ⟨old, bytes, readable, locked, refused, host', replaced⟩

end ObjectVault
