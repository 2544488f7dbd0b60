import ObjectVault.Proofs.Refiling
import ObjectVault.Proofs.Storing

namespace ObjectVault
open ObjectVault.Text ObjectVault.Container ObjectVault.Directory

/-- A path that a header can name. -/
def Named (path : String) : Prop :=
  ∃ name, nameBytes (Contents.dataFolder ++ path) = .ok name

/-- A path that a header holds, and as it is. -/
structure HeldPath (path : String) : Prop where
  settled : Settled path
  named : Named path

theorem FittingPath.held {path : String} (h : FittingPath path) : HeldPath path :=
  ⟨h.toNormalPath.settled, _, nameBytes_of_fitting h⟩

/-- A key header that is there stays when a member is stored, and with it what opens the members. -/
theorem Stored.access_eq {password : Option String} {member : String} {plaintext : Bytes}
    {before after : Contents} (h : Stored password member plaintext before after)
    (keyed : before.access password ≠ .noKeyHeader) :
    after.access password = before.access password := by
  cases password with
  | none => rfl
  | some word =>
    cases header : before.manifest.key with
    | none => exact absurd (by rw [Contents.access, header]; rfl) keyed
    | some header' => rw [Contents.access, Contents.access, header, h.key header' header]

/-- A member reads as before when another one was stored, unless it was sealed without a header. -/
theorem Stored.plaintext_other {password : Option String} {member other : String}
    {plaintext : Bytes} {before after : Contents}
    (h : Stored password member plaintext before after) (apart : other ≠ member)
    (keyed : before.plaintext (before.access password) other ≠ .error (.invalid .noKeyHeader)) :
    after.plaintext (after.access password) other =
      before.plaintext (before.access password) other := by
  obtain ⟨payload, payloads⟩ := h.payloads
  have entries : after.manifest.members.get? other = before.manifest.members.get? other := by
    rw [h.members, Table.get?_insert, if_neg apart]
  have data : after.payloads.get? other = before.payloads.get? other := by
    rw [payloads, Table.get?_insert, if_neg apart]
  cases listed : before.manifest.members.get? other with
  | none => simp only [Contents.plaintext, entries, listed]
  | some entry =>
    cases found : before.payloads.get? other with
    | none => simp only [Contents.plaintext, entries, data, listed, found]
    | some own =>
      have old : before.plaintext (before.access password) other = _ :=
        Contents.plaintext_eq listed found
      rw [Contents.plaintext_eq (entries.trans listed) (data.trans found), old]
      rw [old] at keyed
      by_cases locked : entry.encrypted = true
      · have header : before.access password ≠ .noKeyHeader := by
          intro headerless
          rw [headerless, Access.unsealed, if_pos locked] at keyed
          exact keyed rfl
        rw [h.access_eq header]
      · simp only [Access.unsealed, if_neg locked]

/-- Whoever can read the other members can read all of them when a member was stored. -/
theorem Stored.verify_of_others {password : Option String} {member : String} {plaintext : Bytes}
    {before after : Contents} (h : Stored password member plaintext before after)
    (others : ∀ other ∈ before.manifest.members.keys, other ≠ member →
      ∃ old, before.plaintext (before.access password) other = .ok old) :
    after.verify (after.access password) = .ok () := by
  rw [Contents.verify_eq_ok_iff]
  intro other mem
  by_cases same : other = member
  · rw [same]
    exact ⟨plaintext, h.opens⟩
  · rw [h.members, ← Table.contains_iff, Table.contains, Table.get?_insert, if_neg same] at mem
    obtain ⟨old, read⟩ := others other (Table.contains_iff.mp mem) same
    refine ⟨old, ?_⟩
    rw [h.plaintext_other same (by rw [read]; rintro ⟨⟩), read]

theorem Stored.verify {password : Option String} {member : String} {plaintext : Bytes}
    {before after : Contents} (h : Stored password member plaintext before after)
    (verified : before.verify (before.access password) = .ok ()) :
    after.verify (after.access password) = .ok () :=
  h.verify_of_others fun other mem _ => Contents.verify_eq_ok_iff.mp verified other mem

namespace Archive

/-- The number of iterations that the key of the archive takes. -/
def iterationsFor (archive : Archive) (contents : Contents) : UInt32 :=
  (contents.manifest.key.map (·.iterations)).getD archive.iterations

/-- A key needs at least one iteration. -/
def CanSeal (archive : Archive) (contents : Contents) : Prop :=
  archive.password.isSome = true → archive.iterationsFor contents ≠ 0

theorem keyed_isOk (archive : Archive) (contents : Contents) (host : Host) :
    ∃ keyed host' header, archive.keyed contents host = (.ok keyed, host') ∧
      keyed.manifest.key = some header ∧ header.iterations = archive.iterationsFor contents := by
  rw [Archive.keyed]
  cases found : contents.manifest.key with
  | some header => exact ⟨contents, host, header, rfl, found, by simp [iterationsFor, found]⟩
  | none =>
    refine ⟨_, _, _, rfl, rfl, ?_⟩
    simp [found, iterationsFor]

theorem access_of_iterations {contents : Contents} {password : String} {header : KeyHeader}
    (found : contents.manifest.key = some header) (iterated : header.iterations ≠ 0) :
    ∃ key, ∀ member, (contents.access (some password)).key member = .ok key := by
  rw [Contents.access, found, Access.ofPassword, Access.ofHeader, if_neg iterated]
  exact ⟨_, fun _ => rfl⟩

/-- With a key that can be made, a member can be put into the contents. -/
theorem CanSeal.revised {archive : Archive} {contents : Contents} (h : archive.CanSeal contents)
    (member : String) (plaintext : Bytes) (host : Host) :
    ∃ after host', archive.revised member plaintext contents host = (.ok after, host') ∧
      archive.CanSeal after := by
  cases locked : archive.password with
  | none =>
    refine ⟨contents.put member (.describe plaintext false) plaintext, host, ?_, ?_⟩
    · simp only [Archive.revised, Archive.revisedBy, locked]
      rfl
    · intro given
      simp [locked] at given
  | some password =>
    obtain ⟨keyed, between, header, made, found, count⟩ := archive.keyed_isOk contents host
    have iterated : header.iterations ≠ 0 := by
      rw [count]
      exact h (by simp [locked])
    obtain ⟨key, derived⟩ := access_of_iterations found iterated
    obtain ⟨nonce, host', drawn⟩ : ∃ nonce host',
        (HostM.draw SealKey.nonceLength : HostM ArchiveError Bytes) between = (.ok nonce, host') :=
      ⟨_, _, HostM.draw_apply _ _⟩
    refine ⟨keyed.put member (.describe plaintext true) (key.sealPayload nonce plaintext), host',
      ?_, fun _ => ?_⟩
    · simp only [Archive.revised, Archive.revisedBy, locked, Option.isSome_some, ↓reduceIte]
      rw [Effect.bind_of_ok made, Effect.lift_bind_of_ok (derived member),
        Effect.bind_of_ok drawn]
      rfl
    · rw [iterationsFor, Contents.put, found]
      exact iterated

/-- The archive holds contents under paths that it keeps, and its password opens them all. -/
structure Maintains (archive : Archive) (d : Directory) (contents : Contents) : Prop where
  found : archive.contents d = .ok contents
  verified : contents.verify (contents.access archive.password) = .ok ()
  seals : archive.CanSeal contents
  held : ∀ member ∈ contents.payloads.keys, HeldPath member

/-- The archive holds contents under fitting paths, and its password opens them all. -/
structure Serves (archive : Archive) (d : Directory) (contents : Contents) : Prop where
  found : archive.contents d = .ok contents
  verified : contents.verify (contents.access archive.password) = .ok ()
  seals : archive.CanSeal contents
  fitting : ∀ member ∈ contents.payloads.keys, FittingPath member

theorem Serves.maintains {archive : Archive} {d : Directory} {contents : Contents}
    (h : archive.Serves d contents) : archive.Maintains d contents :=
  ⟨h.found, h.verified, h.seals, fun member mem => (h.fitting member mem).held⟩

/-- The file of the archive is what some contents are written as. -/
def Written (archive : Archive) (d : Directory) : Prop :=
  ∃ (contents : Contents) (written : Bytes), contents.bytes = .ok written ∧
    written.length < maxContent ∧ d.read archive.path = .ok written

/-- More bytes at the end of files change nothing about an archive that was written. -/
theorem Written.contents_of_extends {archive : Archive} {d d' : Directory} (h : archive.Written d)
    (more : d.Extends d') : archive.contents d' = archive.contents d := by
  obtain ⟨contents, written, bytes, sized, read⟩ := h
  obtain ⟨extra, longer⟩ := more archive.path written read
  rw [contents_of_read read, contents_of_read longer]
  exact Contents.ofBytes_append bytes (Contents.measured_of_bytes bytes sized) extra

/-- A member is stored when all members can be read afterwards and the file can be written. -/
theorem write_of_named {archive : Archive} {host : Host} {made : Directory} {before : Contents}
    {member : String} (plaintext : Bytes) (found : archive.contents host.directory = .ok before)
    (seals : archive.CanSeal before) (can : archive.CanSave host.directory made)
    (named : Named member) (names : ∀ other ∈ before.payloads.keys, Named other)
    (verified : ∀ after, Stored archive.password member plaintext before after →
      after.verify (after.access archive.password) = .ok ()) :
    ∃ after written host', archive.write member plaintext host =
        (.ok (.describe plaintext archive.password.isSome), host') ∧
      Stored archive.password member plaintext before after ∧ archive.CanSeal after ∧
      after.bytes = .ok written ∧ host'.directory.read archive.path = .ok written ∧
      Refiled made host'.directory := by
  obtain ⟨after, revised, done, seals'⟩ := seals.revised member plaintext host
  have untouched := directory_of_revised done
  have change := revised_ok done
  obtain ⟨written, bytes⟩ := Contents.bytes_isOk ((change.forall_keys Named).mpr ⟨named, names⟩)
  obtain ⟨host', saved, read, changed⟩ := (untouched ▸ can).save bytes
  refine ⟨after, written, host', ?_, change, seals', bytes, read, changed⟩
  rw [Archive.write_eq, Effect.bind_of_ok (HostM.look_of_ok found), Effect.bind_of_ok done,
    Effect.lift_bind_of_ok (verified after change), Effect.bind_of_ok saved]
  rfl

theorem write_of_verified {archive : Archive} {host : Host} {made : Directory} {before : Contents}
    {member : String} (plaintext : Bytes) (found : archive.contents host.directory = .ok before)
    (seals : archive.CanSeal before) (can : archive.CanSave host.directory made)
    (fits : FittingPath member) (fitting : ∀ other ∈ before.payloads.keys, FittingPath other)
    (verified : ∀ after, Stored archive.password member plaintext before after →
      after.verify (after.access archive.password) = .ok ()) :
    ∃ after written host', archive.write member plaintext host =
        (.ok (.describe plaintext archive.password.isSome), host') ∧
      Stored archive.password member plaintext before after ∧ archive.CanSeal after ∧
      after.bytes = .ok written ∧ host'.directory.read archive.path = .ok written ∧
      Refiled made host'.directory :=
  write_of_named plaintext found seals can fits.held.named
    (fun other mem => (fitting other mem).held.named) verified

/-- A member can be stored, and the archive keeps its paths. -/
theorem Maintains.write {archive : Archive} {host : Host} {made : Directory} {before : Contents}
    {member : String} {plaintext : Bytes} (h : archive.Maintains host.directory before)
    (can : archive.CanSave host.directory made) (held : HeldPath member)
    (sized : ∀ written, (archive.write member plaintext host).2.directory.read archive.path =
      .ok written → written.length < maxContent) :
    ∃ after host', archive.write member plaintext host =
        (.ok (.describe plaintext archive.password.isSome), host') ∧
      Stored archive.password member plaintext before after ∧
      archive.Maintains host'.directory after ∧ Refiled made host'.directory ∧
      archive.Written host'.directory := by
  obtain ⟨after, written, host', stored, change, seals, bytes, read, changed⟩ :=
    write_of_named plaintext h.found h.seals can held.named
      (fun other mem => (h.held other mem).named) fun _ change => change.verify h.verified
  have keeps : ∀ other ∈ after.payloads.keys, HeldPath other :=
    (change.forall_keys HeldPath).mpr ⟨held, h.held⟩
  rw [stored] at sized
  have reread := Contents.ofBytes_bytes_of_settled bytes (sized written read)
    (change.consistent (consistent_of_contents h.found)) fun other mem => (keeps other mem).settled
  exact ⟨after, host', stored, change,
    ⟨(contents_of_read read).trans reread, change.verify h.verified, seals, keeps⟩, changed,
    after, written, bytes, sized written read, read⟩

/-- A member can be stored, and the archive serves on. -/
theorem Serves.write {archive : Archive} {host : Host} {made : Directory} {before : Contents}
    {member : String} {plaintext : Bytes} (h : archive.Serves host.directory before)
    (can : archive.CanSave host.directory made) (fits : FittingPath member)
    (sized : ∀ written, (archive.write member plaintext host).2.directory.read archive.path =
      .ok written → written.length < maxContent) :
    ∃ after host', archive.write member plaintext host =
        (.ok (.describe plaintext archive.password.isSome), host') ∧
      Stored archive.password member plaintext before after ∧
      archive.Serves host'.directory after ∧ Refiled made host'.directory ∧
      archive.Written host'.directory := by
  obtain ⟨after, host', stored, change, again, changed, written⟩ :=
    h.maintains.write can fits.held sized
  exact ⟨after, host', stored, change, ⟨again.found, again.verified, again.seals,
    (change.forall_keys FittingPath).mpr ⟨fits, h.fitting⟩⟩, changed, written⟩

theorem Maintains.held_erase {archive : Archive} {d : Directory} {contents : Contents}
    (h : archive.Maintains d contents) (member : String) :
    ∀ other ∈ (contents.erase member).payloads.keys, HeldPath other :=
  fun other mem => h.held other (Table.mem_keys_erase.mp mem).2

/-- A member can be deleted, and the file is written without it. -/
theorem Maintains.deletes {archive : Archive} {host : Host} {made : Directory} {before : Contents}
    {member : String} {entry : MemberEntry} (h : archive.Maintains host.directory before)
    (can : archive.CanSave host.directory made)
    (listed : before.manifest.members.get? member = some entry) :
    ∃ written host', archive.delete member host = (.ok entry, host') ∧
      (before.erase member).bytes = .ok written ∧
      host'.directory.read archive.path = .ok written ∧ Refiled made host'.directory := by
  obtain ⟨written, bytes⟩ := Contents.bytes_isOk fun other mem =>
    (h.held_erase member other mem).named
  obtain ⟨host', saved, read, changed⟩ := can.save bytes
  refine ⟨written, host', ?_, bytes, read, changed⟩
  rw [Archive.delete, Effect.bind_of_ok (HostM.look_of_ok h.found), listed]
  exact Effect.bind_of_ok saved

/-- A member can be deleted, and the archive keeps the other paths. -/
theorem Maintains.delete {archive : Archive} {host : Host} {made : Directory} {before : Contents}
    {member : String} {entry : MemberEntry} (h : archive.Maintains host.directory before)
    (can : archive.CanSave host.directory made)
    (listed : before.manifest.members.get? member = some entry)
    (sized : ∀ written, (archive.delete member host).2.directory.read archive.path =
      .ok written → written.length < maxContent) :
    ∃ host', archive.delete member host = (.ok entry, host') ∧
      archive.Maintains host'.directory (before.erase member) ∧ Refiled made host'.directory ∧
      archive.Written host'.directory := by
  obtain ⟨written, host', deleted, bytes, read, changed⟩ := h.deletes can listed
  rw [deleted] at sized
  have reread := Contents.ofBytes_bytes_of_settled bytes (sized written read)
    ((consistent_of_contents h.found).erase member) fun other mem =>
      (h.held_erase member other mem).settled
  exact ⟨host', deleted, ⟨(contents_of_read read).trans reread,
    Contents.verify_erase h.verified member, h.seals, h.held_erase member⟩, changed,
    before.erase member, written, bytes, sized written read, read⟩

theorem Serves.delete {archive : Archive} {host : Host} {made : Directory} {before : Contents}
    {member : String} {entry : MemberEntry} (h : archive.Serves host.directory before)
    (can : archive.CanSave host.directory made)
    (listed : before.manifest.members.get? member = some entry)
    (sized : ∀ written, (archive.delete member host).2.directory.read archive.path =
      .ok written → written.length < maxContent) :
    ∃ host', archive.delete member host = (.ok entry, host') ∧
      archive.Serves host'.directory (before.erase member) ∧ Refiled made host'.directory := by
  obtain ⟨host', deleted, again, changed, -⟩ := h.maintains.delete can listed sized
  exact ⟨host', deleted, ⟨again.found, again.verified, again.seals,
    fun other mem => h.fitting other (Table.mem_keys_erase.mp mem).2⟩, changed⟩

/-- Without a password, members are stored as they are, and so it is known what the file holds. -/
theorem Serves.put {archive : Archive} {host : Host} {made : Directory} {before : Contents}
    {member : String} {plaintext : Bytes} (h : archive.Serves host.directory before)
    (unlocked : archive.password = none) (can : archive.CanSave host.directory made)
    (fits : FittingPath member)
    (brief : (before.put member (.describe plaintext false) plaintext).Brief) :
    ∃ host', archive.write member plaintext host = (.ok (.describe plaintext false), host') ∧
      archive.Serves host'.directory (before.put member (.describe plaintext false) plaintext) ∧
      (∀ written, host'.directory.read archive.path = .ok written → written.length < maxContent) ∧
      Refiled made host'.directory := by
  obtain ⟨_, _, host', stored, -⟩ := write_of_verified plaintext h.found h.seals can fits h.fitting
    fun _ change => change.verify h.verified
  obtain ⟨written, bytes, read⟩ := contents_of_write unlocked h.found stored
  have sized : ∀ own, host'.directory.read archive.path = .ok own → own.length < maxContent := by
    intro own again
    cases read.symm.trans again
    exact brief.length_lt bytes
  obtain ⟨after, _, again, -, serves, changed, -⟩ :=
    h.write can fits (by rw [stored]; exact sized)
  obtain rfl := congrArg Prod.snd (stored.symm.trans again)
  have names := Contents.forall_keys_put (p := Settled) fits.toNormalPath.settled
    (fun other mem => (h.fitting other mem).toNormalPath.settled) (.describe plaintext false)
    plaintext
  have reread := Contents.ofBytes_bytes_of_settled bytes (sized written read)
    ((consistent_of_contents h.found).put _ _ _) names
  obtain rfl := Except.ok.inj (serves.found.symm.trans ((contents_of_read read).trans reread))
  rw [unlocked] at stored
  exact ⟨host', stored, serves, sized, changed⟩

/-- Brief contents are left as a short file where a member is deleted. -/
theorem Serves.erase {archive : Archive} {host : Host} {made : Directory} {before : Contents}
    {member : String} {entry : MemberEntry} (h : archive.Serves host.directory before)
    (can : archive.CanSave host.directory made)
    (listed : before.manifest.members.get? member = some entry)
    (brief : (before.erase member).Brief) :
    ∃ host', archive.delete member host = (.ok entry, host') ∧
      archive.Serves host'.directory (before.erase member) ∧
      (∀ written, host'.directory.read archive.path = .ok written → written.length < maxContent) ∧
      Refiled made host'.directory := by
  obtain ⟨written, host', deleted, bytes, read, -⟩ := h.maintains.deletes can listed
  have sized : ∀ own, host'.directory.read archive.path = .ok own → own.length < maxContent := by
    intro own again
    cases read.symm.trans again
    exact brief.length_lt bytes
  obtain ⟨_, again, serves, changed⟩ := h.delete can listed (by rw [deleted]; exact sized)
  obtain rfl := congrArg Prod.snd (deleted.symm.trans again)
  exact ⟨host', deleted, serves, sized, changed⟩

end Archive
end ObjectVault
