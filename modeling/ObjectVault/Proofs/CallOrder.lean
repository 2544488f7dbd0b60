import ObjectVault.Proofs.Overwriting
import ObjectVault.Proofs.WorkingFolder
import ObjectVault.Settings.Basic
import Mathlib.Data.List.Induction

namespace ObjectVault
open ObjectVault.Container ObjectVault.Directory

/-- A change of one member. -/
inductive Request
  | write (member : String) (plaintext : Bytes)
  | delete (member : String)

def Request.member : Request → String
  | .write member _ => member
  | .delete member => member

/-- The file that vaults are kept in unless the settings name another. -/
def vaultPath : String := Settings.default.path

def Handle.perform (handle : Handle) : Request → HostM ArchiveError MemberEntry
  | .write member plaintext => handle.write member plaintext
  | .delete member => handle.archive.delete member

/-- The handle after a request. -/
def Handle.after (handle : Handle) (host : Host) : Request → Handle
  | .write _ _ => handle.afterWrite host
  | .delete _ => handle

/-- A host with numbered handles, and the number of the one that made the last successful write. -/
structure Scene where
  host : Host
  handles : Nat → Handle
  writer : Option Nat

/-- Handles that were just opened, one for each archive. -/
def Scene.opened (host : Host) (archives : Nat → Archive) : Scene :=
  ⟨host, fun n => .opened (archives n), none⟩

/-- A request that is made through one of the handles. -/
structure Call where
  handle : Nat
  request : Request

namespace Call

def run (call : Call) (scene : Scene) : Except ArchiveError MemberEntry × Host :=
  (scene.handles call.handle).perform call.request scene.host

/-- The scene after a call, whether it succeeded or not. -/
def step (scene : Scene) (call : Call) : Scene where
  host := (call.run scene).2
  handles n :=
    if n = call.handle then (scene.handles n).after scene.host call.request else scene.handles n
  writer :=
    match (call.run scene).1, call.request with
    | .ok _, .write _ _ => some call.handle
    | _, _ => scene.writer

theorem host_step (scene : Scene) (call : Call) : (call.step scene).host = (call.run scene).2 := rfl

/-- Calls one after the other. -/
def runAll (scene : Scene) (calls : List Call) : Scene :=
  calls.foldl step scene

end Call

theorem inWorkingFolder_vaultPath : Archive.InWorkingFolder vaultPath :=
  ⟨⟨by decide, by decide⟩, ⟨by decide, by decide⟩, by decide, by decide⟩

/-- Nothing was written yet, or the last writer can read every member of the file. -/
inductive Trusted (d : Directory) : Option Archive → Prop
  | untouched (absent : d.has vaultPath = false) : Trusted d none
  | written {bytes : Bytes} {contents : Contents} {writer : Archive}
    (read : d.read vaultPath = .ok bytes) (holds : Contents.ofBytes bytes = .ok contents)
    (settled : ∀ member ∈ contents.payloads.keys, Settled member)
    (verified : contents.verify (contents.access writer.password) = .ok ()) :
    Trusted d (some writer)

theorem Trusted.of_sameAt {d d' : Directory} {last : Option Archive} (h : Trusted d last)
    (same : SameAt vaultPath d d') : Trusted d' last := by
  cases h with
  | untouched absent => exact .untouched (same.has.trans absent)
  | written read holds settled verified =>
    exact .written (same.read.trans read) holds settled verified

/-- The contents of a trusted file have settled names only. -/
theorem Trusted.settled {d : Directory} {last : Option Archive} (h : Trusted d last)
    {handle : Archive} (own : handle.path = vaultPath) {contents : Contents}
    (found : handle.contents d = .ok contents) :
    ∀ member ∈ contents.payloads.keys, Settled member := by
  cases h with
  | untouched absent =>
    rw [Archive.contents_of_missing (own ▸ absent)] at found
    cases found
    intro member mem
    cases mem
  | written read holds settled verified =>
    rw [Archive.contents_of_read (own ▸ read), holds] at found
    cases found
    exact settled

/-- What a successful call writes is read back as it was. -/
theorem trusted_of_saved {d : Directory} {contents : Contents} {written : Bytes} {writer : Archive}
    (bytes : contents.bytes = .ok written) (read : d.read vaultPath = .ok written)
    (sized : written.length < maxContent) (consistent : contents.Consistent)
    (settled : ∀ member ∈ contents.payloads.keys, Settled member)
    (verified : contents.verify (contents.access writer.password) = .ok ()) :
    Trusted d (some writer) :=
  .written read (Contents.ofBytes_bytes_of_settled bytes sized consistent settled) settled verified

theorem perform_error {handle : Handle} (sound : handle.Sound)
    (own : handle.archive.path = vaultPath) {request : Request} {host host' : Host}
    {e : ArchiveError}
    (h : handle.perform request host = (.error e, host')) :
    SameAt vaultPath host.directory host'.directory := by
  have place : Archive.InWorkingFolder handle.archive.path := own ▸ inWorkingFolder_vaultPath
  rw [← own]
  cases request with
  | write member plaintext =>
    rw [Handle.perform, sound.write_eq] at h
    exact Archive.write_error_sameAt place h
  | delete member => exact Archive.delete_error_sameAt place h

theorem Trusted.write {d : Directory} {last : Option Archive} (h : Trusted d last)
    {handle : Archive} (own : handle.path = vaultPath) {member : String} (settled : Settled member)
    {plaintext : Bytes} {entry : MemberEntry} {host host' : Host} (start : host.directory = d)
    (done : handle.write member plaintext host = (.ok entry, host'))
    (sized : ∀ written, host'.directory.read vaultPath = .ok written →
      written.length < maxContent) :
    Trusted host'.directory (some handle) := by
  obtain ⟨before, after, written, found, change, verified, bytes, read, -⟩ := Archive.write_ok done
  rw [own] at read
  have old := h.settled own (start ▸ found)
  exact trusted_of_saved bytes read (sized written read)
    (change.consistent (Archive.consistent_of_contents found))
    ((change.forall_keys Settled).mpr ⟨settled, old⟩) verified

theorem Trusted.delete {d : Directory} {last : Option Archive} (h : Trusted d last)
    {handle : Archive} (own : handle.path = vaultPath) {member : String} {entry : MemberEntry}
    {host host' : Host} (start : host.directory = d)
    (done : handle.delete member host = (.ok entry, host'))
    (sized : ∀ written, host'.directory.read vaultPath = .ok written →
      written.length < maxContent) :
    Trusted host'.directory last := by
  obtain ⟨before, written, found, listed, bytes, read⟩ := Archive.delete_ok done
  rw [own] at read
  cases h with
  | untouched absent =>
    rw [Archive.contents_of_missing (by rw [own, start]; exact absent)] at found
    cases found
    cases listed
  | written old holds settled verified =>
    rw [Archive.contents_of_read (by rw [own, start]; exact old), holds] at found
    cases found
    have consistent := (Contents.consistent_of_ofBytes holds).erase member
    refine trusted_of_saved bytes read (sized written read) consistent (fun other mem => ?_)
      (Contents.verify_erase verified member)
    exact settled other (Table.mem_keys_erase.mp mem).2

/-- All handles are on the vault file and keep right keys, and the file is trusted. -/
structure Scene.Sane (scene : Scene) : Prop where
  own : ∀ n, (scene.handles n).archive.path = vaultPath
  sound : ∀ n, (scene.handles n).Sound
  trusted : Trusted scene.host.directory (scene.writer.map fun n => (scene.handles n).archive)

theorem follows_after (handle : Handle) (host : Host) (request : Request) :
    handle.Follows (handle.after host request) := by
  cases request with
  | write member plaintext => exact Handle.follows_afterWrite handle host
  | delete member => exact .refl handle

theorem follows_step (scene : Scene) (call : Call) (n : Nat) :
    (scene.handles n).Follows ((call.step scene).handles n) := by
  simp only [Call.step]
  split
  · exact follows_after _ _ _
  · exact .refl _

/-- A call keeps the file trusted, whoever makes it and however it ends. -/
theorem Scene.Sane.trusted_step {scene : Scene} (h : scene.Sane) {call : Call}
    (settled : Settled call.request.member)
    (sized : ∀ written, (call.step scene).host.directory.read vaultPath = .ok written →
      written.length < maxContent) :
    Trusted (call.step scene).host.directory
      ((call.step scene).writer.map fun n => (scene.handles n).archive) := by
  have own := h.own call.handle
  have sound := h.sound call.handle
  cases ran : call.run scene with
  | mk result host =>
    cases result with
    | error e =>
      have same := h.trusted.of_sameAt (perform_error sound own ran)
      simpa [Call.step, ran] using same
    | ok entry =>
      cases request : call.request with
      | write member plaintext =>
        rw [request] at settled
        simp only [Call.step, ran, request] at sized ⊢
        rw [Call.run, request, Handle.perform, sound.write_eq] at ran
        exact h.trusted.write own settled rfl ran sized
      | delete member =>
        simp only [Call.step, ran, request] at sized ⊢
        rw [Call.run, request] at ran
        exact h.trusted.delete own rfl ran sized

theorem Scene.Sane.step {scene : Scene} (h : scene.Sane) {call : Call}
    (settled : Settled call.request.member)
    (sized : ∀ written, (call.step scene).host.directory.read vaultPath = .ok written →
      written.length < maxContent) : (call.step scene).Sane where
  own n := (congrArg Archive.path (follows_step scene call n).archive).trans (h.own n)
  sound n := (follows_step scene call n).sound (h.sound n)
  trusted := by
    simp only [(follows_step scene call _).archive]
    exact h.trusted_step settled sized

theorem runAll_concat (scene : Scene) (calls : List Call) (call : Call) :
    Call.runAll scene (calls ++ [call]) = call.step (Call.runAll scene calls) := by
  rw [Call.runAll, List.foldl_append]
  rfl

/-- No file of a run is too long for a 64-bit size. -/
def SizedRun (scene : Scene) (calls : List Call) : Prop :=
  ∀ front, front <+: calls → ∀ written,
    (Call.runAll scene front).host.directory.read vaultPath = .ok written →
      written.length < maxContent

/-- Any order of calls keeps the scene sane; the induction takes the last call off. -/
theorem sane_runAll {scene : Scene} {calls : List Call} (sane : scene.Sane)
    (settled : ∀ call ∈ calls, Settled call.request.member) (sized : SizedRun scene calls) :
    (Call.runAll scene calls).Sane := by
  induction calls using List.reverseRecOn with
  | nil => exact sane
  | append_singleton calls call ih =>
    have before := ih (fun c mem => settled c (List.mem_append_left _ mem))
      fun front part => sized front (part.trans (List.prefix_append _ _))
    have last := sized _ (List.prefix_refl _)
    rw [runAll_concat] at last ⊢
    exact before.step (settled call (by simp)) last

/-- The last writer of a trusted file, or anyone if there is none, reads every member. -/
theorem Trusted.checkIntegrity {d : Directory} {last : Option Archive} (h : Trusted d last)
    {archive : Archive} (own : archive.path = vaultPath)
    (writer : ∀ other, last = some other → archive.password = other.password) :
    ∃ contents, archive.contents d = .ok contents ∧
      contents.verify (contents.access archive.password) = .ok () := by
  cases h with
  | untouched absent => exact ⟨.empty, Archive.contents_of_missing (own ▸ absent), rfl⟩
  | @written _ contents other read holds settled verified =>
    refine ⟨contents, (Archive.contents_of_read (own ▸ read)).trans holds, ?_⟩
    rw [writer other rfl]
    exact verified

/-- Calls by differently keyed handles, in any order and some of them failing, leave no member that
cannot be read: a failing call leaves the file as it was, the handle that made the last successful
write passes the check, and so one password opens all members. -/
theorem last_writer_reads_all {host : Host} {archives : Nat → Archive} {calls : List Call}
    (absent : host.directory.has vaultPath = false)
    (own : ∀ n, (archives n).path = vaultPath)
    (normal : ∀ call ∈ calls, NormalPath call.request.member)
    (sized : SizedRun (.opened host archives) calls) :
    (∀ (call : Call) e host', call.run (Call.runAll (.opened host archives) calls) =
        (.error e, host') →
      SameAt vaultPath (Call.runAll (.opened host archives) calls).host.directory
        host'.directory) ∧
    (∀ n, (∀ writer, (Call.runAll (.opened host archives) calls).writer = some writer →
        n = writer) →
      ((Call.runAll (.opened host archives) calls).handles n).checkIntegrity
        (Call.runAll (.opened host archives) calls).host.directory = .ok ()) ∧
    ∃ password contents,
      (∀ iterations, (Archive.mk vaultPath password iterations).contents
        (Call.runAll (.opened host archives) calls).host.directory = .ok contents) ∧
      ∀ member ∈ contents.manifest.members.keys,
        ∃ plaintext, contents.plaintext (contents.access password) member = .ok plaintext := by
  have start : (Scene.opened host archives).Sane :=
    ⟨own, fun n => Handle.sound_opened _, .untouched absent⟩
  obtain ⟨own', sound, trusted⟩ :=
    sane_runAll start (fun call mem => (normal call mem).settled) sized
  generalize Call.runAll (.opened host archives) calls = scene at own' sound trusted ⊢
  refine ⟨fun call e host' failed => perform_error (sound _) (own' _) failed,
    fun n writer => ?_, ?_⟩
  · obtain ⟨contents, found, verified⟩ := trusted.checkIntegrity (own' n) fun other last => by
      obtain ⟨m, named, rfl⟩ := Option.map_eq_some_iff.mp last
      rw [writer m named]
    rw [(sound n).checkIntegrity_eq, Archive.checkIntegrity, found]
    exact verified
  · let opener : Archive :=
      ⟨vaultPath, scene.writer.bind fun n => (scene.handles n).archive.password, 0⟩
    have place : opener.path = vaultPath := rfl
    obtain ⟨contents, found, verified⟩ := trusted.checkIntegrity place fun other last => by
      obtain ⟨m, named, rfl⟩ := Option.map_eq_some_iff.mp last
      simp [opener, named]
    exact ⟨opener.password, contents, fun _ => found, Contents.verify_eq_ok_iff.mp verified⟩

/-- Archives at one place, of which two have passwords of their own and the others none. -/
def ownPassword (n : Nat) : Archive :=
  ⟨vaultPath, [some "one", some "two"].getD n none, 1⟩

def keyedScene : Scene :=
  .opened Archive.bareHost ownPassword

/-- A byte that was stored under a key. -/
def sealedNote (payload : Bytes) : Contents :=
  (Contents.empty.withKeyHeader ⟨List.replicate 16 0, 1⟩).put "notes/x"
    { Archive.storedByte with encrypted := true } payload

/-- The key header stays, and the byte takes the place of the old one. -/
theorem put_sealedNote (header : KeyHeader) (old payload : Bytes) :
    ((sealedNote old).withKeyHeader header).put "notes/x"
      { Archive.storedByte with encrypted := true } payload = sealedNote payload := rfl

theorem short_sealedNote {payload written : Bytes} (size : payload.length = 29)
    (bytes : (sealedNote payload).bytes = .ok written) : written.length < maxContent := by
  have manifest : (Json.prettyChars 0 (sealedNote []).manifest.toJson).length < 2 ^ 32 := by
    decide +kernel
  have payloads : (sealedNote payload).payloads.entries = [("notes/x", payload)] := rfl
  have brief : (sealedNote payload).Brief := ⟨manifest, by simp [payloads, size, blockSize]⟩
  exact brief.length_lt bytes

/-- A file with one sealed byte. -/
structure HoldsNote (d : Directory) (payload : Bytes) : Prop where
  size : payload.length = 29
  read : ∃ written, (sealedNote payload).bytes = .ok written ∧ d.read vaultPath = .ok written

theorem HoldsNote.short {d : Directory} {payload written : Bytes} (h : HoldsNote d payload)
    (read : d.read vaultPath = .ok written) : written.length < maxContent := by
  obtain ⟨own, bytes, read'⟩ := h.read
  cases read.symm.trans read'
  exact short_sealedNote h.size bytes

theorem HoldsNote.contents {d : Directory} {payload : Bytes} (h : HoldsNote d payload)
    {archive : Archive} (own : archive.path = vaultPath) :
    archive.contents d = .ok (sealedNote payload) := by
  obtain ⟨written, bytes, read⟩ := h.read
  have consistent : (sealedNote payload).Consistent := by
    refine ⟨rfl, fun other => ?_⟩
    simp only [sealedNote, Contents.put, Table.contains, Table.get?_insert]
    split <;> rfl
  have names : (sealedNote payload).payloads.keys = ["notes/x"] := rfl
  rw [Archive.contents_of_read (own ▸ read)]
  exact Contents.ofBytes_bytes_of_settled bytes (h.short read) consistent
    (names ▸ List.forall_mem_singleton.mpr (by decide))

/-- The archives find a key where a vault is new, and where the byte is the one thing that is
sealed. -/
theorem holdsNote_of_step {scene : Scene} {n : Nat} {before : Contents}
    (same : scene.handles n = .opened (ownPassword n))
    (locked : (ownPassword n).password.isSome = true)
    (found : (ownPassword n).contents scene.host.directory = .ok before)
    (put : ∀ payload, (before.withKeyHeader ((ownPassword n).newHeader scene.host)).put "notes/x"
      { Archive.storedByte with encrypted := true } payload = sealedNote payload)
    (seals : (ownPassword n).CanSeal before) (ready : (ownPassword n).Ready scene.host.directory)
    (alone : ∀ other ∈ before.manifest.members.keys, other = "notes/x")
    (own : ∀ other ∈ before.payloads.keys, other = "notes/x") :
    ∃ payload, HoldsNote (Call.step scene ⟨n, .write "notes/x" [49]⟩).host.directory payload ∧
      (Call.step scene ⟨n, .write "notes/x" [49]⟩).writer = some n ∧
      Refiled scene.host.directory
        (Call.step scene ⟨n, .write "notes/x" [49]⟩).host.directory := by
  have fits : FittingPath "notes/x" := by decide
  obtain ⟨after, written, host', stored, -, -, -, -, changed⟩ :=
    Archive.write_of_verified [49] found seals ready.canSave fits
      (fun other mem => own other mem ▸ fits) fun _ change =>
        change.verify_of_others fun other mem apart => absurd (alone other mem) apart
  obtain ⟨payload, written, size, bytes, read⟩ :=
    Archive.contents_of_sealed_write locked found stored
  have described : MemberEntry.describe [49] true =
      { Archive.storedByte with encrypted := true } := by
    rw [← Archive.describe_byte]
    rfl
  have ran : Call.run ⟨n, .write "notes/x" [49]⟩ scene = (.ok (.describe [49] true), host') := by
    rw [Call.run, same, Handle.perform, (Handle.sound_opened _).write_eq, ← locked]
    exact stored
  rw [described, put] at bytes
  simp only [Call.step, ran]
  exact ⟨payload, ⟨size, written, bytes, read⟩, trivial, changed⟩

/-- The byte is sealed with the first password. A handle without one cannot add a byte to it, and
one with the other password puts its own in its place. -/
def sealedCalls : List Call :=
  [⟨0, .write "notes/x" [49]⟩, ⟨2, .write "notes/y" [50]⟩, ⟨1, .write "notes/x" [49]⟩]

theorem ready_ownPassword (n : Nat) : (ownPassword n).Ready Archive.bareHost.directory := by
  have root : parentComponents vaultPath = [] := by decide
  have file : Archive.bareHost.directory.Writable vaultPath :=
    ⟨["storage.vault"], by decide, by decide⟩
  have temporary : Archive.bareHost.directory.Writable (Archive.temporaryPath vaultPath) :=
    ⟨["storage.tmp"], by decide, by decide⟩
  exact ⟨.inl root, file, temporary⟩

/-- A handle without a password cannot check what is sealed, and so it cannot add to it. -/
theorem refused_of_step {scene : Scene} {payload : Bytes}
    (same : scene.handles 2 = .opened (ownPassword 2))
    (held : HoldsNote scene.host.directory payload) :
    ∃ e host', Call.run ⟨2, .write "notes/y" [50]⟩ scene = (.error e, host') ∧
      host'.directory = scene.host.directory := by
  have unread : (ownPassword 2).read "notes/x" scene.host.directory =
      .error (.passwordRequired "notes/x") :=
    (Archive.read_eq (held.contents rfl) "notes/x").trans rfl
  obtain ⟨e, host', failed, untouched⟩ :=
    Archive.write_of_locked (by decide : "notes/x" ≠ "notes/y") unread rfl [50]
  refine ⟨e, host', ?_, untouched⟩
  rw [Call.run, same, Handle.perform, (Handle.sound_opened _).write_eq]
  exact failed

theorem runAll_sealedCalls :
    (∃ payload, HoldsNote (Call.runAll keyedScene (sealedCalls.take 1)).host.directory payload) ∧
    (∃ payload, HoldsNote (Call.runAll keyedScene (sealedCalls.take 2)).host.directory payload) ∧
    (∃ payload, HoldsNote (Call.runAll keyedScene sealedCalls).host.directory payload) ∧
    (∃ e host', Call.run ⟨2, .write "notes/y" [50]⟩ (Call.runAll keyedScene (sealedCalls.take 1)) =
      (.error e, host')) ∧
    (Call.runAll keyedScene sealedCalls).writer = some 1 := by
  let first := Call.runAll keyedScene (sealedCalls.take 1)
  let second := Call.runAll keyedScene (sealedCalls.take 2)
  obtain ⟨payload, held, -, changed⟩ : ∃ payload, HoldsNote first.host.directory payload ∧ _ :=
    @holdsNote_of_step keyedScene 0 _ rfl rfl (Archive.contents_of_missing (by decide))
      (fun _ => rfl) (fun _ => by decide) (ready_ownPassword 0) nofun nofun
  obtain ⟨e, host', failed, untouched⟩ := @refused_of_step first payload rfl held
  have same : second.host.directory = first.host.directory := by
    show (Call.step first ⟨2, .write "notes/y" [50]⟩).host.directory = _
    rw [Call.host_step, failed, untouched]
  have still : HoldsNote second.host.directory payload := by
    rw [same]
    exact held
  have ready : (ownPassword 1).Ready second.host.directory := by
    rw [same]
    exact (ready_ownPassword 1).refiled changed
  have seals : (ownPassword 1).CanSeal (sealedNote payload) :=
    fun _ => (by decide : (1 : UInt32) ≠ 0)
  obtain ⟨payload', held', writer, -⟩ := @holdsNote_of_step second 1 _ rfl rfl
    (still.contents rfl) (put_sealedNote _ _) seals ready
    (List.forall_mem_singleton.mpr rfl) (List.forall_mem_singleton.mpr rfl)
  exact ⟨⟨payload, held⟩, ⟨payload, still⟩, ⟨payload', held'⟩, ⟨e, host', failed⟩, writer⟩

theorem sizedRun_sealedCalls : SizedRun keyedScene sealedCalls := by
  obtain ⟨⟨_, one⟩, ⟨_, two⟩, ⟨_, three⟩, -, -⟩ := runAll_sealedCalls
  intro front part written read
  have mem : front ∈ [[], sealedCalls.take 1, sealedCalls.take 2, sealedCalls] :=
    (List.mem_inits front sealedCalls).mpr part
  simp only [List.mem_cons, List.not_mem_nil, or_false] at mem
  rcases mem with rfl | rfl | rfl | rfl
  · cases read
  · exact one.short read
  · exact two.short read
  · exact three.short read

/-- A call fails because it has no key and changes nothing. The handle with the key of the last
write passes the check, and the one without a key does not. -/
theorem last_writer_reads_all_sealed :
    (∃ e host', Call.run ⟨2, .write "notes/y" [50]⟩ (Call.runAll keyedScene (sealedCalls.take 1)) =
        (.error e, host') ∧
      SameAt vaultPath (Call.runAll keyedScene (sealedCalls.take 1)).host.directory
        host'.directory) ∧
    (Call.runAll keyedScene sealedCalls).writer = some 1 ∧
    ((Call.runAll keyedScene sealedCalls).handles 1).checkIntegrity
      (Call.runAll keyedScene sealedCalls).host.directory = .ok () ∧
    (ownPassword 2).checkIntegrity (Call.runAll keyedScene sealedCalls).host.directory =
      .error (.passwordRequired "notes/x") := by
  obtain ⟨-, -, ⟨payload, held⟩, ⟨e, host', failed⟩, writer⟩ := runAll_sealedCalls
  have normal : ∀ call ∈ sealedCalls, NormalPath call.request.member := by decide
  have part : sealedCalls.take 1 <+: sealedCalls := List.take_prefix _ _
  have first := @last_writer_reads_all Archive.bareHost ownPassword (sealedCalls.take 1)
    (by decide) (fun _ => rfl) (fun call mem => normal call (part.subset mem))
    fun front inner => sizedRun_sealedCalls front (inner.trans part)
  have whole := @last_writer_reads_all Archive.bareHost ownPassword sealedCalls (by decide)
    (fun _ => rfl) normal sizedRun_sealedCalls
  refine ⟨⟨e, host', failed, first.1 _ e host' failed⟩, writer, whole.2.1 1 fun n last => ?_, ?_⟩
  · exact Option.some.inj (writer.symm.trans last)
  · rw [Archive.checkIntegrity, held.contents rfl]
    rfl

end ObjectVault
