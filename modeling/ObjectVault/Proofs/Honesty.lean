import ObjectVault.Proofs.Issues

namespace ObjectVault
open ObjectVault.Command ObjectVault.Container

namespace Contents
variable {password : Option String} {contents before after : Contents} {member : String}
  {plaintext : Bytes}

/-- Each member that the manifest lists can be read, and is what the manifest says. -/
def Described (password : Option String) (contents : Contents) : Prop :=
  ∀ member entry, contents.manifest.members.get? member = some entry →
    ∃ plaintext, contents.plaintext (contents.access password) member = .ok plaintext ∧
      entry = .describe plaintext password.isSome

/-- The checksums that the manifest has of a member. -/
def sums (contents : Contents) (member : String) : Option Checksums :=
  (contents.manifest.members.get? member).map (·.checksums)

theorem described_empty (password : Option String) : Described password .empty :=
  fun _ _ listed => nomatch listed

theorem Described.stored (h : Described password before)
    (change : Stored password member plaintext before after) : Described password after := by
  intro other entry listed
  rw [change.members, Table.get?_insert] at listed
  split at listed
  · next same =>
    cases listed
    rw [same]
    exact ⟨plaintext, change.opens, rfl⟩
  · next apart =>
    obtain ⟨old, read, same⟩ := h other entry listed
    refine ⟨old, ?_, same⟩
    rw [change.plaintext_other apart (by rw [read]; exact nofun), read]

theorem Described.erase (h : Described password contents) (member : String) :
    Described password (contents.erase member) := by
  intro other entry listed
  rw [Contents.erase, Table.get?_erase] at listed
  split at listed
  · cases listed
  · next apart =>
    obtain ⟨plaintext, read, same⟩ := h other entry listed
    exact ⟨plaintext, (plaintext_erase apart).trans read, same⟩

theorem Described.storedAll {deposits : List Deposit} (h : Described password before)
    (change : StoredAll password deposits before after) : Described password after := by
  induction change with
  | nil => exact h
  | cons first old rest ih => exact ih (h.stored first)

theorem forall_keys_erase {p : String → Prop} (h : ∀ other ∈ contents.payloads.keys, p other)
    (member : String) : ∀ other ∈ (contents.erase member).payloads.keys, p other :=
  fun other mem => h other (Table.mem_keys_erase.mp mem).2

end Contents

namespace Archive
variable {archive : Archive} {d d' : Directory} {contents : Contents}

/-- The session knows what is in the archive, which is described truthfully and can be read. -/
structure Honest (archive : Archive) (d : Directory) (contents : Contents) : Prop where
  owns : archive.Owns d contents
  described : contents.Described archive.password
  fitting : ∀ member ∈ contents.payloads.keys, FittingPath member

theorem Honest.logged {log : Option String} (h : archive.Honest d contents)
    (logged : Logged log d d') : archive.Honest d' contents :=
  ⟨h.owns.logged logged, h.described, h.fitting⟩

theorem Honest.settled (h : archive.Honest d contents) :
    ∀ member ∈ contents.payloads.keys, Settled member :=
  fun member mem => (h.fitting member mem).settled

theorem Honest.write {host : Host} {member : String} (h : archive.Honest host.directory contents)
    (fits : FittingPath member) (plaintext : Bytes)
    (short : archive.Short (archive.write member plaintext host).2.directory) :
    ∃ after, archive.Honest (archive.write member plaintext host).2.directory after := by
  have fitting : ∀ after, Stored archive.password member plaintext contents after →
      ∀ other ∈ after.payloads.keys, FittingPath other :=
    fun after change => (change.forall_keys FittingPath).mpr ⟨fits, h.fitting⟩
  rcases h.owns.write (fun after change => .inl (Contents.bytes_of_fitting (fitting after change)))
    short rfl with same | ⟨after, change, owns⟩
  · exact ⟨contents, same, h.described, h.fitting⟩
  · exact ⟨after, owns, h.described.stored change, fitting after change⟩

theorem Honest.delete {host : Host} (h : archive.Honest host.directory contents) (member : String)
    (short : archive.Short (archive.delete member host).2.directory) :
    ∃ after, archive.Honest (archive.delete member host).2.directory after := by
  have fitting := Contents.forall_keys_erase h.fitting member
  rcases h.owns.delete (.inl (Contents.bytes_of_fitting fitting)) short rfl with same | owns
  · exact ⟨contents, same, h.described, h.fitting⟩
  · exact ⟨_, owns, h.described.erase member, fitting⟩

end Archive

/-- All paths that a plan stores under fit. -/
def Command.Plan.Fits : Plan → Prop
  | .store targets => ∀ target ∈ targets, FittingPath target.1
  | .load _ | .view _ _ | .delete _ | .verify _ => True

instance (plan : Plan) : Decidable plan.Fits :=
  match plan with
  | .store targets => inferInstanceAs (Decidable (∀ target ∈ targets, FittingPath target.1))
  | .load _ | .view _ _ | .delete _ | .verify _ => .isTrue trivial

/-- The line stores under fitting paths only, and writes no file that is too long. -/
structure Issue.Fits (session : Session) (issue : Issue) (world : World) : Prop where
  paths : ∀ task, issue.task? world = some task → task.plan.Fits
  short : issue.Short session world

instance (session : Session) (issue : Issue) (world : World) :
    Decidable (issue.Fits session world) :=
  decidable_of_iff ((∀ task, issue.task? world = some task → task.plan.Fits) ∧
    issue.Short session world) ⟨fun h => ⟨h.1, h.2⟩, fun h => ⟨h.1, h.2⟩⟩

/-- Honesty outlasts a plan that stores under fitting paths. -/
theorem Archive.honest_outlasts {archive : Archive} {plan : Plan} (fits : plan.Fits) :
    plan.Outlasts archive fun d => ∃ contents, archive.Honest d contents where
  store := by
    rintro targets rfl target mem bytes host ⟨contents, honest⟩ short
    exact honest.write (fits target mem) bytes short
  delete := by
    rintro path - host ⟨contents, honest⟩ short
    exact honest.delete path short

theorem Issue.Fits.honest {session : Session} {issue : Issue} {world : World}
    (h : issue.Fits session world)
    (honest : ∃ contents, session.archive.Honest world.host.directory contents) :
    ∃ contents, session.archive.Honest (issue.run session world).2.host.directory contents :=
  Issue.run_outlasts
    (fun task asked => Archive.honest_outlasts (h.paths task asked)) h.short
    (fun _ _ _ logged ⟨contents, honest⟩ => ⟨contents, honest.logged logged⟩) honest

end ObjectVault
