import ObjectVault.Proofs.Honesty

namespace ObjectVault
open ObjectVault.Command ObjectVault.Container

namespace Archive
variable {archive : Archive} {path member : String} {bytes plaintext : Bytes} {d d' : Directory}
  {host host' : Host} {contents : Contents}

/-- The member has these bytes in whatever can be read of the archive. -/
def Stands (archive : Archive) (path : String) (bytes : Bytes) (d : Directory) : Prop :=
  ∃ contents, archive.Owns d contents ∧
    contents.plaintext (contents.access archive.password) path = .ok bytes

theorem Stands.read (h : archive.Stands path bytes d) (found : archive.contents d = .ok contents) :
    archive.read path d = .ok bytes := by
  obtain ⟨own, owns, plain⟩ := h
  obtain rfl := owns.contents_eq found
  rw [read_eq found, plain]

theorem Stands.logged {log : Option String} (h : archive.Stands path bytes d)
    (logged : Logged log d d') : archive.Stands path bytes d' := by
  obtain ⟨contents, owns, plain⟩ := h
  exact ⟨contents, owns.logged logged, plain⟩

/-- Contents that a member can be read of are safe where they are not written first under their own
name. -/
theorem safe_of_plaintext (apart : ¬ OwnTemporary archive.path) {access : Access}
    (plain : contents.plaintext access path = .ok bytes) (new : Contents) :
    archive.Safe contents new := by
  refine .inr ⟨apart, ?_⟩
  rintro rfl
  cases plain

theorem Stands.write_error {e : ArchiveError} (apart : ¬ OwnTemporary archive.path)
    (h : archive.Stands path bytes host.directory)
    (failed : archive.write member plaintext host = (.error e, host')) :
    archive.Stands path bytes host'.directory := by
  obtain ⟨contents, owns, plain⟩ := h
  exact ⟨contents, owns.write_error (fun after _ => safe_of_plaintext apart plain after) failed,
    plain⟩

theorem Stands.delete_error {e : ArchiveError} (apart : ¬ OwnTemporary archive.path)
    (h : archive.Stands path bytes host.directory)
    (failed : archive.delete member host = (.error e, host')) :
    archive.Stands path bytes host'.directory := by
  obtain ⟨contents, owns, plain⟩ := h
  exact ⟨contents, owns.delete_error (safe_of_plaintext apart plain _) failed, plain⟩

theorem Stands.write_other (apart : ¬ OwnTemporary archive.path) (other : path ≠ member)
    (h : archive.Stands path bytes host.directory)
    (short : archive.Short (archive.write member plaintext host).2.directory) :
    archive.Stands path bytes (archive.write member plaintext host).2.directory := by
  obtain ⟨contents, owns, plain⟩ := h
  rcases owns.write (fun after _ => safe_of_plaintext apart plain after) short rfl with same |
    ⟨after, change, owns⟩
  · exact ⟨contents, same, plain⟩
  · refine ⟨after, owns, ?_⟩
    rw [change.plaintext_other other (by rw [plain]; exact nofun), plain]

theorem Stands.delete_other (apart : ¬ OwnTemporary archive.path) (other : path ≠ member)
    (h : archive.Stands path bytes host.directory)
    (short : archive.Short (archive.delete member host).2.directory) :
    archive.Stands path bytes (archive.delete member host).2.directory := by
  obtain ⟨contents, owns, plain⟩ := h
  rcases owns.delete (safe_of_plaintext apart plain _) short rfl with same | owns
  · exact ⟨contents, same, plain⟩
  · exact ⟨_, owns, (Contents.plaintext_erase other).trans plain⟩

end Archive

namespace Command.Plan
variable {archive : Archive} {plan : Plan} {arguments : Arguments} {world after : World}
  {path : String} {bytes : Bytes} {records : List ResultRecord}

/-- The plan does not come to storing something under the path, nor to deleting it. -/
def Spares (archive : Archive) (arguments : Arguments) (world : World) (path : String) :
    Plan → Prop
  | store targets => ∀ front, front <+: targets →
      ((store front).run archive arguments world).1.isOk = true → path ∉ front.map Prod.fst
  | delete member => ((delete member).run archive arguments world).1.isOk = true → path ≠ member
  | load _ | view _ _ | verify _ => True

/-- A member stands when others are stored. -/
theorem outlasts_of_others (apart : ¬ Archive.OwnTemporary archive.path)
    {targets : List (String × String)} (others : path ∉ targets.map Prod.fst) :
    (store targets).Outlasts archive (archive.Stands path bytes) where
  store := by
    rintro _ ⟨⟩ target mem plaintext host stands short
    refine stands.write_other apart ?_ short
    rintro rfl
    exact others (List.mem_map_of_mem mem)
  delete := nofun

/-- What a plan spares stands, however the plan ends. -/
theorem Spares.stands (spares : plan.Spares archive arguments world path)
    (apart : ¬ Archive.OwnTemporary archive.path) (short : plan.Short archive arguments world)
    (h : archive.Stands path bytes world.host.directory) :
    archive.Stands path bytes (plan.run archive arguments world).2.host.directory := by
  cases plan with
  | store targets =>
    cases ran : (store targets).run archive arguments world with
    | mk result after =>
      cases result with
      | ok records =>
        have others := spares targets (List.prefix_refl targets) (by rw [ran]; rfl)
        have kept := run_outlasts (outlasts_of_others apart others) short h
        rwa [ran] at kept
      | error e =>
        -- Those in front of the one that fails are stored, and the path is none of theirs.
        rcases (Form.looks_converter arguments true).bind_eq_error ran with looked |
          ⟨exporter, start, found, -, failed⟩
        · exact looked.host ▸ h
        obtain ⟨front, target, rest, records, between, rfl, done, -, -, last⟩ :=
          Form.storeEach_error_at failed
        have part : front <+: front ++ target :: rest := List.prefix_append _ _
        have stored : (store front).run archive arguments world = (.ok records, between) := by
          rw [store_run, Effect.bind_of_ok found, done]
        have others := spares front part (by rw [stored]; rfl)
        have kept := run_outlasts (outlasts_of_others apart others)
          (fun front' part' => short front' (part'.trans part)) h
        rw [stored] at kept
        rcases last with same | ⟨plaintext, e', failed'⟩
        · exact same ▸ kept
        · exact kept.write_error apart failed'
  | load targets => exact (load_host archive arguments targets world).symm ▸ h
  | view name folder => exact h
  | delete member =>
    rcases delete_host archive arguments member world with same | ⟨deleted, ends⟩
    · exact same.symm ▸ h
    · rw [Short, deleted] at short
      rw [Spares, ends] at spares
      rw [deleted]
      cases ran : archive.delete member world.host with
      | mk result host =>
        cases result with
        | ok entry =>
          have kept := h.delete_other apart (spares (by rw [ran]; rfl)) short
          rwa [ran] at kept
        | error e => exact h.delete_error apart ran
  | verify path => exact (Form.looks_compareHash archive arguments path world).host.symm ▸ h

end Command.Plan
end ObjectVault
