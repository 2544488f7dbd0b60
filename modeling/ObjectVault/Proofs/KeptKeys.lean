import ObjectVault.Archive.Basic
import ObjectVault.Proofs.Effects

namespace ObjectVault

/-- A handle that keeps the key it derived last, with the header that this key belongs to. -/
structure Handle where
  archive : Archive
  kept : Option (KeyHeader × SealKey)

namespace Handle

/-- A handle as it is opened. -/
def opened (archive : Archive) : Handle :=
  ⟨archive, none⟩

/-- What the handle finds for sealed members: the kept key if it belongs to their header, and else
what its password gives. -/
def access (handle : Handle) (contents : Contents) : Access :=
  match handle.archive.password, contents.manifest.key, handle.kept with
  | some _, some header, some (old, key) =>
    if old = header then .unlocked key else contents.access handle.archive.password
  | _, _, _ => contents.access handle.archive.password

/-- The handle after it found a key for some contents. -/
def keeping (handle : Handle) (contents : Contents) : Handle :=
  match handle.access contents, contents.manifest.key with
  | .unlocked key, some header => { handle with kept := some (header, key) }
  | _, _ => handle

def write (handle : Handle) (member : String) (plaintext : Bytes) :
    HostM ArchiveError MemberEntry :=
  handle.archive.writeBy handle.access member plaintext

/-- The handle after it was to store a member, which takes a key if it has a password and the
archive can be read. -/
def afterWrite (handle : Handle) (host : Host) : Handle :=
  if handle.archive.password.isSome then
    match (HostM.look handle.archive.contents >>= handle.archive.keyed) host with
    | (.ok keyed, _) => handle.keeping keyed
    | (.error _, _) => handle
  else handle

def read (handle : Handle) (member : String) (d : Directory) : Except ArchiveError Bytes := do
  let contents ← handle.archive.contents d
  contents.plaintext (handle.access contents) member

def checkIntegrity (handle : Handle) (d : Directory) : Except ArchiveError Unit := do
  let contents ← handle.archive.contents d
  contents.verify (handle.access contents)

/-- The handle after it was to read a member of some contents, which takes a key if the member is
sealed. -/
def afterMember (handle : Handle) (contents : Contents) (member : String) : Handle :=
  match contents.manifest.members.get? member, contents.payloads.get? member with
  | some entry, some _ => if entry.encrypted then handle.keeping contents else handle
  | _, _ => handle

def afterRead (handle : Handle) (member : String) (d : Directory) : Handle :=
  match handle.archive.contents d with
  | .ok contents => handle.afterMember contents member
  | .error _ => handle

/-- The handle after it was to read members up to the first that it cannot read. -/
def afterMembers (contents : Contents) (handle : Handle) : List String → Handle
  | [] => handle
  | member :: members =>
    match contents.plaintext (handle.access contents) member with
    | .ok _ => afterMembers contents (handle.afterMember contents member) members
    | .error _ => handle.afterMember contents member

def afterCheck (handle : Handle) (d : Directory) : Handle :=
  match handle.archive.contents d with
  | .ok contents => handle.afterMembers contents contents.manifest.members.keys
  | .error _ => handle

/-- The kept key is the one that the password gives. -/
def Sound (handle : Handle) : Prop :=
  ∀ password header key, handle.archive.password = some password →
    handle.kept = some (header, key) → Access.ofHeader password header = .unlocked key

theorem sound_opened (archive : Archive) : (opened archive).Sound := by
  intro password header key _ kept
  cases kept

variable {handle : Handle}

/-- A kept key gives what its derivation would give. -/
theorem Sound.access_eq (h : handle.Sound) (contents : Contents) :
    handle.access contents = contents.access handle.archive.password := by
  rw [Handle.access]
  split
  · next password header old key locked found kept =>
    split
    · next same =>
      subst same
      rw [Contents.access, locked, found, Access.ofPassword, h password old key locked kept]
    · rfl
  · rfl

/-- The key that a header gives is found, whether it is derived or was kept. -/
theorem Sound.access_of_header (h : handle.Sound) {contents : Contents} {password : String}
    {header : KeyHeader} (locked : handle.archive.password = some password)
    (found : contents.manifest.key = some header) :
    handle.access contents = Access.ofHeader password header := by
  rw [h.access_eq, Contents.access, locked, found]
  rfl

theorem Sound.write_eq (h : handle.Sound) (member : String) (plaintext : Bytes) :
    handle.write member plaintext = handle.archive.write member plaintext := by
  have same : handle.access = (·.access handle.archive.password) := funext h.access_eq
  rw [Handle.write, Archive.write, same]

theorem Sound.read_eq (h : handle.Sound) (member : String) (d : Directory) :
    handle.read member d = handle.archive.read member d := by
  simp only [Handle.read, Archive.read, h.access_eq]

theorem Sound.checkIntegrity_eq (h : handle.Sound) (d : Directory) :
    handle.checkIntegrity d = handle.archive.checkIntegrity d := by
  simp only [Handle.checkIntegrity, Archive.checkIntegrity, h.access_eq]

/-- The handles that a handle may have become: for the same archive, with right keys. -/
structure Follows (handle later : Handle) : Prop where
  archive : later.archive = handle.archive
  sound : handle.Sound → later.Sound

theorem Follows.refl (handle : Handle) : handle.Follows handle :=
  ⟨rfl, id⟩

theorem Follows.trans {first second third : Handle} (h : first.Follows second)
    (h' : second.Follows third) : first.Follows third :=
  ⟨h'.archive.trans h.archive, fun sound => h'.sound (h.sound sound)⟩

theorem follows_keeping (handle : Handle) (contents : Contents) :
    handle.Follows (handle.keeping contents) := by
  rw [keeping]
  split
  · next key header found keyed =>
    refine ⟨rfl, fun sound password header' key' locked kept => ?_⟩
    cases kept
    rw [sound.access_eq, Contents.access, keyed, locked] at found
    exact found
  · exact .refl handle

theorem follows_afterWrite (handle : Handle) (host : Host) :
    handle.Follows (handle.afterWrite host) := by
  rw [afterWrite]
  split
  · split
    · exact follows_keeping handle _
    · exact .refl handle
  · exact .refl handle

theorem follows_afterMember (handle : Handle) (contents : Contents) (member : String) :
    handle.Follows (handle.afterMember contents member) := by
  rw [afterMember]
  split
  · split
    · exact follows_keeping handle contents
    · exact .refl handle
  · exact .refl handle

theorem follows_afterRead (handle : Handle) (member : String) (d : Directory) :
    handle.Follows (handle.afterRead member d) := by
  rw [afterRead]
  split
  · exact follows_afterMember handle _ member
  · exact .refl handle

theorem follows_afterMembers (contents : Contents) (handle : Handle) (members : List String) :
    handle.Follows (afterMembers contents handle members) := by
  induction members generalizing handle with
  | nil => exact .refl handle
  | cons member members ih =>
    have first := follows_afterMember handle contents member
    rw [afterMembers]
    split
    · exact first.trans (ih _)
    · exact first

theorem follows_afterCheck (handle : Handle) (d : Directory) :
    handle.Follows (handle.afterCheck d) := by
  rw [afterCheck]
  split
  · exact follows_afterMembers _ handle _
  · exact .refl handle

end Handle
end ObjectVault
