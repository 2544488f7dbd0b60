import ObjectVault.Archive.Access
import ObjectVault.Host

namespace ObjectVault

/-- A handle to an archive file. A handle with a password seals what it writes, with a key of so
many iterations if the archive has none yet. -/
structure Archive where
  path : String
  password : Option String
  iterations : UInt32

namespace Archive

def defaultIterations : UInt32 := 100000

def saltLength : Nat := 16

/-- What the file holds. A missing file is an empty archive. -/
def contents (archive : Archive) (d : Directory) : Except ArchiveError Contents :=
  if !d.has archive.path then .ok .empty
  else match d.read archive.path with
    | .ok bytes => Contents.ofBytes bytes
    | .error fault => .error (.container (.unreadableFile fault.message))

def isPresent (archive : Archive) (d : Directory) : Bool :=
  d.has archive.path

def manifest (archive : Archive) (d : Directory) : Except ArchiveError Manifest :=
  (archive.contents d).map (·.manifest)

def contains (archive : Archive) (member : String) (d : Directory) : Except ArchiveError Bool :=
  (archive.manifest d).map (·.members.contains member)

def entry (archive : Archive) (member : String) (d : Directory) :
    Except ArchiveError MemberEntry := do
  match (← archive.manifest d).members.get? member with
  | some entry => return entry
  | none => throw (.memberNotFound member)

/-- The path of a member below a folder, seen from there. -/
def below? (folder member : String) : Option String :=
  let lead := (folder.toList.reverse.dropWhile (· == '/')).reverse ++ ['/']
  if lead.isPrefixOf member.toList then some (.ofList (member.toList.drop lead.length)) else none

/-- The members in the order of their paths; below a folder, as they are seen from there. -/
def list (archive : Archive) (folder : String) (d : Directory) :
    Except ArchiveError (List String) := do
  let members := (← archive.manifest d).members.keys
  return if folder.isEmpty then members else members.filterMap (below? folder)

def read (archive : Archive) (member : String) (d : Directory) : Except ArchiveError Bytes := do
  let contents ← archive.contents d
  contents.plaintext (contents.access archive.password) member

def checkIntegrity (archive : Archive) (d : Directory) : Except ArchiveError Unit := do
  let contents ← archive.contents d
  contents.verify (contents.access archive.password)

/-- Makes the folder that the archive lies in. -/
def makeFolder (archive : Archive) : HostM ArchiveError Unit := do
  let parents := Directory.parentComponents archive.path
  let d := (← get).directory
  if !parents.isEmpty && !d.has (Directory.ofComponents parents.reverse) then
    let (d, made) := d.makeFolders parents
    modify fun host => { host with directory := d }
    match made with
    | .ok () => return
    | .error fault => throw (.file fault)

/-- The path of the file that is written first. -/
def temporaryPath (path : String) : String :=
  Directory.withExtension path "tmp"

/-- Replaces the file: the new one is written beside it and takes its path when it is complete. -/
def save (archive : Archive) (contents : Contents) : HostM ArchiveError Unit := do
  let temporary := temporaryPath archive.path
  archive.makeFolder
  HostM.change .file (·.write temporary [])
  match contents.bytes with
  | .error error =>
    HostM.change .file (·.remove temporary)
    throw error
  | .ok bytes =>
    HostM.change .file (·.write temporary bytes)
    HostM.change .file (·.rename temporary archive.path)

/-- The contents under a key, with a new salt if they had none. -/
def keyed (archive : Archive) (contents : Contents) : HostM ArchiveError Contents := do
  match contents.manifest.key with
  | some _ => return contents
  | none => return contents.withKeyHeader ⟨← HostM.draw saltLength, archive.iterations⟩

/-- The contents with a member put over an older one; sealed if the archive has a password, for
which `access` finds the key. -/
def revisedBy (archive : Archive) (access : Contents → Access) (member : String)
    (plaintext : Bytes) (contents : Contents) : HostM ArchiveError Contents := do
  let entry := MemberEntry.describe plaintext archive.password.isSome
  if archive.password.isSome then
    let contents ← archive.keyed contents
    let key ← (access contents).key member
    return contents.put member entry (key.sealPayload (← HostM.draw SealKey.nonceLength) plaintext)
  else
    return contents.put member entry plaintext

/-- Stores a member, over an older one. Nothing is written unless every member, the new one
included, can be read afterwards. -/
def writeBy (archive : Archive) (access : Contents → Access) (member : String)
    (plaintext : Bytes) : HostM ArchiveError MemberEntry := do
  let contents ← archive.revisedBy access member plaintext (← HostM.look archive.contents)
  contents.verify (access contents)
  archive.save contents
  return MemberEntry.describe plaintext archive.password.isSome

/-- Stores a member with a key that is derived from the password. -/
def write (archive : Archive) (member : String) (plaintext : Bytes) :
    HostM ArchiveError MemberEntry :=
  archive.writeBy (·.access archive.password) member plaintext

def delete (archive : Archive) (member : String) : HostM ArchiveError MemberEntry := do
  let contents ← HostM.look archive.contents
  match contents.manifest.members.get? member with
  | none => throw (.memberNotFound member)
  | some entry =>
    archive.save (contents.erase member)
    return entry

end Archive
end ObjectVault
