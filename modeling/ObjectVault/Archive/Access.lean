import ObjectVault.Archive.Contents
import ObjectVault.Cipher.Sealed

namespace ObjectVault
open ObjectVault.Text

/-- What a password gives for the sealed members of an archive. -/
inductive Access
  | unlocked (key : SealKey)
  | noPassword
  | noKeyHeader
  | noIterations

namespace Access

/-- The key that a password gives under a header. -/
def ofHeader (password : String) (header : KeyHeader) : Access :=
  if header.iterations = 0 then .noIterations
  else .unlocked (.ofBytes (deriveKey (encodeUtf8 password) header.salt header.iterations.toNat))

def ofPassword (password : Option String) (header : Option KeyHeader) : Access :=
  match password, header with
  | none, _ => .noPassword
  | some _, none => .noKeyHeader
  | some password, some header => .ofHeader password header

def key (access : Access) (member : String) : Except ArchiveError SealKey :=
  match access with
  | .unlocked key => .ok key
  | .noPassword => .error (.passwordRequired member)
  | .noKeyHeader => .error (.invalid .noKeyHeader)
  | .noIterations => .error (.invalid .noIterations)

def openMember (access : Access) (member : String) (payload : Bytes) :
    Except ArchiveError Bytes := do
  match (← access.key member).openPayload? payload with
  | some plaintext => return plaintext
  | none => throw (.decryption member)

end Access

namespace Contents

def access (contents : Contents) (password : Option String) : Access :=
  .ofPassword password contents.manifest.key

/-- The plaintext of a member, which has to have the checksum that the manifest records. -/
def plaintext (contents : Contents) (access : Access) (member : String) :
    Except ArchiveError Bytes :=
  match contents.manifest.members.get? member, contents.payloads.get? member with
  | some entry, some payload => do
    let plaintext ← if entry.encrypted then access.openMember member payload else .ok payload
    let actual := HashMethod.crc32.digest plaintext
    if actual ≠ entry.crc32 then throw (.checksumMismatch member entry.crc32 actual)
    return plaintext
  | _, _ => .error (.memberNotFound member)

def verify (contents : Contents) (access : Access) : Except ArchiveError Unit :=
  contents.manifest.members.keys.forM fun member => do
    let _ ← contents.plaintext access member

def put (contents : Contents) (member : String) (entry : MemberEntry) (payload : Bytes) :
    Contents :=
  { manifest := { contents.manifest with members := contents.manifest.members.insert member entry }
    payloads := contents.payloads.insert member payload }

def erase (contents : Contents) (member : String) : Contents :=
  { manifest := { contents.manifest with members := contents.manifest.members.erase member }
    payloads := contents.payloads.erase member }

/-- The contents with a key header, which is made of the salt if there was none. -/
def withKeyHeader (contents : Contents) (header : KeyHeader) : Contents :=
  { contents with
    manifest := { contents.manifest with key := some (contents.manifest.key.getD header) } }

end Contents
end ObjectVault
