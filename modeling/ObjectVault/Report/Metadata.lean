import ObjectVault.Checksum.Basic
import ObjectVault.Json.Basic
import ObjectVault.Json.Reader
import ObjectVault.Json.Writer

namespace ObjectVault

namespace Checksums

def toJson (sums : Checksums) : Json :=
  .object (Json.present "crc32" .string sums.crc32 ++ Json.present "sha256" .string sums.sha256)

def ofJson (j : Json) : Option Checksums := do
  let [crc32, sha256] ← j.record ["crc32", "sha256"] | none
  return ⟨← Json.optional Json.string? crc32, ← Json.optional Json.string? sha256⟩

end Checksums

namespace ResultRecord

def toJson (record : ResultRecord) : Json :=
  .object ([("subject", .string record.subject)]
    ++ Json.present "old_file" Checksums.toJson record.old
    ++ Json.present "new_file" Checksums.toJson record.new)

def ofJson (j : Json) : Option ResultRecord := do
  let [some subject, old, new] ← j.record ["subject", "old_file", "new_file"] | none
  return ⟨← subject.string?, ← Json.optional Checksums.ofJson old,
    ← Json.optional Checksums.ofJson new⟩

end ResultRecord

/-- Everything that is recorded about a command. -/
structure Metadata where
  action : String
  result : List ResultRecord
  started : Option String
  finished : Option String
  shownTime : Option String
  command : Option String
deriving DecidableEq

namespace Metadata

def toJson (m : Metadata) : Json :=
  .object ([("action", .string m.action), ("result", .array (m.result.map ResultRecord.toJson))]
    ++ Json.present "started" .string m.started
    ++ Json.present "finished" .string m.finished
    ++ Json.present "finished_human_readable" .string m.shownTime
    ++ Json.present "command" .string m.command)

def ofJson (j : Json) : Option Metadata := do
  let [some action, some result, started, finished, shownTime, command] ←
    j.record ["action", "result", "started", "finished", "finished_human_readable", "command"]
    | none
  let text := Json.optional Json.string?
  return ⟨← action.string?, ← (← result.array?).mapM ResultRecord.ofJson, ← text started,
    ← text finished, ← text shownTime, ← text command⟩

def ofText (text : String) : Option Metadata :=
  (Json.ofText text).bind ofJson

end Metadata

/-- What a finished command reports: a stamp to show and a record to keep. -/
structure Report where
  stamp : Option String
  record : Option Metadata

end ObjectVault
