import ObjectVault.Container.Header
import ObjectVault.Decimal.Integer

namespace ObjectVault.Container
open ObjectVault.Text

/-- What entries say of the entry that follows them: a long name, a long link, and records. -/
structure Extension where
  longName : Option Bytes
  longLink : Option Bytes
  records : Option Bytes

namespace Extension

def none : Extension := ⟨.none, .none, .none⟩

/-- A record of one line: its length with the line end, a blank, a key, an equals sign and a
value. -/
def recordOf (line : Bytes) : Option (Bytes × Bytes) :=
  let digits := line.takeWhile (· != 32)
  let rest := line.drop (digits.length + 1)
  let key := rest.takeWhile (· != 61)
  match decodeUtf8 digits with
  | .error _ => .none
  | .ok text =>
    if digits.length < line.length && key.length < rest.length &&
        (Decimal.readNat text.toList == some (line.length + 1)) then
      some (key, rest.drop (key.length + 1))
    else .none

/-- The lines up to the first empty one, each with its record if it is one. -/
def recordLines (records : Bytes) : List (Option (Bytes × Bytes)) :=
  ((records.splitOn 10).takeWhile (!·.isEmpty)).map recordOf

/-- The path of the first record that names one, whatever stands around it. -/
def path (records : Bytes) : Option Bytes :=
  ((recordLines records).filterMap id).lookup (encodeUtf8 "path")

/-- The size of the first record that gives one, if all records before it are sound. -/
def size (records : Bytes) : Option Nat :=
  let sound := ((recordLines records).takeWhile Option.isSome).filterMap id
  match sound.lookup (encodeUtf8 "size") with
  | .none => .none
  | some digits =>
    match decodeUtf8 digits with
    | .ok text => (Decimal.readUInt64 text.toList).map UInt64.toNat
    | .error _ => .none

end Extension
end ObjectVault.Container
