import ObjectVault.Proofs.Splitting
import ObjectVault.Proofs.Storing
import ObjectVault.Shell.Script

namespace ObjectVault
open ObjectVault.Text

namespace Shell
variable {shell there : Shell} {line first : String} {lines before after : List String}

/-- The lines of an input before they are read as text. -/
def pieces (input : Bytes) : List Bytes :=
  let parts := input.splitOn 10
  if parts.getLast? = some [] then parts.dropLast else parts

/-- The texts of pieces, up to the first that is none. -/
def texts (pieces : List Bytes) : List String :=
  (pieces.map decodeUtf8).takeWhile (·.toBool) |>.filterMap (·.toOption)

end Shell
end ObjectVault
