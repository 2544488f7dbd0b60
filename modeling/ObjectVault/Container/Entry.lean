import ObjectVault.Container.Header

namespace ObjectVault.Container
open ObjectVault.Text

/-- A named content. -/
structure Entry where
  name : String
  data : Bytes

/-- The parts of a path, without empty ones and those that stay in their folder. -/
def pathParts (path : String) : List (List Char) :=
  (path.toList.splitOn '/').filter fun part => part ≠ [] && part ≠ ['.']

/-- The path as a header holds it. A slash at its end stays. -/
def plainPath (path : String) : String :=
  let joined := "/".toList.intercalate (pathParts path)
  .ofList (if path.toList.getLast? = some '/' then joined ++ ['/'] else joined)

/-- The name of an entry for the path, unless it climbs or does not fit. -/
def nameBytes (path : String) : Except NameFault Bytes :=
  let name := encodeUtf8 (plainPath path)
  if ['.', '.'] ∈ pathParts path then .error .climbs
  else if Field.name.width < name.length then .error .tooLong
  else if 0 ∈ name then .error .zeroByte
  else .ok name

/-- The header and the content, filled up to whole blocks. -/
def Entry.bytes (entry : Entry) : Except NameFault Bytes := do
  let name ← nameBytes entry.name
  return Header.block name entry.data.length ++
    Header.padded (roundedUp entry.data.length) entry.data

def entriesBytes : List Entry → Except (String × NameFault) Bytes
  | [] => .ok []
  | entry :: rest => do
    let first ← entry.bytes.mapError fun fault => (entry.name, fault)
    return first ++ (← entriesBytes rest)

/-- A stream of entries ends with two blocks of zeros. -/
def stream (entries : List Entry) : Except (String × NameFault) Bytes := do
  return (← entriesBytes entries) ++ List.replicate (2 * blockSize) 0

end ObjectVault.Container
